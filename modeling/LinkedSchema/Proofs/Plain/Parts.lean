import LinkedSchema.Proofs.Plain.Node
import LinkedSchema.Proofs.Plain.Selects

namespace LinkedSchema

namespace Value

theorem weight_pos (value : Value) : 0 < value.weight := by
  cases value <;> simp [weight]

theorem weight_lt_of_mem {items : List Value} {item : Value} (h : item ∈ items) :
    item.weight < (list items).weight := by
  suffices item.weight ≤ weightItems items by
    rw [weight]
    omega
  induction items with
  | nil => simp at h
  | cons first rest ih =>
    rw [weightItems]
    rcases List.mem_cons.mp h with rfl | h
    · omega
    · have := ih h
      omega

theorem weight_le_weightEntries {bound : Option String} {entries : SortedMap Value bound}
    {entry : String × Value} (h : entry ∈ entries.toList) :
    entry.2.weight ≤ weightEntries entries := by
  induction entries with
  | nil => simp [SortedMap.toList] at h
  | cons key value above rest ih =>
    rw [weightEntries]
    rcases List.mem_cons.mp h with rfl | h
    · exact Nat.le_add_right _ _
    · have := ih h
      omega

theorem weight_lt_of_mem_toList {entries : SortedMap Value none} {entry : String × Value}
    (h : entry ∈ entries.toList) : entry.2.weight < (map entries).weight := by
  have := weight_le_weightEntries h
  rw [weight]
  omega

theorem weightEntries_lower {bound : Option String} {low : String}
    (entries : SortedMap Value (some low)) (above : Above bound low) :
    weightEntries (entries.lower above) = weightEntries entries := by
  cases entries <;> rfl

theorem weightEntries_erase {bound : Option String} {entries : SortedMap Value bound} {key : String}
    {value : Value} (h : entries.get? key = some value) :
    weightEntries (entries.erase key) + value.weight = weightEntries entries := by
  induction entries with
  | nil => cases h
  | cons first found above rest ih =>
    simp only [SortedMap.get?] at h
    simp only [SortedMap.erase]
    split at h
    · rename_i hk
      cases h
      rw [if_pos hk, weightEntries_lower, weightEntries]
      omega
    · rename_i hk
      rw [if_neg hk, weightEntries, weightEntries]
      have := ih h
      omega

theorem weight_erase_lt {entries : SortedMap Value none} {key : String} {value : Value}
    (h : entries.get? key = some value) :
    (map (entries.erase key)).weight < (map entries).weight := by
  have := weightEntries_erase h
  have := value.weight_pos
  rw [weight, weight]
  omega

end Value

namespace Plain

variable {rel : {α : Type} → Except Stop α → Except Stop α → Prop} {f g : Value → Outcome}
  {value : Value}

theorem rel_nullable (hrel : Congruence rel) {allowed : Bool} (h : rel (f value) (g value)) :
    rel (nullable allowed f value) (nullable allowed g value) := by
  unfold nullable
  split
  · exact hrel.refl _
  · exact h

/-- The conversions are related at every part of a value. -/
def RelBelow (rel : {α : Type} → Except Stop α → Except Stop α → Prop) (value : Value)
    (f g : Value → Outcome) : Prop :=
  ∀ part : Value, part.weight < value.weight → rel (f part) (g part)

theorem RelBelow.nullable (hrel : Congruence rel) {allowed : Bool} (h : RelBelow rel value f g) :
    RelBelow rel value (Plain.nullable allowed f) (Plain.nullable allowed g) :=
  fun part hp => rel_nullable hrel (h part hp)

theorem rel_list (hrel : Congruence rel) (h : RelBelow rel value f g) :
    rel (list f value) (list g value) := by
  cases value with
  | list items =>
    exact hrel.bind (hrel.mapM fun item hi => h item (Value.weight_lt_of_mem hi)) fun _ =>
      hrel.refl _
  | _ => exact hrel.refl _

theorem rel_map (hrel : Congruence rel) (h : RelBelow rel value f g) :
    rel (map f value) (map g value) := by
  cases value with
  | map entries =>
    refine hrel.bind (hrel.mapM fun entry he => ?_) fun _ => hrel.refl _
    exact hrel.bind (h entry.2 (Value.weight_lt_of_mem_toList he)) fun _ => hrel.refl _
  | _ => exact hrel.refl _

theorem rel_readPairs (hrel : Congruence rel) (h : RelBelow rel value f g) :
    rel (readPairs f value) (readPairs g value) := by
  cases value with
  | list items =>
    refine hrel.bind (hrel.foldlM fun built pair hp => ?_) fun _ => hrel.refl _
    unfold readPair
    split
    · rename_i key part
      have hlt : part.weight < (Value.list items).weight :=
        Nat.lt_trans (Value.weight_lt_of_mem (by simp : part ∈ [.string key, part]))
          (Value.weight_lt_of_mem hp)
      split
      · exact hrel.refl _
      · exact hrel.bind (h part hlt) fun _ => hrel.refl _
    · exact hrel.refl _
  | _ => exact hrel.refl _

theorem rel_writePairs (hrel : Congruence rel) (h : RelBelow rel value f g) :
    rel (writePairs f value) (writePairs g value) := by
  cases value with
  | map entries =>
    refine hrel.bind (hrel.mapM fun entry he => ?_) fun _ => hrel.refl _
    exact hrel.bind (h entry.2 (Value.weight_lt_of_mem_toList he)) fun _ => hrel.refl _
  | _ => exact hrel.refl _

/-- The rules demand the same of their field, with related outcomes. -/
structure FieldRule.Related (rel : {α : Type} → Except Stop α → Except Stop α → Prop)
    (value : Value) (a b : FieldRule) : Prop where
  name : a.name = b.name
  key : a.key = b.key
  isOptional : a.isOptional = b.isOptional
  implicit : Option.Rel rel a.implicit b.implicit
  convert : RelBelow rel value a.convert b.convert

variable {rules others : List FieldRule}

theorem FieldRule.Related.isRequired {a b : FieldRule} (h : a.Related rel value b) :
    a.isRequired = b.isRequired := by
  unfold FieldRule.isRequired
  rw [h.isOptional]
  have hi := h.implicit
  generalize a.implicit = x, b.implicit = y at hi
  cases hi <;> rfl

theorem related_find? {name : FieldRule → String} (key : String)
    (h : List.Forall₂ (FieldRule.Related rel value) rules others)
    (hn : ∀ a b, FieldRule.Related rel value a b → name a = name b) :
    Option.Rel (FieldRule.Related rel value) (rules.find? (fun rule => name rule = key))
      (others.find? (fun rule => name rule = key)) := by
  induction h with
  | nil => exact .none
  | cons h _ ih =>
    rename_i a b _ _ _
    by_cases hk : name a = key
    · rw [List.find?_cons_of_pos (by simpa using hk),
        List.find?_cons_of_pos (by simpa [← hn a b h] using hk)]
      exact .some h
    · rw [List.find?_cons_of_neg (by simpa using hk),
        List.find?_cons_of_neg (by simpa [← hn a b h] using hk)]
      exact ih

theorem related_any_isRequired {name : FieldRule → String} {entries : SortedMap Value none}
    (h : List.Forall₂ (FieldRule.Related rel value) rules others)
    (hn : ∀ a b, FieldRule.Related rel value a b → name a = name b) :
    (rules.any fun rule => rule.isRequired && !entries.contains (name rule)) =
      others.any fun rule => rule.isRequired && !entries.contains (name rule) := by
  induction h with
  | nil => rfl
  | cons h _ ih => rw [List.any_cons, List.any_cons, ih, h.isRequired, hn _ _ h]

theorem related_absent {entries : SortedMap Value none}
    (h : List.Forall₂ (FieldRule.Related rel value) rules others) :
    List.Forall₂ (FieldRule.Related rel value)
      (rules.filter fun rule => !entries.contains rule.key)
      (others.filter fun rule => !entries.contains rule.key) := by
  induction h with
  | nil => exact .nil
  | cons h _ ih =>
    rw [List.filter_cons, List.filter_cons, h.key]
    split
    · exact .cons h ih
    · exact ih

theorem rel_filling (hrel : Congruence rel) {a b : FieldRule} (h : a.Related rel value b) :
    rel a.filling b.filling := by
  unfold FieldRule.filling
  rw [h.name]
  have hi := h.implicit
  generalize a.implicit = x, b.implicit = y at hi
  cases hi with
  | none => exact hrel.refl _
  | some h => exact hrel.bind h fun _ => hrel.refl _

theorem rel_isImplied (hrel : Congruence rel) {a b : FieldRule} (h : a.Related rel value b)
    (part : Value) : rel (a.isImplied part) (b.isImplied part) := by
  unfold FieldRule.isImplied
  have hi := h.implicit
  generalize a.implicit = x, b.implicit = y at hi
  cases hi with
  | none => exact hrel.refl _
  | some h => exact hrel.bind h fun _ => hrel.refl _

theorem rel_readStruct (hrel : Congruence rel)
    (h : List.Forall₂ (FieldRule.Related rel value) rules others) :
    rel (readStruct rules value) (readStruct others value) := by
  cases value with
  | map entries =>
    refine hrel.bind (hrel.mapM fun entry he => ?_) fun given => ?_
    · unfold readEntry
      have hf := related_find? entry.1 h fun _ _ h => h.key
      generalize rules.find? _ = x, others.find? _ = y at hf ⊢
      cases hf with
      | none => exact hrel.refl _
      | some h =>
        simp only [h.name]
        exact hrel.bind (h.convert entry.2 (Value.weight_lt_of_mem_toList he)) fun _ =>
          hrel.refl _
    · rw [related_any_isRequired h fun _ _ h => h.key]
      split
      · exact hrel.refl _
      · refine hrel.bind (hrel.mapM_forall₂ ?_) fun _ => hrel.refl _
        exact (related_absent h).imp fun _ _ h => rel_filling hrel h
  | _ => exact hrel.refl _

theorem rel_writeStruct (hrel : Congruence rel)
    (h : List.Forall₂ (FieldRule.Related rel value) rules others) :
    rel (writeStruct rules value) (writeStruct others value) := by
  cases value with
  | map entries =>
    refine hrel.bind (hrel.mapM fun entry he => ?_) fun written => ?_
    · unfold writeEntry
      have hf := related_find? entry.1 h fun _ _ h => h.name
      generalize rules.find? _ = x, others.find? _ = y at hf ⊢
      cases hf with
      | none => exact hrel.refl _
      | some h =>
        refine hrel.bind (rel_isImplied hrel h entry.2) fun implied => ?_
        split
        · exact hrel.refl _
        · simp only [h.key]
          exact hrel.bind (h.convert entry.2 (Value.weight_lt_of_mem_toList he)) fun _ =>
            hrel.refl _
    · rw [related_any_isRequired h fun _ _ h => h.name]
      exact hrel.refl _
  | _ => exact hrel.refl _

theorem rel_readTuple (hrel : Congruence rel)
    (h : List.Forall₂ (FieldRule.Related rel value) rules others) :
    rel (readTuple rules value) (readTuple others value) := by
  cases value with
  | list items =>
    simp only [readTuple, h.length_eq]
    split
    · exact hrel.refl _
    · refine hrel.bind (hrel.mapM_forall₂ ?_) fun _ => hrel.refl _
      have hw : ∀ item ∈ items, item.weight < (Value.list items).weight := fun _ =>
        Value.weight_lt_of_mem
      generalize Value.list items = whole at h hw
      clear * - hrel h hw
      induction h generalizing items with
      | nil => exact .nil
      | cons h _ ih =>
        cases items with
        | nil => exact .nil
        | cons item items =>
          refine .cons ?_ (ih items fun item hi => hw item (List.mem_cons_of_mem _ hi))
          simp only [readItem, h.name]
          exact hrel.bind (h.convert item (hw item (by simp))) fun _ => hrel.refl _
  | _ => exact hrel.refl _

theorem rel_writeTuple (hrel : Congruence rel)
    (h : List.Forall₂ (FieldRule.Related rel value) rules others) :
    rel (writeTuple rules value) (writeTuple others value) := by
  cases value with
  | map entries =>
    simp only [writeTuple, h.length_eq]
    split
    · exact hrel.refl _
    · refine hrel.bind (hrel.mapM_forall₂ (h.imp fun a b h => ?_)) fun _ => hrel.refl _
      unfold writeItem
      rw [h.name]
      cases he : entries.get? b.name with
      | none => exact hrel.refl _
      | some part =>
        exact h.convert part (Value.weight_lt_of_mem_toList (SortedMap.get?_eq_some_iff.mp he))
  | _ => exact hrel.refl _

theorem weight_untag? {name : String} {content : Value}
    (h : untag? value = some (name, content)) : content.weight < value.weight := by
  unfold untag? at h
  split at h
  · split at h
    · rename_i entries _ _ hl
      cases h
      have hm : (name, content) ∈ entries.toList := by simp [hl]
      exact Value.weight_lt_of_mem_toList hm
    · cases h
  · cases h

theorem rel_tag (hrel : Congruence rel) {name : String} (h : rel (f value) (g value)) :
    rel (tag name f value) (tag name g value) :=
  hrel.bind h fun _ => hrel.refl _

end Plain

theorem Strategy.weight_select? {strategy : Strategy} {value content : Value} {place : Nat}
    (h : strategy.select? value = some (place, content)) :
    content = value ∨ content.weight < value.weight := by
  cases selects_of_select? h with
  | kinded => exact .inl rfl
  | keyed hl hs =>
    rename_i table entries key
    have hm : (key, content) ∈ entries.toList := by simp [hl]
    exact .inr (Value.weight_lt_of_mem_toList hm)
  | envelope _ _ hc => exact .inr (Value.weight_lt_of_mem_toList (SortedMap.get?_eq_some_iff.mp hc))
  | inlined ht => exact .inr (Value.weight_erase_lt ht)
  | stringPrefix hm ha =>
    rename_i entry s rest
    cases hb : entry.1.toList with
    | nil =>
      rw [hb, List.nil_append] at ha
      exact .inl (by rw [← ha, String.ofList_toList])
    | cons _ _ =>
      have hl := congrArg List.length ha
      simp only [hb, List.length_append, List.length_cons, String.length_toList] at hl
      refine .inr ?_
      simp only [Value.weight, String.length_ofList]
      omega
  | bytesPrefix hm ha =>
    rename_i entry bytes rest
    cases hb : entry.1 with
    | nil =>
      rw [hb, List.nil_append] at ha
      exact .inl (by rw [← ha])
    | cons _ _ =>
      rw [hb] at ha
      refine .inr ?_
      simp only [Value.weight, ha, List.length_append, List.length_cons]
      omega

namespace Node

/-- The slot of the member to which a union leaves the whole of a representation. -/
def passesOn? (node : Node) (direction : Direction) (value : Value) : Option Slot :=
  match node, direction with
  | union members strategy, .toTyped =>
    match strategy.select? value with
    | some (place, content) => if content = value then members[place]?.map Member.slot else none
    | none => none
  | _, _ => none

/-- A type may convert a part of a value by a slot. -/
structure Calls (node : Node) (direction : Direction) (value : Value) (slot : Slot)
    (part : Value) : Prop where
  mem : slot ∈ node.slots
  part : part.weight < value.weight ∨ node.passesOn? direction value = some slot ∧ part = value

variable {rel : {α : Type} → Except Stop α → Except Stop α → Prop} {p q : PartOutcome}
  {value : Value}

theorem related_rule (hrel : Congruence rel) (fields : List Field)
    (h : ∀ field ∈ fields, Plain.RelBelow rel value (p field.type.slot) (q field.type.slot)) :
    List.Forall₂ (Plain.FieldRule.Related rel value) (fields.map (Field.rule p))
      (fields.map (Field.rule q)) := by
  rw [List.forall₂_map_left_iff, List.forall₂_map_right_iff, List.forall₂_same]
  intro field hm
  refine ⟨rfl, rfl, rfl, ?_, (h field hm).nullable hrel⟩
  show Option.Rel _ (field.implicit.map Except.ok) (field.implicit.map Except.ok)
  cases field.implicit with
  | none => exact .none
  | some value => exact .some (hrel.refl _)

section Unions

variable {members : List Member} {strategy : Strategy}

theorem slot_mem_slots {place : Nat} {member : Member} (hm : members[place]? = some member) :
    member.slot ∈ (union members strategy).slots :=
  List.mem_map.mpr ⟨member, List.mem_of_getElem? hm, rfl⟩

theorem rel_readPlainUnion (hrel : Congruence rel)
    (h : ∀ slot part, (union members strategy).Calls .toTyped value slot part →
      rel (p slot part) (q slot part)) :
    rel (readPlainUnion members strategy p value) (readPlainUnion members strategy q value) := by
  simp only [readPlainUnion]
  cases hs : strategy.select? value with
  | none => exact hrel.refl _
  | some selected =>
    obtain ⟨place, content⟩ := selected
    simp only []
    cases hm : members[place]? with
    | none => exact hrel.refl _
    | some member =>
      refine Plain.rel_tag hrel (h _ _ ⟨slot_mem_slots hm, ?_⟩)
      rcases Strategy.weight_select? hs with rfl | hw
      · exact .inr ⟨by simp [passesOn?, hs, hm], rfl⟩
      · exact .inl hw

theorem rel_writePlainUnion (hrel : Congruence rel)
    (h : ∀ slot part, (union members strategy).Calls .toRepresentation value slot part →
      rel (p slot part) (q slot part)) :
    rel (writePlainUnion members strategy p value) (writePlainUnion members strategy q value) := by
  simp only [writePlainUnion]
  cases hu : Plain.untag? value with
  | none => exact hrel.refl _
  | some entry =>
    obtain ⟨name, content⟩ := entry
    simp only []
    cases members.findIdx? fun member => member.name = name with
    | none => exact hrel.refl _
    | some place =>
      simp only []
      cases hm : members[place]? with
      | none => exact hrel.refl _
      | some member =>
        refine hrel.bind (h _ _ ⟨slot_mem_slots hm, .inl ?_⟩) fun _ => hrel.refl _
        exact Plain.weight_untag? hu

end Unions

/-- Related outcomes of the parts lead to related outcomes. -/
theorem rel_plain (hrel : Congruence rel) {node : Node} {direction : Direction}
    (h : ∀ slot part, node.Calls direction value slot part → rel (p slot part) (q slot part)) :
    rel (node.plain direction p value) (node.plain direction q value) := by
  have hbelow : ∀ slot ∈ node.slots, Plain.RelBelow rel value (p slot) (q slot) :=
    fun slot hm part hp => h slot part ⟨hm, .inl hp⟩
  cases node with
  | kind member => exact hrel.refl _
  | list items => exact Plain.rel_list hrel ((hbelow _ (by simp [slots])).nullable hrel)
  | map values => exact Plain.rel_map hrel ((hbelow _ (by simp [slots])).nullable hrel)
  | pairs values =>
    cases direction with
    | toTyped => exact Plain.rel_readPairs hrel ((hbelow _ (by simp [slots])).nullable hrel)
    | toRepresentation =>
      exact Plain.rel_writePairs hrel ((hbelow _ (by simp [slots])).nullable hrel)
  | structMap layout =>
    have hrules := related_rule hrel layout.fields.values fun field hm =>
      hbelow field.type.slot (List.mem_map.mpr ⟨field, hm, rfl⟩)
    cases direction with
    | toTyped => exact Plain.rel_readStruct hrel hrules
    | toRepresentation => exact Plain.rel_writeStruct hrel hrules
  | structTuple fields =>
    have hrules := related_rule hrel fields fun field hm =>
      hbelow field.type.slot (List.mem_map.mpr ⟨field, hm, rfl⟩)
    cases direction with
    | toTyped => exact Plain.rel_readTuple hrel hrules
    | toRepresentation => exact Plain.rel_writeTuple hrel hrules
  | union members strategy =>
    cases direction with
    | toTyped => exact rel_readPlainUnion hrel h
    | toRepresentation => exact rel_writePlainUnion hrel h
  | enum members => cases direction <;> exact hrel.refl _
  | custom name transform => exact hrel.refl _

theorem plain_of_passesOn? {node : Node} {direction : Direction} {slot : Slot} {stop : Stop}
    (h : node.passesOn? direction value = some slot) (hp : p slot value = .error stop) :
    node.plain direction p value = .error stop := by
  unfold passesOn? at h
  split at h
  · split at h
    · rename_i place content hs
      split at h
      · rename_i he
        subst he
        obtain ⟨member, hm, rfl⟩ := Option.map_eq_some_iff.mp h
        simp only [plain, readPlainUnion, hs, hm, Plain.tag, hp]
        rfl
      · cases h
    · cases h
  · cases h

end Node

end LinkedSchema
