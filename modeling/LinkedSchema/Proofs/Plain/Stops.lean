import LinkedSchema.Proofs.Plain.Parts

namespace LinkedSchema

/-- The outcome is a result, or a stop that is allowed. -/
def StopsWithin (allowed : Stop → Prop) {α : Type} (x : Except Stop α) : Prop :=
  ∀ stop, x = .error stop → allowed stop

namespace StopsWithin

variable {allowed : Stop → Prop} {α β : Type}

theorem ok (a : α) : StopsWithin allowed (Except.ok a) := nofun

theorem error {stop : Stop} (h : allowed stop) :
    StopsWithin allowed (Except.error stop : Except Stop α) := by
  intro other he
  cases he
  exact h

theorem bind {x : Except Stop α} {f : α → Except Stop β} (h : StopsWithin allowed x)
    (hf : ∀ a, StopsWithin allowed (f a)) : StopsWithin allowed (x >>= f) := by
  cases x with
  | error stop => exact error (h stop rfl)
  | ok a => exact hf a

theorem mapM {f : α → Except Stop β} {as : List α} (h : ∀ a ∈ as, StopsWithin allowed (f a)) :
    StopsWithin allowed (as.mapM f) := by
  induction as with
  | nil => exact ok []
  | cons a as ih =>
    rw [List.mapM_cons]
    refine (h a (by simp)).bind fun b => ?_
    exact (ih fun a ha => h a (List.mem_cons_of_mem _ ha)).bind fun bs => ok _

theorem foldlM {f : β → α → Except Stop β} {as : List α} {b : β}
    (h : ∀ b, ∀ a ∈ as, StopsWithin allowed (f b a)) : StopsWithin allowed (as.foldlM f b) := by
  induction as generalizing b with
  | nil => exact ok b
  | cons a as ih =>
    rw [List.foldlM_cons]
    exact (h b a (by simp)).bind fun b => ih fun b a ha => h b a (List.mem_cons_of_mem _ ha)

end StopsWithin

namespace Plain

variable {allowed : Stop → Prop} {value : Value} {convert : Value → Outcome}

/-- The conversion of every part of a value is a result, or a stop that is allowed. -/
def StopsBelow (allowed : Stop → Prop) (value : Value) (convert : Value → Outcome) : Prop :=
  ∀ part : Value, part.weight < value.weight → StopsWithin allowed (convert part)

theorem StopsBelow.nullable (h : StopsBelow allowed value convert) (isAllowed : Bool) :
    StopsBelow allowed value (Plain.nullable isAllowed convert) := by
  intro part hp
  unfold Plain.nullable
  split
  · exact .ok _
  · exact h part hp

/-- A rule stops for no other reasons. -/
structure FieldRule.StopsBelow (allowed : Stop → Prop) (value : Value) (rule : FieldRule) : Prop
    where
  implicit : ∀ outcome, rule.implicit = some outcome → StopsWithin allowed outcome
  convert : Plain.StopsBelow allowed value rule.convert

theorem FieldRule.StopsBelow.filling {rule : FieldRule} (h : rule.StopsBelow allowed value) :
    StopsWithin allowed rule.filling := by
  unfold FieldRule.filling
  split
  · exact .ok _
  · rename_i outcome hi
    exact (h.implicit outcome hi).bind fun _ => .ok _

theorem FieldRule.StopsBelow.isImplied {rule : FieldRule} (h : rule.StopsBelow allowed value)
    (part : Value) : StopsWithin allowed (rule.isImplied part) := by
  unfold FieldRule.isImplied
  split
  · exact .ok _
  · rename_i outcome hi
    exact (h.implicit outcome hi).bind fun _ => .ok _

variable {rules : List FieldRule}

section Collections

variable (hn : allowed .nonconforming) (h : StopsBelow allowed value convert)

include hn h

theorem stopsWithin_list : StopsWithin allowed (list convert value) := by
  cases value with
  | list items =>
    refine StopsWithin.bind (.mapM fun item hi => ?_) fun _ => .ok _
    exact h item (Value.weight_lt_of_mem hi)
  | _ => exact .error hn

theorem stopsWithin_map : StopsWithin allowed (map convert value) := by
  cases value with
  | map entries =>
    refine StopsWithin.bind (.mapM fun entry he => ?_) fun _ => .ok _
    exact (h entry.2 (Value.weight_lt_of_mem_toList he)).bind fun _ => .ok _
  | _ => exact .error hn

theorem stopsWithin_readPairs : StopsWithin allowed (readPairs convert value) := by
  cases value with
  | list items =>
    refine StopsWithin.bind (.foldlM fun built pair hp => ?_) fun _ => .ok _
    unfold readPair
    split
    · rename_i key part
      have hlt : part.weight < (Value.list items).weight :=
        Nat.lt_trans (Value.weight_lt_of_mem (by simp : part ∈ [.string key, part]))
          (Value.weight_lt_of_mem hp)
      split
      · exact .error hn
      · exact (h part hlt).bind fun _ => .ok _
    · exact .error hn
  | _ => exact .error hn

theorem stopsWithin_writePairs : StopsWithin allowed (writePairs convert value) := by
  cases value with
  | map entries =>
    refine StopsWithin.bind (.mapM fun entry he => ?_) fun _ => .ok _
    exact (h entry.2 (Value.weight_lt_of_mem_toList he)).bind fun _ => .ok _
  | _ => exact .error hn

end Collections

section Structs

variable (hn : allowed .nonconforming) (h : ∀ rule ∈ rules, rule.StopsBelow allowed value)

include hn h

theorem stopsWithin_readStruct : StopsWithin allowed (readStruct rules value) := by
  cases value with
  | map entries =>
    refine StopsWithin.bind (.mapM fun entry he => ?_) fun given => ?_
    · unfold readEntry
      split
      · exact .error hn
      · rename_i rule hf
        exact ((h rule (List.mem_of_find?_eq_some hf)).convert entry.2
          (Value.weight_lt_of_mem_toList he)).bind fun _ => .ok _
    · split
      · exact .error hn
      · refine StopsWithin.bind (.mapM fun rule hm => ?_) fun _ => .ok _
        exact (h rule (List.mem_of_mem_filter hm)).filling
  | _ => exact .error hn

theorem stopsWithin_writeStruct : StopsWithin allowed (writeStruct rules value) := by
  cases value with
  | map entries =>
    refine StopsWithin.bind (.mapM fun entry he => ?_) fun written => ?_
    · unfold writeEntry
      split
      · exact .error hn
      · rename_i rule hf
        have hrule := h rule (List.mem_of_find?_eq_some hf)
        refine (hrule.isImplied entry.2).bind fun implied => ?_
        split
        · exact .ok _
        · exact (hrule.convert entry.2 (Value.weight_lt_of_mem_toList he)).bind fun _ => .ok _
    · split
      · exact .error hn
      · exact .ok _
  | _ => exact .error hn

theorem stopsWithin_readTuple : StopsWithin allowed (readTuple rules value) := by
  cases value with
  | list items =>
    simp only [readTuple]
    split
    · exact .error hn
    · refine StopsWithin.bind (.mapM fun item hm => ?_) fun _ => .ok _
      obtain ⟨hrule, hitem⟩ := List.of_mem_zip hm
      exact ((h item.1 hrule).convert item.2 (Value.weight_lt_of_mem hitem)).bind fun _ => .ok _
  | _ => exact .error hn

theorem stopsWithin_writeTuple : StopsWithin allowed (writeTuple rules value) := by
  cases value with
  | map entries =>
    simp only [writeTuple]
    split
    · exact .error hn
    · refine StopsWithin.bind (.mapM fun rule hm => ?_) fun _ => .ok _
      unfold writeItem
      split
      · exact .error hn
      · rename_i part hg
        exact (h rule hm).convert part
          (Value.weight_lt_of_mem_toList (SortedMap.get?_eq_some_iff.mp hg))
  | _ => exact .error hn

end Structs

end Plain

theorem SelectsApart.lt_of_selected? {α : Type} [DecidableEq α] {table : List (α × Nat)}
    {count place : Nat} {discriminant : α} (h : SelectsApart table count)
    (hs : selected? table discriminant = some place) : place < count := by
  obtain ⟨entry, he, rfl⟩ := Option.map_eq_some_iff.mp hs
  exact h.bound entry (List.mem_of_find?_eq_some he)

/-- The place that is selected is that of a member. -/
theorem Strategy.WellFormed.lt_of_select? {strategy : Strategy} {count place : Nat}
    {value content : Value} (hw : strategy.WellFormed count)
    (h : strategy.select? value = some (place, content)) : place < count := by
  cases selects_of_select? h with
  | kinded _ hs => exact SelectsApart.lt_of_selected? hw hs
  | keyed _ hs => exact SelectsApart.lt_of_selected? hw hs
  | envelope _ _ _ hs => exact SelectsApart.lt_of_selected? hw.2 hs
  | inlined _ hs => exact SelectsApart.lt_of_selected? hw hs
  | stringPrefix hm => exact hw.1.bound _ hm
  | bytesPrefix hm => exact hw.1.bound _ hm

namespace Node

variable {allowed : Stop → Prop} {part : PartOutcome} {value : Value} {direction : Direction}

theorem stopsBelow_rule {field : Field}
    (h : Plain.StopsBelow allowed value (part field.type.slot)) :
    (field.rule part).StopsBelow allowed value := by
  refine ⟨fun outcome hi => ?_, h.nullable field.type.nullable⟩
  obtain ⟨implicit, -, rfl⟩ := Option.map_eq_some_iff.mp hi
  exact .ok implicit

/-- The transform of a type stops because a value does not conform, or because it fails. -/
theorem stopsWithin_custom (hn : allowed .nonconforming)
    (hf : ∀ type reason, allowed (.failed type reason)) (name : String)
    (transform : CustomTransform) :
    StopsWithin allowed ((custom name transform).plain direction part value) := by
  simp only [plain, CustomTransform.convert]
  split
  · exact .ok _
  · split
    · exact .ok _
    · exact .error hn
    · exact .error (hf _ _)

section Unions

variable {members : List Member} {strategy : Strategy}

theorem stopsWithin_readPlainUnion (hn : allowed .nonconforming)
    (hw : strategy.WellFormed members.length)
    (h : ∀ slot inner, (union members strategy).Calls .toTyped value slot inner →
      StopsWithin allowed (part slot inner)) :
    StopsWithin allowed (readPlainUnion members strategy part value) := by
  simp only [readPlainUnion]
  split
  · exact .error hn
  · rename_i place content hs
    split
    · rename_i hm
      exact absurd (hw.lt_of_select? hs) (Nat.not_lt_of_le (List.getElem?_eq_none_iff.mp hm))
    · rename_i member hm
      refine (h _ _ ⟨slot_mem_slots hm, ?_⟩).bind fun _ => .ok _
      rcases Strategy.weight_select? hs with rfl | hw
      · exact .inr ⟨by simp [passesOn?, hs, hm], rfl⟩
      · exact .inl hw

theorem stopsWithin_writePlainUnion (hn : allowed .nonconforming)
    (h : ∀ slot inner, (union members strategy).Calls .toRepresentation value slot inner →
      StopsWithin allowed (part slot inner)) :
    StopsWithin allowed (writePlainUnion members strategy part value) := by
  simp only [writePlainUnion]
  split
  · exact .error hn
  · rename_i name content hu
    split
    · exact .error hn
    · rename_i place hp
      split
      · rename_i hm
        exact absurd (List.findIdx?_eq_some_iff_getElem.mp hp).1
          (Nat.not_lt_of_le (List.getElem?_eq_none_iff.mp hm))
      · rename_i member hm
        refine (h _ _ ⟨slot_mem_slots hm, .inl (Plain.weight_untag? hu)⟩).bind fun _ => ?_
        split
        · exact .ok _
        · exact .error hn

end Unions

theorem stopsWithin_enum (hn : allowed .nonconforming) (members : List (String × Value)) :
    StopsWithin allowed ((enum members).plain direction part value) := by
  cases direction with
  | toTyped =>
    simp only [plain, readPlainEnum]
    split
    · exact .error hn
    · exact .ok _
  | toRepresentation =>
    simp only [plain, writePlainEnum]
    split
    · split
      · exact .error hn
      · exact .ok _
    · exact .error hn

/-- A conversion stops for a reason of its own, or for one of a part. -/
theorem stopsWithin_plain (hn : allowed .nonconforming) {node : Node} (hw : node.WellFormed)
    (hc : ∀ name transform, node = .custom name transform →
      StopsWithin allowed (node.plain direction part value))
    (h : ∀ slot inner, node.Calls direction value slot inner →
      StopsWithin allowed (part slot inner)) :
    StopsWithin allowed (node.plain direction part value) := by
  have hbelow : ∀ slot ∈ node.slots, Plain.StopsBelow allowed value (part slot) :=
    fun slot hm inner hp => h slot inner ⟨hm, .inl hp⟩
  cases node with
  | kind member =>
    simp only [plain]
    split
    · exact .ok _
    · exact .error hn
  | list items =>
    exact Plain.stopsWithin_list hn ((hbelow _ (by simp [slots])).nullable items.nullable)
  | map values =>
    exact Plain.stopsWithin_map hn ((hbelow _ (by simp [slots])).nullable values.nullable)
  | pairs values =>
    have hvalues := (hbelow values.slot (by simp [slots])).nullable values.nullable
    cases direction with
    | toTyped => exact Plain.stopsWithin_readPairs hn hvalues
    | toRepresentation => exact Plain.stopsWithin_writePairs hn hvalues
  | structMap layout =>
    have hrules : ∀ rule ∈ layout.fields.values.map (Field.rule part),
        rule.StopsBelow allowed value := by
      intro rule hm
      obtain ⟨field, hfield, rfl⟩ := List.mem_map.mp hm
      exact stopsBelow_rule (hbelow _ (List.mem_map.mpr ⟨field, hfield, rfl⟩))
    cases direction with
    | toTyped => exact Plain.stopsWithin_readStruct hn hrules
    | toRepresentation => exact Plain.stopsWithin_writeStruct hn hrules
  | structTuple fields =>
    have hrules : ∀ rule ∈ fields.map (Field.rule part), rule.StopsBelow allowed value := by
      intro rule hm
      obtain ⟨field, hfield, rfl⟩ := List.mem_map.mp hm
      exact stopsBelow_rule (hbelow _ (List.mem_map.mpr ⟨field, hfield, rfl⟩))
    cases direction with
    | toTyped => exact Plain.stopsWithin_readTuple hn hrules
    | toRepresentation => exact Plain.stopsWithin_writeTuple hn hrules
  | union members strategy =>
    cases direction with
    | toTyped => exact stopsWithin_readPlainUnion hn hw.2 h
    | toRepresentation => exact stopsWithin_writePlainUnion hn h
  | enum members => exact stopsWithin_enum hn members
  | custom name transform => exact hc name transform rfl

end Node

end LinkedSchema
