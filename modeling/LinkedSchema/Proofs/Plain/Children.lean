import LinkedSchema.Proofs.Plain.Stops
import LinkedSchema.Proofs.RoundTrip.Fields

namespace LinkedSchema

/-- Why nothing is given. -/
def stop? {α : Type} : Except Stop α → Option Stop
  | .ok _ => none
  | .error stop => some stop

section Stops

variable {α β : Type} {x : Except Stop α} {stop : Stop}

theorem stop?_eq_some_iff : stop? x = some stop ↔ x = .error stop := by
  cases x <;> simp [stop?]

theorem stop?_eq_none_iff : stop? x = none ↔ ∃ a, x = .ok a := by
  cases x <;> simp [stop?]

theorem stop?_bind_of_forall {f : α → Except Stop β} (h : ∀ a, stop? (f a) = none) :
    stop? (x >>= f) = stop? x := by
  cases x with
  | ok a => exact h a
  | error stop => rfl

theorem stop?_mapM {f : α → Except Stop β} {as : List α} :
    stop? (as.mapM f) = as.findSome? fun a => stop? (f a) := by
  induction as with
  | nil => rfl
  | cons a as ih =>
    rw [List.mapM_cons, List.findSome?_cons]
    cases f a with
    | error stop => rfl
    | ok b =>
      rw [Outcome.ok_bind, stop?_bind_of_forall fun _ => rfl]
      exact ih

end Stops

namespace Value

def items? : Value → Option (List Value)
  | list items => some items
  | _ => none

def entries? : Value → Option (SortedMap Value none)
  | map entries => some entries
  | _ => none

end Value

/-- A part of a value, as a type meets it. -/
inductive Child where
  /-- There is nothing to convert the part by, or no part where one is expected. -/
  | refused
  /-- The part stays what it is: a null where null may stand, or an implicit value. -/
  | kept
  | part (slot : Slot) (value : Value)

namespace Child

/-- Why a child does not convert, given the outcomes of parts. -/
def stop? (part : PartOutcome) : Child → Option Stop
  | refused => some .nonconforming
  | kept => none
  | .part slot value => LinkedSchema.stop? (part slot value)

def ofType (type : PartType) (value : Value) : Child :=
  if type.nullable && value = .null then kept else .part type.slot value

/-- The entry of a key; there must be a field with the key. -/
def ofKey (fields : List Field) (entry : String × Value) : Child :=
  match fields.find? fun field => field.key = entry.1 with
  | none => refused
  | some field => ofType field.type entry.2

/-- The entry of a name; there must be a field of the name. -/
def ofName (fields : List Field) (entry : String × Value) : Child :=
  match fields.find? fun field => field.name = entry.1 with
  | none => refused
  | some field =>
    if field.implicit.any (·.same entry.2) then kept else ofType field.type entry.2

/-- The entry that a field must have. -/
def ofField (entries : SortedMap Value none) (field : Field) : Child :=
  match entries.get? field.name with
  | none => refused
  | some value => ofType field.type value

/-- The values of pairs, of which none may be malformed or have the key of a pair before it. -/
def ofPairs (values : PartType) : List String → List Value → List Child
  | _, [] => []
  | seen, .list [.string key, value] :: rest =>
    (if key ∈ seen then refused else ofType values value) :: ofPairs values (key :: seen) rest
  | seen, _ :: rest => refused :: ofPairs values seen rest

end Child

namespace Node

/-- The children of a value in their order, if the value is of the kind that is taken apart. -/
def children? (node : Node) (direction : Direction) (value : Value) : Option (List Child) :=
  match node, direction with
  | list items, _ => value.items?.map fun parts => parts.map (.ofType items)
  | map values, _ =>
    value.entries?.map fun entries => entries.toList.map fun entry => .ofType values entry.2
  | pairs values, .toTyped => value.items?.map (Child.ofPairs values [])
  | pairs values, .toRepresentation =>
    value.entries?.map fun entries => entries.toList.map fun entry => .ofType values entry.2
  | structMap layout, .toTyped =>
    value.entries?.map fun entries => entries.toList.map (.ofKey layout.fields.values)
  | structMap layout, .toRepresentation =>
    value.entries?.map fun entries => entries.toList.map (.ofName layout.fields.values)
  | structTuple fields, .toTyped =>
    (value.items?.filter fun items => items.length = fields.length).map fun items =>
      (fields.zip items).map fun (field, item) => .ofType field.type item
  | structTuple fields, .toRepresentation =>
    (value.entries?.filter fun entries => entries.size = fields.length).map fun entries =>
      fields.map (.ofField entries)
  | union members strategy, .toTyped =>
    (strategy.select? value).bind fun (place, content) =>
      members[place]?.map fun member => [.part member.slot content]
  | union members _, .toRepresentation =>
    (Plain.untag? value).bind fun (name, content) =>
      (members.find? fun member => member.name = name).map fun member =>
        [.part member.slot content]
  | _, _ => some []

/-- The type takes values apart into any number of children. -/
def IsCollection : Node → Prop
  | list _ | map _ | pairs _ | structMap _ | structTuple _ => True
  | _ => False

/-- A required field has no entry. -/
def lacksField (node : Node) (direction : Direction) (value : Value) : Bool :=
  match node, direction with
  | structMap layout, .toTyped => value.entries?.any fun entries =>
    layout.fields.values.any fun field => field.isRequired && !entries.contains field.key
  | structMap layout, .toRepresentation => value.entries?.any fun entries =>
    layout.fields.values.any fun field => field.isRequired && !entries.contains field.name
  | _, _ => false

/-- The value is of the kind, and as a tuple of the size, that the collection takes apart. -/
def TakesApart (node : Node) (direction : Direction) (value : Value) : Prop :=
  match node, direction with
  | list _, _ | pairs _, .toTyped => Kind.of value = .list
  | map _, _ | structMap _, _ | pairs _, .toRepresentation => Kind.of value = .map
  | structTuple fields, .toTyped => ∃ items, value = .list items ∧ items.length = fields.length
  | structTuple fields, .toRepresentation =>
    ∃ entries, value = .map entries ∧ entries.size = fields.length
  | _, _ => True

end Node

section Parts

variable {part : PartOutcome} {value : Value}

theorem stop?_ofType (type : PartType) (value : Value) :
    (Child.ofType type value).stop? part = stop? (type.plain part value) := by
  unfold Child.ofType PartType.plain Plain.nullable
  split <;> rfl

/-- A traversal stops where one of the children does. -/
theorem stop?_children {α β : Type} {f : α → Except Stop β} {child : α → Child} {as : List α}
    (h : ∀ a ∈ as, (child a).stop? part = stop? (f a)) :
    (as.map child).findSome? (Child.stop? part) = stop? (as.mapM f) := by
  rw [stop?_mapM, List.findSome?_map]
  induction as with
  | nil => rfl
  | cons a as ih =>
    rw [List.findSome?_cons, List.findSome?_cons, Function.comp_apply, h a (by simp),
      ih fun a ha => h a (List.mem_cons_of_mem _ ha)]

theorem stop?_list (type : PartType) (items : List Value) :
    stop? (Plain.list (type.plain part) (.list items)) =
      (items.map (Child.ofType type)).findSome? (Child.stop? part) := by
  rw [stop?_children fun item _ => stop?_ofType type item]
  exact stop?_bind_of_forall fun _ => rfl

theorem stop?_map (type : PartType) (entries : SortedMap Value none) :
    stop? (Plain.map (type.plain part) (.map entries)) =
      (entries.toList.map fun entry => Child.ofType type entry.2).findSome?
        (Child.stop? part) := by
  rw [stop?_children (f := Plain.entry (type.plain part)) fun entry _ => ?_]
  · exact stop?_bind_of_forall fun _ => rfl
  · rw [stop?_ofType]
    exact (stop?_bind_of_forall fun _ => rfl).symm

theorem stop?_writePairs (type : PartType) (entries : SortedMap Value none) :
    stop? (Plain.writePairs (type.plain part) (.map entries)) =
      (entries.toList.map fun entry => Child.ofType type entry.2).findSome?
        (Child.stop? part) := by
  rw [stop?_children (f := Plain.pair (type.plain part)) fun entry _ => ?_]
  · exact stop?_bind_of_forall fun _ => rfl
  · rw [stop?_ofType]
    exact (stop?_bind_of_forall fun _ => rfl).symm

/-- The keys that are there already are those of the pairs before. -/
theorem stop?_foldlM_readPair (type : PartType) (items : List Value) (seen : List String)
    (built : SortedMap Value none) (h : ∀ key, built.contains key = true ↔ key ∈ seen) :
    stop? (items.foldlM (Plain.readPair (type.plain part)) built) =
      (Child.ofPairs type seen items).findSome? (Child.stop? part) := by
  induction items generalizing seen built with
  | nil => rfl
  | cons item rest ih =>
    rw [List.foldlM_cons]
    unfold Plain.readPair
    split
    · rename_i key value
      rw [Child.ofPairs, List.findSome?_cons]
      by_cases hs : key ∈ seen
      · rw [if_pos hs, if_pos ((h key).mpr hs)]
        rfl
      · rw [if_neg hs, if_neg (mt (h key).mp hs), stop?_ofType]
        cases hv : type.plain part value with
        | error stop => rfl
        | ok converted =>
          refine ih (key :: seen) (built.insert key converted) fun query => ?_
          rw [SortedMap.contains_insert_iff, List.mem_cons, ← h query]
    · rename_i hpair
      rw [Child.ofPairs]
      · rfl
      · exact hpair

theorem stop?_readPairs (type : PartType) (items : List Value) :
    stop? (Plain.readPairs (type.plain part) (.list items)) =
      (Child.ofPairs type [] items).findSome? (Child.stop? part) := by
  have hempty : ∀ key, (∅ : SortedMap Value none).contains key = true ↔ key ∈ [] := fun key =>
    iff_of_false nofun (List.not_mem_nil)
  rw [← stop?_foldlM_readPair type items [] ∅ hempty]
  exact stop?_bind_of_forall fun _ => rfl

section Structs

variable {fields : List Field} {entries : SortedMap Value none}

theorem stop?_readEntry (fields : List Field) (entry : String × Value) :
    (Child.ofKey fields entry).stop? part =
      stop? (Plain.readEntry (fields.map (Field.rule part)) entry) := by
  unfold Child.ofKey Plain.readEntry
  rw [StructMap.find?_rule_key]
  cases fields.find? fun field => field.key = entry.1 with
  | none => rfl
  | some field =>
    simp only [Option.map_some, stop?_ofType]
    exact (stop?_bind_of_forall fun _ => rfl).symm

theorem stop?_writeEntry (fields : List Field) (entry : String × Value) :
    (Child.ofName fields entry).stop? part =
      stop? (Plain.writeEntry (fields.map (Field.rule part)) entry) := by
  unfold Child.ofName Plain.writeEntry
  rw [StructMap.find?_rule_name]
  cases fields.find? fun field => field.name = entry.1 with
  | none => rfl
  | some field =>
    simp only [Option.map_some, StructMap.rule_isImplied, Outcome.ok_bind]
    split
    · rfl
    · rw [stop?_ofType]
      exact (stop?_bind_of_forall fun _ => rfl).symm

theorem any_isRequired_rule_eq (name : Field → String) (ruleName : Plain.FieldRule → String)
    (hn : ∀ field, ruleName (field.rule part) = name field) :
    ((fields.map (Field.rule part)).any fun rule =>
        rule.isRequired && !entries.contains (ruleName rule)) =
      fields.any fun field => field.isRequired && !entries.contains (name field) := by
  rw [List.any_map]
  refine congrArg (fields.any ·) (funext fun field => ?_)
  rw [Function.comp_apply, Field.isRequired_rule, hn]

/-- Why a struct is not given: a child that does not convert or, failing that, a missing field. -/
def stopOrLack (first : Option Stop) (lacks : Bool) : Option Stop :=
  first <|> if lacks then some .nonconforming else none

theorem stop?_check {α : Type} {f refuse : α → Outcome} {x : Except Stop α} {lacks : Bool}
    (hr : ∀ a, refuse a = .error .nonconforming) (h : ∀ a, stop? (f a) = none) :
    stop? (x >>= fun a => if lacks = true then refuse a else f a) =
      stopOrLack (stop? x) lacks := by
  cases x with
  | error stop => rfl
  | ok a =>
    cases lacks with
    | true =>
      rw [Outcome.ok_bind, if_pos rfl, hr]
      rfl
    | false => exact h a

theorem stop?_readStruct (fields : List Field) (entries : SortedMap Value none) :
    stop? (Plain.readStruct (fields.map (Field.rule part)) (.map entries)) =
      stopOrLack ((entries.toList.map (Child.ofKey fields)).findSome? (Child.stop? part))
        (fields.any fun field => field.isRequired && !entries.contains field.key) := by
  rw [stop?_children fun entry _ => stop?_readEntry fields entry]
  simp only [Plain.readStruct, any_isRequired_rule_eq Field.key Plain.FieldRule.key fun _ => rfl]
  refine stop?_check (fun _ => rfl) fun given => ?_
  obtain ⟨filled, hf⟩ := Plain.exists_filling_eq_ok part fields entries
  rw [hf]
  rfl

theorem stop?_writeStruct (fields : List Field) (entries : SortedMap Value none) :
    stop? (Plain.writeStruct (fields.map (Field.rule part)) (.map entries)) =
      stopOrLack ((entries.toList.map (Child.ofName fields)).findSome? (Child.stop? part))
        (fields.any fun field => field.isRequired && !entries.contains field.name) := by
  rw [stop?_children fun entry _ => stop?_writeEntry fields entry]
  simp only [Plain.writeStruct, any_isRequired_rule_eq Field.name Plain.FieldRule.name fun _ => rfl]
  exact stop?_check (fun _ => rfl) fun written => rfl

theorem stop?_readTuple {items : List Value} (h : items.length = fields.length) :
    stop? (Plain.readTuple (fields.map (Field.rule part)) (.list items)) =
      ((fields.zip items).map fun (field, item) => Child.ofType field.type item).findSome?
        (Child.stop? part) := by
  rw [stop?_children (f := Plain.readItem ∘ Prod.map (Field.rule part) id) fun pair _ => ?_]
  · simp only [Plain.readTuple, List.length_map, h, ne_eq, not_true_eq_false, if_false,
      List.zip_map_left, List.mapM_map]
    exact stop?_bind_of_forall fun _ => rfl
  · rw [stop?_ofType]
    exact (stop?_bind_of_forall fun _ => rfl).symm

theorem stop?_writeTuple (h : entries.size = fields.length) :
    stop? (Plain.writeTuple (fields.map (Field.rule part)) (.map entries)) =
      (fields.map (Child.ofField entries)).findSome? (Child.stop? part) := by
  rw [stop?_children (f := Plain.writeItem entries ∘ Field.rule part) fun field _ => ?_]
  · simp only [Plain.writeTuple, List.length_map, h, ne_eq, not_true_eq_false, if_false,
      List.mapM_map]
    exact stop?_bind_of_forall fun _ => rfl
  · simp only [Child.ofField, Function.comp_apply, Plain.writeItem, Field.rule_name]
    cases entries.get? field.name with
    | none => rfl
    | some value => exact stop?_ofType field.type value

end Structs

end Parts

/-- The first element with a property stands at the first place with the property. -/
theorem exists_findIdx?_of_find? {α : Type} {property : α → Bool} {as : List α} {a : α}
    (h : as.find? property = some a) :
    ∃ place, as.findIdx? property = some place ∧ as[place]? = some a := by
  obtain ⟨ha, place, hlt, rfl, hbefore⟩ := List.find?_eq_some_iff_getElem.mp h
  refine ⟨place, List.findIdx?_eq_some_iff_getElem.mpr ⟨hlt, ha, fun other ho => ?_⟩,
    List.getElem?_eq_getElem hlt⟩
  simpa using hbefore other ho

namespace Node

variable {node : Node} {direction : Direction} {part : PartOutcome} {value : Value}
  {children : List Child} {stop : Stop}

/-- Only a value of another kind, or a tuple of another size, is refused as a whole. -/
theorem children?_eq_none_iff (hc : node.IsCollection) :
    node.children? direction value = none ↔ ¬node.TakesApart direction value := by
  have hitems : value.items? = none ↔ Kind.of value ≠ .list := by
    cases value <;> simp [Value.items?, Kind.of]
  have hentries : value.entries? = none ↔ Kind.of value ≠ .map := by
    cases value <;> simp [Value.entries?, Kind.of]
  cases node with
  | list items => simpa [children?, TakesApart] using hitems
  | map values => simpa [children?, TakesApart] using hentries
  | pairs values =>
    cases direction with
    | toTyped => simpa [children?, TakesApart] using hitems
    | toRepresentation => simpa [children?, TakesApart] using hentries
  | structMap layout => cases direction <;> simpa [children?, TakesApart] using hentries
  | structTuple fields =>
    cases direction with
    | toTyped => cases value <;> simp [children?, TakesApart, Value.items?]
    | toRepresentation => cases value <;> simp [children?, TakesApart, Value.entries?]
  | _ => exact hc.elim

/-- What is refused as a whole does not conform. -/
theorem plain_of_children?_eq_none (hw : node.WellFormed)
    (h : node.children? direction value = none) :
    node.plain direction part value = .error .nonconforming := by
  cases node with
  | list items => cases value <;> first | rfl | cases h
  | map values => cases value <;> first | rfl | cases h
  | pairs values => cases direction <;> cases value <;> first | rfl | cases h
  | structMap layout => cases direction <;> cases value <;> first | rfl | cases h
  | structTuple fields =>
    cases direction with
    | toTyped =>
      cases value with
      | list items =>
        have hl : items.length ≠ fields.length := by simpa [children?, Value.items?] using h
        simp [plain, Plain.readTuple, hl]
      | _ => rfl
    | toRepresentation =>
      cases value with
      | map entries =>
        have hl : entries.size ≠ fields.length := by simpa [children?, Value.entries?] using h
        simp [plain, Plain.writeTuple, hl]
      | _ => rfl
  | union members strategy =>
    cases direction with
    | toTyped =>
      simp only [children?, Option.bind_eq_none_iff, Option.map_eq_none_iff, Prod.forall] at h
      simp only [plain, readPlainUnion]
      split
      · rfl
      · rename_i place content hs
        have hlt := hw.2.lt_of_select? hs
        have hle := List.getElem?_eq_none_iff.mp (h place content hs)
        omega
    | toRepresentation =>
      simp only [children?, Option.bind_eq_none_iff, Option.map_eq_none_iff, Prod.forall] at h
      simp only [plain, writePlainUnion]
      split
      · rfl
      · rename_i name content hu
        have hnone : members.findIdx? (fun member => member.name = name) = none := by
          rw [List.findIdx?_eq_none_iff]
          simpa using h name content hu
        rw [hnone]
        rfl
  | _ => cases h

theorem lacksField_eq_false (h : ∀ layout, node ≠ structMap layout) :
    node.lacksField direction value = false := by
  cases node with
  | structMap layout => exact absurd rfl (h layout)
  | _ => cases direction <;> rfl

/-- Only a struct that is represented as a map lacks fields. -/
theorem stopOrLack_lacksField (hn : ∀ layout, node ≠ structMap layout) (first : Option Stop) :
    stopOrLack first (node.lacksField direction value) = first := by
  rw [lacksField_eq_false hn]
  cases first <;> rfl

theorem stop?_structTuple {fields : List Field} (part : PartOutcome)
    (h : (structTuple fields).children? direction value = some children) :
    stop? ((structTuple fields).plain direction part value) =
      children.findSome? (Child.stop? part) := by
  cases direction with
  | toTyped =>
    obtain ⟨items, hi, rfl⟩ := Option.map_eq_some_iff.mp h
    obtain ⟨hi, hl⟩ := Option.filter_eq_some_iff.mp hi
    cases value with
    | list parts =>
      cases hi
      exact stop?_readTuple (by simpa using hl)
    | _ => cases hi
  | toRepresentation =>
    obtain ⟨entries, he, rfl⟩ := Option.map_eq_some_iff.mp h
    obtain ⟨he, hl⟩ := Option.filter_eq_some_iff.mp he
    cases value with
    | map entries =>
      cases he
      exact stop?_writeTuple (by simpa using hl)
    | _ => cases he

/-- In a list, a map or a struct the first child that does not convert decides; otherwise only a
missing field keeps a struct from being given. -/
theorem stop?_plain (part : PartOutcome) (hc : node.IsCollection)
    (h : node.children? direction value = some children) :
    stop? (node.plain direction part value) =
      stopOrLack (children.findSome? (Child.stop? part)) (node.lacksField direction value) := by
  cases node with
  | list items =>
    cases value with
    | list parts =>
      cases h
      rw [stopOrLack_lacksField (by simp)]
      exact stop?_list items parts
    | _ => cases h
  | map values =>
    cases value with
    | map entries =>
      cases h
      rw [stopOrLack_lacksField (by simp)]
      exact stop?_map values entries
    | _ => cases h
  | pairs values =>
    cases direction with
    | toTyped =>
      cases value with
      | list items =>
        cases h
        rw [stopOrLack_lacksField (by simp)]
        exact stop?_readPairs values items
      | _ => cases h
    | toRepresentation =>
      cases value with
      | map entries =>
        cases h
        rw [stopOrLack_lacksField (by simp)]
        exact stop?_writePairs values entries
      | _ => cases h
  | structMap layout =>
    cases direction with
    | toTyped =>
      cases value with
      | map entries =>
        cases h
        exact stop?_readStruct layout.fields.values entries
      | _ => cases h
    | toRepresentation =>
      cases value with
      | map entries =>
        cases h
        exact stop?_writeStruct layout.fields.values entries
      | _ => cases h
  | structTuple fields =>
    rw [stopOrLack_lacksField (by simp)]
    exact stop?_structTuple part h
  | _ => exact hc.elim

/-- A union has the selected member as its only child. If that does not convert, neither does the
union; otherwise only a representation that cannot show the member is no result. -/
theorem exists_child_of_union (part : PartOutcome) {members : List Member} {strategy : Strategy}
    (h : (union members strategy).children? direction value = some children) :
    ∃ slot content, children = [.part slot content] ∧
      (∀ stop, part slot content = .error stop →
        (union members strategy).plain direction part value = .error stop) ∧
      ∀ stop, (union members strategy).plain direction part value = .error stop →
        stop = .nonconforming ∨ part slot content = .error stop := by
  cases direction with
  | toTyped =>
    simp only [children?, Option.bind_eq_some_iff, Option.map_eq_some_iff, Prod.exists] at h
    obtain ⟨place, content, hs, member, hm, rfl⟩ := h
    refine ⟨member.slot, content, rfl, fun stop he => ?_, fun stop he => ?_⟩
    · simp only [plain, readPlainUnion, hs, hm, Plain.tag, he, Outcome.error_bind]
    · simp only [plain, readPlainUnion, hs, hm, Plain.tag] at he
      cases hp : part member.slot content with
      | ok converted => simp [hp] at he
      | error other =>
        rw [hp] at he
        exact .inr he
  | toRepresentation =>
    simp only [children?, Option.bind_eq_some_iff, Option.map_eq_some_iff, Prod.exists] at h
    obtain ⟨name, content, hu, member, hm, rfl⟩ := h
    obtain ⟨place, hplace, hat⟩ := exists_findIdx?_of_find? hm
    refine ⟨member.slot, content, rfl, fun stop he => ?_, fun stop he => ?_⟩
    · simp only [plain, writePlainUnion, hu, hplace, hat, he, Outcome.error_bind]
    · simp only [plain, writePlainUnion, hu, hplace, hat] at he
      cases hp : part member.slot content with
      | ok converted =>
        rw [hp, Outcome.ok_bind] at he
        split at he
        · cases he
        · cases he
          exact .inl rfl
      | error other =>
        rw [hp] at he
        exact .inr he

/-- The first child that does not convert decides why nothing is given. -/
theorem plain_of_first (h : node.children? direction value = some children)
    (hs : children.findSome? (Child.stop? part) = some stop) :
    node.plain direction part value = .error stop := by
  have hcollection : node.IsCollection → node.plain direction part value = .error stop := by
    intro hc
    rw [← stop?_eq_some_iff, stop?_plain part hc h, hs]
    rfl
  cases node with
  | union members strategy =>
    obtain ⟨slot, content, rfl, hstop, -⟩ := exists_child_of_union part h
    rw [List.findSome?_singleton] at hs
    exact hstop stop (stop?_eq_some_iff.mp hs)
  | list | map | pairs | structMap | structTuple => exact hcollection trivial
  | _ =>
    cases h
    cases hs

/-- Where all children convert, a type that is no transform has no other reason for giving nothing
than that the value does not conform. -/
theorem nonconforming_of_children (hw : node.WellFormed)
    (hn : ∀ name transform, node ≠ .custom name transform)
    (h : node.children? direction value = some children)
    (hs : children.findSome? (Child.stop? part) = none)
    (hp : node.plain direction part value = .error stop) : stop = .nonconforming := by
  have hcollection : node.IsCollection → stop = .nonconforming := by
    intro hc
    have he := stop?_plain part hc h
    rw [hs, hp] at he
    revert he
    cases node.lacksField direction value
    · nofun
    · exact fun he => Option.some.inj he
  cases node with
  | union members strategy =>
    obtain ⟨slot, content, rfl, -, hstop⟩ := exists_child_of_union part h
    rw [List.findSome?_singleton] at hs
    obtain ⟨converted, hc⟩ := stop?_eq_none_iff.mp hs
    rcases hstop stop hp with he | he
    · exact he
    · rw [hc] at he
      cases he
  | list | map | pairs | structMap | structTuple => exact hcollection trivial
  | kind | enum =>
    have hstops : StopsWithin (· = .nonconforming) (Except.error stop : Outcome) := by
      rw [← hp]
      refine stopsWithin_plain ?_ hw (fun name transform he => absurd he (hn name transform))
        fun slot inner hcalls => nomatch hcalls.mem
      rfl
    exact hstops stop rfl
  | custom name transform => exact absurd rfl (hn name transform)

end Node

end LinkedSchema
