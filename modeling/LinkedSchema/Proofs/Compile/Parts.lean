import LinkedSchema.Proofs.Compile.Steps

namespace LinkedSchema

open Compilation

variable {source : Source} {add : DefnCompiler} {before after : Registry} {owner : String}
  {node : Node}

theorem MapDefn.gives_compile {defn : MapDefn TypeTerm} :
    Gives (defn.compile source add owner) before node after ↔
      ∃ slot, Gives (slotOfTerm source add owner "valueType" defn.valueType) before slot after ∧
        defn.keyType = "String" ∧
          (defn.representation = .map ∧ node = .map ⟨slot, defn.valueNullable⟩ ∨
            defn.representation = .listPairs ∧ node = .pairs ⟨slot, defn.valueNullable⟩) := by
  simp only [compile]
  split
  · rename_i hk
    simp only [gives_bind, gives_throw, false_and, exists_false, false_iff]
    intro h
    obtain ⟨_, _, hk', _⟩ := h
    exact hk hk'
  · rename_i hk
    have hk := not_not.mp hk
    cases hr : defn.representation with
    | map =>
      simp only [pure_bind, gives_bind, gives_pure]
      constructor
      · intro h
        obtain ⟨slot, _, h, rfl, rfl⟩ := h
        exact ⟨slot, h, hk, .inl ⟨trivial, rfl⟩⟩
      · intro h
        obtain ⟨slot, h, -, ⟨-, rfl⟩ | ⟨h', -⟩⟩ := h
        · exact ⟨slot, after, h, rfl, rfl⟩
        · cases h'
    | listPairs =>
      simp only [pure_bind, gives_bind, gives_pure]
      constructor
      · intro h
        obtain ⟨slot, _, h, rfl, rfl⟩ := h
        exact ⟨slot, h, hk, .inr ⟨trivial, rfl⟩⟩
      · intro h
        obtain ⟨slot, h, -, ⟨h', -⟩ | ⟨-, rfl⟩⟩ := h
        · cases h'
        · exact ⟨slot, after, h, rfl, rfl⟩
    | _ => simp

theorem ListDefn.gives_compile {defn : ListDefn TypeTerm} :
    Gives (defn.compile source add owner) before node after ↔
      ∃ slot, Gives (slotOfTerm source add owner "valueType" defn.valueType) before slot after ∧
        defn.representation = .list ∧ node = .list ⟨slot, defn.valueNullable⟩ := by
  simp only [compile]
  cases hr : defn.representation with
  | list =>
    simp only [gives_bind, gives_pure]
    constructor
    · intro h
      obtain ⟨slot, _, h, rfl, rfl⟩ := h
      exact ⟨slot, h, trivial, rfl⟩
    · intro h
      obtain ⟨slot, h, -, rfl⟩ := h
      exact ⟨slot, after, h, rfl, rfl⟩
  | advanced => simp

namespace StructDefn

variable {fields : Table StructField}

theorem gives_partType {name : String} {field : StructField} {type : PartType} :
    Gives (partType source add owner name field) before type after ↔
      Gives (slotOfTerm source add owner name field.type) before type.slot after ∧
        type.nullable = field.nullable := by
  simp only [partType, gives_bind, gives_pure]
  constructor
  · intro h
    obtain ⟨slot, _, h, rfl, rfl⟩ := h
    exact ⟨h, rfl⟩
  · intro h
    obtain ⟨h, hn⟩ := h
    refine ⟨type.slot, after, h, ?_, rfl⟩
    rw [← hn]

theorem gives_typedImplicit {name : String} {type : PartType} {literal value : Value} :
    Gives (typedImplicit owner name type literal) before value after ↔
      before.Types type.slot literal value ∧ after = before := by
  have ht : before.Types type.slot literal value ↔
      ∃ change, before.convert .toTyped type.slot literal = .ok change ∧
        change.apply literal = value := Outcome.map_eq_ok
  simp only [typedImplicit, gives_bind, gives_get, ht]
  constructor
  · intro h
    obtain ⟨_, _, ⟨rfl, rfl⟩, h⟩ := h
    split at h
    · rename_i change hc
      obtain ⟨rfl, rfl⟩ := gives_pure.mp h
      exact ⟨⟨change, hc, rfl⟩, rfl⟩
    all_goals exact (gives_throw.mp h).elim
  · intro h
    obtain ⟨⟨change, hc, rfl⟩, rfl⟩ := h
    refine ⟨after, after, ⟨rfl, rfl⟩, ?_⟩
    rw [hc]
    exact gives_pure.mpr ⟨rfl, rfl⟩

/-- The scalar that an implicit value stands for. -/
inductive Literal : Option (Json Empty) → Option Value → Prop where
  | none : Literal none none
  | some {json : Json Empty} {literal : Value} (h : scalar? json = some literal) :
      Literal (some json) (some literal)

/-- What remains of a field once its literal is known: its type, and the literal read through it. -/
theorem gives_fieldOfLiteral {detail : FieldDetails} {done result : List Field} {name : String}
    {part : StructField} {literal : Option Value} (hl : Literal detail.implicit literal)
    (hkey : detail.rename.getD name ∉ done.map Field.key) :
    Gives (do
        let type ← partType source add owner name part
        let implicit ← literal.mapM (typedImplicit owner name type)
        return done ++ [⟨name, detail.rename.getD name, type, part.isOptional, implicit⟩])
      before result after ↔
    ∃ field, result = done ++ [field] ∧ field.key ∉ done.map Field.key ∧
      Gives (slotOfTerm source add owner name part.type) before field.type.slot after ∧
      BuiltField after.slot? after.Types owner detail (name, part) field := by
  simp only [gives_bind, gives_pure, gives_partType]
  constructor
  · intro h
    obtain ⟨type, between, ⟨ht, hn⟩, implicit, _, hi, rfl, rfl⟩ := h
    have hslot := (gives_slotOfTerm.mp ht).2
    refine ⟨_, rfl, hkey, ?_⟩
    rcases gives_optionMapM.mp hi with ⟨rfl, rfl, rfl⟩ | ⟨literal, value, rfl, rfl, hread⟩
    · refine ⟨ht, rfl, rfl, hslot, hn, rfl, ?_⟩
      generalize detail.implicit = json at hl
      cases hl
      exact .none
    · obtain ⟨hv, rfl⟩ := gives_typedImplicit.mp hread
      refine ⟨ht, rfl, rfl, hslot, hn, rfl, ?_⟩
      generalize detail.implicit = json at hl
      cases hl with
      | some hs => exact .some hs hv
  · intro h
    obtain ⟨⟨first, key, type, isOptional, implicit⟩, rfl, -, ht, hb⟩ := h
    obtain ⟨hname, hk, -, hn, ho, hi⟩ := hb
    simp only at hname hk ho hi
    subst hname hk ho
    refine ⟨type, after, ⟨ht, hn⟩, implicit, after, gives_optionMapM.mpr ?_, rfl, rfl⟩
    generalize detail.implicit = json at hi hl
    cases hi with
    | none =>
      cases hl
      exact .inl ⟨rfl, rfl, rfl⟩
    | some hs hv =>
      cases hl with
      | some hs' =>
        rw [hs] at hs'
        cases hs'
        exact .inr ⟨_, _, rfl, rfl, gives_typedImplicit.mpr ⟨hv, rfl⟩⟩

theorem gives_compileMapField {details : Table FieldDetails} {done result : List Field}
    {entry : String × StructField} :
    Gives (compileMapField source add owner details done entry) before result after ↔
      ∃ field, result = done ++ [field] ∧ field.key ∉ done.map Field.key ∧
        Gives (slotOfTerm source add owner entry.1 entry.2.type) before field.type.slot after ∧
        BuiltField after.slot? after.Types owner ((details.get? entry.1).getD {}) entry field := by
  obtain ⟨name, part⟩ := entry
  simp only [compileMapField]
  generalize (details.get? name).getD {} = detail
  split
  · rename_i hk
    simp only [gives_bind, gives_throw, false_and, exists_false, false_iff]
    intro h
    obtain ⟨field, -, hn, -, hb⟩ := h
    obtain ⟨other, hm, he⟩ := List.any_eq_true.mp hk
    refine hn (List.mem_map.mpr ⟨other, hm, ?_⟩)
    rw [hb.key]
    simpa using he
  · rename_i hk
    have hkey : detail.rename.getD name ∉ done.map Field.key := by
      intro hm
      obtain ⟨other, hm, he⟩ := List.mem_map.mp hm
      exact hk (List.any_eq_true.mpr ⟨other, hm, by simpa using he⟩)
    split
    · rename_i hi
      exact gives_fieldOfLiteral (hi ▸ .none) hkey
    · rename_i json hi
      split
      · rename_i literal hs
        exact gives_fieldOfLiteral (hi ▸ .some hs) hkey
      · rename_i hs
        simp only [gives_bind, gives_throw, false_and, exists_false, false_iff]
        intro h
        obtain ⟨field, -, -, -, hb⟩ := h
        obtain ⟨literal, _, hs', -⟩ := hb.exists_value hi
        cases hs.symm.trans hs'

theorem gives_compileMap {details : Table FieldDetails} :
    Gives (compileMap source add owner fields details) before node after ↔
      (∀ name ∈ details.keys, fields.contains name = true) ∧
        ∃ built, Gives (fields.entries.foldlM (compileMapField source add owner details) [])
          before built after ∧ node = .structMap (.ofFields built) := by
  simp only [compileMap]
  split
  · rename_i name hf
    simp only [gives_bind, gives_throw, false_and, exists_false, false_iff]
    intro h
    obtain ⟨hd, _⟩ := h
    have hn := List.find?_some hf
    simp [hd name (List.mem_of_find?_eq_some hf)] at hn
  · rename_i hf
    have hd : ∀ name ∈ details.keys, fields.contains name = true := by
      intro name hm
      simpa using List.find?_eq_none.mp hf name hm
    simp only [gives_bind, gives_pure]
    constructor
    · intro h
      obtain ⟨built, _, h, rfl, rfl⟩ := h
      exact ⟨hd, built, h, rfl⟩
    · intro h
      obtain ⟨-, built, h, rfl⟩ := h
      exact ⟨built, after, h, rfl, rfl⟩

theorem gives_compileTupleField {name : String} {field : Field} :
    Gives (compileTupleField source add owner fields name) before field after ↔
      ∃ part, fields.get? name = some part ∧
        Gives (slotOfTerm source add owner name part.type) before field.type.slot after ∧
        BuiltField after.slot? after.Types owner {} (name, part) field := by
  simp only [compileTupleField]
  cases hp : fields.get? name with
  | none => simp
  | some part =>
    simp only [gives_bind, gives_pure, gives_partType]
    constructor
    · intro h
      obtain ⟨type, _, ⟨ht, hn⟩, rfl, rfl⟩ := h
      exact ⟨part, rfl, ht, rfl, rfl, (gives_slotOfTerm.mp ht).2, hn, rfl, .none⟩
    · intro h
      obtain ⟨_, he, ht, hb⟩ := h
      cases he
      obtain ⟨first, key, type, isOptional, implicit⟩ := field
      obtain ⟨hname, hk, -, hn, ho, hi⟩ := hb
      simp only at hname hk ho hi
      subst hname hk ho
      cases hi
      exact ⟨type, after, ⟨ht, hn⟩, rfl, rfl⟩

theorem gives_compileTuple {order : Option (List String)} :
    Gives (compileTuple source add owner fields order) before node after ↔
      (∀ entry ∈ fields.entries, entry.2.isOptional = false) ∧
        ∃ names, tupleOrder owner fields order = .ok names ∧
          ∃ built, Gives (names.mapM (compileTupleField source add owner fields)) before built
            after ∧ node = .structTuple built := by
  simp only [compileTuple]
  split
  · rename_i name part hf
    simp only [gives_bind, gives_throw, false_and, exists_false, false_iff]
    intro h
    obtain ⟨ho, _⟩ := h
    have hn := List.find?_some hf
    rw [ho _ (List.mem_of_find?_eq_some hf)] at hn
    cases hn
  · rename_i hf
    have ho : ∀ entry ∈ fields.entries, entry.2.isOptional = false := by
      intro entry hm
      simpa using List.find?_eq_none.mp hf entry hm
    simp only [gives_bind, gives_pure, gives_except]
    constructor
    · intro h
      obtain ⟨names, _, ⟨hn, rfl⟩, built, _, h, rfl, rfl⟩ := h
      exact ⟨ho, names, hn, built, h, rfl⟩
    · intro h
      obtain ⟨-, names, hn, built, h, rfl⟩ := h
      exact ⟨names, before, ⟨hn, rfl⟩, built, after, h, rfl, rfl⟩

end StructDefn

namespace UnionDefn

theorem gives_compileMember {invalid : UnionFlaw → SchemaError} {done result : List Member}
    {name : String} :
    Gives (compileMember source add invalid done name) before result after ↔
      ∃ slot, name ∉ done.map Member.name ∧ result = done ++ [⟨name, slot⟩] ∧
        Gives (addNamed source add name) before () after ∧ after.slot? name = some slot := by
  simp only [compileMember]
  split
  · rename_i hn
    simp only [gives_bind, gives_throw, false_and, exists_false, false_iff]
    intro h
    obtain ⟨slot, hnew, _⟩ := h
    obtain ⟨other, hm, he⟩ := List.any_eq_true.mp hn
    exact hnew (List.mem_map.mpr ⟨other, hm, by simpa using he⟩)
  · rename_i hn
    have hnew : name ∉ done.map Member.name := by
      intro hm
      obtain ⟨other, hm, he⟩ := List.mem_map.mp hm
      exact hn (List.any_eq_true.mpr ⟨other, hm, by simpa using he⟩)
    simp only [gives_bind, gives_pure, gives_slotOfName]
    constructor
    · intro h
      obtain ⟨slot, _, ⟨h, hs⟩, rfl, rfl⟩ := h
      exact ⟨slot, hnew, rfl, h, hs⟩
    · intro h
      obtain ⟨slot, -, rfl, h, hs⟩ := h
      exact ⟨slot, after, ⟨h, hs⟩, rfl, rfl⟩

theorem gives_compile {defn : UnionDefn} :
    Gives (defn.compile source add owner) before node after ↔
      ∃ strategy members, UnionDefn.strategy defn.members defn.representation = .ok strategy ∧
        Gives (defn.members.foldlM (compileMember source add
          (.invalidUnion owner defn.representation.keyword)) []) before members after ∧
        node = .union members strategy := by
  simp only [compile, gives_bind, gives_pure, gives_except, Outcome.mapError_eq_ok]
  constructor
  · intro h
    obtain ⟨strategy, _, ⟨hs, rfl⟩, members, _, h, rfl, rfl⟩ := h
    exact ⟨strategy, members, hs, h, rfl⟩
  · intro h
    obtain ⟨strategy, members, hs, h, rfl⟩ := h
    exact ⟨strategy, before, ⟨hs, rfl⟩, members, after, h, rfl, rfl⟩

end UnionDefn

end LinkedSchema
