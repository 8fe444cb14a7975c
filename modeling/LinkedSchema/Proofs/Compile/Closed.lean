import LinkedSchema.Proofs.Compile.Steps

namespace LinkedSchema

/-- The error is about the schema, and not about the compilation itself or a conversion that comes
to no end. -/
def SchemaError.IsRefusal : SchemaError → Prop
  | exhausted => False
  | impossible => False
  | invalidImplicit _ _ .endless => False
  | _ => True

theorem Outcome.exists_of_mapError {ε ε' α : Type} {x : Except ε α} {f : ε → ε'} {error : ε'}
    (h : x.mapError f = .error error) : ∃ flaw, f flaw = error := by
  cases x with
  | ok a => cases h
  | error flaw => exact ⟨flaw, Except.error.inj h⟩

namespace Compilation

variable {α β : Type}

/-- A property of steps that is put together from the same property of their parts. Steps with the
property may end in any error that is about the schema, and read the given implicit values. -/
structure Closed (literals : String → String → Json Empty → Prop)
    (good : ∀ {α : Type}, Compilation α → Prop) : Prop where
  pure : ∀ {α : Type} (a : α), good (pure a)
  throw : ∀ {α : Type} {error : SchemaError}, error.IsRefusal → good (throw error : Compilation α)
  bind : ∀ {α β : Type} {x : Compilation α} {f : α → Compilation β}, good x → (∀ a, good (f a)) →
    good (x >>= f)
  /-- Implicit values are scalars, and are read by the types compiled so far. -/
  implicit : ∀ owner name type json value, literals owner name json → scalar? json = some value →
    good (StructDefn.typedImplicit owner name type value)

namespace Closed

variable {literals : String → String → Json Empty → Prop} {good : ∀ {α : Type}, Compilation α → Prop}
  (hg : Closed literals good)

include hg

/-- What would follow an error does not matter. -/
theorem throwBind {error : SchemaError} {f : β → Compilation α} (h : error.IsRefusal) :
    good (MonadExcept.throw error >>= f) :=
  hg.throw h

theorem exceptBind {x : Except SchemaError β} {f : β → Compilation α}
    (he : ∀ error, x = .error error → error.IsRefusal) (h : ∀ b, x = .ok b → good (f b)) :
    good (liftM x >>= f) := by
  cases x with
  | ok b => exact h b rfl
  | error error => exact hg.throw (he error rfl)

theorem except {x : Except SchemaError α} (he : ∀ error, x = .error error → error.IsRefusal) :
    good (liftM x : Compilation α) := by
  cases x with
  | ok a => exact hg.pure a
  | error error => exact hg.throw (he error rfl)

theorem optionMapM {f : α → Compilation β} {a : Option α} (h : ∀ b ∈ a, good (f b)) :
    good (a.mapM f) := by
  cases a with
  | none => exact hg.pure none
  | some a =>
    rw [Option.mapM_some, map_eq_pure_bind]
    exact hg.bind (h a rfl) fun b => hg.pure (some b)

theorem foldlM {f : β → α → Compilation β} {as : List α} (b : β)
    (h : ∀ b, ∀ a ∈ as, good (f b a)) : good (as.foldlM f b) := by
  induction as generalizing b with
  | nil => exact hg.pure b
  | cons a as ih =>
    rw [List.foldlM_cons]
    exact hg.bind (h b a (List.mem_cons_self ..)) fun next =>
      ih next fun b a hm => h b a (List.mem_cons_of_mem _ hm)

theorem mapM {f : α → Compilation β} {as : List α} (h : ∀ a ∈ as, good (f a)) :
    good (as.mapM f) := by
  induction as with
  | nil =>
    rw [List.mapM_nil]
    exact hg.pure []
  | cons a as ih =>
    rw [List.mapM_cons]
    exact hg.bind (h a (List.mem_cons_self ..)) fun b =>
      hg.bind (ih fun a hm => h a (List.mem_cons_of_mem _ hm)) fun bs => hg.pure (b :: bs)

theorem forM {f : α → Compilation PUnit} {as : List α} (h : ∀ a ∈ as, good (f a)) :
    good (as.forM f) := by
  induction as with
  | nil => exact hg.pure ()
  | cons a as ih =>
    exact hg.bind (h a (List.mem_cons_self ..)) fun _ =>
      ih fun a hm => h a (List.mem_cons_of_mem _ hm)

end Closed

end Compilation

open Compilation

section Definitions

variable {literals : String → String → Json Empty → Prop} {good : ∀ {α : Type}, Compilation α → Prop}
  (hg : Closed literals good) {source : Source} {add : DefnCompiler} {owner : String}

include hg

theorem MapDefn.closed_compile {defn : MapDefn TypeTerm}
    (h : good (slotOfTerm source add owner "valueType" defn.valueType)) :
    good (defn.compile source add owner) := by
  have hslot : ∀ form : PartType → Node, good (do
      let slot ← slotOfTerm source add owner "valueType" defn.valueType
      return form ⟨slot, defn.valueNullable⟩) := fun form => hg.bind h fun slot => hg.pure _
  simp only [compile]
  split
  · exact hg.throwBind trivial
  · cases defn.representation with
    | map => exact hslot _
    | listPairs => exact hslot _
    | stringPairs => exact hg.throwBind trivial
    | advanced => exact hg.throwBind trivial

theorem ListDefn.closed_compile {defn : ListDefn TypeTerm}
    (h : good (slotOfTerm source add owner "valueType" defn.valueType)) :
    good (defn.compile source add owner) := by
  simp only [compile]
  cases defn.representation with
  | list => exact hg.bind h fun slot => hg.pure _
  | advanced => exact hg.throwBind trivial

namespace StructDefn

theorem closed_partType {name : String} {field : StructField}
    (h : good (slotOfTerm source add owner name field.type)) :
    good (partType source add owner name field) :=
  hg.bind h fun _ => hg.pure _

theorem closed_compileMapField {details : Table FieldDetails} {before : List Field}
    {entry : String × StructField}
    (hl : ∀ json, ((details.get? entry.1).getD {}).implicit = some json →
      literals owner entry.1 json)
    (h : good (slotOfTerm source add owner entry.1 entry.2.type)) :
    good (compileMapField source add owner details before entry) := by
  have hrest : ∀ (key : String) (literal : Option Value),
      (∀ value ∈ literal, ∃ json, literals owner entry.1 json ∧ scalar? json = some value) →
        good (do
          let type ← partType source add owner entry.1 entry.2
          let implicit ← literal.mapM (typedImplicit owner entry.1 type)
          return before ++ [⟨entry.1, key, type, entry.2.isOptional, implicit⟩]) := by
    intro key literal hliteral
    refine hg.bind (closed_partType hg h) fun type => ?_
    refine hg.bind (hg.optionMapM fun value hv => ?_) fun _ => hg.pure _
    obtain ⟨json, hj, hs⟩ := hliteral value hv
    exact hg.implicit owner entry.1 type json value hj hs
  simp only [compileMapField]
  split
  · exact hg.throwBind trivial
  · split
    · exact hrest _ none nofun
    · split
      · rename_i json hj _ value hs
        exact hrest _ (some value) fun _ hm => ⟨json, hl json hj, Option.some.inj hm ▸ hs⟩
      · exact hg.throwBind trivial

theorem closed_compileMap {fields : Table StructField} {details : Table FieldDetails}
    (hl : ∀ name json, ((details.get? name).getD {}).implicit = some json →
      literals owner name json)
    (h : ∀ entry ∈ fields.entries, good (slotOfTerm source add owner entry.1 entry.2.type)) :
    good (compileMap source add owner fields details) := by
  have hrest : good (do
      let built ← fields.entries.foldlM (compileMapField source add owner details) []
      return Node.structMap (.ofFields built)) :=
    hg.bind (hg.foldlM [] fun _ entry hm =>
      closed_compileMapField hg (hl entry.1) (h entry hm))
      fun _ => hg.pure _
  simp only [compileMap]
  split
  · exact hg.throwBind trivial
  · exact hrest

omit hg in
theorem tupleOrder_refuses {name : String} {fields : Table StructField}
    {order : Option (List String)} (error : SchemaError)
    (h : tupleOrder name fields order = .error error) : error.IsRefusal := by
  unfold tupleOrder at h
  split at h
  · cases h
  · split at h
    · cases h
    · cases h
      exact trivial

theorem closed_compileTuple {fields : Table StructField} {order : Option (List String)}
    (h : ∀ entry ∈ fields.entries, good (slotOfTerm source add owner entry.1 entry.2.type)) :
    good (compileTuple source add owner fields order) := by
  have hfield : ∀ name, (fields.get? name).isSome = true →
      good (compileTupleField source add owner fields name) := by
    intro name hn
    obtain ⟨field, hf⟩ := Option.isSome_iff_exists.mp hn
    simp only [compileTupleField, hf]
    exact hg.bind (closed_partType hg (h (name, field) (Table.get?_eq_some_iff.mp hf)))
      fun type => hg.pure _
  have hrest : good (do
      let names ← liftM (tupleOrder owner fields order)
      let built ← names.mapM (compileTupleField source add owner fields)
      return Node.structTuple built) := by
    refine hg.exceptBind tupleOrder_refuses fun names hnames => ?_
    -- Each name in the order of a tuple is that of a field.
    have hsub := (tupleOrder_eq_ok_iff.mp hnames).2
    refine hg.bind (hg.mapM fun name hm => hfield name ?_) fun _ => hg.pure _
    exact Table.get?_isSome_iff.mpr (hsub.mem_iff.mp hm)
  simp only [compileTuple]
  split
  · exact hg.throwBind trivial
  · exact hrest

theorem closed_compile {defn : StructDefn}
    (hl : ∀ name json, defn.implicit? name = some json → literals owner name json)
    (h : ∀ entry ∈ defn.fields.entries, good (slotOfTerm source add owner entry.1 entry.2.type)) :
    good (defn.compile source add owner) := by
  obtain ⟨fields, representation⟩ := defn
  cases representation with
  | map details => exact closed_compileMap hg hl h
  | tuple order => exact closed_compileTuple hg h
  | _ => exact hg.throw trivial

end StructDefn

theorem UnionDefn.closed_compile {defn : UnionDefn}
    (h : ∀ name ∈ defn.members, good (slotOfName source add name)) :
    good (defn.compile source add owner) := by
  simp only [compile]
  refine hg.exceptBind (fun error he => ?_) fun strategy _ => ?_
  · obtain ⟨flaw, rfl⟩ := Outcome.exists_of_mapError he
    exact trivial
  · refine hg.bind (hg.foldlM [] fun before name hm => ?_) fun members => hg.pure _
    simp only [compileMember]
    split
    · exact hg.throwBind trivial
    · exact hg.bind (h name hm) fun slot => hg.pure _

omit hg in
theorem EnumDefn.compile_refuses {defn : EnumDefn} (error : SchemaError)
    (h : compile owner defn = .error error) : error.IsRefusal := by
  unfold compile at h
  cases hv : defn.values.mapError (SchemaError.invalidEnum owner) with
  | error found =>
    obtain ⟨flaw, rfl⟩ := Outcome.exists_of_mapError hv
    rw [hv] at h
    cases h
    exact trivial
  | ok members =>
    rw [hv, Outcome.ok_bind] at h
    cases hc : (checkValues [] members).mapError (SchemaError.invalidEnum owner) with
    | error found =>
      obtain ⟨flaw, rfl⟩ := Outcome.exists_of_mapError hc
      rw [hc] at h
      cases h
      exact trivial
    | ok _ =>
      rw [hc] at h
      cases h

/-- A definition that is no copy is compiled by a step with the property if the slots of its parts
are found by such steps. -/
theorem TypeDefn.closed_compile {defn : TypeDefn} (hn : ∀ fromType, defn ≠ .copy fromType)
    (hl : ∀ inner, defn = .struct inner → ∀ name json, inner.implicit? name = some json →
      literals owner name json)
    (h : ∀ part ∈ defn.parts, good (slotOfTerm source add owner part.1 part.2)) :
    good (defn.compile source add owner) := by
  cases defn with
  | map defn => exact MapDefn.closed_compile hg (h _ (List.mem_singleton_self _))
  | list defn => exact ListDefn.closed_compile hg (h _ (List.mem_singleton_self _))
  | struct defn =>
    exact StructDefn.closed_compile hg (hl defn rfl) fun entry hm => h _ (List.mem_map_of_mem hm)
  | union defn => exact UnionDefn.closed_compile hg fun name hm => h _ (List.mem_map_of_mem hm)
  | enum defn => exact hg.except EnumDefn.compile_refuses
  | copy fromType => exact absurd rfl (hn fromType)
  | _ => exact hg.pure _

end Definitions

end LinkedSchema
