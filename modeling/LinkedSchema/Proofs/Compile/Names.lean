import LinkedSchema.Compilation
import LinkedSchema.Proofs.Lists

namespace LinkedSchema

open Compilation

namespace TypeTerm

/-- The name under which the type of a part of a definition is compiled. -/
def nameIn (owner part : String) : TypeTerm → String
  | named name => name
  | _ => anonymousName owner part

/-- The definition that stands in the place of a reference. -/
def inline? : TypeTerm → Option TypeDefn
  | named _ => none
  | map defn => some (.map defn)
  | list defn => some (.list defn)
  | link defn => some (.link defn)

theorem nameIn_of_inline? {term : TypeTerm} {defn : TypeDefn} (h : term.inline? = some defn)
    (owner part : String) : term.nameIn owner part = anonymousName owner part := by
  cases term with
  | named name => cases h
  | _ => rfl

theorem eq_named_of_inline? {term : TypeTerm} (h : term.inline? = none) (owner part : String) :
    term = .named (term.nameIn owner part) := by
  cases term with
  | named name => rfl
  | _ => cases h

/-- The made-up names of the definitions in the place of a reference, with the definitions. -/
def inlines (owner part : String) : TypeTerm → List (String × TypeDefn)
  | named _ => []
  | map ⟨keyType, valueType, nullable, representation⟩ =>
    (anonymousName owner part, .map ⟨keyType, valueType, nullable, representation⟩) ::
      valueType.inlines (anonymousName owner part) "valueType"
  | list ⟨valueType, nullable, representation⟩ =>
    (anonymousName owner part, .list ⟨valueType, nullable, representation⟩) ::
      valueType.inlines (anonymousName owner part) "valueType"
  | link defn => [(anonymousName owner part, .link defn)]

end TypeTerm

/-- The implicit value of a field, which only structs that are represented as maps have. -/
def StructDefn.implicit? (defn : StructDefn) (name : String) : Option (Json Empty) :=
  match defn.representation with
  | .map details => ((details.get? name).getD {}).implicit
  | _ => none

namespace TypeDefn

/-- The references of a definition, with the parts of it that they stand in. -/
def parts : TypeDefn → List (String × TypeTerm)
  | map defn => [("valueType", defn.valueType)]
  | list defn => [("valueType", defn.valueType)]
  | struct defn => defn.fields.entries.map fun entry => (entry.1, entry.2.type)
  | union defn => defn.members.map fun member => ("member", .named member)
  | copy fromType => [("fromType", .named fromType)]
  | _ => []

/-- The implicit values of the fields of a definition. -/
def implicits : TypeDefn → List (Json Empty)
  | struct ⟨_, .map details⟩ => details.values.filterMap FieldDetails.implicit
  | _ => []

/-- The definitions in the place of the references of a definition. -/
def inlines (owner : String) (defn : TypeDefn) : List (String × TypeDefn) :=
  defn.parts.flatMap fun part => part.2.inlines owner part.1

end TypeDefn

theorem TypeTerm.inline?_ne_copy {term : TypeTerm} {fromType : String} :
    term.inline? ≠ some (.copy fromType) := by
  cases term <;> simp [inline?]

theorem TypeTerm.mem_inlines {owner part : String} {term : TypeTerm} {defn : TypeDefn}
    (h : term.inline? = some defn) :
    (anonymousName owner part, defn) ∈ term.inlines owner part := by
  cases term with
  | named name => cases h
  | map defn =>
    cases h
    simp [inlines]
  | list defn =>
    cases h
    simp [inlines]
  | link defn =>
    cases h
    simp [inlines]

/-- Definitions in the place of references may hold others in their turn. -/
theorem TypeTerm.inlines_subset {name : String} {defn : TypeDefn} : (term : TypeTerm) →
    (owner part : String) → (name, defn) ∈ term.inlines owner part →
      defn.inlines name ⊆ term.inlines owner part
  | named _, _, _, h => by simp [inlines] at h
  | map ⟨_, valueType, _, _⟩, owner, part, h => by
    rw [inlines] at h ⊢
    rcases List.mem_cons.mp h with h | h
    · cases h
      simp [TypeDefn.inlines, TypeDefn.parts]
    · exact List.subset_cons_of_subset _ (inlines_subset valueType _ _ h)
  | list ⟨valueType, _, _⟩, owner, part, h => by
    rw [inlines] at h ⊢
    rcases List.mem_cons.mp h with h | h
    · cases h
      simp [TypeDefn.inlines, TypeDefn.parts]
    · exact List.subset_cons_of_subset _ (inlines_subset valueType _ _ h)
  | link _, owner, part, h => by
    simp only [inlines, List.mem_singleton] at h
    cases h
    simp [TypeDefn.inlines, TypeDefn.parts]

namespace Source

/-- The definitions in the place of references that may come to be compiled. -/
def inlines (source : Source) : List (String × TypeDefn) :=
  source.schema.types.entries.flatMap fun entry =>
    if source.custom.contains entry.1 then [] else entry.2.inlines entry.1

/-- The definition that is compiled under a name, if no transform replaces it. -/
inductive Origin (source : Source) : String → TypeDefn → Prop where
  | declared {name : String} {defn : TypeDefn} (h : source.definition? name = some defn) :
      Origin source name defn
  | inline {name : String} {defn : TypeDefn} (h : (name, defn) ∈ source.inlines) :
      Origin source name defn

variable {source : Source}

theorem definition?_eq_some_iff {name : String} {defn : TypeDefn} :
    source.definition? name = some defn ↔ source.schema.types.get? name = some defn ∨
      source.schema.types.get? name = none ∧ implicitType? name = some defn := by
  unfold definition?
  cases source.schema.types.get? name <;> simp

theorem definition_eq_ok_iff {name : String} {defn : TypeDefn} :
    source.definition name = .ok defn ↔ source.definition? name = some defn := by
  unfold definition
  cases source.definition? name with
  | none =>
    constructor
    · intro h
      cases h
    · intro h
      cases h
  | some found =>
    constructor
    · intro h
      cases h
      rfl
    · intro h
      cases h
      rfl

/-- Implicit types refer to implicit types by name. -/
theorem mem_map_named_of_implicitType? {name : String} {defn : TypeDefn}
    (h : implicitType? name = some defn) :
    ∀ part ∈ defn.parts, part.2 ∈ implicitTypeNames.map TypeTerm.named := by
  unfold implicitType? at h
  split at h
  case h_12 => cases h
  all_goals
    cases h
    decide

/-- What stands in the place of a reference of a definition is among the definitions with made-up
names. -/
theorem Origin.mem_inlines {owner : String} {defn inner : TypeDefn} {part : String × TypeTerm}
    (h : source.Origin owner defn) (hc : source.custom.get? owner = none)
    (hp : part ∈ defn.parts) (hi : part.2.inline? = some inner) :
    (anonymousName owner part.1, inner) ∈ source.inlines := by
  have hm : (anonymousName owner part.1, inner) ∈ defn.inlines owner :=
    List.mem_flatMap.mpr ⟨part, hp, TypeTerm.mem_inlines hi⟩
  cases h with
  | declared h =>
    rcases definition?_eq_some_iff.mp h with h | ⟨-, h⟩
    · refine List.mem_flatMap.mpr ⟨(owner, defn), Table.get?_eq_some_iff.mp h, ?_⟩
      rw [Table.contains_eq_isSome, hc]
      exact hm
    · obtain ⟨other, -, he⟩ := List.mem_map.mp (mem_map_named_of_implicitType? h part hp)
      rw [← he] at hi
      cases hi
  | inline h =>
    obtain ⟨entry, he, hin⟩ := List.mem_flatMap.mp h
    refine List.mem_flatMap.mpr ⟨entry, he, ?_⟩
    split at hin
    · simp at hin
    · rename_i hcustom
      rw [if_neg hcustom]
      obtain ⟨outer, ho, hin⟩ := List.mem_flatMap.mp hin
      exact List.mem_flatMap.mpr ⟨outer, ho, TypeTerm.inlines_subset _ _ _ hin hm⟩

/-- A definition in the place of a reference is compiled under its made-up name. -/
theorem Origin.part {owner : String} {defn inner : TypeDefn} {part : String × TypeTerm}
    (h : source.Origin owner defn) (hc : source.custom.get? owner = none)
    (hp : part ∈ defn.parts) (hi : part.2.inline? = some inner) :
    source.Origin (anonymousName owner part.1) inner :=
  .inline (h.mem_inlines hc hp hi)

/-- A name is made up only for what can stand in the place of a reference. -/
theorem exists_term_of_mem_inlines {name : String} {defn : TypeDefn} : (term : TypeTerm) →
    (owner part : String) → (name, defn) ∈ term.inlines owner part →
      ∃ inner : TypeTerm, inner.inline? = some defn
  | .named _, _, _, h => by simp [TypeTerm.inlines] at h
  | .map ⟨keyType, valueType, nullable, representation⟩, _, _, h => by
    rw [TypeTerm.inlines] at h
    rcases List.mem_cons.mp h with h | h
    · cases h
      exact ⟨.map ⟨keyType, valueType, nullable, representation⟩, rfl⟩
    · exact exists_term_of_mem_inlines valueType _ _ h
  | .list ⟨valueType, nullable, representation⟩, _, _, h => by
    rw [TypeTerm.inlines] at h
    rcases List.mem_cons.mp h with h | h
    · cases h
      exact ⟨.list ⟨valueType, nullable, representation⟩, rfl⟩
    · exact exists_term_of_mem_inlines valueType _ _ h
  | .link defn, _, _, h => by
    simp only [TypeTerm.inlines, List.mem_singleton] at h
    cases h
    exact ⟨.link defn, rfl⟩

/-- What cannot stand in the place of a reference is declared. -/
theorem Origin.definition?_eq_some {name : String} {defn : TypeDefn} (h : source.Origin name defn)
    (hi : ∀ term : TypeTerm, term.inline? ≠ some defn) : source.definition? name = some defn := by
  cases h with
  | declared h => exact h
  | inline h =>
    obtain ⟨entry, -, hin⟩ := List.mem_flatMap.mp h
    split at hin
    · simp at hin
    · obtain ⟨part, -, hin⟩ := List.mem_flatMap.mp hin
      obtain ⟨term, ht⟩ := exists_term_of_mem_inlines _ _ _ hin
      exact absurd ht (hi term)

theorem Origin.copy {name fromType : String} (h : source.Origin name (.copy fromType)) :
    source.definition? name = some (.copy fromType) :=
  h.definition?_eq_some fun _ => TypeTerm.inline?_ne_copy

theorem Origin.struct {name : String} {defn : StructDefn} (h : source.Origin name (.struct defn)) :
    source.definition? name = some (.struct defn) :=
  h.definition?_eq_some fun term => by cases term <;> simp [TypeTerm.inline?]

theorem Origin.union {name : String} {defn : UnionDefn} (h : source.Origin name (.union defn)) :
    source.definition? name = some (.union defn) :=
  h.definition?_eq_some fun term => by cases term <;> simp [TypeTerm.inline?]

end Source

end LinkedSchema
