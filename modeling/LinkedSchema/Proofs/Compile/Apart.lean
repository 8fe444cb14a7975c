import LinkedSchema.Proofs.Compile.Names
import Mathlib.Data.List.Nodup

namespace LinkedSchema

open Compilation

/-- The names of the types that a reference refers to, at any depth. -/
def TypeTerm.mentions : TypeTerm → List String
  | named name => [name]
  | map ⟨_, valueType, _, _⟩ => valueType.mentions
  | list ⟨valueType, _, _⟩ => valueType.mentions
  | link _ => []

def TypeDefn.mentions (defn : TypeDefn) : List String :=
  defn.parts.flatMap fun part => part.2.mentions

/-- What is made up for a reference has a made-up name, and mentions no more than the reference. -/
theorem TypeTerm.of_mem_inlines {name : String} {defn : TypeDefn} : (term : TypeTerm) →
    (owner part : String) → (name, defn) ∈ term.inlines owner part →
      (∃ owner part, name = anonymousName owner part) ∧ defn.mentions ⊆ term.mentions
  | named _, _, _, h => by simp [inlines] at h
  | map ⟨_, valueType, _, _⟩, owner, part, h => by
    rw [inlines] at h
    rcases List.mem_cons.mp h with h | h
    · cases h
      exact ⟨⟨owner, part, rfl⟩, by simp [mentions, TypeDefn.mentions, TypeDefn.parts]⟩
    · exact of_mem_inlines valueType _ _ h
  | list ⟨valueType, _, _⟩, owner, part, h => by
    rw [inlines] at h
    rcases List.mem_cons.mp h with h | h
    · cases h
      exact ⟨⟨owner, part, rfl⟩, by simp [mentions, TypeDefn.mentions, TypeDefn.parts]⟩
    · exact of_mem_inlines valueType _ _ h
  | link _, owner, part, h => by
    simp only [inlines, List.mem_singleton] at h
    cases h
    exact ⟨⟨owner, part, rfl⟩, by simp [TypeDefn.mentions, TypeDefn.parts]⟩

/-- Made-up names are longer than those of the implicit types. -/
theorem not_mem_implicitTypeNames (owner part : String) :
    anonymousName owner part ∉ implicitTypeNames := by
  have hshort : ∀ name ∈ implicitTypeNames, name.length < 10 := by decide
  intro hm
  have hl := hshort _ hm
  have hseparator : " > ".length = 3 := rfl
  have hmark : " (anon)".length = 7 := rfl
  simp only [anonymousName, String.length_append, hseparator, hmark] at hl
  omega

namespace Source

/-- The names that declared definitions mention, apart from those that a transform replaces. -/
def mentions (source : Source) : List String :=
  source.schema.types.entries.flatMap fun entry =>
    if source.custom.contains entry.1 then [] else entry.2.mentions

/-- Made-up names differ from one another, and from every name that the schema or the transforms
declare or mention. -/
structure NamesApart (source : Source) : Prop where
  nodup : (source.inlines.map Prod.fst).Nodup
  declared : ∀ entry ∈ source.inlines, source.schema.types.get? entry.1 = none
  custom : ∀ entry ∈ source.inlines, source.custom.get? entry.1 = none
  mentioned : ∀ entry ∈ source.inlines, entry.1 ∉ source.mentions

variable {source : Source} {name owner : String} {defn : TypeDefn}

theorem exists_of_mem_inlines (h : (name, defn) ∈ source.inlines) :
    ∃ entry ∈ source.schema.types.entries, source.custom.contains entry.1 = false ∧
      ∃ part ∈ entry.2.parts, (name, defn) ∈ part.2.inlines entry.1 part.1 := by
  obtain ⟨entry, he, hin⟩ := List.mem_flatMap.mp h
  split at hin
  · simp at hin
  · rename_i hc
    obtain ⟨part, hp, hin⟩ := List.mem_flatMap.mp hin
    exact ⟨entry, he, by simpa using hc, part, hp, hin⟩

theorem not_mem_implicitTypeNames_of_mem_inlines (h : (name, defn) ∈ source.inlines) :
    name ∉ implicitTypeNames := by
  obtain ⟨entry, -, -, part, -, hin⟩ := exists_of_mem_inlines h
  obtain ⟨⟨owner, part, rfl⟩, -⟩ := part.2.of_mem_inlines _ _ hin
  exact not_mem_implicitTypeNames owner part

/-- What a definition refers to by name is mentioned in the schema, or implicit. -/
theorem Origin.mentions (h : source.Origin owner defn) (hc : source.custom.get? owner = none) :
    ∀ other ∈ defn.mentions, other ∈ source.mentions ∨ other ∈ implicitTypeNames := by
  intro other hm
  cases h with
  | declared h =>
    rcases definition?_eq_some_iff.mp h with h | ⟨-, h⟩
    · refine .inl (List.mem_flatMap.mpr ⟨(owner, defn), Table.get?_eq_some_iff.mp h, ?_⟩)
      rw [Table.contains_eq_isSome, hc]
      exact hm
    · obtain ⟨part, hp, hm⟩ := List.mem_flatMap.mp hm
      obtain ⟨implicit, hi, he⟩ := List.mem_map.mp (mem_map_named_of_implicitType? h part hp)
      rw [← he, TypeTerm.mentions, List.mem_singleton] at hm
      exact .inr (hm ▸ hi)
  | inline h =>
    obtain ⟨entry, he, hcustom, part, hp, hin⟩ := exists_of_mem_inlines h
    have hsub := (part.2.of_mem_inlines _ _ hin).2
    refine .inl (List.mem_flatMap.mpr ⟨entry, he, ?_⟩)
    rw [hcustom]
    exact List.mem_flatMap.mpr ⟨part, hp, hsub hm⟩

/-- Every name has one definition. -/
def Unambiguous (source : Source) : Prop :=
  ∀ name defn other, source.Origin name defn → source.Origin name other → defn = other

theorem definition?_eq_none_of_mem_inlines
    (hd : ∀ entry ∈ source.inlines, source.schema.types.get? entry.1 = none)
    (h : (name, defn) ∈ source.inlines) : source.definition? name = none := by
  have hi : implicitType? name = none := by
    cases hi : implicitType? name with
    | none => rfl
    | some implicit =>
      exact absurd (mem_implicitTypeNames hi) (not_mem_implicitTypeNames_of_mem_inlines h)
  rw [definition?, hd _ h, hi]
  rfl

theorem unambiguous_of_nodup (hn : (source.inlines.map Prod.fst).Nodup)
    (hd : ∀ entry ∈ source.inlines, source.schema.types.get? entry.1 = none) :
    source.Unambiguous := by
  intro name defn other h ho
  cases h with
  | declared h =>
    cases ho with
    | declared ho =>
      rw [h] at ho
      exact Option.some.inj ho
    | inline ho =>
      rw [definition?_eq_none_of_mem_inlines hd ho] at h
      cases h
  | inline h =>
    cases ho with
    | declared ho =>
      rw [definition?_eq_none_of_mem_inlines hd h] at ho
      cases ho
    | inline ho => exact congrArg Prod.snd (List.inj_on_of_nodup_map hn h ho rfl)

namespace NamesApart

theorem unambiguous (hn : source.NamesApart) : source.Unambiguous :=
  unambiguous_of_nodup hn.nodup hn.declared

theorem definition?_eq_none (hn : source.NamesApart) (h : (name, defn) ∈ source.inlines) :
    source.definition? name = none :=
  definition?_eq_none_of_mem_inlines hn.declared h

theorem origin_unique (hn : source.NamesApart) {other : TypeDefn} (h : source.Origin name defn)
    (ho : source.Origin name other) : defn = other :=
  hn.unambiguous name defn other h ho

end NamesApart

/-- A reference stands for a name: it is that name, or the definition for which it was made up. -/
inductive Means (source : Source) (name : String) : TypeTerm → Prop where
  | named (h : ∀ defn, (name, defn) ∉ source.inlines) : Means source name (.named name)
  | inline {term : TypeTerm} {defn : TypeDefn} (hi : term.inline? = some defn)
      (hm : (name, defn) ∈ source.inlines) : Means source name term

theorem Means.not_mem_inlines (h : source.Means name (.named owner)) (defn : TypeDefn) :
    (name, defn) ∉ source.inlines := by
  cases h with
  | named h => exact h defn
  | inline hi => cases hi

/-- The parts of a definition stand for the names under which they are compiled. -/
theorem NamesApart.means_part (hn : source.NamesApart) (ho : source.Origin owner defn)
    (hc : source.custom.get? owner = none) {part : String × TypeTerm} (hp : part ∈ defn.parts) :
    source.Means (part.2.nameIn owner part.1) part.2 := by
  obtain ⟨label, term⟩ := part
  cases term with
  | named other =>
    refine .named fun inner hm => ?_
    have hother : other ∈ defn.mentions :=
      List.mem_flatMap.mpr ⟨_, hp, List.mem_singleton_self _⟩
    rcases ho.mentions hc other hother with hmention | himplicit
    · exact hn.mentioned _ hm hmention
    · exact not_mem_implicitTypeNames_of_mem_inlines hm himplicit
  | map defn => exact .inline rfl (ho.mem_inlines hc hp rfl)
  | list defn => exact .inline rfl (ho.mem_inlines hc hp rfl)
  | link defn => exact .inline rfl (ho.mem_inlines hc hp rfl)

end Source

end LinkedSchema
