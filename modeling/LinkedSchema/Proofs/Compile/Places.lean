import LinkedSchema.Proofs.Compile.Apart

namespace LinkedSchema

open Compilation

/-- Where a definition stands within a declared type; of the parts that lead there the innermost
comes first. -/
structure Place where
  declared : String
  parts : List String
  deriving DecidableEq

namespace Place

/-- The name under which the definition is compiled. -/
def name (place : Place) : String :=
  place.parts.foldr (fun part owner => anonymousName owner part) place.declared

/-- The place of a part of the definition. -/
def within (place : Place) (part : String) : Place :=
  ⟨place.declared, part :: place.parts⟩

@[simp] theorem name_within (place : Place) (part : String) :
    (place.within part).name = anonymousName place.name part := rfl

/-- The first place is the second, or within it. -/
def Below (place other : Place) : Prop :=
  place.declared = other.declared ∧ other.parts <:+ place.parts

theorem Below.refl (place : Place) : place.Below place :=
  ⟨rfl, List.suffix_rfl⟩

theorem Below.of_within {place other : Place} {part : String}
    (h : place.Below (other.within part)) : place.Below other :=
  ⟨h.1, (List.suffix_cons part other.parts).trans h.2⟩

/-- Nothing stands within two parts of one definition. -/
theorem Below.part_unique {place other : Place} {first second : String}
    (h : place.Below (other.within first)) (h' : place.Below (other.within second)) :
    first = second := by
  have hs : first :: other.parts <:+ second :: other.parts :=
    List.suffix_of_suffix_length_le h.2 h'.2 (Nat.le_refl _)
  exact (List.cons.inj (hs.eq_of_length rfl)).1

end Place

/-- The definitions in the place of references, with their places. -/
def TypeTerm.places (place : Place) : TypeTerm → List (Place × TypeDefn)
  | named _ => []
  | map ⟨keyType, valueType, nullable, representation⟩ =>
    (place, .map ⟨keyType, valueType, nullable, representation⟩) ::
      valueType.places (place.within "valueType")
  | list ⟨valueType, nullable, representation⟩ =>
    (place, .list ⟨valueType, nullable, representation⟩) ::
      valueType.places (place.within "valueType")
  | link defn => [(place, .link defn)]

def TypeDefn.places (place : Place) (defn : TypeDefn) : List (Place × TypeDefn) :=
  defn.parts.flatMap fun part => part.2.places (place.within part.1)

namespace TypeTerm

/-- The made-up names are the names of the places. -/
theorem inlines_eq_map_places (owner : Place) : (term : TypeTerm) → (part : String) →
    term.inlines owner.name part =
      (term.places (owner.within part)).map fun entry => (entry.1.name, entry.2)
  | named _, _ => rfl
  | map ⟨_, valueType, _, _⟩, part => by
    have ih := inlines_eq_map_places (owner.within part) valueType "valueType"
    rw [Place.name_within] at ih
    rw [inlines, places, List.map_cons, ih]
    rfl
  | list ⟨valueType, _, _⟩, part => by
    have ih := inlines_eq_map_places (owner.within part) valueType "valueType"
    rw [Place.name_within] at ih
    rw [inlines, places, List.map_cons, ih]
    rfl
  | link _, _ => rfl

theorem below_of_mem_places {found : Place × TypeDefn} : (term : TypeTerm) → (place : Place) →
    found ∈ term.places place → found.1.Below place
  | named _, _, h => by cases h
  | map ⟨_, valueType, _, _⟩, place, h => by
    rw [places] at h
    rcases List.mem_cons.mp h with rfl | h
    · exact .refl place
    · exact (below_of_mem_places valueType _ h).of_within
  | list ⟨valueType, _, _⟩, place, h => by
    rw [places] at h
    rcases List.mem_cons.mp h with rfl | h
    · exact .refl place
    · exact (below_of_mem_places valueType _ h).of_within
  | link _, place, h => by
    rw [places, List.mem_singleton] at h
    rw [h]
    exact .refl place

theorem nodup_cons_places {valueType : TypeTerm} {place : Place} {part : String}
    (h : ((valueType.places (place.within part)).map Prod.fst).Nodup) :
    (place :: (valueType.places (place.within part)).map Prod.fst).Nodup := by
  refine List.nodup_cons.mpr ⟨fun hm => ?_, h⟩
  obtain ⟨found, hf, he⟩ := List.mem_map.mp hm
  have hl := (below_of_mem_places valueType _ hf).2.length_le
  rw [he, Place.within, List.length_cons] at hl
  omega

theorem nodup_places : (term : TypeTerm) → (place : Place) →
    ((term.places place).map Prod.fst).Nodup
  | named _, _ => .nil
  | map ⟨_, valueType, _, _⟩, _ => nodup_cons_places (nodup_places valueType _)
  | list ⟨valueType, _, _⟩, _ => nodup_cons_places (nodup_places valueType _)
  | link _, _ => List.nodup_singleton _

end TypeTerm

namespace TypeDefn

variable {defn : TypeDefn} {place : Place} {found : Place × TypeDefn}

theorem inlines_eq_map_places (place : Place) (defn : TypeDefn) :
    defn.inlines place.name = (defn.places place).map fun entry => (entry.1.name, entry.2) := by
  rw [inlines, places, List.map_flatMap]
  exact List.flatMap_congr fun part _ => part.2.inlines_eq_map_places place part.1

theorem below_of_mem_places (h : found ∈ defn.places place) : found.1.Below place := by
  obtain ⟨part, -, hf⟩ := List.mem_flatMap.mp h
  exact (part.2.below_of_mem_places _ hf).of_within

/-- Parts with the same label are references by name. -/
theorem pairwise_parts (defn : TypeDefn) :
    defn.parts.Pairwise fun a b => a.1 = b.1 → ∀ place, a.2.places place = [] := by
  cases defn with
  | struct defn =>
    have hn := List.pairwise_map.mp defn.fields.nodup
    exact List.pairwise_map.mpr (hn.imp fun hne he => absurd he hne)
  | union defn =>
    exact List.pairwise_map.mpr (List.pairwise_of_forall fun _ _ _ _ => rfl)
  | map defn => exact List.pairwise_singleton ..
  | list defn => exact List.pairwise_singleton ..
  | copy fromType => exact List.pairwise_singleton ..
  | _ => exact .nil

theorem nodup_places (defn : TypeDefn) (place : Place) :
    ((defn.places place).map Prod.fst).Nodup := by
  rw [places, List.map_flatMap, List.nodup_flatMap]
  refine ⟨fun part _ => part.2.nodup_places _, defn.pairwise_parts.imp fun {a b} h => ?_⟩
  intro other ha hb
  obtain ⟨first, hf, rfl⟩ := List.mem_map.mp ha
  obtain ⟨second, hs, he⟩ := List.mem_map.mp hb
  have hlabel : a.1 = b.1 := by
    refine (a.2.below_of_mem_places _ hf).part_unique ?_
    rw [← he]
    exact b.2.below_of_mem_places _ hs
  rw [h hlabel] at hf
  cases hf

end TypeDefn

namespace Source

variable {source : Source} {place : Place} {defn : TypeDefn}

/-- The definitions in the place of references of all declared types, with their places. -/
def places (source : Source) : List (Place × TypeDefn) :=
  source.schema.types.entries.flatMap fun entry =>
    if source.custom.contains entry.1 then [] else entry.2.places ⟨entry.1, []⟩

theorem inlines_eq_map_places (source : Source) :
    source.inlines = source.places.map fun entry => (entry.1.name, entry.2) := by
  rw [inlines, places, List.map_flatMap]
  refine List.flatMap_congr fun entry _ => ?_
  split
  · rfl
  · exact entry.2.inlines_eq_map_places ⟨entry.1, []⟩

theorem mem_inlines_of_mem_places (h : (place, defn) ∈ source.places) :
    (place.name, defn) ∈ source.inlines := by
  rw [inlines_eq_map_places]
  exact List.mem_map_of_mem h

theorem exists_declared_of_mem_places (h : (place, defn) ∈ source.places) :
    source.custom.get? place.declared = none ∧
      ∃ outer, source.schema.types.get? place.declared = some outer ∧
        (place, defn) ∈ outer.places ⟨place.declared, []⟩ := by
  obtain ⟨entry, he, hm⟩ := List.mem_flatMap.mp h
  split at hm
  · cases hm
  · rename_i hc
    have hd : place.declared = entry.1 := (TypeDefn.below_of_mem_places hm).1
    rw [hd]
    refine ⟨?_, entry.2, Table.get?_eq_some_iff.mpr he, hm⟩
    simpa [Table.contains_eq_isSome] using hc

/-- No two definitions have the same place. -/
theorem nodup_places (source : Source) : (source.places.map Prod.fst).Nodup := by
  rw [places, List.map_flatMap, List.nodup_flatMap]
  refine ⟨fun entry _ => ?_, ?_⟩
  · split
    · exact .nil
    · exact entry.2.nodup_places _
  · have hn := List.pairwise_map.mp source.schema.types.nodup
    refine hn.imp fun {a b} hne => ?_
    intro other ha hb
    have hdeclared : ∀ entry : String × TypeDefn, other ∈
        (if source.custom.contains entry.1 then [] else entry.2.places ⟨entry.1, []⟩).map
          Prod.fst → other.declared = entry.1 := by
      intro entry hm
      obtain ⟨found, hf, rfl⟩ := List.mem_map.mp hm
      split at hf
      · cases hf
      · exact (TypeDefn.below_of_mem_places hf).1
    exact hne ((hdeclared a ha).symm.trans (hdeclared b hb))

/-- Where made-up names are told apart, they tell their places. -/
theorem place_unique (hn : (source.inlines.map Prod.fst).Nodup) {first second : Place × TypeDefn}
    (h : first ∈ source.places) (h' : second ∈ source.places)
    (he : first.1.name = second.1.name) : first.1 = second.1 := by
  rw [inlines_eq_map_places, List.map_map] at hn
  exact congrArg Prod.fst (List.inj_on_of_nodup_map hn h h' he)

end Source

end LinkedSchema
