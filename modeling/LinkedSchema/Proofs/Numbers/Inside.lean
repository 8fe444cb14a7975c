import LinkedSchema.Proofs.Plain.Parts
import LinkedSchema.Proofs.RoundTrip.Same

namespace LinkedSchema

/-- The values that a value consists of, itself among them. -/
inductive Value.Inside : Value → Value → Prop where
  | self (value : Value) : Inside value value
  | item {part item : Value} {items : List Value} (hi : item ∈ items) (h : Inside part item) :
    Inside part (.list items)
  | entry {part : Value} {entry : String × Value} {entries : SortedMap Value none}
    (he : entry ∈ entries.toList) (h : Inside part entry.2) : Inside part (.map entries)

namespace Value

section Inside

variable {property : Value → Prop}

/-- What holds of all parts of a list holds of the list and of all parts of its items. -/
theorem forall_inside_list {items : List Value} :
    (∀ part, part.Inside (list items) → property part) ↔
      property (list items) ∧ ∀ item ∈ items, ∀ part, part.Inside item → property part := by
  constructor
  · intro h
    exact ⟨h _ (.self _), fun item hi part hp => h part (.item hi hp)⟩
  · rintro ⟨hs, h⟩ part hp
    cases hp with
    | self => exact hs
    | item hi hp => exact h _ hi part hp

theorem forall_inside_map {entries : SortedMap Value none} :
    (∀ part, part.Inside (map entries) → property part) ↔ property (map entries) ∧
      ∀ entry ∈ entries.toList, ∀ part, part.Inside entry.2 → property part := by
  constructor
  · intro h
    exact ⟨h _ (.self _), fun entry he part hp => h part (.entry he hp)⟩
  · rintro ⟨hs, h⟩ part hp
    cases hp with
    | self => exact hs
    | entry he hp => exact h _ he part hp

/-- A scalar has no other part than itself. -/
theorem forall_inside_scalar {value : Value} (h : (Kind.of value).isScalar = true) :
    (∀ part, part.Inside value → property part) ↔ property value := by
  constructor
  · exact fun hp => hp _ (.self _)
  · intro hs part hp
    cases hp with
    | self => exact hs
    | item => cases h
    | entry => cases h

end Inside

/-- No number in the value is infinite or a NaN. -/
def Finite (value : Value) : Prop :=
  ∀ x, (float x).Inside value → x.isFinite = true

theorem finite_iff {value : Value} :
    value.Finite ↔ ∀ part, part.Inside value → (Kind.of part).admits part = true := by
  simp only [Kind.admits_of_iff]
  constructor
  · intro h part hp x hx
    subst hx
    exact h x hp
  · intro h x hx
    exact h _ hx x rfl

theorem finite_list_iff {items : List Value} :
    (list items).Finite ↔ ∀ item ∈ items, item.Finite := by
  simp only [finite_iff, forall_inside_list, Kind.admits_of_iff]
  exact and_iff_right nofun

theorem finite_map_iff {entries : SortedMap Value none} :
    (map entries).Finite ↔ ∀ key value, entries.get? key = some value → value.Finite := by
  simp only [finite_iff, forall_inside_map, Kind.admits_of_iff]
  rw [and_iff_right nofun]
  constructor
  · intro h key value hg
    exact h (key, value) (SortedMap.get?_eq_some_iff.mp hg)
  · intro h entry he
    exact h entry.1 entry.2 (SortedMap.get?_eq_some_iff.mpr he)

theorem finite_of_admits {kind : Kind} {value : Value} (hk : kind.isScalar = true)
    (h : kind.admits value = true) : value.Finite := by
  obtain ⟨rfl, ha⟩ := Kind.admits_iff.mp h
  exact finite_iff.mpr ((forall_inside_scalar hk).mpr ha)

theorem finite_string (s : String) : (string s).Finite :=
  finite_of_admits (show Kind.string.isScalar = true from rfl) rfl

theorem finite_singleton_iff {key : String} {value : Value} :
    (map (SortedMap.singleton key value)).Finite ↔ value.Finite := by
  simp [finite_map_iff, SortedMap.get?_singleton]

theorem finite_map_of_mem {entries : SortedMap Value none}
    (h : ∀ entry ∈ entries.toList, entry.2.Finite) : (map entries).Finite :=
  finite_map_iff.mpr fun key value hg => h (key, value) (SortedMap.get?_eq_some_iff.mp hg)

/-- A value with finite numbers only is the same as itself. -/
theorem Finite.same_self {value : Value} (h : value.Finite) : value.same value = true := by
  induction hn : value.weight using Nat.strongRecOn generalizing value with
  | ind n ih =>
    subst hn
    cases value with
    | list items =>
      exact same_self_of_mem fun item hm =>
        ih _ (weight_lt_of_mem hm) (finite_list_iff.mp h item hm) rfl
    | map entries =>
      refine same_self_of_get? fun key value hg => ?_
      have hm := SortedMap.get?_eq_some_iff.mp hg
      exact ih _ (weight_lt_of_mem_toList hm) (finite_map_iff.mp h key value hg) rfl
    | float x =>
      exact same_self_of_admits (show Kind.float.isScalar = true from rfl)
        (finite_iff.mp h _ (.self _))
    | _ => simp [same]

end Value

end LinkedSchema
