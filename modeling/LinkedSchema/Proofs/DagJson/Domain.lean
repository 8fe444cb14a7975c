import LinkedSchema.Proofs.DagJson.Decoded

namespace LinkedSchema

namespace Value

mutual

/-- How many lists and objects lie within one another in the text of a value. -/
def depth : Value → Nat
  | list items => depthItems items + 1
  | map entries => depthEntries entries + 1
  | link _ => 1
  | bytes _ => 2
  | _ => 0

def depthItems : List Value → Nat
  | [] => 0
  | item :: items => max item.depth (depthItems items)

def depthEntries {bound : Option String} : SortedMap Value bound → Nat
  | .nil => 0
  | .cons _ value _ rest => max value.depth (depthEntries rest)

end

theorem depthItems_le {items : List Value} {most : Nat} :
    depthItems items ≤ most ↔ ∀ item ∈ items, item.depth ≤ most := by
  induction items with
  | nil => simp [depthItems]
  | cons item items ih => rw [depthItems, Nat.max_le, ih, List.forall_mem_cons]

theorem depthEntries_le {bound : Option String} {entries : SortedMap Value bound} {most : Nat} :
    depthEntries entries ≤ most ↔ ∀ entry ∈ entries.toList, entry.2.depth ≤ most := by
  induction entries with
  | nil => simp [depthEntries, SortedMap.toList]
  | cons key value above rest ih =>
    rw [depthEntries, Nat.max_le, ih, SortedMap.toList, List.forall_mem_cons]

end Value

namespace DagJson

open Json

/-- The value is not a number that another number's text could be. -/
def Legible : Value → Prop
  | .int n => -2 ^ 63 ≤ n ∧ n ≤ 2 ^ 64 - 1
  | .float x => x.isFinite = true
  | _ => True

theorem intFits_iff {n : Int} : IntFits n ↔ -2 ^ 63 ≤ n ∧ n ≤ 2 ^ 64 - 1 := by
  have hl : Int64.minValue.toInt = -2 ^ 63 := rfl
  have hs : UInt64.size = 2 ^ 64 := rfl
  rw [IntFits, hl, hs]
  omega

theorem fits_iff_of_scalar {room : Nat} {value : Value}
    (hv : (Kind.of value).isScalar = true) :
    Fits room value ↔ Legible value ∧ value.depth ≤ room := by
  cases value with
  | list => cases hv
  | map => cases hv
  | null => exact ⟨fun _ => ⟨trivial, Nat.zero_le _⟩, fun _ => .null⟩
  | bool => exact ⟨fun _ => ⟨trivial, Nat.zero_le _⟩, fun _ => .bool⟩
  | string => exact ⟨fun _ => ⟨trivial, Nat.zero_le _⟩, fun _ => .string⟩
  | int n =>
    constructor
    · intro hf
      cases hf with
      | int h => exact ⟨intFits_iff.mp h, Nat.zero_le _⟩
    · exact fun h => .int (intFits_iff.mpr h.1)
  | float x =>
    constructor
    · intro hf
      cases hf with
      | float h => exact ⟨h, Nat.zero_le _⟩
    · exact fun h => .float h.1
  | bytes =>
    constructor
    · rintro ⟨⟩
      exact ⟨trivial, Nat.le_add_left ..⟩
    · rintro ⟨_, h⟩
      obtain ⟨room, rfl⟩ := Nat.exists_eq_add_of_le' h
      exact .bytes
  | link =>
    constructor
    · rintro ⟨⟩
      exact ⟨trivial, Nat.le_add_left ..⟩
    · rintro ⟨_, h⟩
      obtain ⟨room, rfl⟩ := Nat.exists_eq_add_of_le' h
      exact .link

/-- A value fits if its numbers are legible and there is room for its depth. -/
theorem fits_iff {room : Nat} {value : Value} :
    Fits room value ↔ (∀ part, part.Inside value → Legible part) ∧ value.depth ≤ room := by
  induction hn : value.weight using Nat.strongRecOn generalizing value room with
  | ind n ih =>
    subst hn
    cases value with
    | list items =>
      rw [Value.forall_inside_list, Value.depth]
      constructor
      · intro hf
        cases hf with
        | list h =>
          have hparts := fun item hi => (ih _ (Value.weight_lt_of_mem hi) rfl).mp (h item hi)
          exact ⟨⟨trivial, fun item hi => (hparts item hi).1⟩,
            Nat.succ_le_succ (Value.depthItems_le.mpr fun item hi => (hparts item hi).2)⟩
      · rintro ⟨⟨_, hl⟩, hd⟩
        obtain ⟨room, rfl⟩ := Nat.exists_eq_add_of_le' (Nat.le_of_add_left_le hd)
        have hd := Value.depthItems_le.mp (Nat.le_of_add_le_add_right hd)
        exact .list fun item hi =>
          (ih _ (Value.weight_lt_of_mem hi) rfl).mpr ⟨hl item hi, hd item hi⟩
    | map entries =>
      rw [Value.forall_inside_map, Value.depth]
      constructor
      · intro hf
        cases hf with
        | map h =>
          have hparts := fun entry he =>
            (ih _ (Value.weight_lt_of_mem_toList he) rfl).mp (h entry he)
          exact ⟨⟨trivial, fun entry he => (hparts entry he).1⟩,
            Nat.succ_le_succ (Value.depthEntries_le.mpr fun entry he => (hparts entry he).2)⟩
      · rintro ⟨⟨_, hl⟩, hd⟩
        obtain ⟨room, rfl⟩ := Nat.exists_eq_add_of_le' (Nat.le_of_add_left_le hd)
        have hd := Value.depthEntries_le.mp (Nat.le_of_add_le_add_right hd)
        exact .map fun entry he =>
          (ih _ (Value.weight_lt_of_mem_toList he) rfl).mpr ⟨hl entry he, hd entry he⟩
    | _ => rw [fits_iff_of_scalar rfl, Value.forall_inside_scalar rfl]

/-- The values that come back from their text. -/
structure Lasting (value : Value) : Prop where
  finite : ∀ x, (Value.float x).Inside value → x.isFinite = true
  bounded : ∀ n, (Value.int n).Inside value → -2 ^ 63 ≤ n ∧ n ≤ 2 ^ 64 - 1
  unreserved : Unreserved value
  shallow : value.depth ≤ 127

theorem lasting_iff {value : Value} :
    Lasting value ↔ Fits standardDepth value ∧ Unreserved value := by
  rw [fits_iff]
  constructor
  · rintro ⟨hf, hb, hu, hd⟩
    refine ⟨⟨fun part hp => ?_, hd⟩, hu⟩
    cases part with
    | int n => exact hb n hp
    | float x => exact hf x hp
    | _ => trivial
  · rintro ⟨⟨hl, hd⟩, hu⟩
    exact ⟨fun x hp => hl _ hp, fun n hp => hl _ hp, hu, hd⟩

/-- The exact domain of the round trip: every value has a text, which is read as an equal value just
if the numbers, the maps and the depth of the value allow it. -/
theorem decode_encode_same_iff_lasting (value : Value) :
    (∃ again, decode (Text.utf8 (encode value)) = .ok again ∧ value.same again = true) ↔
      Lasting value := by
  rw [decode_encode, lasting_iff]
  constructor
  · rintro ⟨again, hr, hs⟩
    exact fits_of_reread hr hs
  · rintro ⟨hf, hu⟩
    exact ⟨value, reread_of_fits hf hu, same_self_of_fits hf⟩

end DagJson

end LinkedSchema
