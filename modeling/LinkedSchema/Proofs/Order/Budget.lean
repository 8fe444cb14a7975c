import LinkedSchema.Proofs.Compile.Faithful
import Mathlib.Algebra.Order.BigOperators.Group.List
import Mathlib.Algebra.Order.Ring.Nat

namespace LinkedSchema

theorem foldl_add_eq {α : Type} (f : α → Nat) (as : List α) (start : Nat) :
    as.foldl (fun count a => count + f a) start = start + (as.map f).sum := by
  induction as generalizing start with
  | nil => rfl
  | cons a as ih =>
    rw [List.foldl_cons, ih, List.map_cons, List.sum_cons]
    omega

theorem TypeTerm.length_inlines : (term : TypeTerm) → (owner part : String) →
    (term.inlines owner part).length = term.inlineCount
  | named _, _, _ => rfl
  | map ⟨_, valueType, _, _⟩, _, _ => by
    rw [inlines, List.length_cons, length_inlines valueType, inlineCount]
  | list ⟨valueType, _, _⟩, _, _ => by
    rw [inlines, List.length_cons, length_inlines valueType, inlineCount]
  | link _, _, _ => rfl

theorem TypeDefn.length_inlines (owner : String) (defn : TypeDefn) :
    (defn.inlines owner).length = defn.inlineCount := by
  cases defn with
  | map defn => simp [inlines, parts, inlineCount, TypeTerm.length_inlines]
  | list defn => simp [inlines, parts, inlineCount, TypeTerm.length_inlines]
  | struct defn =>
    simp only [inlines, parts, inlineCount, foldl_add_eq, List.length_flatMap, List.map_map,
      Table.values, Nat.zero_add]
    refine congrArg List.sum (List.map_congr_left fun entry _ => ?_)
    exact TypeTerm.length_inlines _ _ _
  | union defn => simp [inlines, parts, inlineCount, TypeTerm.inlines, List.flatMap_map]
  | _ => rfl

namespace Source

variable {source : Source} {before after : Registry} {name : String}

theorem length_inlines_le : source.inlines.length ≤ source.schema.inlineCount := by
  simp only [inlines, Schema.inlineCount, foldl_add_eq, List.length_flatMap, Table.values,
    List.map_map, Nat.zero_add]
  refine List.sum_le_sum fun entry _ => ?_
  split
  · exact Nat.zero_le _
  · exact Nat.le_of_eq (TypeDefn.length_inlines _ _)

/-- The names that have a definition. -/
def definedNames (source : Source) : List String :=
  source.schema.types.keys ++ implicitTypeNames ++ source.inlines.map Prod.fst

theorem Origin.mem_definedNames {defn : TypeDefn} (h : source.Origin name defn) :
    name ∈ source.definedNames := by
  cases h with
  | declared h =>
    rcases definition?_eq_some_iff.mp h with h | ⟨-, h⟩
    · have hk : name ∈ source.schema.types.keys :=
        List.mem_map.mpr ⟨_, Table.get?_eq_some_iff.mp h, rfl⟩
      exact List.mem_append_left _ (List.mem_append_left _ hk)
    · exact List.mem_append_left _ (List.mem_append_right _ (mem_implicitTypeNames h))
  | inline h => exact List.mem_append_right _ (List.mem_map.mpr ⟨_, h, rfl⟩)

/-- The number of definitions that are still to be compiled. -/
def remaining (source : Source) (registry : Registry) : Nat :=
  source.definedNames.countP fun name => (registry.slot? name).isNone

theorem remaining_le (h : ∀ name, (before.slot? name).isSome = true →
    (after.slot? name).isSome = true) : source.remaining after ≤ source.remaining before := by
  refine List.countP_mono_left fun name _ hn => ?_
  cases hs : before.slot? name with
  | none => rfl
  | some slot =>
    have := h name (by rw [hs]; rfl)
    simp [Option.isSome_iff_ne_none] at this
    simp [this] at hn

theorem Compiles.remaining_le (h : source.Compiles before after) :
    source.remaining after ≤ source.remaining before :=
  Source.remaining_le fun _ => h.slot?

theorem remaining_reserve_lt (hn : before.slot? name = none) (hm : name ∈ source.definedNames) :
    source.remaining (before.reserve name) < source.remaining before := by
  unfold remaining
  obtain ⟨front, rest, he⟩ := List.append_of_mem hm
  have hle : ∀ names : List String,
      names.countP (fun other => ((before.reserve name).slot? other).isNone) ≤
        names.countP fun other => (before.slot? other).isNone := by
    intro names
    refine List.countP_mono_left fun other _ ho => ?_
    rw [Registry.slot?_reserve] at ho
    split at ho
    · cases ho
    · exact ho
  have hfront := hle front
  have hrest := hle rest
  have hnew : ((before.reserve name).slot? name).isNone = false := by
    rw [Registry.slot?_reserve_self]
    rfl
  have hold : (before.slot? name).isNone = true := by rw [hn]; rfl
  rw [he, List.countP_append, List.countP_append, List.countP_cons, List.countP_cons, hnew, hold]
  simp only [Bool.false_eq_true, if_false, if_true]
  omega

theorem remaining_lt_budget (registry : Registry) (defn : TypeDefn) :
    2 * source.remaining registry + 1 ≤ source.budget defn := by
  have hcount : source.remaining registry ≤ source.definedNames.length := List.countP_le_length
  have hinlines : source.inlines.length ≤ source.schema.inlineCount := length_inlines_le
  simp only [definedNames, List.length_append, List.length_map, Table.keys] at hcount
  unfold budget Table.size
  omega

end Source

end LinkedSchema
