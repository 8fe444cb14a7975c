import LinkedSchema.Proofs.Compile.InForce
import LinkedSchema.Proofs.Order.Budget
import LinkedSchema.Proofs.Order.Copies
import Mathlib.Data.Finset.Card

namespace LinkedSchema

namespace Table

variable {α : Type} {t : Table α} {key : String} {value : α}

theorem insert_of_get? (h : t.get? key = some value) : t.insert key value = t := by
  have hm : key ∈ t.entries.map Prod.fst := List.mem_map_of_mem (get?_eq_some_iff.mp h)
  apply ext_entries
  rw [insert, dif_pos hm]
  refine (List.map_congr_left fun entry he => ?_).trans (List.map_id _)
  split
  · rename_i hk
    subst hk
    rw [get?_eq_some_iff.mpr he] at h
    cases h
    rfl
  · rfl

theorem size_insert_le (t : Table α) (key : String) (value : α) :
    (t.insert key value).size ≤ t.size + 1 := by
  have hkeys : ∀ t : Table α, t.size = t.keys.length := fun t => by rw [size, keys, List.length_map]
  cases h : t.contains key with
  | true =>
    rw [hkeys, hkeys, keys_insert_of_contains h]
    exact Nat.le_succ _
  | false =>
    rw [size, entries_insert_of_not_contains h, List.length_append, List.length_singleton, size]

theorem sum_replace_le (f : α → Nat) {entries : List (String × α)}
    (hn : (entries.map Prod.fst).Nodup) :
    ((replace entries key value).map fun entry => f entry.2).sum ≤
      (entries.map fun entry => f entry.2).sum + f value := by
  induction entries with
  | nil => exact Nat.zero_le _
  | cons entry rest ih =>
    obtain ⟨hfirst, hrest⟩ := List.nodup_cons.mp hn
    have hstep : replace (entry :: rest) key value =
        (if entry.1 = key then (key, value) else entry) :: replace rest key value := rfl
    rw [hstep, List.map_cons, List.map_cons, List.sum_cons, List.sum_cons]
    split
    · rename_i hk
      -- The key does not come again, so the rest is left as it is.
      have hsame : replace rest key value = rest := by
        refine (List.map_congr_left fun other ho => if_neg fun he => ?_).trans (List.map_id _)
        rw [hk, ← he] at hfirst
        exact hfirst (List.mem_map_of_mem ho)
      rw [hsame]
      dsimp only
      omega
    · have := ih hrest
      omega

theorem sum_insert_le (f : α → Nat) (t : Table α) (key : String) (value : α) :
    ((t.insert key value).values.map f).sum ≤ (t.values.map f).sum + f value := by
  have hvalues : ∀ t : Table α, (t.values.map f).sum = (t.entries.map fun entry => f entry.2).sum :=
    fun t => by rw [values, List.map_map]; rfl
  rw [hvalues, hvalues]
  by_cases hm : key ∈ t.entries.map Prod.fst
  · rw [insert, dif_pos hm]
    exact sum_replace_le f t.nodup
  · rw [insert, dif_neg hm]
    simp

end Table

namespace Source

open Compilation

variable {source : Source} {name : String} {defn : TypeDefn}

theorem declare_eq_self {fromType : String}
    (h : source.definition? name = some (.copy fromType)) :
    source.declare name (.copy fromType) = source := by
  rcases definition?_eq_some_iff.mp h with h | ⟨-, h⟩
  · obtain ⟨⟨types, advanced⟩, custom⟩ := source
    rw [declare, Schema.insert, Table.insert_of_get? h]
  · exact (not_copy_of_implicitType? h).elim

section Bounds

/-- The number of definitions under names that are not known. -/
def missing (source : Source) (known : List String) : Nat :=
  (source.definedNames.toFinset \ known.toFinset).card

theorem missing_cons_lt {known : List String} (hm : name ∈ source.definedNames)
    (hn : name ∉ known) : source.missing (name :: known) < source.missing known := by
  refine Finset.card_lt_card (Finset.ssubset_iff_of_subset ?_ |>.mpr ⟨name, ?_, ?_⟩)
  · intro other ho
    rw [Finset.mem_sdiff, List.mem_toFinset, List.mem_toFinset] at ho ⊢
    exact ⟨ho.1, fun hk => ho.2 (List.mem_cons_of_mem _ hk)⟩
  · rw [Finset.mem_sdiff, List.mem_toFinset, List.mem_toFinset]
    exact ⟨hm, hn⟩
  · simp

theorem length_definedNames_le (source : Source) (defn : TypeDefn) :
    2 * source.definedNames.length + 2 ≤ source.budget defn := by
  have hinlines : source.inlines.length ≤ source.schema.inlineCount := length_inlines_le
  simp only [definedNames, List.length_append, List.length_map, Table.keys]
  unfold budget Table.size
  omega

/-- Declaring a definition takes no more room than compiling it by hand. -/
theorem length_definedNames_declare_le : 2 * (source.declare name defn).definedNames.length ≤
    source.budget defn := by
  have hsize := source.schema.types.size_insert_le name defn
  have hinlines : (source.declare name defn).inlines.length ≤ _ := length_inlines_le
  have hcount : (source.declare name defn).schema.inlineCount ≤
      source.schema.inlineCount + defn.inlineCount := by
    unfold Schema.inlineCount
    rw [foldl_add_eq, foldl_add_eq, Nat.zero_add, Nat.zero_add]
    exact Table.sum_insert_le TypeDefn.inlineCount source.schema.types name defn
  have hkeys : (source.declare name defn).schema.types.keys.length ≤
      source.schema.types.size + 1 := by
    rw [Table.keys, List.length_map]
    exact hsize
  simp only [definedNames, List.length_append, List.length_map]
  unfold budget
  omega

theorem mem_definedNames_declare (source : Source) (name : String) (defn : TypeDefn) :
    name ∈ (source.declare name defn).definedNames :=
  (Origin.declared definition?_declare_self).mem_definedNames

theorem missing_cons_of_mem {known : List String} (hm : name ∈ known) :
    source.missing (name :: known) = source.missing known := by
  unfold missing
  rw [List.toFinset_cons, Finset.insert_eq_of_mem (List.mem_toFinset.mpr hm)]

/-- There are steps enough to compile a definition when only the given names are known. A copy takes
one more than the type that it copies. -/
structure Suffices (source : Source) (known : List String) (defn : TypeDefn) (most : Nat) : Prop
    where
  positive : 0 < most
  enough : 2 * source.missing known ≤ most
  copy : ∀ next, defn = .copy next → 2 * source.missing known < most

theorem Suffices.of_lt {known : List String} {most : Nat} (h : 2 * source.missing known < most) :
    source.Suffices known defn most :=
  ⟨Nat.zero_lt_of_lt h, Nat.le_of_lt h, fun _ _ => h⟩

/-- Once a name is known there are steps enough for each part of its definition. -/
theorem Suffices.part {known : List String} {most : Nat} (h : source.Suffices known defn (most + 1))
    (hm : name ∈ source.definedNames) (hn : name ∉ known) (inner : TypeDefn) :
    source.Suffices (name :: known) inner most := by
  have hlt := missing_cons_lt hm hn
  have henough := h.enough
  exact .of_lt (by omega)

theorem Suffices.root {known : List String} {most : Nat} {next target : String}
    (h : source.Suffices known (.copy next) (most + 1)) (hm : target ∈ source.definedNames)
    (hn : target ∉ known) {inner : TypeDefn} (hcopy : ∀ next, inner ≠ .copy next) :
    source.Suffices known inner most := by
  have hlt := missing_cons_lt hm hn
  have hmost := h.copy next rfl
  exact ⟨by omega, by omega, fun next he => absurd he (hcopy next)⟩

/-- Less than the budget is needed for what is met once the name is known. -/
theorem missing_lt_of_mem (hm : name ∈ source.definedNames) :
    source.missing [name] < source.definedNames.length :=
  (missing_cons_lt hm List.not_mem_nil).trans_le
    ((Finset.card_le_card Finset.sdiff_subset).trans (List.toFinset_card_le _))

end Bounds

end Source

end LinkedSchema
