import LinkedSchema.Proofs.Plain.Node
import Mathlib.Data.List.Perm.Subperm

namespace LinkedSchema

/-- Maps whose look-ups are related have related entries, in the same order. -/
theorem SortedMap.forall₂_of_get? {α β : Type} {rel : α → β → Prop} {bound : Option String}
    {m : SortedMap α bound} {n : SortedMap β bound}
    (h : ∀ key, Option.Rel rel (m.get? key) (n.get? key)) :
    List.Forall₂ (fun a b => a.1 = b.1 ∧ rel a.2 b.2) m.toList n.toList := by
  have absent {γ : Type} {low high : String} {m : SortedMap γ (some high)}
      (hl : low < high ∨ low = high) : m.get? low = none := by
    refine get?_eq_none_of_not_above fun ha => ?_
    rcases hl with lt | rfl
    · exact String.lt_irrefl _ (String.lt_trans lt (above_some.mp ha))
    · exact String.lt_irrefl _ (above_some.mp ha)
  induction m with
  | nil =>
    cases n with
    | nil => exact .nil
    | cons key value _ _ =>
      have hk := h key
      simp only [get?, if_true] at hk
      cases hk
  | cons key value above rest ih =>
    cases n with
    | nil =>
      have hk := h key
      simp only [get?, if_true] at hk
      cases hk
    | cons other found _ tail =>
      have he : key = other := by
        refine String.le_antisymm (fun lt => ?_) (fun lt => ?_)
        · have hk := h other
          simp only [get?, if_true, absent (.inl lt), String.ne_of_lt lt, if_false] at hk
          cases hk
        · have hk := h key
          simp only [get?, if_true, absent (.inl lt), String.ne_of_lt lt, if_false] at hk
          cases hk
      subst he
      have hk := h key
      simp only [get?, if_true] at hk
      cases hk with
      | some hv =>
        refine .cons ⟨rfl, hv⟩ (ih fun query => ?_)
        by_cases hq : query = key
        · subst hq
          rw [absent (.inr rfl), absent (.inr rfl)]
          exact .none
        · simpa only [get?, hq, if_false] using h query

/-- A map of two entries has no other key than two that are known. -/
theorem SortedMap.eq_or_eq_of_size {α : Type} {m : SortedMap α none} {a b key : String}
    {x y value : α} (hs : m.size = 2) (hne : a ≠ b) (ha : m.get? a = some x)
    (hb : m.get? b = some y) (hk : m.get? key = some value) : key = a ∨ key = b := by
  by_contra hn
  rw [not_or] at hn
  have hm : ∀ {key : String} {value : α}, m.get? key = some value → key ∈ m.toList.map Prod.fst :=
    fun h => contains_iff.mp (by simp [contains, h])
  have hnd : [key, a, b].Nodup := by simp [hn.1, hn.2, hne]
  have hsub : [key, a, b] ⊆ m.toList.map Prod.fst := by simp [hm ha, hm hb, hm hk]
  have hle := (List.subperm_of_subset hnd hsub).length_le
  rw [List.length_map, show m.toList.length = 2 from hs] at hle
  simp at hle

/-- A map is made of two entries exactly if it has no others. -/
theorem SortedMap.ofList_pair_eq_iff {α : Type} {m : SortedMap α none} {a b : String} {x y : α}
    (hne : a ≠ b) :
    ofList [(a, x), (b, y)] = m ↔ m.size = 2 ∧ m.get? a = some x ∧ m.get? b = some y := by
  have hn : ([(a, x), (b, y)].map Prod.fst).Nodup := by simpa using hne
  constructor
  · intro he
    subst he
    exact ⟨size_ofList hn, (get?_ofList hn).mpr (by simp), (get?_ofList hn).mpr (by simp)⟩
  · intro h
    obtain ⟨hs, ha, hb⟩ := h
    refine ext_get? fun key => Option.ext fun value => ?_
    rw [get?_ofList hn, List.mem_pair]
    constructor
    · intro hm
      rcases hm with hm | hm <;> cases hm
      · exact ha
      · exact hb
    · intro hk
      rcases eq_or_eq_of_size hs hne ha hb hk with rfl | rfl
      · exact .inl (Prod.ext rfl (Option.some.inj (hk.symm.trans ha)))
      · exact .inr (Prod.ext rfl (Option.some.inj (hk.symm.trans hb)))

namespace Value

theorem sameItems_iff {items others : List Value} :
    sameItems items others = true ↔ List.Forall₂ (fun a b => a.same b = true) items others := by
  induction items generalizing others with
  | nil => cases others <;> simp [sameItems]
  | cons item items ih =>
    cases others with
    | nil => simp [sameItems]
    | cons other others => simp [sameItems, ih]

theorem sameEntries_iff {low high : Option String} {entries : SortedMap Value low}
    {others : SortedMap Value high} :
    sameEntries entries others = true ↔
      List.Forall₂ (fun a b => a.1 = b.1 ∧ a.2.same b.2 = true) entries.toList others.toList := by
  induction entries generalizing high others with
  | nil => cases others <;> simp [sameEntries, SortedMap.toList]
  | cons key value above rest ih =>
    cases others with
    | nil => simp [sameEntries, SortedMap.toList]
    | cons other found _ tail => simp [sameEntries, SortedMap.toList, ih]

theorem same_list_iff {items others : List Value} :
    (list items).same (list others) = true ↔
      List.Forall₂ (fun a b => a.same b = true) items others := by
  rw [same, sameItems_iff]

theorem same_map_of_get? {entries others : SortedMap Value none}
    (h : ∀ key, Option.Rel (fun a b : Value => a.same b = true) (entries.get? key)
      (others.get? key)) : (map entries).same (map others) = true := by
  rw [same, sameEntries_iff]
  exact SortedMap.forall₂_of_get? h

theorem same_self_of_mem {items : List Value} (h : ∀ item ∈ items, item.same item = true) :
    (list items).same (list items) = true :=
  same_list_iff.mpr (List.forall₂_same.mpr h)

theorem same_self_of_get? {entries : SortedMap Value none}
    (h : ∀ key value, entries.get? key = some value → value.same value = true) :
    (map entries).same (map entries) = true := by
  refine same_map_of_get? fun key => ?_
  cases hg : entries.get? key with
  | none => exact .none
  | some value => exact .some (h key value hg)

theorem same_singleton_iff {name other : String} {value found : Value} :
    (map (SortedMap.singleton name value)).same (map (SortedMap.singleton other found)) = true ↔
      name = other ∧ value.same found = true := by
  rw [same, sameEntries_iff]
  simp

/-- A text, like a number of the same kind, is the same as itself and as nothing else. -/
theorem same_iff_eq {value other : Value} (h : (∃ s, value = .string s) ∨ ∃ n, value = .int n) :
    value.same other = true ↔ value = other := by
  rcases h with ⟨s, rfl⟩ | ⟨n, rfl⟩ <;> cases other <;> simp [same]

/-- A scalar of its kind is no NaN. -/
theorem same_self_of_admits {kind : Kind} {value : Value} (hk : kind.isScalar = true)
    (h : kind.admits value = true) : value.same value = true := by
  cases value with
  | float x =>
    obtain ⟨-, hf⟩ := Bool.and_eq_true_iff.mp h
    rw [Binary64.isFinite, decide_eq_true_eq] at hf
    simp only [same, Binary64.same_self_iff, Binary64.isNaN, Bool.and_eq_false_iff,
      decide_eq_false_iff_not]
    exact .inl (by omega)
  | list items =>
    rw [← Kind.of_eq_of_admits h] at hk
    cases hk
  | map entries =>
    rw [← Kind.of_eq_of_admits h] at hk
    cases hk
  | _ => simp [same]

end Value

end LinkedSchema
