import LinkedSchema.Proofs.Order.References

namespace LinkedSchema.Source

open Compilation

variable {source : Source} {registry : Registry} {name next target : String}

theorem not_copy_of_implicitType? (h : implicitType? name = some (.copy next)) : False := by
  unfold implicitType? at h
  split at h <;> cases h

theorem mem_keys_of_copy (h : source.definition? name = some (.copy next)) :
    name ∈ source.schema.types.keys := by
  rcases definition?_eq_some_iff.mp h with h | ⟨-, h⟩
  · exact List.mem_map.mpr ⟨_, Table.get?_eq_some_iff.mp h, rfl⟩
  · exact (not_copy_of_implicitType? h).elim

/-- A chain of copies that has an end does not lead back. -/
theorem NamesApart.not_leads_back (hn : source.NamesApart) (hl : source.Leads name target)
    (hr : source.IsRoot target) (hc : source.custom.get? name = none)
    (hd : source.definition? name = some (.copy next)) : ¬source.Leads next name := by
  induction hl generalizing next with
  | refl =>
    intro _
    cases hr with
    | custom hc' => simp [hc] at hc'
    | defined _ ho hcopy => exact hcopy _ (hn.origin_unique ho (.declared hd))
  | copy hc' hd' hnext ih =>
    intro hback
    rename_i name following target
    rw [hd'] at hd
    cases hd
    cases hback with
    | refl => exact ih hr hc hd' (.refl _)
    | copy hc'' hd'' hback => exact ih hr hc'' hd'' (hback.trans (.copy hc hd' (.refl _)))

/-- The names of a chain lie before the name that is looked at. -/
def Before (source : Source) (name other : String) : Prop :=
  source.custom.get? other = none ∧ ∃ next, source.definition? other = some (.copy next) ∧
    source.Leads next name

theorem length_le_of_before {chain : List String}
    (hchain : ∀ other ∈ chain, source.Before name other) (hnodup : chain.Nodup) :
    chain.length ≤ source.schema.types.size := by
  have hsub : chain ⊆ source.schema.types.keys := fun other ho => by
    obtain ⟨-, next, hd, -⟩ := hchain other ho
    exact mem_keys_of_copy hd
  have hle := (List.subperm_of_subset hnodup hsub).length_le
  rwa [Table.keys, List.length_map] at hle

/-- A chain goes on with a new name. -/
theorem before_next {chain : List String} (hchain : ∀ other ∈ chain, source.Before name other)
    (hnodup : chain.Nodup) (hnew : name ∉ chain) (hc : source.custom.get? name = none)
    (hd : source.definition? name = some (.copy next)) :
    (∀ other ∈ chain ++ [name], source.Before next other) ∧ (chain ++ [name]).Nodup := by
  constructor
  · intro other ho
    rcases List.mem_append.mp ho with ho | ho
    · obtain ⟨hc', found, hd', hlead⟩ := hchain other ho
      exact ⟨hc', found, hd', hlead.trans (.copy hc hd (.refl next))⟩
    · rw [List.mem_singleton.mp ho]
      exact ⟨hc, next, hd, .refl next⟩
  · exact nodup_append_singleton hnodup hnew

/-- The names before a name that leads to a type do not contain it, and leave a step to take. -/
theorem NamesApart.not_mem_before (hn : source.NamesApart) (hl : source.Leads name target)
    (hr : source.IsRoot target) {chain : List String} {most : Nat}
    (hchain : ∀ other ∈ chain, source.Before name other) (hnodup : chain.Nodup)
    (hmost : source.schema.types.size + 2 ≤ most + chain.length) :
    name ∉ chain ∧ ∃ less, most = less + 1 := by
  have hlength := length_le_of_before hchain hnodup
  refine ⟨fun hmem => ?_, most - 1, by omega⟩
  obtain ⟨hc, next, hd, hback⟩ := hchain name hmem
  exact hn.not_leads_back hl hr hc hd hback

/-- A chain of copies that leads to a type is followed up to the type, or to a name of the chain
that has a slot. -/
theorem exists_followCopies (hn : source.NamesApart) {start : String}
    (hl : source.Leads name target) (hr : source.IsRoot target)
    (hm : ∀ defn, (name, defn) ∉ source.inlines) {chain : List String} {most : Nat}
    (hchain : ∀ other ∈ chain, source.Before name other) (hnodup : chain.Nodup)
    (hmost : source.schema.types.size + 2 ≤ most + chain.length) :
    ∃ names stop, Gives (followCopies source start most chain name) registry (names, stop)
      registry ∧ ((registry.slot? stop).isSome = true ∨ stop = target) := by
  induction hl generalizing chain most with
  | refl =>
    rename_i name
    obtain ⟨hnew, most, rfl⟩ := hn.not_mem_before (.refl name) hr hchain hnodup hmost
    refine ⟨chain, name, gives_followCopies_succ.mpr ⟨hnew, ?_⟩, .inr rfl⟩
    by_cases hs : (registry.slot? name).isSome = true
    · exact .inl ⟨.inl hs, rfl, rfl⟩
    cases hr with
    | custom hc =>
      refine .inl ⟨.inr ?_, rfl, rfl⟩
      rw [Table.contains_eq_isSome, hc]
      rfl
    | defined hc ho hcopy =>
      have hnone : registry.slot? name = none := by simpa using hs
      cases ho with
      | declared hd => exact .inr ⟨hnone, hc, .inr ⟨_, hd, hcopy, rfl, rfl⟩⟩
      | inline hin => exact absurd hin (hm _)
  | copy hc hd hnext ih =>
    rename_i name next target
    obtain ⟨hnew, most, rfl⟩ := hn.not_mem_before (.copy hc hd hnext) hr hchain hnodup hmost
    by_cases hs : (registry.slot? name).isSome = true
    · exact ⟨chain, name, gives_followCopies_succ.mpr ⟨hnew, .inl ⟨.inl hs, rfl, rfl⟩⟩, .inl hs⟩
    have hnone : registry.slot? name = none := by simpa using hs
    have hpart : ("fromType", TypeTerm.named next) ∈ (TypeDefn.copy next).parts :=
      List.mem_singleton_self _
    have hmade : ∀ defn, (next, defn) ∉ source.inlines :=
      (hn.means_part (.declared hd) hc hpart).not_mem_inlines
    obtain ⟨hchain', hnodup'⟩ := before_next hchain hnodup hnew hc hd
    have hmost' : source.schema.types.size + 2 ≤ most + (chain ++ [name]).length := by
      rw [List.length_append, List.length_singleton]
      omega
    obtain ⟨names, stop, hgives, hstop⟩ := ih hr hmade hchain' hnodup' hmost'
    exact ⟨names, stop, gives_followCopies_succ.mpr
      ⟨hnew, .inr ⟨hnone, hc, .inl ⟨next, hd, hgives⟩⟩⟩, hstop⟩

end LinkedSchema.Source
