import LinkedSchema.Proofs.Compile.Apart
import LinkedSchema.Proofs.Compile.Slots

namespace LinkedSchema.Source

variable {source : Source} {registry before after : Registry} {name target : String} {slot : Slot}
  {node : Node}

theorem Compiled.isRoot (h : source.Compiled registry name node) : source.IsRoot name := by
  cases h with
  | custom hc => exact .custom hc
  | built hc ho hb =>
    refine .defined hc ho fun fromType he => ?_
    subst he
    cases hb

/-- What was compiled under a name is what its definition is built to. -/
theorem Compiled.built_of_unambiguous (h : source.Compiled registry name node)
    (hu : source.Unambiguous) (hc : source.custom.get? name = none) {defn : TypeDefn}
    (ho : source.Origin name defn) :
    Built registry.slot? registry.Types name defn node := by
  cases h with
  | custom hc' => simp [hc] at hc'
  | built _ ho' hb =>
    cases hu name _ _ ho ho'
    exact hb

/-- Nothing leads on from a name that is no copy. -/
theorem Unambiguous.eq_of_leads (hu : source.Unambiguous) (hr : source.IsRoot name)
    (hl : source.Leads name target) : name = target := by
  cases hl with
  | refl => rfl
  | copy hc hd _ =>
    cases hr with
    | custom hc' => simp [hc] at hc'
    | defined _ ho hcopy => exact absurd (hu name _ _ ho (.declared hd)) (hcopy _)

theorem NamesApart.eq_of_leads (hn : source.NamesApart) (hr : source.IsRoot name)
    (hl : source.Leads name target) : name = target :=
  hn.unambiguous.eq_of_leads hr hl

/-- Copies lead to names that stand for themselves. -/
theorem NamesApart.means_of_leads (hn : source.NamesApart) (hm : source.Means name (.named name))
    (hl : source.Leads name target) : source.Means target (.named target) := by
  induction hl with
  | refl => exact hm
  | copy hc hd _ ih =>
    rename_i next _ _
    have hp : ("fromType", TypeTerm.named next) ∈ (TypeDefn.copy next).parts :=
      List.mem_singleton_self _
    exact ih (hn.means_part (.declared hd) hc hp)

/-- Every slot belongs to one name that is no copy, and holds what that name is compiled to. -/
structure Faithful (source : Source) (registry : Registry) : Prop where
  made : source.Made registry
  bound : ∀ name slot, registry.slot? name = some slot → slot < registry.nodes.size
  root : ∀ name slot, registry.slot? name = some slot →
    ∃ target, source.Leads name target ∧ source.IsRoot target ∧ registry.slot? target = some slot
  unique : ∀ name other slot, source.IsRoot name → source.IsRoot other →
    registry.slot? name = some slot → registry.slot? other = some slot → name = other

namespace Faithful

theorem tellsApart (h : source.Faithful registry) : registry.TellsApart source.IsRoot :=
  ⟨h.bound, h.unique⟩

theorem of_tellsApart (hm : source.Made registry) (hr : source.Rooted registry)
    (ha : registry.TellsApart source.IsRoot) : source.Faithful registry :=
  ⟨hm, ha.bound, hr, ha.unique⟩

theorem empty : source.Faithful ∅ :=
  of_tellsApart .empty (Moves.refl ∅).rooted (.empty _)

theorem wellFormed (h : source.Faithful registry) : registry.WellFormed :=
  h.made.wellFormed

theorem compiled (h : source.Faithful registry) (hr : source.IsRoot name)
    (hs : registry.slot? name = some slot) (hf : registry.node? slot = some node) :
    source.Compiled registry name node := by
  obtain ⟨other, ho, hc⟩ := h.made slot node hf
  have he := h.unique name other slot hr hc.isRoot hs ho
  exact he ▸ hc

theorem exists_compiled (h : source.Faithful registry) (hs : registry.slot? name = some slot)
    (hf : registry.node? slot = some node) :
    ∃ target, source.Leads name target ∧ registry.slot? target = some slot ∧
      source.Compiled registry target node := by
  obtain ⟨target, hl, hr, ht⟩ := h.root name slot hs
  exact ⟨target, hl, ht, h.compiled hr ht hf⟩

theorem reserve (h : source.Faithful before) (hs : before.slot? name = none)
    (hr : source.IsRoot name) : source.Faithful (before.reserve name) := by
  have hm : source.Move before (before.reserve name) := .reserve hs hr
  exact of_tellsApart (h.made.move hm) (Rooted.move h.root hm) (h.tellsApart.reserve name)

theorem move (hu : source.Unambiguous) (h : source.Faithful before)
    (hm : source.Move before after) : source.Faithful after := by
  refine of_tellsApart (h.made.move hm) (Rooted.move h.root hm) ?_
  cases hm with
  | reserve => exact h.tellsApart.reserve _
  | fill _ _ _ _ hf => exact h.tellsApart.fill hf
  -- A name that is no copy leads to itself, so it has the slot before it could join it.
  | join hs hl => exact h.tellsApart.addName hs fun hr => hu.eq_of_leads hr hl

theorem moves_of_unambiguous (hu : source.Unambiguous) (h : source.Faithful before)
    (hm : source.Moves before after) : source.Faithful after := by
  induction hm with
  | refl => exact h
  | tail _ hm ih => exact ih.move hu hm

theorem moves (hn : source.NamesApart) (h : source.Faithful before)
    (hm : source.Moves before after) : source.Faithful after :=
  h.moves_of_unambiguous hn.unambiguous hm

end Faithful

end LinkedSchema.Source
