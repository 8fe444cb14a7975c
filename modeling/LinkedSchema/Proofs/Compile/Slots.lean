import LinkedSchema.Proofs.Compile.Success

namespace LinkedSchema

/-- The slots of names are there, and those of the chosen names differ. -/
structure Registry.TellsApart (registry : Registry) (chosen : String → Prop) : Prop where
  bound : ∀ name slot, registry.slot? name = some slot → slot < registry.nodes.size
  unique : ∀ name other slot, chosen name → chosen other → registry.slot? name = some slot →
    registry.slot? other = some slot → name = other

namespace Registry.TellsApart

variable {registry filled : Registry} {chosen : String → Prop} {slot : Slot} {node : Node}

theorem empty (chosen : String → Prop) : TellsApart ∅ chosen := by
  refine ⟨fun name slot hs => ?_, fun name other slot _ _ hs => ?_⟩
  all_goals cases hs

/-- The new slot differs from all others. -/
theorem reserve (h : registry.TellsApart chosen) (name : String) :
    (registry.reserve name).TellsApart chosen := by
  refine ⟨fun other slot hs => ?_, fun first second slot hfirst hsecond hs hs' => ?_⟩
  · rw [slot?_reserve] at hs
    rw [size_reserve]
    split at hs
    · cases hs
      exact Nat.lt_succ_self _
    · exact Nat.lt_succ_of_lt (h.bound other slot hs)
  · rw [slot?_reserve] at hs hs'
    split at hs
    · cases hs
      split at hs'
      · simp_all
      · exact absurd (h.bound second _ hs') (Nat.lt_irrefl _)
    · split at hs'
      · cases hs'
        exact absurd (h.bound first _ hs) (Nat.lt_irrefl _)
      · exact h.unique first second slot hfirst hsecond hs hs'

theorem fill (h : registry.TellsApart chosen) (hf : registry.fill? slot node = some filled) :
    filled.TellsApart chosen := by
  have hslots := slot?_of_fill? hf
  refine ⟨fun name slot hs => ?_, fun name other slot hn ho hs hs' => ?_⟩
  · rw [hslots] at hs
    rw [size_of_fill? hf]
    exact h.bound name slot hs
  · rw [hslots] at hs hs'
    exact h.unique name other slot hn ho hs hs'

/-- A name that joins a slot is not chosen, or has the slot already. -/
theorem addName (h : registry.TellsApart chosen) {name target : String}
    (hs : registry.slot? target = some slot) (hn : chosen name → name = target) :
    (registry.addName name slot).TellsApart chosen := by
  have hold : ∀ other found, (registry.addName name slot).slot? other = some found →
      registry.slot? other = some found ∨ other = name ∧ found = slot := by
    intro other found ho
    rw [slot?_addName] at ho
    split at ho
    · rename_i hname
      cases ho
      exact .inr ⟨hname.1, rfl⟩
    · exact .inl ho
  have hchosen : ∀ other found, chosen other →
      (registry.addName name slot).slot? other = some found →
        registry.slot? other = some found := by
    intro other found hc ho
    rcases hold other found ho with ho | ⟨rfl, rfl⟩
    · exact ho
    · rw [hn hc]
      exact hs
  refine ⟨fun other found ho => ?_, fun first second found hfirst hsecond ho ho' => ?_⟩
  · rcases hold other found ho with ho | ⟨-, rfl⟩
    · exact h.bound other found ho
    · exact h.bound target found hs
  · exact h.unique first second found hfirst hsecond (hchosen first found hfirst ho)
      (hchosen second found hsecond ho')

end Registry.TellsApart

namespace Source

variable {source : Source} {before after : Registry} {name : String}

/-- Every name with a slot leads to a name that is no copy and has the same slot. -/
def Rooted (source : Source) (registry : Registry) : Prop :=
  ∀ name slot, registry.slot? name = some slot →
    ∃ target, source.Leads name target ∧ source.IsRoot target ∧ registry.slot? target = some slot

theorem Rooted.move (h : source.Rooted before) (hm : source.Move before after) :
    source.Rooted after := by
  intro name slot hs
  have hold : ∀ {name slot}, before.slot? name = some slot →
      ∃ target, source.Leads name target ∧ source.IsRoot target ∧
        after.slot? target = some slot := fun hs => by
    obtain ⟨target, hl, hr, ht⟩ := h _ _ hs
    exact ⟨target, hl, hr, hm.slot? ht⟩
  cases hm with
  | reserve hn hr =>
    rw [Registry.slot?_reserve] at hs
    split at hs
    · rename_i he
      subst he
      exact ⟨name, .refl name, hr, (Registry.slot?_reserve_self _ name).trans hs⟩
    · exact hold hs
  | fill _ _ _ _ hf =>
    rw [Registry.slot?_of_fill? hf] at hs
    exact hold hs
  | join ht hl =>
    rw [Registry.slot?_addName] at hs
    split at hs
    · rename_i he
      cases hs
      obtain ⟨target, hl', hr, hs⟩ := hold ht
      exact ⟨target, he.1 ▸ hl.trans hl', hr, hs⟩
    · exact hold hs

theorem Moves.rooted (h : source.Moves ∅ after) : source.Rooted after := by
  induction h with
  | refl => exact fun name slot hs => by cases hs
  | tail _ hm ih => exact ih.move hm

end Source

end LinkedSchema
