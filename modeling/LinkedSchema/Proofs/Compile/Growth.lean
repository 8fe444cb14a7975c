import LinkedSchema.Proofs.Plain.Steps

namespace LinkedSchema

/-- No slot is empty. -/
def Registry.Full (registry : Registry) : Prop :=
  ∀ slot, slot < registry.nodes.size → (registry.node? slot).isSome = true

theorem Registry.Full.exists_node? {registry : Registry} {slot : Slot} (h : registry.Full)
    (hs : slot < registry.nodes.size) : ∃ node, registry.node? slot = some node :=
  Option.isSome_iff_exists.mp (h slot hs)

namespace Table

variable {α : Type} {t u : Table α} {key : String} {value : α}

theorem entries_prefix_insertIfNew (t : Table α) (key : String) (value : α) :
    t.entries <+: (t.insertIfNew key value).entries := by
  unfold insertIfNew
  split
  · exact List.prefix_rfl
  · rename_i hc
    rw [entries_insert_of_not_contains (Bool.eq_false_iff.mpr hc)]
    exact List.prefix_append _ _

theorem get?_of_prefix (h : t.entries <+: u.entries) (hg : t.get? key = some value) :
    u.get? key = some value :=
  get?_eq_some_iff.mpr (h.mem (get?_eq_some_iff.mp hg))

end Table

namespace Registry

variable {registry filled before between after : Registry} {name : String} {slot : Slot}
  {node : Node}

theorem size_of_fill? (h : registry.fill? slot node = some filled) :
    filled.nodes.size = registry.nodes.size := by
  unfold fill? at h
  split at h
  · cases h
    simp
  · cases h

theorem names_of_fill? (h : registry.fill? slot node = some filled) :
    filled.names = registry.names := by
  unfold fill? at h
  split at h
  · cases h
    rfl
  · cases h

theorem node?_eq_none_of_size_le (h : registry.nodes.size ≤ slot) : registry.node? slot = none := by
  simp [node?, Array.getElem?_eq_none h]

theorem lt_size_of_node? (h : registry.node? slot = some node) : slot < registry.nodes.size := by
  refine Nat.lt_of_not_le fun hle => ?_
  rw [node?_eq_none_of_size_le hle] at h
  cases h

theorem size_reserve (registry : Registry) (name : String) :
    (registry.reserve name).nodes.size = registry.nodes.size + 1 := by
  simp [reserve]

theorem isSome_slot?_addName (registry : Registry) (name : String) (slot : Slot) :
    ((registry.addName name slot).slot? name).isSome = true := by
  rw [slot?_addName]
  split
  · rfl
  · rename_i hn
    rw [slot?, ← Table.contains_eq_isSome]
    simpa using hn

theorem extends_of_fill? (h : registry.fill? slot node = some filled)
    (he : registry.node? slot = none) : registry.Extends filled := by
  intro other found hn
  rw [node?_of_fill? h, if_neg, hn]
  rintro rfl
  rw [he] at hn
  cases hn

/-- One registry comes from another, and nothing that was there has changed. -/
structure Grows (before after : Registry) : Prop where
  names : before.names.entries <+: after.names.entries
  size : before.nodes.size ≤ after.nodes.size
  old : ∀ slot, slot < before.nodes.size → after.node? slot = before.node? slot

namespace Grows

theorem refl (registry : Registry) : registry.Grows registry :=
  ⟨List.prefix_rfl, Nat.le_refl _, fun _ _ => rfl⟩

theorem trans (h : before.Grows between) (h' : between.Grows after) : before.Grows after :=
  ⟨h.names.trans h'.names, Nat.le_trans h.size h'.size, fun slot hs => by
    rw [h'.old slot (Nat.lt_of_lt_of_le hs h.size), h.old slot hs]⟩

theorem slot? (h : before.Grows after) (hs : before.slot? name = some slot) :
    after.slot? name = some slot :=
  Table.get?_of_prefix h.names hs

theorem isSome_slot? (h : before.Grows after) (hs : (before.slot? name).isSome = true) :
    (after.slot? name).isSome = true := by
  obtain ⟨slot, hs⟩ := Option.isSome_iff_exists.mp hs
  exact Option.isSome_of_eq_some (h.slot? hs)

theorem keepsNodes (h : before.Grows after) : before.Extends after := by
  intro slot node hn
  rw [h.old slot, hn]
  refine Nat.lt_of_not_le fun hle => ?_
  rw [node?_eq_none_of_size_le hle] at hn
  cases hn

/-- A name without a slot gets a new one. -/
theorem reserve (hn : registry.slot? name = none) : registry.Grows (registry.reserve name) := by
  refine ⟨?_, ?_, fun slot _ => registry.node?_reserve name slot⟩
  · have hc : registry.names.contains name = false := by
      rw [Table.contains_eq_isSome]
      exact Option.isSome_eq_false_iff.mpr (Option.isNone_iff_eq_none.mpr hn)
    simp only [Registry.reserve]
    rw [Table.entries_insert_of_not_contains hc]
    exact List.prefix_append _ _
  · rw [size_reserve]
    exact Nat.le_succ _

/-- A reserved slot stays with its name. -/
theorem slot?_reserved (h : (registry.reserve name).Grows after) :
    after.slot? name = some registry.nodes.size :=
  h.slot? (registry.slot?_reserve_self name)

/-- A reserved slot stays empty. -/
theorem node?_reserved (h : (registry.reserve name).Grows after) :
    after.node? registry.nodes.size = none := by
  have hlt : registry.nodes.size < (registry.reserve name).nodes.size := by
    rw [size_reserve]
    exact Nat.lt_succ_self _
  rw [h.old _ hlt, node?_reserve, node?_eq_none_of_size_le (Nat.le_refl _)]

/-- Filling a slot that was not there before changes nothing that was. -/
theorem fill (h : before.Grows between) (hs : before.nodes.size ≤ slot)
    (hf : between.fill? slot node = some after) : before.Grows after := by
  refine ⟨?_, ?_, fun other ho => ?_⟩
  · rw [names_of_fill? hf]
    exact h.names
  · rw [size_of_fill? hf]
    exact h.size
  · rw [node?_of_fill? hf, if_neg (Nat.ne_of_lt (Nat.lt_of_lt_of_le ho hs)), h.old other ho]

theorem addName (registry : Registry) (name : String) (slot : Slot) :
    registry.Grows (registry.addName name slot) :=
  ⟨registry.names.entries_prefix_insertIfNew name slot, Nat.le_refl _,
    fun _ _ => node?_addName ..⟩

end Grows

theorem WellFormed.reserve (hw : registry.WellFormed) (name : String) :
    (registry.reserve name).WellFormed := by
  intro slot node hn
  rw [node?_reserve] at hn
  exact hw slot node hn

theorem WellFormed.addName (hw : registry.WellFormed) (name : String) (slot : Slot) :
    (registry.addName name slot).WellFormed :=
  fun other node hn => hw other node (node?_addName registry name slot other ▸ hn)

theorem WellFormed.fill {slot : Slot} {node : Node} (hw : registry.WellFormed)
    (hn : node.WellFormed) (hf : registry.fill? slot node = some filled) : filled.WellFormed := by
  intro other found hfound
  rw [node?_of_fill? hf] at hfound
  split at hfound
  · cases hfound
    exact hn
  · exact hw other found hfound

end Registry

end LinkedSchema
