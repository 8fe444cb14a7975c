import LinkedSchema.Proofs.Compile.Growth
import LinkedSchema.Proofs.Order.Budget
import Mathlib.Data.List.Dedup

namespace LinkedSchema

/-- From the first registry slots were reserved for the given names, and for no others. -/
structure Registry.Reserves (start : Registry) (names : List String) (registry : Registry) :
    Prop where
  grows : start.Grows registry
  size : registry.nodes.size = start.nodes.size + names.length
  nodup : names.Nodup
  new : ∀ name ∈ names, start.slot? name = none ∧ (registry.slot? name).isSome = true

namespace Registry.Reserves

variable {start registry after : Registry} {names others : List String} {name : String}

theorem refl (registry : Registry) : registry.Reserves [] registry :=
  ⟨.refl registry, rfl, .nil, nofun⟩

theorem perm (h : start.Reserves names registry) (hp : names.Perm others) :
    start.Reserves others registry :=
  ⟨h.grows, hp.length_eq ▸ h.size, hp.nodup_iff.mp h.nodup,
    fun name hm => h.new name (hp.mem_iff.mpr hm)⟩

theorem fill {slot : Slot} {node : Node} (h : start.Reserves names registry)
    (hs : start.nodes.size ≤ slot) (hf : registry.fill? slot node = some after) :
    start.Reserves names after := by
  refine ⟨h.grows.fill hs hf, (Registry.size_of_fill? hf).trans h.size, h.nodup, fun name hm => ?_⟩
  rw [Registry.slot?_of_fill? hf]
  exact h.new name hm

theorem addName (h : start.Reserves names registry) (other : String) (slot : Slot) :
    start.Reserves names (registry.addName other slot) := by
  have hgrows := Registry.Grows.addName registry other slot
  exact ⟨h.grows.trans hgrows, h.size, h.nodup,
    fun name hm => ⟨(h.new name hm).1, hgrows.isSome_slot? (h.new name hm).2⟩⟩

theorem reserve (h : start.Reserves names registry) (hn : registry.slot? name = none) :
    start.Reserves (name :: names) (registry.reserve name) := by
  have hgrows := Registry.Grows.reserve hn
  have hold : start.slot? name = none := by
    cases hs : start.slot? name with
    | none => rfl
    | some slot =>
      rw [h.grows.slot? hs] at hn
      cases hn
  refine ⟨h.grows.trans hgrows, ?_, List.nodup_cons.mpr ⟨fun hm => ?_, h.nodup⟩, fun other ho => ?_⟩
  · rw [Registry.size_reserve, h.size, List.length_cons, Nat.add_assoc]
  · have hsome := (h.new name hm).2
    rw [hn] at hsome
    cases hsome
  · rcases List.mem_cons.mp ho with rfl | ho
    · exact ⟨hold, Option.isSome_of_eq_some (registry.slot?_reserve_self other)⟩
    · exact ⟨(h.new other ho).1, hgrows.isSome_slot? (h.new other ho).2⟩

end Registry.Reserves

namespace Source

/-- Slots were reserved for definitions that were asked for by name, for definitions in the place of
references in these, and for transforms. -/
structure AccountedBy (source : Source) (start : Registry)
    (asked inlines : List (String × TypeDefn)) (customs : List String) (registry : Registry) :
    Prop where
  reserves : start.Reserves (asked.map Prod.fst ++ inlines.map Prod.fst ++ customs) registry
  isAsked : ∀ entry ∈ asked,
    source.custom.get? entry.1 = none ∧ source.definition? entry.1 = some entry.2
  isInline : ∀ entry ∈ inlines, ∃ outer ∈ asked, entry ∈ outer.2.inlines outer.1
  isCustom : ∀ name ∈ customs, (source.custom.get? name).isSome = true

/-- The definitions that were asked for and got slots are the given ones. -/
def Accounts (source : Source) (start : Registry) (asked : List (String × TypeDefn))
    (registry : Registry) : Prop :=
  ∃ inlines customs, source.AccountedBy start asked inlines customs registry

/-- The definition is that of the name, or stands within one that was asked for and got a slot. -/
def Stands (source : Source) (asked : List (String × TypeDefn)) (name : String)
    (defn : TypeDefn) : Prop :=
  source.definition? name = some defn ∨ ∃ outer ∈ asked, (name, defn) ∈ outer.2.inlines outer.1

variable {source : Source} {asked : List (String × TypeDefn)} {start registry after : Registry}
  {name : String} {defn : TypeDefn}

namespace Accounts

theorem refl (source : Source) (registry : Registry) : source.Accounts registry [] registry :=
  ⟨[], [], .refl registry, nofun, nofun, nofun⟩

theorem fill {slot : Slot} {node : Node} (h : source.Accounts start asked registry)
    (hs : start.nodes.size ≤ slot) (hf : registry.fill? slot node = some after) :
    source.Accounts start asked after := by
  obtain ⟨inlines, customs, h⟩ := h
  exact ⟨inlines, customs, { h with reserves := h.reserves.fill hs hf }⟩

theorem addName (h : source.Accounts start asked registry) (other : String) (slot : Slot) :
    source.Accounts start asked (registry.addName other slot) := by
  obtain ⟨inlines, customs, h⟩ := h
  exact ⟨inlines, customs, { h with reserves := h.reserves.addName other slot }⟩

/-- A slot is reserved for a definition, and whatever stands within it may be compiled next. -/
theorem reserve (h : source.Accounts start asked registry) (hn : registry.slot? name = none)
    (hc : source.custom.get? name = none) (hs : source.Stands asked name defn) :
    ∃ more, source.Accounts start (more ++ asked) (registry.reserve name) ∧
      ∀ entry ∈ defn.inlines name, ∃ outer ∈ more ++ asked, entry ∈ outer.2.inlines outer.1 := by
  obtain ⟨inlines, customs, h⟩ := h
  rcases hs with ha | ⟨outer, ho, hm⟩
  · refine ⟨[(name, defn)], ⟨inlines, customs, h.reserves.reserve hn, ?_, ?_, h.isCustom⟩, ?_⟩
    · intro entry he
      rcases List.mem_cons.mp he with rfl | he
      · exact ⟨hc, ha⟩
      · exact h.isAsked entry he
    · intro entry he
      obtain ⟨outer, ho, hm⟩ := h.isInline entry he
      exact ⟨outer, List.mem_cons_of_mem _ ho, hm⟩
    · exact fun entry he => ⟨(name, defn), List.mem_cons_self .., he⟩
  · refine ⟨[], ⟨(name, defn) :: inlines, customs, ?_, h.isAsked, ?_, h.isCustom⟩, ?_⟩
    · refine (h.reserves.reserve hn).perm ?_
      rw [List.map_cons, List.append_assoc, List.append_assoc, List.cons_append]
      exact List.perm_middle.symm
    · intro entry he
      rcases List.mem_cons.mp he with rfl | he
      · exact ⟨outer, ho, hm⟩
      · exact h.isInline entry he
    · obtain ⟨part, hp, hin⟩ := List.mem_flatMap.mp hm
      intro entry he
      exact ⟨outer, ho, List.mem_flatMap.mpr ⟨part, hp, TypeTerm.inlines_subset _ _ _ hin he⟩⟩

end Accounts

/-- The registry comes from another one, and of the definitions that were asked for some more may
have got slots on the way. -/
def Kept (source : Source) (start : Registry) (asked : List (String × TypeDefn))
    (before after : Registry) : Prop :=
  before.Grows after ∧ ∃ more, source.Accounts start (more ++ asked) after

namespace Kept

variable {before between : Registry}

theorem refl (h : source.Accounts start asked registry) :
    source.Kept start asked registry registry :=
  ⟨.refl registry, [], h⟩

theorem trans {more : List (String × TypeDefn)} (hg : before.Grows between)
    (h : source.Kept start (more ++ asked) between after) :
    source.Kept start asked before after := by
  obtain ⟨hgrows, others, h⟩ := h
  exact ⟨hg.trans hgrows, others ++ more, by rwa [List.append_assoc]⟩

theorem addName (h : source.Kept start asked before after) (other : String) (slot : Slot) :
    source.Kept start asked before (after.addName other slot) := by
  obtain ⟨hgrows, more, h⟩ := h
  exact ⟨hgrows.trans (.addName after other slot), more, h.addName other slot⟩

/-- The slot that was reserved last is filled. -/
theorem fill {more : List (String × TypeDefn)} {node : Node} {filled : Registry}
    (h : source.Kept start (more ++ asked) (before.reserve name) after)
    (hn : before.slot? name = none) (hs : start.nodes.size ≤ before.nodes.size)
    (hf : after.fill? before.nodes.size node = some filled) :
    source.Kept start asked before filled := by
  obtain ⟨hgrows, others, h⟩ := h
  refine ⟨((Registry.Grows.reserve hn).trans hgrows).fill (Nat.le_refl _) hf, others ++ more, ?_⟩
  rw [List.append_assoc]
  exact h.fill hs hf

end Kept

section Counts

variable {inlines : List (String × TypeDefn)} {customs : List String}

/-- Each inline definition with a slot stands at a place of its own. -/
theorem AccountedBy.length_inlines_le
    (h : source.AccountedBy start asked inlines customs registry) :
    inlines.length ≤ (asked.map fun entry => entry.2.inlineCount).sum := by
  have hn : inlines.Nodup := by
    refine List.Nodup.of_map Prod.fst ?_
    exact (List.nodup_append.mp (List.nodup_append.mp h.reserves.nodup).1).2.1
  have hsub : inlines ⊆ asked.flatMap fun entry => entry.2.inlines entry.1 :=
    fun entry he => List.mem_flatMap.mpr (h.isInline entry he)
  refine (List.subperm_of_subset hn hsub).length_le.trans (Nat.le_of_eq ?_)
  simp only [List.length_flatMap, TypeDefn.length_inlines]

end Counts

end Source

end LinkedSchema
