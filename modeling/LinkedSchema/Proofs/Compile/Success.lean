import LinkedSchema.Proofs.Compile.Advance

namespace LinkedSchema

namespace Source

open Compilation

variable {source : Source} {add : DefnCompiler} {before between after : Registry} {owner : String}
  {node : Node}

/-- Types were compiled one after the other. -/
structure Compiles (source : Source) (before after : Registry) : Prop where
  moves : source.Moves before after
  size : before.nodes.size ≤ after.nodes.size
  old : ∀ slot, slot < before.nodes.size → after.node? slot = before.node? slot
  filled : ∀ slot, before.nodes.size ≤ slot → slot < after.nodes.size →
    (after.node? slot).isSome = true

namespace Compiles

theorem refl (registry : Registry) : source.Compiles registry registry :=
  ⟨.refl _, Nat.le_refl _, fun _ _ => rfl, fun _ h h' => absurd h (Nat.not_le_of_lt h')⟩

theorem trans (h : source.Compiles before between) (h' : source.Compiles between after) :
    source.Compiles before after := by
  refine ⟨h.moves.trans h'.moves, Nat.le_trans h.size h'.size, fun slot hs => ?_,
    fun slot hs hlt => ?_⟩
  · rw [h'.old slot (Nat.lt_of_lt_of_le hs h.size), h.old slot hs]
  · by_cases hb : slot < between.nodes.size
    · rw [h'.old slot hb]
      exact h.filled slot hs hb
    · exact h'.filled slot (Nat.le_of_not_lt hb) hlt

/-- A name joins the slot of a type that it copies. -/
theorem join {name target : String} {slot : Slot} (hs : before.slot? target = some slot)
    (hl : source.Leads name target) : source.Compiles before (before.addName name slot) :=
  ⟨.single (.join hs hl), Nat.le_refl _, fun _ _ => Registry.node?_addName ..,
    fun _ h h' => absurd h (Nat.not_le_of_lt h')⟩

/-- A new slot is reserved, its type is compiled, and the slot is filled. -/
theorem newSlot {name : String} (hn : before.slot? name = none) (hr : source.IsRoot name)
    (hb : source.Compiles (before.reserve name) between) (hc : source.Compiled between name node)
    (hf : between.fill? before.nodes.size node = some after) : source.Compiles before after := by
  have hsize := hb.size
  rw [Registry.size_reserve] at hsize
  have hslot : between.slot? name = some before.nodes.size :=
    hb.moves.slot? (before.slot?_reserve_self name)
  have hold : ∀ slot, slot < before.nodes.size + 1 → between.node? slot = before.node? slot := by
    intro slot hs
    rw [hb.old slot (by rwa [Registry.size_reserve]), Registry.node?_reserve]
  have hempty : between.node? before.nodes.size = none := by
    rw [hold _ (Nat.lt_succ_self _), Registry.node?_eq_none_of_size_le (Nat.le_refl _)]
  have hsize' := Registry.size_of_fill? hf
  refine ⟨?_, by omega, fun slot hs => ?_, fun slot hs hlt => ?_⟩
  · exact ((Moves.single (.reserve hn hr)).trans hb.moves).trans
      (.single (.fill hslot hr hempty hc hf))
  · rw [Registry.node?_of_fill? hf, if_neg (Nat.ne_of_lt hs), hold slot (Nat.lt_succ_of_lt hs)]
  · rw [Registry.node?_of_fill? hf]
    split
    · rfl
    · rename_i hne
      have hge : before.nodes.size + 1 ≤ slot := Nat.lt_of_le_of_ne hs (Ne.symm hne)
      rw [← Registry.size_reserve before name] at hge
      exact hb.filled slot hge (by omega)

theorem slot? (h : source.Compiles before after) {name : String}
    (hs : (before.slot? name).isSome = true) : (after.slot? name).isSome = true := by
  obtain ⟨slot, hs⟩ := Option.isSome_iff_exists.mp hs
  rw [h.moves.slot? hs]
  rfl

theorem wellFormed (h : source.Compiles before after) (hw : before.WellFormed) :
    after.WellFormed :=
  h.moves.wellFormed hw

theorem full (h : source.Compiles ∅ after) : after.Full :=
  fun slot => h.filled slot (Nat.zero_le slot)

theorem steady (source : Source) : Steady Registry.WellFormed source.Compiles where
  refl := .refl
  trans := .trans
  kept hw h := h.wellFormed hw
  slot? h := h.moves.slot?
  types h := h.moves.keepsNodes.types h.size

end Compiles

/-- Adding a definition that comes from the source compiles types, and gives the name a slot. -/
def AddsWell (source : Source) (add : DefnCompiler) : Prop :=
  ∀ name defn before after, source.Origin name defn → before.WellFormed →
    Gives (add name defn) before () after →
      source.Compiles before after ∧ (after.slot? name).isSome = true

/-- The names of a chain join the slot of its end. -/
theorem compiles_joins {target : String} {slot : Slot} {names : List String}
    (hl : ∀ name ∈ names, source.Leads name target) (hs : before.slot? target = some slot)
    (h : Gives (names.forM fun name => modify (·.addName name slot)) before () after) :
    source.Compiles before after := by
  refine h.forM (d := []) (I := fun _ reached => source.Compiles before reached) ?_ (.refl _)
  intro _ name hm registry reached hc hstep
  have hreached : reached = registry.addName name slot := gives_modify.mp hstep
  subst hreached
  exact hc.trans (.join (hc.moves.slot? hs) (hl name hm))

theorem Compiles.advances (source : Source) :
    source.Advances (fun _ => source.Origin) Registry.WellFormed source.Compiles where
  toSteady := Compiles.steady source
  origin_mono ho _ := ho
  declared _ _ := .declared
  inline ho _ hc hp hi := by
    rw [TypeTerm.nameIn_of_inline? hi]
    exact ho.part hc hp hi
  reserve _ hw := hw.reserve _
  custom hn hc hv hf := .newSlot hn (.custom hc) (.refl _) (.custom hc hv) hf
  defined hn hc ho hcopy hcomp hb hf :=
    .newSlot hn (.defined hc ho hcopy) hcomp (.built hc ho hb) hf
  joins hc hd hchain hs h := by
    obtain ⟨hfrom, hnames⟩ := hchain.leads Leads.refl Leads.trans fun _ _ _ _ hc hd =>
      Leads.copy hc hd.copy (.refl _)
    refine compiles_joins (fun name hm => ?_) hs h
    rcases hnames name hm with rfl | hl
    · exact Leads.copy hc hd.copy hfrom
    · exact hl

theorem AddsWell.addNamed (ha : source.AddsWell add) {name : String} (hw : before.WellFormed)
    (h : Gives (addNamed source add name) before () after) :
    source.Compiles before after ∧ (after.slot? name).isSome = true :=
  (Compiles.advances source).addNamed ha hw h

theorem AddsWell.compile (ha : source.AddsWell add) {defn : TypeDefn}
    (ho : source.Origin owner defn) (hs : (before.slot? owner).isSome = true)
    (hc : source.custom.get? owner = none) (hw : before.WellFormed)
    (h : Gives (defn.compile source add owner) before node after) :
    source.Compiles before after ∧ Built after.slot? after.Types owner defn node :=
  (Compiles.advances source).compile ha ho hs hc hw h

theorem addsWell_addDefnUpTo (source : Source) (most : Nat) :
    source.AddsWell (addDefnUpTo source most) :=
  (Compiles.advances source).addDefnUpTo most

/-- Compiling a named type that succeeds. -/
theorem compiles_addType {name : String} (hw : before.WellFormed)
    (h : Gives (source.addType name) before () after) :
    source.Compiles before after ∧ (after.slot? name).isSome = true :=
  (Compiles.advances source).addType hw h

theorem create_eq_ok_iff {root : String} {transformer : Transformer} :
    source.create root = .ok transformer ↔ root.isEmpty = false ∧
      ∃ registry slot, Gives (source.addType root) ∅ () registry ∧
        registry.slot? root = some slot ∧ transformer = ⟨root, slot, registry⟩ := by
  simp only [create, Registry.after]
  generalize hrun : (ExceptT.run (source.addType root)).run ∅ = run
  obtain ⟨result, registry⟩ := run
  constructor
  · intro h
    split at h
    · cases h
    · rename_i hroot
      cases result with
      | error error => cases h
      | ok _ =>
        simp only [Outcome.ok_bind] at h
        split at h
        · rename_i found ht
          cases h
          obtain ⟨slot, hs, rfl⟩ := Option.map_eq_some_iff.mp ht
          exact ⟨by simpa using hroot, registry, slot, hrun, hs, rfl⟩
        · cases h
  · intro h
    obtain ⟨hroot, reached, slot, h, hs, rfl⟩ := h
    unfold Gives at h
    rw [hrun] at h
    cases h
    rw [if_neg (by simp [hroot])]
    simp [Registry.transformer?, hs]

/-- A schema that compiles leaves a registry in which every slot is filled. -/
theorem compiles_create {root : String} {transformer : Transformer}
    (h : source.create root = .ok transformer) : source.Compiles ∅ transformer.registry := by
  obtain ⟨_, registry, slot, hrun, _, rfl⟩ := create_eq_ok_iff.mp h
  exact (compiles_addType Registry.WellFormed.empty hrun).1

end Source

end LinkedSchema
