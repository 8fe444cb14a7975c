import LinkedSchema.Proofs.Compile.InForce
import LinkedSchema.Proofs.Compile.Success

namespace LinkedSchema

/-- Converters are those of the slots of names. -/
theorem Registry.transformer?_eq_some_iff {registry : Registry} {name : String}
    {transformer : Transformer} :
    registry.transformer? name = some transformer ↔
      ∃ slot, registry.slot? name = some slot ∧ ⟨name, slot, registry⟩ = transformer :=
  Option.map_eq_some_iff

namespace Source

open Compilation

/-- A definition that a name may have been compiled from: that of the name in the source, or one
that stands in the place of a reference in such a definition of a registered name. -/
inductive Entered (source : Source) (registry : Registry) : String → TypeDefn → Prop where
  | declared {name : String} {defn : TypeDefn} (h : source.definition? name = some defn) :
      Entered source registry name defn
  | inline {owner : String} {outer defn : TypeDefn} {part : String × TypeTerm}
      (ho : Entered source registry owner outer) (hs : (registry.slot? owner).isSome = true)
      (hc : source.custom.get? owner = none) (hp : part ∈ outer.parts)
      (hi : part.2.inline? = some defn) :
      Entered source registry (part.2.nameIn owner part.1) defn

/-- The definition of a registered name is a copy. -/
structure Copies (source : Source) (registry : Registry) (name next : String) : Prop where
  custom : source.custom.get? name = none
  declared : source.definition? name = some (.copy next)
  registered : (registry.slot? name).isSome = true

/-- What the transform of a name, or its definition, is compiled to. -/
inductive CompiledFrom (source : Source) (registry : Registry) (name : String) : Node → Prop where
  | custom {transform : CustomTransform} (hc : source.custom.get? name = some transform) :
      CompiledFrom source registry name (.custom name transform)
  | defined {defn : TypeDefn} {node : Node} (hc : source.custom.get? name = none)
      (hd : source.Entered registry name defn)
      (hb : Built registry.slot? registry.Types name defn node) :
      CompiledFrom source registry name node

variable {source found : Source} {before between after registry : Registry} {name other : String}
  {defn : TypeDefn} {node : Node}

namespace Entered

theorem mono (h : source.Entered before name defn)
    (hs : ∀ name, (before.slot? name).isSome = true → (after.slot? name).isSome = true) :
    source.Entered after name defn := by
  induction h with
  | declared h => exact .declared h
  | inline _ howner hc hp hi ih => exact .inline ih (hs _ howner) hc hp hi

theorem origin (h : source.Entered registry name defn) : source.Origin name defn := by
  induction h with
  | declared h => exact .declared h
  | inline _ _ hc hp hi ih =>
    rw [TypeTerm.nameIn_of_inline? hi]
    exact ih.part hc hp hi

/-- What registered names come from does not change with the definition of another name. -/
theorem declare (h : source.Entered registry name defn) (hn : registry.slot? other = none)
    (hs : (registry.slot? name).isSome = true) (given : TypeDefn) :
    (source.declare other given).Entered registry name defn := by
  induction h with
  | declared h =>
    refine .declared ?_
    rw [definition?_declare, if_neg, h]
    rintro rfl
    rw [hn] at hs
    cases hs
  | inline _ howner hc hp hi ih => exact .inline (ih howner) howner hc hp hi

end Entered

namespace Copies

variable {target : String}

theorem mono {next : String} (h : source.Copies before name next)
    (hs : ∀ name, (before.slot? name).isSome = true → (after.slot? name).isSome = true) :
    source.Copies after name next :=
  ⟨h.custom, h.declared, hs name h.registered⟩

theorem leads_mono (h : Relation.ReflTransGen (source.Copies before) name target)
    (hs : ∀ name, (before.slot? name).isSome = true → (after.slot? name).isSome = true) :
    Relation.ReflTransGen (source.Copies after) name target :=
  have hle : source.Copies before ≤ source.Copies after := fun _ _ h => h.mono hs
  Relation.ReflTransGen.mono hle _ _ h

theorem declare {next : String} (h : source.Copies registry name next)
    (hn : registry.slot? other = none) (given : TypeDefn) :
    (source.declare other given).Copies registry name next := by
  refine ⟨h.custom, ?_, h.registered⟩
  rw [definition?_declare, if_neg, h.declared]
  rintro rfl
  have hs := h.registered
  rw [hn] at hs
  cases hs

theorem leads_declare (h : Relation.ReflTransGen (source.Copies registry) name target)
    (hn : registry.slot? other = none) (given : TypeDefn) :
    Relation.ReflTransGen ((source.declare other given).Copies registry) name target :=
  have hle : source.Copies registry ≤ (source.declare other given).Copies registry :=
    fun _ _ h => h.declare hn given
  Relation.ReflTransGen.mono hle _ _ h

end Copies

namespace CompiledFrom

/-- What was compiled stays right while names keep their slots and slots what they hold. -/
theorem imp (h : source.CompiledFrom before name node)
    (hslots : ∀ name slot, before.slot? name = some slot → after.slot? name = some slot)
    (he : before.Extends after) (hsize : before.nodes.size ≤ after.nodes.size) :
    source.CompiledFrom after name node := by
  cases h with
  | custom hc => exact .custom hc
  | defined hc hd hb =>
    refine .defined hc (hd.mono fun name hs => ?_) (hb.imp hslots fun _ _ _ => he.types hsize)
    obtain ⟨slot, hs⟩ := Option.isSome_iff_exists.mp hs
    exact Option.isSome_of_eq_some (hslots name slot hs)

theorem grows (h : source.CompiledFrom before name node) (hg : before.Grows after) :
    source.CompiledFrom after name node :=
  h.imp (fun _ _ => hg.slot?) hg.keepsNodes hg.size

theorem declare (h : source.CompiledFrom registry name node) (hn : registry.slot? other = none)
    (hs : (registry.slot? name).isSome = true) (given : TypeDefn) :
    (source.declare other given).CompiledFrom registry name node := by
  cases h with
  | custom hc => exact .custom hc
  | defined hc hd hb => exact .defined hc (hd.declare hn hs given) hb

theorem wellFormed (h : source.CompiledFrom registry name node) : node.WellFormed := by
  cases h with
  | custom => trivial
  | defined _ _ hb => exact hb.wellFormed

end CompiledFrom

/-- A name has had the slot before, or the slot holds what the name was compiled to. -/
def Settled (source : Source) (before after : Registry) (name : String) (slot : Slot) : Prop :=
  before.slot? name = some slot ∨
    after.slot? name = some slot ∧
      ∃ node, after.node? slot = some node ∧ source.CompiledFrom after name node

/-- The names and the types that were added came about by compiling: a new name leads along copies
to an earlier name or to what was compiled, and every new slot holds what some name was compiled
to. -/
structure Provides (source : Source) (before after : Registry) : Prop where
  grows : before.Grows after
  named : ∀ name slot, before.slot? name = none → after.slot? name = some slot →
    ∃ target, Relation.ReflTransGen (source.Copies after) name target ∧
      source.Settled before after target slot
  filled : ∀ slot, before.nodes.size ≤ slot → slot < after.nodes.size →
    ∃ name node, after.slot? name = some slot ∧ after.node? slot = some node ∧
      source.CompiledFrom after name node

namespace Provides

theorem refl (registry : Registry) : source.Provides registry registry := by
  refine ⟨.refl registry, fun name slot hn hs => ?_, fun slot hle hlt => ?_⟩
  · rw [hn] at hs
    cases hs
  · exact absurd hle (Nat.not_le_of_lt hlt)

/-- What a name that was added in the first step or before came from, after both steps. -/
theorem settled (h : source.Provides before between) (hg : between.Grows after)
    {slot : Slot} (hs : between.slot? name = some slot) :
    ∃ target, Relation.ReflTransGen (source.Copies after) name target ∧
      source.Settled before after target slot := by
  cases hn : before.slot? name with
  | some earlier =>
    have he := h.grows.slot? hn
    rw [hs] at he
    cases he
    exact ⟨name, .refl, .inl hn⟩
  | none =>
    obtain ⟨target, hl, hold | ⟨ht, node, hnode, hc⟩⟩ := h.named name slot hn hs
    · exact ⟨target, Copies.leads_mono hl fun _ => hg.isSome_slot?, .inl hold⟩
    · exact ⟨target, Copies.leads_mono hl fun _ => hg.isSome_slot?,
        .inr ⟨hg.slot? ht, node, hg.keepsNodes _ _ hnode, hc.grows hg⟩⟩

theorem trans (h : source.Provides before between) (h' : source.Provides between after) :
    source.Provides before after := by
  refine ⟨h.grows.trans h'.grows, fun name slot hn hs => ?_, fun slot hle hlt => ?_⟩
  · cases hb : between.slot? name with
    | some earlier =>
      have he := h'.grows.slot? hb
      rw [hs] at he
      cases he
      exact h.settled h'.grows hb
    | none =>
      -- A name that is new in the second step may copy one that is new in the first.
      obtain ⟨middle, hl, hold | hmade⟩ := h'.named name slot hb hs
      · obtain ⟨target, hl', ht⟩ := h.settled h'.grows hold
        exact ⟨target, hl.trans hl', ht⟩
      · exact ⟨middle, hl, .inr hmade⟩
  · by_cases hb : slot < between.nodes.size
    · obtain ⟨name, node, hs, hn, hc⟩ := h.filled slot hle hb
      exact ⟨name, node, h'.grows.slot? hs, h'.grows.keepsNodes _ _ hn, hc.grows h'.grows⟩
    · exact h'.filled slot (Nat.le_of_not_lt hb) hlt

theorem steady (source : Source) : Steady (fun _ => True) source.Provides where
  refl := .refl
  trans := .trans
  kept _ _ := trivial
  slot? h := h.grows.slot?
  types h := h.grows.keepsNodes.types h.grows.size

/-- A new slot is reserved, types are compiled, and the slot is filled with what its name is
compiled to. -/
theorem newSlot (hn : before.slot? name = none)
    (hb : source.Provides (before.reserve name) between)
    (hc : source.CompiledFrom between name node)
    (hf : between.fill? before.nodes.size node = some after) : source.Provides before after := by
  have hslots := Registry.slot?_of_fill? hf
  have hkeeps : ∀ name slot, between.slot? name = some slot → after.slot? name = some slot :=
    fun name slot hs => by rw [hslots, hs]
  have hextends := Registry.extends_of_fill? hf hb.grows.node?_reserved
  have hsize := Registry.size_of_fill? hf
  have hmade : ∀ {name node}, source.CompiledFrom between name node →
      source.CompiledFrom after name node :=
    fun hc => hc.imp hkeeps hextends (Nat.le_of_eq hsize.symm)
  have hcopies : ∀ {name target}, Relation.ReflTransGen (source.Copies between) name target →
      Relation.ReflTransGen (source.Copies after) name target :=
    fun hl => Copies.leads_mono hl fun name hs => by rwa [hslots]
  have hself : after.slot? name = some before.nodes.size := hkeeps _ _ hb.grows.slot?_reserved
  have hnode : after.node? before.nodes.size = some node := by
    rw [Registry.node?_of_fill? hf, if_pos rfl]
  refine ⟨((Registry.Grows.reserve hn).trans hb.grows).fill (Nat.le_refl _) hf,
    fun other slot ho hs => ?_, fun slot hle hlt => ?_⟩
  · by_cases heq : other = name
    · subst heq
      rw [hself] at hs
      cases hs
      exact ⟨other, .refl, .inr ⟨hself, node, hnode, hmade hc⟩⟩
    · rw [hslots] at hs
      have hnone : (before.reserve name).slot? other = none := by
        rw [Registry.slot?_reserve, if_neg heq, ho]
      obtain ⟨target, hl, hold | ⟨ht, made, hm, hc'⟩⟩ := hb.named other slot hnone hs
      · -- The name may be a copy of the one whose slot was open meanwhile.
        rw [Registry.slot?_reserve] at hold
        split at hold
        · rename_i he
          cases he
          cases hold
          exact ⟨name, hcopies hl, .inr ⟨hself, node, hnode, hmade hc⟩⟩
        · exact ⟨target, hcopies hl, .inl hold⟩
      · exact ⟨target, hcopies hl, .inr ⟨hkeeps _ _ ht, made, hextends _ _ hm, hmade hc'⟩⟩
  · rcases Nat.eq_or_lt_of_le hle with rfl | hlater
    · exact ⟨name, node, hself, hnode, hmade hc⟩
    · rw [hsize] at hlt
      have hge : (before.reserve name).nodes.size ≤ slot := by rwa [Registry.size_reserve]
      obtain ⟨other, made, hs, hm, hc'⟩ := hb.filled slot hge hlt
      exact ⟨other, made, hkeeps _ _ hs, hextends _ _ hm, hmade hc'⟩

/-- What is registered came about in the same way if another name is given a definition. -/
theorem declare (h : source.Provides ∅ registry) (hn : registry.slot? name = none)
    (given : TypeDefn) : (source.declare name given).Provides ∅ registry := by
  refine ⟨h.grows, fun query slot ho hs => ?_, fun slot hle hlt => ?_⟩
  · obtain ⟨target, hl, hold | ⟨ht, node, hnode, hc⟩⟩ := h.named query slot ho hs
    · cases hold
    · exact ⟨target, Copies.leads_declare hl hn given,
        .inr ⟨ht, node, hnode, hc.declare hn (Option.isSome_of_eq_some ht) given⟩⟩
  · obtain ⟨query, node, hs, hnode, hc⟩ := h.filled slot hle hlt
    exact ⟨query, node, hs, hnode, hc.declare hn (Option.isSome_of_eq_some hs) given⟩

/-- Where nothing was before, a registered name leads along copies to what its slot was filled
with. -/
theorem exists_leads (h : source.Provides ∅ registry) {slot : Slot}
    (hs : registry.slot? name = some slot) :
    ∃ target node, Relation.ReflTransGen (source.Copies registry) name target ∧
      registry.slot? target = some slot ∧ registry.node? slot = some node ∧
        source.CompiledFrom registry target node := by
  obtain ⟨target, hl, hold | ⟨ht, node, hn, hc⟩⟩ := h.named name slot rfl hs
  · cases hold
  · exact ⟨target, node, hl, ht, hn, hc⟩

theorem exists_compiledFrom (h : source.Provides ∅ registry) {slot : Slot}
    (hn : registry.node? slot = some node) : ∃ name, source.CompiledFrom registry name node := by
  have hlt := Registry.lt_size_of_node? hn
  obtain ⟨name, made, -, hmade, hc⟩ := h.filled slot (Nat.zero_le slot) hlt
  rw [hn] at hmade
  cases hmade
  exact ⟨name, hc⟩

theorem wellFormed (h : source.Provides ∅ registry) : registry.WellFormed := by
  intro slot node hn
  obtain ⟨name, hc⟩ := h.exists_compiledFrom hn
  exact hc.wellFormed

end Provides

/-- Names that join the slot of the end of their chain lead to it. -/
theorem Joins.provides {chain : List String} {target : String} {slot : Slot}
    (h : Joins chain slot before after)
    (hl : ∀ name ∈ chain, before.slot? name = none →
      Relation.ReflTransGen (source.Copies after) name target)
    (hs : before.slot? target = some slot) : source.Provides before after := by
  refine ⟨h.grows, fun name joined hn hjoined => ?_, fun joined hle hlt => ?_⟩
  · obtain ⟨hm, rfl⟩ := h.new name joined hn hjoined
    exact ⟨target, hl name hm hn, .inl hs⟩
  · rw [h.size] at hlt
    exact absurd hle (Nat.not_le_of_lt hlt)

/-- Each name of a chain but the first leads to what the chain leads to. -/
theorem CopyChain.copies {origin : String → TypeDefn → Prop} {start fromType target : String}
    {chain : List String} (h : source.CopyChain origin start fromType chain target)
    (found : Source) (hc : found.custom = source.custom)
    (ho : ∀ name next, name ≠ start → origin name (.copy next) →
      found.definition? name = some (.copy next))
    (hs : ∀ name ∈ chain, (registry.slot? name).isSome = true) :
    Relation.ReflTransGen (found.Copies registry) fromType target ∧
      ∀ name ∈ chain, name = start ∨ Relation.ReflTransGen (found.Copies registry) name target :=
  h.leads (fun _ => .refl) .trans fun name hm hn next hcustom hd =>
    .single ⟨hc ▸ hcustom, ho name next hn hd, hs name hm⟩

theorem Entered.copy {fromType : String} (h : source.Entered registry name (.copy fromType)) :
    source.definition? name = some (.copy fromType) :=
  h.origin.copy

/-- What is compiled by one source comes from the definitions of another one, if they have the same
definitions of names without slots. -/
theorem Provides.advances (hc : found.custom = source.custom) :
    source.Advances found.Entered (found.AgreesOpen source) found.Provides where
  toSteady := { steady found with kept := fun hk h => hk.grows h.grows }
  origin_mono := .mono
  declared hk hn hd := .declared ((hk.definition?_eq _ hn).trans hd)
  inline ho hs hcustom hp hi := .inline ho hs (hc ▸ hcustom) hp hi
  reserve hn hk := hk.grows (.reserve hn)
  custom hn ht _ hf := .newSlot hn (.refl _) (.custom (hc ▸ ht)) hf
  defined hn hcustom hd _ hstep hb hf := by
    refine .newSlot hn hstep (.defined (hc ▸ hcustom) (hd.mono fun _ => ?_) hb) hf
    exact hstep.grows.isSome_slot?
  joins hcustom hd hchain hs h := by
    have hjoins := joins_of_forM h
    obtain ⟨hfrom, hnames⟩ := hchain.copies found hc (fun _ _ _ hd => hd.copy) hjoins.slots
    refine hjoins.provides (fun name hm _ => ?_) hs
    rcases hnames name hm with rfl | hl
    · exact hfrom.head ⟨hc ▸ hcustom, hd.copy, hjoins.slots name hm⟩
    · exact hl

/-- The definitions are those from which what is registered was compiled, and for names without
slots they are those of the source. -/
structure Explains (found source : Source) (registry : Registry) : Prop where
  provides : found.Provides ∅ registry
  agrees : found.AgreesOpen source registry

namespace Explains

theorem advance (h : found.Explains source before) (hstep : found.Provides before after) :
    found.Explains source after :=
  ⟨h.provides.trans hstep, h.agrees.grows hstep.grows⟩

/-- A name is compiled from a definition that is given for it. -/
theorem declare (h : found.Explains source before) (hn : before.slot? name = none)
    (hstep : (found.declare name defn).Provides before after)
    (hs : (after.slot? name).isSome = true) : (found.declare name defn).Explains source after :=
  ⟨(h.provides.declare hn defn).trans hstep, (h.agrees.grows hstep.grows).declare hs defn⟩

theorem fillNewSlot (h : found.Explains source before) {most : Nat}
    (hn : before.slot? name = none) (hc : source.custom.get? name = none)
    (hcopy : ∀ fromType, defn ≠ .copy fromType)
    (hg : Gives (fillNewSlot name (defn.compile source (addDefnUpTo source most) name)) before ()
      after) : (found.declare name defn).Explains source after := by
  have hs : source.Advances _ _ (found.declare name defn).Provides :=
    Provides.advances h.agrees.custom
  have hself := before.slot?_reserve_self name
  have hagrees : (found.declare name defn).AgreesOpen source (before.reserve name) :=
    (h.agrees.grows (.reserve hn)).declare (Option.isSome_of_eq_some hself) defn
  obtain ⟨hstep, hslot⟩ := hs.fillNewSlot (hs.addDefnUpTo most) hn hc hcopy hagrees
    (.declared definition?_declare_self) hg
  exact h.declare hn hstep hslot

/-- A name that has got a slot of its own meanwhile stays what it is; if it has none it becomes a
copy. -/
theorem joins (h : found.Explains source before) {fromType target : String} {chain : List String}
    {slot : Slot} (hc : source.custom.get? name = none)
    (hchain : source.CopyChain (found.Entered before) name fromType chain target)
    (hm : name ∈ chain) (hs : before.slot? target = some slot)
    (hg : Gives (chain.forM fun name => modify (·.addName name slot)) before () after) :
    (if (before.slot? name).isNone then found.declare name (.copy fromType) else found).Explains
      source after := by
  have hjoins := joins_of_forM hg
  have hcustom := h.agrees.custom
  cases hn : before.slot? name with
  | none =>
    have hdeclare : ∀ other next, other ≠ name → found.Entered before other (.copy next) →
        (found.declare name (.copy fromType)).definition? other = some (.copy next) := by
      intro other next hne hd
      rw [definition?_declare, if_neg hne, hd.copy]
    obtain ⟨hfrom, hnames⟩ := hchain.copies (found.declare name (.copy fromType)) hcustom hdeclare
      hjoins.slots
    refine h.declare hn (hjoins.provides (fun other ho _ => ?_) hs) (hjoins.slots name hm)
    rcases hnames other ho with rfl | hl
    · exact hfrom.head ⟨hcustom ▸ hc, definition?_declare_self, hjoins.slots other ho⟩
    · exact hl
  | some own =>
    obtain ⟨-, hnames⟩ := hchain.copies found hcustom (fun _ _ _ hd => hd.copy) hjoins.slots
    refine h.advance (hjoins.provides (fun other ho hnone => ?_) hs)
    rcases hnames other ho with rfl | hl
    · rw [hn] at hnone
      cases hnone
    · exact hl

theorem addDefn (h : found.Explains source before)
    (hg : Gives (source.addDefn name defn) before () after) :
    (source.putInForce found before (.defn name defn)).Explains source after := by
  have hs : source.Advances _ _ found.Provides := Provides.advances h.agrees.custom
  obtain ⟨most, hmost⟩ : ∃ most, source.budget defn = most + 1 :=
    ⟨source.budget defn - 1, by unfold budget; omega⟩
  rw [Source.addDefn, hmost, gives_addDefnUpTo_succ] at hg
  rw [putInForce]
  rcases hg with ⟨hslot, rfl⟩ | ⟨hn, hg⟩
  · rw [comesIntoForce_of_registered hslot]
    exact h
  · split at hg
    · rename_i hc
      rw [comesIntoForce_of_custom hc]
      exact h.advance (hs.addCustom hn hc hg).1
    · rename_i fromType hc
      obtain ⟨chain, slot, between, hcopied, hjoin⟩ := gives_addCopy.mp hg
      obtain ⟨hstep, hm, target, hchain, hslot⟩ :=
        hs.copiedSlot (hs.addDefnUpTo most) h.agrees hcopied
      rw [comesIntoForce_copy hmost hn hc hcopied]
      exact (h.advance hstep).joins hc hchain hm hslot hjoin
    · rename_i hc hcopy
      rw [comesIntoForce_of_ne_copy hn hc hcopy]
      exact h.fillNewSlot hn hc hcopy hg

theorem perform (h : found.Explains source before) {call : Call}
    (hg : Gives (source.perform call) before () after) :
    (source.putInForce found before call).Explains source after := by
  have hs : source.Advances _ _ found.Provides := Provides.advances h.agrees.custom
  cases call with
  | type name => exact h.advance (hs.addType h.agrees hg).1
  | defn name defn => exact h.addDefn hg
  | all => exact h.advance (hs.addAll h.agrees hg)

theorem calls {calls : List Call} (h : found.Explains source before)
    (hg : Gives (calls.forM source.perform) before () after) :
    (source.inForceFrom found before calls).Explains source after := by
  induction calls generalizing found before with
  | nil =>
    obtain ⟨-, rfl⟩ := gives_pure.mp hg
    exact h
  | cons call calls ih =>
    obtain ⟨_, between, hcall, hg⟩ := gives_bind.mp hg
    have hbetween : (before.after (source.perform call)).2 = between := congrArg Prod.snd hcall
    rw [inForceFrom, hbetween]
    exact ih (h.perform hcall) hg

end Explains

end Source

open Compilation

variable {source : Source} {calls : List Call} {after : Registry}

/-- Calls on an empty registry that all succeed only bring about what the definitions in force are
compiled to. -/
theorem provides_of_calls (h : Gives (calls.forM source.perform) ∅ () after) :
    (source.inForce calls).Provides ∅ after :=
  have hstart : source.Explains source ∅ := ⟨.refl ∅, .refl source ∅⟩
  (hstart.calls h).provides

/-- Every type that was compiled came from the transform or the definition of some name. -/
theorem compiledFrom_of_calls (h : Gives (calls.forM source.perform) ∅ () after) {slot : Slot}
    {node : Node} (hn : after.node? slot = some node) :
    ∃ name, (source.inForce calls).CompiledFrom after name node :=
  (provides_of_calls h).exists_compiledFrom hn

/-- A registered name leads along copies to what its slot was filled with. -/
theorem exists_leads_of_calls (h : Gives (calls.forM source.perform) ∅ () after) {name : String}
    {slot : Slot} (hs : after.slot? name = some slot) :
    ∃ target node, Relation.ReflTransGen ((source.inForce calls).Copies after) name target ∧
      after.slot? target = some slot ∧ after.node? slot = some node ∧
        (source.inForce calls).CompiledFrom after target node :=
  (provides_of_calls h).exists_leads hs

theorem wellFormed_of_calls (h : Gives (calls.forM source.perform) ∅ () after) :
    after.WellFormed :=
  (provides_of_calls h).wellFormed

end LinkedSchema
