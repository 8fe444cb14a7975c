import LinkedSchema.Proofs.Compile.Built
import LinkedSchema.Proofs.Compile.Growth
import LinkedSchema.Proofs.Plain.EmptySlots
import Mathlib.Logic.Relation

namespace LinkedSchema

/-- The reading of implicit values by the types compiled so far. -/
def Registry.Types (registry : Registry) : Reading := fun slot literal value =>
  registry.outcome .toTyped slot literal = .ok value

/-- Implicit values are read as before when more slots are filled. -/
theorem Registry.Extends.types {first second : Registry} (h : first.Extends second)
    (hsize : first.nodes.size ≤ second.nodes.size) {slot : Slot} {literal value : Value}
    (ht : first.Types slot literal value) : second.Types slot literal value := by
  obtain ⟨change, hc, hv⟩ := Outcome.map_eq_ok.mp ht
  exact Outcome.map_eq_ok.mpr ⟨change, h.convert_eq_ok hsize hc, hv⟩

/-- The slot of a name holds what the definition is compiled to under this name. -/
def Registry.Holds (registry : Registry) (name : String) (defn : TypeDefn) : Prop :=
  ∃ slot node, registry.slot? name = some slot ∧ registry.node? slot = some node ∧
    Built registry.slot? registry.Types name defn node

namespace Source

variable {source : Source}

/-- A name with a transform, or with a definition that is no copy. -/
inductive IsRoot (source : Source) (name : String) : Prop where
  | custom {transform : CustomTransform} (hc : source.custom.get? name = some transform)
  | defined {defn : TypeDefn} (hc : source.custom.get? name = none) (ho : source.Origin name defn)
      (hn : ∀ fromType, defn ≠ .copy fromType)

/-- Copies lead from one name to another. -/
inductive Leads (source : Source) : String → String → Prop where
  | refl (name : String) : Leads source name name
  | copy {name next target : String} (hc : source.custom.get? name = none)
      (hd : source.definition? name = some (.copy next)) (hl : Leads source next target) :
      Leads source name target

theorem Leads.trans {name next target : String} (h : source.Leads name next)
    (h' : source.Leads next target) : source.Leads name target := by
  induction h with
  | refl => exact h'
  | copy hc hd _ ih => exact .copy hc hd (ih h')

/-- What the definition of a name, or the transform that replaces it, is compiled to. -/
inductive Compiled (source : Source) (registry : Registry) (name : String) : Node → Prop where
  | custom {transform : CustomTransform} (hc : source.custom.get? name = some transform)
      (hv : transform.isValid = true) : Compiled source registry name (.custom name transform)
  | built {defn : TypeDefn} {node : Node} (hc : source.custom.get? name = none)
      (ho : source.Origin name defn) (hb : Built registry.slot? registry.Types name defn node) :
      Compiled source registry name node

theorem Compiled.wellFormed {registry : Registry} {name : String} {node : Node}
    (h : source.Compiled registry name node) : node.WellFormed := by
  cases h with
  | custom => trivial
  | built _ _ hb => exact hb.wellFormed

/-- One move of a compilation. -/
inductive Move (source : Source) : Registry → Registry → Prop where
  | reserve {registry : Registry} {name : String} (hn : registry.slot? name = none)
      (hr : source.IsRoot name) : Move source registry (registry.reserve name)
  | fill {registry filled : Registry} {name : String} {slot : Slot} {node : Node}
      (hs : registry.slot? name = some slot) (hr : source.IsRoot name)
      (he : registry.node? slot = none) (hc : source.Compiled registry name node)
      (hf : registry.fill? slot node = some filled) : Move source registry filled
  | join {registry : Registry} {name target : String} {slot : Slot}
      (hs : registry.slot? target = some slot) (hl : source.Leads name target) :
      Move source registry (registry.addName name slot)

namespace Move

variable {before after : Registry}

theorem slot? (h : source.Move before after) {name : String} {slot : Slot}
    (hs : before.slot? name = some slot) : after.slot? name = some slot := by
  cases h with
  | reserve hn hr =>
    rename_i other
    rw [Registry.slot?_reserve, if_neg, hs]
    intro he
    subst he
    simp [hs] at hn
  | fill _ _ _ _ hf => rw [Registry.slot?_of_fill? hf, hs]
  | join _ _ =>
    rename_i other target found _ _
    rw [Registry.slot?_addName, if_neg, hs]
    intro h
    obtain ⟨rfl, hc⟩ := h
    rw [Table.contains_eq_isSome] at hc
    rw [Registry.slot?] at hs
    simp [hs] at hc

theorem keepsNodes (h : source.Move before after) : before.Extends after := by
  intro slot node hn
  cases h with
  | reserve => rwa [Registry.node?_reserve]
  | fill _ _ he _ hf =>
    rw [Registry.node?_of_fill? hf, if_neg, hn]
    intro he
    subst he
    simp [hn] at he
  | join => rwa [Registry.node?_addName]

theorem wellFormed (h : source.Move before after) (hw : before.WellFormed) : after.WellFormed := by
  cases h with
  | reserve => exact hw.reserve _
  | fill _ _ _ hc hf => exact hw.fill hc.wellFormed hf
  | join => exact hw.addName _ _

end Move

/-- One registry comes from another by compiling types. -/
def Moves (source : Source) : Registry → Registry → Prop :=
  Relation.ReflTransGen source.Move

namespace Moves

variable {before after : Registry}

theorem refl (registry : Registry) : source.Moves registry registry :=
  Relation.ReflTransGen.refl

theorem trans {between : Registry} (h : source.Moves before between)
    (h' : source.Moves between after) : source.Moves before after :=
  Relation.ReflTransGen.trans h h'

theorem single (h : source.Move before after) : source.Moves before after :=
  Relation.ReflTransGen.single h

theorem slot? (h : source.Moves before after) {name : String} {slot : Slot}
    (hs : before.slot? name = some slot) : after.slot? name = some slot := by
  induction h with
  | refl => exact hs
  | tail _ h ih => exact h.slot? ih

theorem keepsNodes (h : source.Moves before after) : before.Extends after := by
  induction h with
  | refl => exact .refl _
  | tail _ h ih => exact ih.trans h.keepsNodes

theorem wellFormed (h : source.Moves before after) (hw : before.WellFormed) :
    after.WellFormed := by
  induction h with
  | refl => exact hw
  | tail _ h ih => exact h.wellFormed ih

/-- Implicit values are read as before. -/
theorem types (h : source.Moves before after) (hw : before.WellFormed) {slot : Slot}
    {literal value : Value} (ht : before.Types slot literal value) :
    after.Types slot literal value :=
  h.keepsNodes.outcome_eq (h.wellFormed hw) nofun nofun ht

theorem compiled (h : source.Moves before after) (hw : before.WellFormed) {name : String}
    {node : Node} (hc : source.Compiled before name node) : source.Compiled after name node := by
  cases hc with
  | custom hc hv => exact .custom hc hv
  | built hc ho hb => exact .built hc ho (hb.imp (fun _ _ => h.slot?) fun _ _ _ => h.types hw)

end Moves

/-- Every filled slot has a name, and holds what this name is compiled to. -/
def Made (source : Source) (registry : Registry) : Prop :=
  ∀ slot node, registry.node? slot = some node →
    ∃ name, registry.slot? name = some slot ∧ source.Compiled registry name node

theorem Made.wellFormed {registry : Registry} (h : source.Made registry) : registry.WellFormed := by
  intro slot node hn
  obtain ⟨name, -, hc⟩ := h slot node hn
  exact hc.wellFormed

theorem Made.empty : source.Made ∅ :=
  fun slot node hn => by simp at hn

theorem Made.move {before after : Registry} (h : source.Made before)
    (hm : source.Move before after) : source.Made after := by
  have hold : ∀ slot node, before.node? slot = some node →
      ∃ name, after.slot? name = some slot ∧ source.Compiled after name node := by
    intro slot node hn
    obtain ⟨name, hs, hc⟩ := h slot node hn
    exact ⟨name, hm.slot? hs, (Moves.single hm).compiled h.wellFormed hc⟩
  intro slot node hn
  cases hm with
  | reserve hr hroot =>
    rw [Registry.node?_reserve] at hn
    exact hold slot node hn
  | fill hs hr he hc hf =>
    have hm : source.Move before after := .fill hs hr he hc hf
    rw [Registry.node?_of_fill? hf] at hn
    split at hn
    · rename_i heq
      cases hn
      subst heq
      exact ⟨_, hm.slot? hs, (Moves.single hm).compiled h.wellFormed hc⟩
    · exact hold slot node hn
  | join hs hl =>
    rw [Registry.node?_addName] at hn
    exact hold slot node hn

theorem Made.moves {before after : Registry} (h : source.Made before)
    (hm : source.Moves before after) : source.Made after := by
  induction hm with
  | refl => exact h
  | tail _ hm ih => exact ih.move hm

end Source

end LinkedSchema
