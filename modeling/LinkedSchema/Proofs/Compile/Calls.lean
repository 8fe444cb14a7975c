import LinkedSchema.Proofs.Compile.Simulation
import LinkedSchema.Proofs.Plain.EmptySlots

namespace LinkedSchema

/-- What can be asked for: a named type, a type with a definition given by hand, or all declared
types. -/
inductive Call where
  | type (name : String)
  | defn (name : String) (defn : TypeDefn)
  | all

namespace Source

open Compilation

def perform (source : Source) : Call → Compilation Unit
  | .type name => source.addType name
  | .defn name defn => source.addDefn name defn
  | .all => source.addAll

/-- The registry after calls, each of which succeeds or fails. -/
def reached (source : Source) (registry : Registry) (calls : List Call) : Registry :=
  calls.foldl (fun registry call => (registry.after (source.perform call)).2) registry

theorem samePart_self {source : Source} {most : Nat}
    (h : ∀ name defn, SameRun [] (addDefnUpTo source most name defn)
      (addDefnUpTo source most name defn)) (owner : String) (part : String × TypeTerm) :
    SamePart source source [] (SameAdds [] (addDefnUpTo source most) (addDefnUpTo source most))
      owner part := by
  unfold SamePart
  split
  · exact fun _ _ => ⟨rfl, fun inner _ => h _ inner⟩
  · exact h _ _

/-- A definition is added like itself, and the registry only grows on the way. -/
theorem sameRun_self (source : Source) (most : Nat) (name : String) (defn : TypeDefn) :
    SameRun [] (addDefnUpTo source most name defn) (addDefnUpTo source most name defn) := by
  induction most generalizing name defn with
  | zero => exact .throw _
  | succ most ih =>
    intro registry _
    refine .addDefnUpTo rfl (fun _ _ fromType _ => ?_) fun hs _ _ => ?_
    · have hchain : SameChain source source registry name fun _ => True :=
        fun _ _ _ _ _ => ⟨rfl, fun _ _ => trivial⟩
      exact hchain.addCopy rfl trivial fun target inner _ _ _ _ _ _ =>
        (ih target inner).everywhere registry
    · have hcompile : SameRun [] (defn.compile source (addDefnUpTo source most) name)
          (defn.compile source (addDefnUpTo source most) name) :=
        TypeDefn.sameRun_compile rfl fun part _ => samePart_self ih name part
      exact .fillNewSlot hs (hcompile.everywhere _)

theorem sameRun_compile_self (source : Source) (most : Nat) (name : String) (defn : TypeDefn) :
    SameRun [] (defn.compile source (addDefnUpTo source most) name)
      (defn.compile source (addDefnUpTo source most) name) :=
  TypeDefn.sameRun_compile rfl fun part _ => samePart_self (source.sameRun_self most) name part

theorem sameRun_addType (source : Source) (name : String) :
    SameRun [] (source.addType name) (source.addType name) := by
  refine fun registry _ => .addNamed rfl fun _ _ => ⟨rfl, fun defn _ => ?_⟩
  exact (source.sameRun_self _ name defn).everywhere registry

theorem sameRun_perform (source : Source) (call : Call) :
    SameRun [] (source.perform call) (source.perform call) := by
  cases call with
  | type name => exact source.sameRun_addType name
  | defn name defn => exact source.sameRun_self _ name defn
  | all =>
    simp only [perform, addAll]
    induction source.schema.types.keys with
    | nil => exact .pure ()
    | cons name rest ih => exact (source.sameRun_addType name).bind fun _ => ih

theorem grows_perform (source : Source) (call : Call) (registry : Registry) :
    registry.Grows (registry.after (source.perform call)).2 :=
  ((source.sameRun_perform call).everywhere registry).grows

theorem grows_reached (source : Source) (registry : Registry) (calls : List Call) :
    registry.Grows (source.reached registry calls) := by
  induction calls generalizing registry with
  | nil => exact .refl registry
  | cons call calls ih => exact (source.grows_perform call registry).trans (ih _)

end Source

/-- What was in a registry is there afterwards, and does what it did. -/
structure Registry.Keeps (before after : Registry) : Prop where
  /-- Names stay where they are in the list of names. -/
  places : before.names.entries <+: after.names.entries
  slots : ∀ name slot, before.slot? name = some slot → after.slot? name = some slot
  /-- The type in a slot stays there. -/
  types : ∀ slot node, before.node? slot = some node → after.node? slot = some node
  /-- A slot that was left empty stays empty. -/
  empty : ∀ slot, slot < before.nodes.size → before.node? slot = none → after.node? slot = none
  /-- A conversion that ends gives the same, unless it came to an empty slot and so gave none. -/
  conversions : ∀ direction slot value, before.convert direction slot value ≠ .error .exhausted →
    after.convert direction slot value = before.convert direction slot value ∨
      before.convert direction slot value = .error .nonconforming ∧
        before.StopsAtEmpty direction slot value

theorem Registry.Grows.keeps {before after : Registry} (h : before.Grows after) :
    before.Keeps after where
  places := h.names
  slots _ _ := h.slot?
  types := h.keepsNodes
  empty slot hs hn := (h.old slot hs).trans hn
  conversions direction slot value he := by
    by_cases hs : before.StopsAtEmpty direction slot value
    · exact .inr ⟨hs.convert_eq, hs⟩
    · exact .inl (h.keepsNodes.convert_eq h.size he hs)

namespace Compilation

/-- When the type that is made for a new slot is there, the slot is still empty. -/
def FillsEmpty (name : String) (node : Compilation Node) : Prop :=
  ∀ (registry : Registry) made between, Gives node (registry.reserve name) made between →
    between.node? registry.nodes.size = none

theorem SameRun.fillsEmpty {name : String} {node : Compilation Node} (h : SameRun [] node node) :
    FillsEmpty name node :=
  fun registry _ _ hg => ((h.everywhere (registry.reserve name)).grows_of_gives hg).node?_reserved

end Compilation

open Compilation

/-- Calls, of which some may fail, only extend what they find. Each slot is filled once: there is
nothing in it when a transform or a compiled definition is put there, and nothing is put there
later. -/
theorem keeps_reached (source : Source) (registry : Registry) (calls : List Call) :
    registry.Keeps (source.reached registry calls) ∧
      ∀ name, (∀ transform, FillsEmpty name (pure (.custom name transform))) ∧
        ∀ most (defn : TypeDefn),
          FillsEmpty name (defn.compile source (addDefnUpTo source most) name) :=
  ⟨(source.grows_reached registry calls).keeps, fun name =>
    ⟨fun _ => (SameRun.pure _).fillsEmpty, fun most defn =>
      (source.sameRun_compile_self most name defn).fillsEmpty⟩⟩

end LinkedSchema
