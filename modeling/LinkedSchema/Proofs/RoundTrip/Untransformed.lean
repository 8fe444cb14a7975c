import LinkedSchema.Proofs.Compile.Failures
import LinkedSchema.Proofs.RoundTrip.Schema

namespace LinkedSchema

instance : DecidablePred Node.Untransformed := fun node =>
  match node with
  | .custom .. => isFalse nofun
  | .kind _ | .list _ | .map _ | .pairs _ | .structMap _ | .structTuple _ | .union .. | .enum _ =>
    isTrue trivial

namespace Registry

variable {registry : Registry} {direction : Direction} {slot next last : Slot} {value : Value}

/-- The slot leads to another: types refer to types, in any number of steps. -/
def Reaches (registry : Registry) : Slot → Slot → Prop :=
  Relation.ReflTransGen fun slot next =>
    ∃ node, registry.node? slot = some node ∧ next ∈ node.slots

theorem Reaches.step {node : Node} (h : registry.Reaches slot next)
    (hn : registry.node? next = some node) (hm : last ∈ node.slots) : registry.Reaches slot last :=
  h.tail ⟨node, hn, hm⟩

/-- The slot leads to no transform. -/
def Untransformed (registry : Registry) (slot : Slot) : Prop :=
  ∀ next node, registry.Reaches slot next → registry.node? next = some node → node.Untransformed

open Classical in
/-- The types that a slot leads to, in their slots; all other slots are empty. -/
noncomputable def below (registry : Registry) (slot : Slot) : Registry :=
  { registry with nodes := registry.nodes.mapIdx fun place node =>
      if registry.Reaches slot place then node else none }

end Registry

open Compilation

variable {source : Source} {calls : List Call} {after : Registry} {slot : Slot}

end LinkedSchema
