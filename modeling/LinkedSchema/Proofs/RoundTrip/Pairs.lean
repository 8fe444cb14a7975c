import LinkedSchema.Proofs.Encoding.TextOrder
import LinkedSchema.Proofs.Plain.Ending
import LinkedSchema.Proofs.Plain.Permuting
import LinkedSchema.Proofs.RoundTrip.Untransformed

namespace LinkedSchema

namespace Outcome

/-- The outcomes are the same, or one refuses a value and the other does not come so far, since it
does not end. -/
def SameIfEnding (x y : Outcome) : Prop :=
  x = y ∨ x = .error .nonconforming ∧ y = .error .exhausted ∨
    x = .error .exhausted ∧ y = .error .nonconforming

variable {x y : Outcome}

theorem SameIfEnding.eq (h : SameIfEnding x y) (hx : x ≠ .error .exhausted)
    (hy : y ≠ .error .exhausted) : x = y := by
  rcases h with he | ⟨-, he⟩ | ⟨he, -⟩
  · exact he
  · exact absurd he hy
  · exact absurd he hx

end Outcome

namespace Plain

variable {convert : Value → Outcome} {items others : List Value} {result : Value}
  {pairs : List (String × Value)}

end Plain

namespace Registry

variable {registry : Registry} {slot : Slot} {values : PartType}

namespace WellFormed

variable (hw : registry.WellFormed) (hn : registry.node? slot = some (.pairs values))

include hw hn

end WellFormed

end Registry

open Compilation

variable {source : Source} {calls : List Call} {after : Registry}

end LinkedSchema
