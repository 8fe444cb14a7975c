import LinkedSchema.Proofs.Compile.Safe
import LinkedSchema.Proofs.Order.Completion

namespace LinkedSchema

namespace Source

open Compilation

variable {source : Source} {name : String} {defn : TypeDefn}

section MoreSteps

variable {room : Source} {known : List String} {most more : Nat}

theorem Suits.mono (h : source.Suits room known name defn most) (hle : most ≤ more) :
    source.Suits room known name defn more :=
  { h with enough :=
      ⟨h.enough.positive.trans_le hle, h.enough.enough.trans hle,
        fun next he => (h.enough.copy next he).trans_le hle⟩ }

end MoreSteps

end Source

end LinkedSchema
