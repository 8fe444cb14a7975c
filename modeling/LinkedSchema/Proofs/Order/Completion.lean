import LinkedSchema.Proofs.Order.Accounts
import LinkedSchema.Proofs.Order.Ends
import LinkedSchema.Proofs.Order.Room

namespace LinkedSchema

namespace Source

open Compilation

variable {source room : Source} {asked : List (String × TypeDefn)} {known : List String}
  {start registry : Registry} {add : DefnCompiler} {most : Nat} {name : String} {defn : TypeDefn}

section Steps

variable (hr : room.custom = source.custom)

include hr

end Steps

end Source

end LinkedSchema
