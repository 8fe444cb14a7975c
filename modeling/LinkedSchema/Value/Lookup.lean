import LinkedSchema.Text.Quoted
import LinkedSchema.Value.Kind

namespace LinkedSchema

/-- A position in a list or a key of a map. -/
inductive Index where
  | position (n : Nat)
  | key (k : String)
  deriving DecidableEq

/-- A side of a type error. -/
inductive TypeError.Side where
  | kind (kind : Kind)
  | key (k : String)
  | position (n : Nat)
  deriving DecidableEq

/-- One thing was expected and another found. -/
structure TypeError where
  expected : TypeError.Side
  found : TypeError.Side
  deriving DecidableEq

namespace TypeError

def Side.ofIndex : Index → Side
  | .position n => position n
  | .key k => key k

def Side.ofValue (value : Value) : Side :=
  kind (Kind.of value)

def Side.text : Side → String
  | kind k => "Kind(" ++ k.label ++ ")"
  | key k => "Key(" ++ Text.quote k ++ ")"
  | position n => "Index(" ++ toString n ++ ")"

def message (error : TypeError) : String :=
  "Expected " ++ error.expected.text ++ " but found " ++ error.found.text

end TypeError

namespace Value

/-- The part of a value at an index. Positions lead only into lists and keys only into maps. -/
def get? : Value → Index → Option Value
  | list items, .position n => items[n]?
  | map entries, .key k => entries.get? k
  | _, _ => none

def get (value : Value) (index : Index) : Except TypeError Value :=
  match value.get? index with
  | some part => return part
  | none => throw ⟨.ofIndex index, .ofValue value⟩

end Value

end LinkedSchema
