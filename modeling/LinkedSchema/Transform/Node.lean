import LinkedSchema.Table
import LinkedSchema.Transform.Conversion
import LinkedSchema.Value.Kind

namespace LinkedSchema

/-- The place of a compiled type. -/
abbrev Slot := Nat

/-- The type of a part, and whether null may stand in its place. -/
structure PartType where
  slot : Slot
  nullable : Bool
  deriving DecidableEq

/-- A field of a struct: its name in the typed form, its key in the representation, and the typed
value that it has where the representation leaves it out. -/
structure Field where
  name : String
  key : String
  type : PartType
  isOptional : Bool
  implicit : Option Value
  deriving DecidableEq

/-- A required field is there in both forms. -/
def Field.isRequired (field : Field) : Bool :=
  !field.isOptional && field.implicit.isNone

/-- A struct that is represented as a map: its fields by name, the place of the field of each key,
and the number of the required fields. -/
structure StructMap where
  fields : Table Field
  keys : Table Nat
  required : Nat
  deriving DecidableEq

namespace StructMap

def ofFields (fields : List Field) : StructMap where
  fields := Table.ofList (fields.map fun field => (field.name, field))
  keys := Table.ofList (fields.zipIdx.map fun (field, place) => (field.key, place))
  required := (fields.filter Field.isRequired).length

end StructMap

structure Member where
  name : String
  slot : Slot
  deriving DecidableEq

/-- How the representation of a union shows its member. The tables lead to places in the list of
members. -/
inductive Strategy where
  | kinded (table : List (Kind × Nat))
  | keyed (table : List (String × Nat))
  | envelope (discriminantKey contentKey : String) (table : List (String × Nat))
  | inlined (discriminantKey : String) (table : List (String × Nat))
  | stringPrefix (table : List (String × Nat))
  | bytesPrefix (table : List (List UInt8 × Nat))
  deriving DecidableEq

/-- A compiled type. -/
inductive Node where
  | kind (kind : Kind)
  | list (items : PartType)
  | map (values : PartType)
  /-- A map that is represented as a list of keys with their values. -/
  | pairs (values : PartType)
  | structMap (layout : StructMap)
  | structTuple (fields : List Field)
  | union (members : List Member) (strategy : Strategy)
  /-- The members with what represents them. -/
  | enum (members : List (String × Value))
  | custom (name : String) (transform : CustomTransform)

/-- The slots that a compiled type refers to. -/
def Node.slots : Node → List Slot
  | kind _ => []
  | list items => [items.slot]
  | map values => [values.slot]
  | pairs values => [values.slot]
  | structMap layout => layout.fields.values.map (·.type.slot)
  | structTuple fields => fields.map (·.type.slot)
  | union members _ => members.map Member.slot
  | enum _ => []
  | custom .. => []

end LinkedSchema
