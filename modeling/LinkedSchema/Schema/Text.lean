import LinkedSchema.Json.Reading
import LinkedSchema.Schema.Error
import LinkedSchema.Schema.Shape

namespace LinkedSchema

/-- The definition of a type of the given name, which has exactly one kind. -/
def TypeDefn.ofJson (name : String) (j : Json Empty) : Except SchemaError TypeDefn :=
  match j with
  | .object [] _ => throw (.malformed name .noKind)
  | .object [_] _ =>
    (TypeDefn.shape false j).mapError fun error => .malformed name (.shape error)
  | .object entries _ => throw (.malformed name (.manyKinds (entries.map Prod.fst)))
  | _ => throw (.malformed name .notObject)

namespace Schema

/-- Adds the definitions of a tree in their order. -/
def insertAll (schema : Schema) : List (String × Json Empty) → Except SchemaError Schema
  | [] => return schema
  | (name, j) :: rest => do
    let defn ← TypeDefn.ofJson name j
    (schema.insert name defn).insertAll rest

/-- The schema of a tree. The definitions of types come before the advanced layouts, and the first
problem is the error. -/
def ofJson (j : Json Empty) : Except SchemaError Schema := do
  let .object root _ := j | throw .missingTypes
  let some (.object types _) := root.lookup "types" | throw .missingTypes
  let schema ← insertAll ∅ types
  match root.lookup "advanced" with
  | none => return schema
  | some j =>
    let advanced ← (Json.Shape.tableOf AdvancedLayout.shape j).mapError .advanced
    return { schema with advanced := advanced }

def ofText (text : String) : Except SchemaError Schema := do
  let tree ← (Json.read (Text.utf8 text)).tree.mapError .notJson
  ofJson tree

/-- The schema that a text has by its shape alone. The text must be whole, but only the parts that a
schema uses must have values. -/
def ofTextByShape? (text : String) : Option Schema :=
  let reading := Json.read (Text.utf8 text)
  match reading.stop, Schema.shape true reading.root with
  | none, .ok schema => some schema
  | _, _ => none

end Schema

end LinkedSchema
