import LinkedSchema.Json.Printer
import LinkedSchema.Schema.Basic

namespace LinkedSchema

namespace Table

variable {α : Type}

def toJson (t : Table α) (value : α → Json Empty) : Json Empty :=
  .ofEntries (t.entries.map fun entry => (entry.1, value entry.2))

end Table

/-- An object with one entry. -/
def tagged (tag : String) (content : Json Empty) : Json Empty :=
  .ofEntries [(tag, content)]

/-- An entry that is there only if its value is. -/
def entryIf (key : String) (value : Option (Json Empty)) : List (String × Json Empty) :=
  match value with
  | some j => [(key, j)]
  | none => []

def namesToJson (names : List String) : Json Empty :=
  .list (names.map .string)

def MapRepresentation.toJson : MapRepresentation → Json Empty
  | map => tagged "map" (.ofEntries [])
  | stringPairs inner entry =>
    tagged "stringpairs" (.ofEntries [("innerDelim", .string inner), ("entryDelim", .string entry)])
  | listPairs => tagged "listpairs" (.ofEntries [])
  | advanced layout => tagged "advanced" (.string layout)

def ListRepresentation.toJson : ListRepresentation → Json Empty
  | list => tagged "list" (.ofEntries [])
  | advanced layout => tagged "advanced" (.string layout)

def FieldDetails.toJson (details : FieldDetails) : Json Empty :=
  .ofEntries (entryIf "rename" (details.rename.map .string) ++ entryIf "implicit" details.implicit)

def StructRepresentation.toJson : StructRepresentation → Json Empty
  | map fields =>
    tagged "map" (.ofEntries
      (if fields.isEmpty then [] else [("fields", fields.toJson FieldDetails.toJson)]))
  | tuple order => tagged "tuple" (.ofEntries (entryIf "fieldOrder" (order.map namesToJson)))
  | stringPairs inner entry =>
    tagged "stringpairs" (.ofEntries [("innerDelim", .string inner), ("entryDelim", .string entry)])
  | stringJoin delimiter order =>
    tagged "stringjoin"
      (.ofEntries (("join", .string delimiter) :: entryIf "fieldOrder" (order.map namesToJson)))
  | listPairs => tagged "listpairs" (.ofEntries [])
  | advanced layout => tagged "advanced" (.string layout)

def UnionRepresentation.toJson (representation : UnionRepresentation) : Json Empty :=
  tagged representation.keyword <|
    match representation with
    | kinded table => table.toJson .string
    | keyed table => table.toJson .string
    | envelope discriminantKey contentKey table =>
      .ofEntries [("discriminantKey", .string discriminantKey), ("contentKey", .string contentKey),
        ("discriminantTable", table.toJson .string)]
    | inlined discriminantKey table =>
      .ofEntries [("discriminantKey", .string discriminantKey),
        ("discriminantTable", table.toJson .string)]
    | stringPrefix table => .ofEntries [("prefixes", table.toJson .string)]
    | bytesPrefix table => .ofEntries [("prefixes", table.toJson .string)]

def EnumRepresentation.toJson : EnumRepresentation → Json Empty
  | string table => tagged "string" (table.toJson .string)
  | int table => tagged "int" (table.toJson fun n => .int n.toInt)

def LinkDefn.toJson (defn : LinkDefn) : Json Empty :=
  .ofEntries (entryIf "expectedType" (defn.expectedType.map .string))

/-- A reference to a type; a definition in its place is written as any other. -/
def TypeTerm.toJson : TypeTerm → Json Empty
  | .named name => .string name
  | .map ⟨keyType, valueType, valueNullable, representation⟩ =>
    tagged "map" (.ofEntries [("keyType", .string keyType), ("valueType", valueType.toJson),
      ("valueNullable", .bool valueNullable), ("representation", representation.toJson)])
  | .list ⟨valueType, valueNullable, representation⟩ =>
    tagged "list" (.ofEntries [("valueType", valueType.toJson),
      ("valueNullable", .bool valueNullable), ("representation", representation.toJson)])
  | .link defn => tagged "link" defn.toJson

def StructField.toJson (field : StructField) : Json Empty :=
  .ofEntries [("type", field.type.toJson), ("optional", .bool field.isOptional),
    ("nullable", .bool field.nullable)]

def TypeDefn.toJson : TypeDefn → Json Empty
  | null => tagged "null" (.ofEntries [])
  | bool => tagged "bool" (.ofEntries [])
  | string => tagged "string" (.ofEntries [])
  | bytes => tagged "bytes" (.ofEntries [])
  | int => tagged "int" (.ofEntries [])
  | float => tagged "float" (.ofEntries [])
  | map defn => (TypeTerm.map defn).toJson
  | list defn => (TypeTerm.list defn).toJson
  | link defn => (TypeTerm.link defn).toJson
  | union defn =>
    tagged "union" (.ofEntries [("members", namesToJson defn.members),
      ("representation", defn.representation.toJson)])
  | struct defn =>
    tagged "struct" (.ofEntries [("fields", defn.fields.toJson StructField.toJson),
      ("representation", defn.representation.toJson)])
  | enum defn =>
    tagged "enum" (.ofEntries [("members", namesToJson defn.members),
      ("representation", defn.representation.toJson)])
  | copy fromType => tagged "copy" (.ofEntries [("fromType", .string fromType)])

namespace Schema

def toJson (schema : Schema) : Json Empty :=
  .ofEntries (("types", schema.types.toJson TypeDefn.toJson) ::
    if schema.advanced.isEmpty then []
    else [("advanced", schema.advanced.toJson fun _ => .ofEntries [])])

def text (schema : Schema) : String :=
  schema.toJson.text

end Schema

end LinkedSchema
