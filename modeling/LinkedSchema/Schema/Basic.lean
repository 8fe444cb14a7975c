import LinkedSchema.Json.Basic

namespace LinkedSchema

inductive MapRepresentation where
  | map
  | stringPairs (innerDelimiter entryDelimiter : String)
  | listPairs
  | advanced (layout : String)
  deriving DecidableEq

inductive ListRepresentation where
  | list
  | advanced (layout : String)
  deriving DecidableEq

/-- Details of a field of a struct that is represented as a map: the key that stands for the field,
if it is not the name, and the value that an absent field has. -/
structure FieldDetails where
  rename : Option String := none
  implicit : Option (Json Empty) := none
  deriving DecidableEq

inductive StructRepresentation where
  | map (fields : Table FieldDetails)
  | tuple (fieldOrder : Option (List String))
  | stringPairs (innerDelimiter entryDelimiter : String)
  | stringJoin (delimiter : String) (fieldOrder : Option (List String))
  | listPairs
  | advanced (layout : String)
  deriving DecidableEq

/-- How the representation of a union tells its members apart. Every table leads from what selects a
member to the name of the member. -/
inductive UnionRepresentation where
  | kinded (table : Table String)
  | keyed (table : Table String)
  | envelope (discriminantKey contentKey : String) (table : Table String)
  | inlined (discriminantKey : String) (table : Table String)
  | stringPrefix (table : Table String)
  | bytesPrefix (table : Table String)
  deriving DecidableEq

inductive EnumRepresentation where
  /-- A member that the table does not name is represented by its own name. -/
  | string (table : Table String)
  | int (table : Table Int64)
  deriving DecidableEq

/-- A map type; `Term` is the type of references to types. -/
structure MapDefn (Term : Type) where
  keyType : String
  valueType : Term
  valueNullable : Bool := false
  representation : MapRepresentation := .map
  deriving DecidableEq

structure ListDefn (Term : Type) where
  valueType : Term
  valueNullable : Bool := false
  representation : ListRepresentation := .list
  deriving DecidableEq

/-- A link type; the type of what is linked to is only a remark. -/
structure LinkDefn where
  expectedType : Option String := none
  deriving DecidableEq

/-- A reference to a type. -/
inductive TypeTerm where
  | named (name : String)
  | map (defn : MapDefn TypeTerm)
  | list (defn : ListDefn TypeTerm)
  | link (defn : LinkDefn)

def TypeTerm.decEq : (a b : TypeTerm) → Decidable (a = b)
  | .named _, .named _ => decidable_of_iff _ (TypeTerm.named.injEq ..).symm.to_iff
  | .map ⟨key, value, nullable, repr⟩, .map ⟨key', value', nullable', repr'⟩ =>
    have := value.decEq value'
    decidable_of_iff (key = key' ∧ value = value' ∧ nullable = nullable' ∧ repr = repr')
      (by simp)
  | .list ⟨value, nullable, repr⟩, .list ⟨value', nullable', repr'⟩ =>
    have := value.decEq value'
    decidable_of_iff (value = value' ∧ nullable = nullable' ∧ repr = repr') (by simp)
  | .link _, .link _ => decidable_of_iff _ (TypeTerm.link.injEq ..).symm.to_iff
  | .named _, .map _ | .named _, .list _ | .named _, .link _
  | .map _, .named _ | .map _, .list _ | .map _, .link _
  | .list _, .named _ | .list _, .map _ | .list _, .link _
  | .link _, .named _ | .link _, .map _ | .link _, .list _ => isFalse (by simp)

instance : DecidableEq TypeTerm := TypeTerm.decEq

instance : Inhabited TypeTerm := ⟨.named ""⟩

structure StructField where
  type : TypeTerm
  isOptional : Bool := false
  nullable : Bool := false
  deriving DecidableEq

structure StructDefn where
  fields : Table StructField := ∅
  representation : StructRepresentation := .map ∅
  deriving DecidableEq

structure UnionDefn where
  members : List String
  representation : UnionRepresentation
  deriving DecidableEq

structure EnumDefn where
  members : List String
  representation : EnumRepresentation := .string ∅
  deriving DecidableEq

/-- The definition of a type. A copy stands for the type it names. -/
inductive TypeDefn where
  | null
  | bool
  | string
  | bytes
  | int
  | float
  | map (defn : MapDefn TypeTerm)
  | list (defn : ListDefn TypeTerm)
  | link (defn : LinkDefn)
  | union (defn : UnionDefn)
  | struct (defn : StructDefn)
  | enum (defn : EnumDefn)
  | copy (fromType : String)
  deriving DecidableEq

/-- The word of the schema language for the kind of a definition. -/
def TypeDefn.keyword : TypeDefn → String
  | null => "null"
  | bool => "bool"
  | string => "string"
  | bytes => "bytes"
  | int => "int"
  | float => "float"
  | map _ => "map"
  | list _ => "list"
  | link _ => "link"
  | union _ => "union"
  | struct _ => "struct"
  | enum _ => "enum"
  | copy _ => "copy"

/-- The word of the schema language for the strategy. -/
def UnionRepresentation.keyword : UnionRepresentation → String
  | kinded _ => "kinded"
  | keyed _ => "keyed"
  | envelope .. => "envelope"
  | inlined .. => "inline"
  | stringPrefix _ => "stringprefix"
  | bytesPrefix _ => "bytesprefix"

/-- The declaration of an advanced layout says nothing more than its name. -/
structure AdvancedLayout where
  deriving DecidableEq

structure Schema where
  types : Table TypeDefn := ∅
  advanced : Table AdvancedLayout := ∅
  deriving DecidableEq

namespace Schema

instance : EmptyCollection Schema := ⟨{}⟩

/-- Adds a type; a type of the same name is replaced in its place. -/
def insert (schema : Schema) (name : String) (defn : TypeDefn) : Schema :=
  { schema with types := schema.types.insert name defn }

end Schema

end LinkedSchema
