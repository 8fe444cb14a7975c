import LinkedSchema.Encoding.Hex
import LinkedSchema.Json.Fault
import LinkedSchema.Json.Shape

namespace LinkedSchema

/-- Why something in a JSON tree is no definition of a type. -/
inductive Malformation where
  | notObject
  | noKind
  | manyKinds (kinds : List String)
  | shape (error : ShapeError)
  deriving DecidableEq

def Malformation.message : Malformation → String
  | notObject => "definition is not a map"
  | noKind => "no kind declared"
  | manyKinds kinds => "more than one kind declared: " ++ ", ".intercalate kinds
  | shape error => error.message

/-- Why the members of a union cannot be told apart. -/
inductive UnionFlaw where
  | notMember (name : String)
  | selectedTwice (member : String)
  | notKind (name : String)
  | emptyKeys
  | sharedKey (key : String)
  | emptyDiscriminant
  | notHex (text : String) (error : Encoding.HexError)
  | overlap
  | listedTwice (member : String)
  deriving DecidableEq

def UnionFlaw.message : UnionFlaw → String
  | notMember name => "`" ++ name ++ "` is not a member"
  | selectedTwice member => "member `" ++ member ++ "` is selected more than once"
  | notKind name => "`" ++ name ++ "` is not a kind"
  | emptyKeys => "discriminant and content keys must not be empty"
  | sharedKey key => "discriminant and content share the key `" ++ key ++ "`"
  | emptyDiscriminant => "discriminant key must not be empty"
  | notHex text error => "prefix `" ++ text ++ "` is not hex: " ++ error.message
  | overlap => "prefixes overlap, members would be ambiguous"
  | listedTwice member => "member `" ++ member ++ "` is listed twice"

/-- Why the members of an enum cannot be told apart. -/
inductive EnumFlaw where
  | repeatedMembers
  | notMember (name : String)
  | noInt (member : String)
  | sharedValue (member : String)
  deriving DecidableEq

def EnumFlaw.message : EnumFlaw → String
  | repeatedMembers => "members are listed more than once"
  | notMember name => "`" ++ name ++ "` is not a member"
  | noInt member => "member `" ++ member ++ "` has no int value"
  | sharedValue member =>
    "member `" ++ member ++ "` shares its representation with another member"

/-- Why a field cannot have its implicit value. -/
inductive ImplicitFlaw where
  /-- The value is no scalar, or the type of the field refuses it. -/
  | invalid
  /-- The type of the field converts the value without end. -/
  | endless
  deriving DecidableEq

inductive SchemaError where
  | notJson (fault : JsonFault)
  | advanced (error : ShapeError)
  | missingTypes
  | malformed (name : String) (reason : Malformation)
  | emptyRoot
  | unknownType (name : String)
  /-- The chain of copies ends in a name that it already has. -/
  | copyCycle (name : String) (chain : List String)
  | invalidKeyType (name keyType : String)
  | unsupported (name kind representation : String)
  | optionalField (name field : String)
  | invalidImplicit (name field : String) (flaw : ImplicitFlaw)
  | unknownField (name field : String)
  | duplicateKey (name key : String)
  | fieldOrder (name : String) (expected : Nat)
  | invalidUnion (name representation : String) (flaw : UnionFlaw)
  | invalidEnum (name : String) (flaw : EnumFlaw)
  | emptyTransform (name : String)
  /-- The steps allowed for a compilation were not enough. Those that are given always are. -/
  | exhausted
  /-- A step that the checks before it rule out. -/
  | impossible
  deriving DecidableEq

def SchemaError.message : SchemaError → String
  | notJson fault => "failed to parse schema: " ++ fault.message
  | advanced error => "failed to parse schema: advanced: " ++ error.message
  | missingTypes => "schema has no `types` map"
  | malformed name reason =>
    "malformed definition for type `" ++ name ++ "`: " ++ reason.message
  | emptyRoot => "root type name is empty"
  | unknownType name => "unknown type `" ++ name ++ "`"
  | copyCycle name chain => "type `" ++ name ++ "` copies itself via " ++ " -> ".intercalate chain
  | invalidKeyType name keyType =>
    "map `" ++ name ++ "` has key type `" ++ keyType ++ "`, only `String` is supported"
  | unsupported name kind representation =>
    "unsupported " ++ kind ++ " representation `" ++ representation ++ "` for type `" ++ name ++ "`"
  | optionalField name field =>
    "field `" ++ field ++ "` of `" ++ name ++ "` is optional, which requires map representation"
  | invalidImplicit name field .invalid =>
    "implicit value of field `" ++ field ++ "` of `" ++ name ++
      "` must be a bool, int, float or string valid for the field type"
  | invalidImplicit name field .endless =>
    "conversion of the implicit value of field `" ++ field ++ "` of `" ++ name ++ "` does not end"
  | unknownField name field =>
    "representation of `" ++ name ++ "` refers to unknown field `" ++ field ++ "`"
  | duplicateKey name key =>
    "fields of `" ++ name ++ "` share the representation key `" ++ key ++ "`"
  | fieldOrder name expected =>
    "field order of `" ++ name ++ "` must list each of its " ++ toString expected ++
      " fields exactly once"
  | invalidUnion name representation flaw =>
    "invalid " ++ representation ++ " representation for union `" ++ name ++ "`: " ++ flaw.message
  | invalidEnum name flaw =>
    "invalid representation for enum `" ++ name ++ "`: " ++ flaw.message
  | emptyTransform name => "custom transform for `" ++ name ++ "` provides neither direction"
  | exhausted => "schema is too large to compile"
  | impossible => "compiled schema is damaged"

end LinkedSchema
