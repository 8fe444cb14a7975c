import LinkedSchema.Json.Shape
import LinkedSchema.Schema.Basic

namespace LinkedSchema

namespace Json

mutual

/-- How many lists and objects lie within one another. -/
def depth {Fault : Type} : Json Fault → Nat
  | list items => depthItems items + 1
  | object entries _ => depthEntries entries + 1
  | _ => 0

def depthItems {Fault : Type} : List (Json Fault) → Nat
  | [] => 0
  | item :: items => max item.depth (depthItems items)

def depthEntries {Fault : Type} : List (String × Json Fault) → Nat
  | [] => 0
  | (_, value) :: entries => max value.depth (depthEntries entries)

end

end Json

open Json Json.Shape

variable {Fault : Type}

/-- Variants with fields of their own may be written as lists if `positional` holds; inside a
definition that stands in the place of a reference they always may. -/
def MapRepresentation.shape (positional : Bool) : Shape Fault MapRepresentation :=
  oneOf [
    .bare positional "map" .map,
    .withFields positional "stringpairs" ["innerDelim", "entryDelim"] fun fields =>
      .stringPairs <$> fields.required "innerDelim" string
        <*> fields.required "entryDelim" string,
    .bare positional "listpairs" .listPairs,
    .holding "advanced" fun j => .advanced <$> string j]

def ListRepresentation.shape (positional : Bool) : Shape Fault ListRepresentation :=
  oneOf [
    .bare positional "list" .list,
    .holding "advanced" fun j => .advanced <$> string j]

def FieldDetails.shape : Shape Fault FieldDetails :=
  record "StructMapFieldDetails" ["rename", "implicit"] fun fields =>
    .mk <$> fields.optional "rename" string <*> fields.optional "implicit" anything

def StructRepresentation.shape (positional : Bool) : Shape Fault StructRepresentation :=
  oneOf [
    .withFields positional "map" ["fields"] fun fields =>
      .map <$> fields.defaulted "fields" (tableOf FieldDetails.shape) ∅,
    .withFields positional "tuple" ["fieldOrder"] fun fields =>
      .tuple <$> fields.optional "fieldOrder" (listOf string),
    .withFields positional "stringpairs" ["innerDelim", "entryDelim"] fun fields =>
      .stringPairs <$> fields.required "innerDelim" string
        <*> fields.required "entryDelim" string,
    .withFields positional "stringjoin" ["join", "fieldOrder"] fun fields =>
      .stringJoin <$> fields.required "join" string
        <*> fields.optional "fieldOrder" (listOf string),
    .bare positional "listpairs" .listPairs,
    .holding "advanced" fun j => .advanced <$> string j]

def UnionRepresentation.shape (positional : Bool) : Shape Fault UnionRepresentation :=
  oneOf [
    .holding "kinded" fun j => .kinded <$> tableOf string j,
    .holding "keyed" fun j => .keyed <$> tableOf string j,
    .withFields positional "envelope" ["discriminantKey", "contentKey", "discriminantTable"]
      fun fields =>
        .envelope <$> fields.required "discriminantKey" string
          <*> fields.required "contentKey" string
          <*> fields.required "discriminantTable" (tableOf string),
    .withFields positional "inline" ["discriminantKey", "discriminantTable"] fun fields =>
      .inlined <$> fields.required "discriminantKey" string
        <*> fields.required "discriminantTable" (tableOf string),
    .withFields positional "stringprefix" ["prefixes"] fun fields =>
      .stringPrefix <$> fields.required "prefixes" (tableOf string),
    .withFields positional "bytesprefix" ["prefixes"] fun fields =>
      .bytesPrefix <$> fields.required "prefixes" (tableOf string)]

def EnumRepresentation.shape : Shape Fault EnumRepresentation :=
  oneOf [
    .holding "string" fun j => .string <$> tableOf Shape.string j,
    .holding "int" fun j => .int <$> tableOf int64 j]

def MapDefn.shape {Term : Type} (positional : Bool) (term : Shape Fault Term) :
    Shape Fault (MapDefn Term) :=
  record "TypeMap" ["keyType", "valueType", "valueNullable", "representation"] fun fields =>
    .mk <$> fields.required "keyType" string
      <*> fields.required "valueType" term
      <*> fields.defaulted "valueNullable" bool false
      <*> fields.defaulted "representation" (MapRepresentation.shape positional) .map

def ListDefn.shape {Term : Type} (positional : Bool) (term : Shape Fault Term) :
    Shape Fault (ListDefn Term) :=
  record "TypeList" ["valueType", "valueNullable", "representation"] fun fields =>
    .mk <$> fields.required "valueType" term
      <*> fields.defaulted "valueNullable" bool false
      <*> fields.defaulted "representation" (ListRepresentation.shape positional) .list

def LinkDefn.shape : Shape Fault LinkDefn :=
  record "TypeLink" ["expectedType"] fun fields =>
    .mk <$> fields.optional "expectedType" string

namespace TypeTerm

/-- References whose definitions lie within one another at most as deep as the first argument
says. -/
def shapeUpTo : Nat → Shape Fault TypeTerm
  | _, .string name => return .named name
  | 0, _ => throw (.noVariant "TypeTerm")
  | most + 1, j =>
    if j.isClean then
      (oneOf [
        .holding "map" fun j => .map <$> MapDefn.shape true (shapeUpTo most) j,
        .holding "list" fun j => .list <$> ListDefn.shape true (shapeUpTo most) j,
        .holding "link" fun j => .link <$> LinkDefn.shape j] j).mapError
        fun _ => .noVariant "TypeTerm"
    else throw .unreadable

/-- A name, or a definition without faults in any of its parts, used or not. All errors inside of it
are one and the same. -/
def shape : Shape Fault TypeTerm := fun j =>
  shapeUpTo j.depth j

end TypeTerm

def StructField.shape : Shape Fault StructField :=
  record "StructField" ["type", "optional", "nullable"] fun fields =>
    .mk <$> fields.required "type" TypeTerm.shape
      <*> fields.defaulted "optional" bool false
      <*> fields.defaulted "nullable" bool false

def StructDefn.shape (positional : Bool) : Shape Fault StructDefn :=
  record "TypeStruct" ["fields", "representation"] fun fields =>
    .mk <$> fields.defaulted "fields" (tableOf StructField.shape) ∅
      <*> fields.defaulted "representation" (StructRepresentation.shape positional) (.map ∅)

def UnionDefn.shape (positional : Bool) : Shape Fault UnionDefn :=
  record "TypeUnion" ["members", "representation"] fun fields =>
    .mk <$> fields.required "members" (listOf string)
      <*> fields.required "representation" (UnionRepresentation.shape positional)

def EnumDefn.shape : Shape Fault EnumDefn :=
  record "TypeEnum" ["members", "representation"] fun fields =>
    .mk <$> fields.required "members" (listOf string)
      <*> fields.defaulted "representation" EnumRepresentation.shape (.string ∅)

def TypeDefn.shape (positional : Bool) : Shape Fault TypeDefn :=
  oneOf [
    .holding "null" (record "TypeNull" [] fun _ => pure .null),
    .holding "bool" (record "TypeBool" [] fun _ => pure .bool),
    .holding "string" (record "TypeString" [] fun _ => pure .string),
    .holding "bytes" (record "TypeBytes" [] fun _ => pure .bytes),
    .holding "int" (record "TypeInt" [] fun _ => pure .int),
    .holding "float" (record "TypeFloat" [] fun _ => pure .float),
    .holding "map" fun j => .map <$> MapDefn.shape positional TypeTerm.shape j,
    .holding "list" fun j => .list <$> ListDefn.shape positional TypeTerm.shape j,
    .holding "link" fun j => .link <$> LinkDefn.shape j,
    .holding "union" fun j => .union <$> UnionDefn.shape positional j,
    .holding "struct" fun j => .struct <$> StructDefn.shape positional j,
    .holding "enum" fun j => .enum <$> EnumDefn.shape j,
    .holding "copy" (record "TypeCopy" ["fromType"] fun fields =>
      .copy <$> fields.required "fromType" Shape.string)]

def AdvancedLayout.shape : Shape Fault AdvancedLayout :=
  record "AdvancedDataLayout" [] fun _ => pure {}

def Schema.shape (positional : Bool) : Shape Fault Schema :=
  record "Schema" ["types", "advanced"] fun fields =>
    .mk <$> fields.required "types" (tableOf (TypeDefn.shape positional))
      <*> fields.defaulted "advanced" (tableOf AdvancedLayout.shape) ∅

end LinkedSchema
