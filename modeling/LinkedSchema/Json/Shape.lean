import LinkedSchema.Binary64.Shortest
import LinkedSchema.Json.Basic
import LinkedSchema.Text.Quoted

namespace LinkedSchema

/-- Why a tree has not the shape it should have. -/
inductive ShapeError where
  | wrongType (found expected : String)
  | wrongValue (found expected : String)
  | wrongLength (length : Nat) (expected : String)
  | missingField (name : String)
  | repeatedField (name : String)
  | unknownVariant (name : String) (known : List String)
  | noVariant (type : String)
  | unreadable
  deriving DecidableEq

namespace ShapeError

def ticked (s : String) : String :=
  "`" ++ s ++ "`"

def alternatives : List String → String
  | [] => "there are no variants"
  | [a] => "expected " ++ ticked a
  | [a, b] => "expected " ++ ticked a ++ " or " ++ ticked b
  | known => "expected one of " ++ ", ".intercalate (known.map ticked)

def message : ShapeError → String
  | wrongType found expected => "invalid type: " ++ found ++ ", expected " ++ expected
  | wrongValue found expected => "invalid value: " ++ found ++ ", expected " ++ expected
  | wrongLength length expected =>
    "invalid length " ++ toString length ++ ", expected " ++ expected
  | missingField name => "missing field " ++ ticked name
  | repeatedField name => "duplicate field " ++ ticked name
  | unknownVariant name known =>
    "unknown variant " ++ ticked name ++ ", " ++ alternatives known
  | noVariant type => "data did not match any variant of untagged enum " ++ type
  | unreadable => "unreadable value"

end ShapeError

namespace Json

variable {Fault α β : Type}

/-- What a tree is, in the words of error messages. -/
def description : Json Fault → String
  | null => "null"
  | bool true => "boolean `true`"
  | bool false => "boolean `false`"
  | int n => "integer " ++ ShapeError.ticked (toString n)
  | float x => "floating point " ++ ShapeError.ticked x.text
  | string s => "string " ++ Text.quote s
  | list _ => "sequence"
  | object .. => "map"
  | fault _ => "unreadable value"

/-- The error for a tree of another type than the expected one. -/
def unexpected (j : Json Fault) (expected : String) : ShapeError :=
  match j with
  | fault _ => .unreadable
  | j => .wrongType j.description expected

/-- A way to make something of a tree. -/
abbrev Shape (Fault α : Type) := Json Fault → Except ShapeError α

namespace Shape

def string : Shape Fault String
  | .string s => return s
  | j => throw (j.unexpected "a string")

def bool : Shape Fault Bool
  | .bool b => return b
  | j => throw (j.unexpected "a boolean")

def int64 : Shape Fault Int64
  | .int n =>
    if Int64.minValue.toInt ≤ n ∧ n ≤ Int64.maxValue.toInt then return Int64.ofInt n
    else throw (.wrongValue (Json.int n : Json Fault).description "i64")
  | j => throw (j.unexpected "i64")

/-- Null stands for an absent part. -/
def optional (shape : Shape Fault α) : Shape Fault (Option α)
  | .null => return none
  | j => some <$> shape j

/-- Any tree without faults. -/
def anything : Shape Fault (Json Empty) := fun j =>
  match j.clean with
  | .ok j => return j
  | .error _ => throw .unreadable

def listOf (shape : Shape Fault α) : Shape Fault (List α)
  | .list items => items.mapM shape
  | j => throw (j.unexpected "a sequence")

def tableOf (shape : Shape Fault α) : Shape Fault (Table α)
  | .object entries none =>
    Table.ofList <$> entries.mapM fun entry => (entry.1, ·) <$> shape entry.2
  | .object _ (some _) => throw .unreadable
  | j => throw (j.unexpected "a map")

/-- Something read from parts of a record, or the error at the first place that has one. -/
structure Located (α : Type) where
  outcome : Except (Nat × ShapeError) α

instance : Applicative Located where
  pure a := ⟨.ok a⟩
  seq f x :=
    match f.outcome, (x ()).outcome with
    | .ok f, .ok a => ⟨.ok (f a)⟩
    | .error e, .ok _ => ⟨.error e⟩
    | .ok _, .error e => ⟨.error e⟩
    | .error first, .error second => ⟨.error (if second.1 < first.1 then second else first)⟩

/-- The parts of a record in the order of the tree, with the names of its fields in the order of
their declaration. In a list the fields stand in that order without their names. -/
structure Fields (Fault : Type) where
  title : String
  names : List String
  entries : List (String × Json Fault)
  positional : Bool

namespace Fields

def ofEntries (title : String) (names : List String) (entries : List (String × Json Fault)) :
    Fields Fault :=
  ⟨title, names, entries.filter fun entry => names.contains entry.1, false⟩

def ofItems (title : String) (names : List String) (items : List (Json Fault)) : Fields Fault :=
  ⟨title, names, names.zip items, true⟩

/-- The error for a field that is not there, at a place after all fields that are. -/
def missing (fields : Fields Fault) (name : String) : Nat × ShapeError :=
  let count := fields.names.length
  (fields.entries.length,
    if fields.positional then
      .wrongLength (fields.names.idxOf name) (fields.title ++ " with " ++ toString count ++
        (if count = 1 then " element" else " elements"))
    else .missingField name)

/-- A field that may be missing if there is something to take in its place. -/
def read (fields : Fields Fault) (name : String) (shape : Shape Fault α) (absent : Option α) :
    Located α :=
  match fields.entries.findIdx? (fun entry => entry.1 = name), fields.entries.lookup name with
  | some place, some j => ⟨(shape j).mapError (place, ·)⟩
  | _, _ =>
    match absent with
    | some a => pure a
    | none => ⟨.error (fields.missing name)⟩

def required (fields : Fields Fault) (name : String) (shape : Shape Fault α) : Located α :=
  fields.read name shape none

def defaulted (fields : Fields Fault) (name : String) (shape : Shape Fault α) (default : α) :
    Located α :=
  fields.read name shape (some default)

def optional (fields : Fields Fault) (name : String) (shape : Shape Fault α) :
    Located (Option α) :=
  fields.defaulted name shape.optional none

/-- The place of the first entry that repeats a field, counted from the given one. -/
def firstRepeat? (place : Nat) (before : List String) :
    List (String × Json Fault) → Option (Nat × String)
  | [] => none
  | (name, _) :: entries =>
    if before.contains name then some (place, name)
    else firstRepeat? (place + 1) (name :: before) entries

/-- The record, unless one of its fields is repeated. -/
def once (fields : Fields Fault) (record : Located α) : Located α :=
  match firstRepeat? 0 [] fields.entries with
  | none => record
  | some (place, name) =>
    let repeated : Located Unit := ⟨.error (place, .repeatedField name)⟩
    (fun _ a => a) <$> repeated <*> record

end Fields

/-- A record with named fields; others are left alone. The parts of a list are its fields in the
order of their declaration, and there may be no more of them. -/
def recordFrom (title : String) (names : List String) (read : Fields Fault → Located α)
    (positional : Bool) (expected : String) : Shape Fault α
  | .object entries none =>
    let fields := Fields.ofEntries title names entries
    (fields.once (read fields)).outcome.mapError Prod.snd
  | .object _ (some _) => throw .unreadable
  | .list items =>
    if positional then do
      let a ← (read (Fields.ofItems title names items)).outcome.mapError Prod.snd
      if names.length < items.length then
        throw (.wrongLength items.length "fewer elements in array")
      return a
    else throw ((Json.list items).unexpected expected)
  | j => throw (j.unexpected expected)

/-- A record that may be written as a list. -/
def record (title : String) (names : List String) (read : Fields Fault → Located α) :
    Shape Fault α :=
  recordFrom ("struct " ++ title) names read true ("struct " ++ title)

/-- One of several forms of a value, told apart by a tag. -/
structure Variant (Fault α : Type) where
  tag : String
  /-- What the value after the tag should be. -/
  content : String
  shape : Shape Fault α

namespace Variant

/-- A variant with content of some shape. -/
def holding (tag : String) (shape : Shape Fault α) : Variant Fault α :=
  ⟨tag, "newtype variant", shape⟩

/-- A variant with fields of its own, which may be written as a list only where that is said. -/
def withFields (positional : Bool) (tag : String) (names : List String)
    (read : Fields Fault → Located α) : Variant Fault α :=
  ⟨tag, "struct variant", recordFrom "struct variant" names read positional "struct variant"⟩

/-- A variant with neither content nor fields. -/
def bare (positional : Bool) (tag : String) (a : α) : Variant Fault α :=
  withFields positional tag [] fun _ => pure a

end Variant

/-- An object with one entry, from the tag of a variant to its content. -/
def oneOf (variants : List (Variant Fault α)) : Shape Fault α
  | .object [(tag, content)] none => do
    let variant ← find tag
    variant.shape content
  | .object _ none => throw (.wrongValue "map" "map with a single key")
  | .object _ (some _) => throw .unreadable
  | .string tag => do
    let variant ← find tag
    throw (.wrongType "unit variant" variant.content)
  | j => throw (j.unexpected "string or map")
where
  find (tag : String) : Except ShapeError (Variant Fault α) :=
    match variants.find? fun variant => variant.tag = tag with
    | some variant => return variant
    | none => throw (.unknownVariant tag (variants.map Variant.tag))

end Shape

end Json

end LinkedSchema
