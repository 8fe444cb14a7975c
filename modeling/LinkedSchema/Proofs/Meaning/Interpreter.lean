import LinkedSchema.Compilation
import LinkedSchema.Proofs.Plain.Collection

namespace LinkedSchema

/-- The conversion of a value by a reference to a type. -/
abbrev TermOutcome := Direction → TypeTerm → Value → Outcome

def Kind.interpret (kind : Kind) (value : Value) : Outcome :=
  if kind.admits value then return value else throw .nonconforming

def MapDefn.interpret (defn : MapDefn TypeTerm) (direction : Direction) (part : TermOutcome)
    (value : Value) : Outcome :=
  let convert := Plain.nullable defn.valueNullable (part direction defn.valueType)
  match defn.representation, direction with
  | .map, _ => Plain.map convert value
  | .listPairs, .toTyped => Plain.readPairs convert value
  | .listPairs, .toRepresentation => Plain.writePairs convert value
  | _, _ => throw .nonconforming

def ListDefn.interpret (defn : ListDefn TypeTerm) (direction : Direction) (part : TermOutcome)
    (value : Value) : Outcome :=
  match defn.representation with
  | .list => Plain.list (Plain.nullable defn.valueNullable (part direction defn.valueType)) value
  | .advanced _ => throw .nonconforming

/-- What a field demands; its implicit value is the typed form of the literal in the schema. -/
def StructField.rule (field : StructField) (name : String) (details : FieldDetails)
    (direction : Direction) (part : TermOutcome) : Plain.FieldRule where
  name := name
  key := details.rename.getD name
  isOptional := field.isOptional
  implicit := details.implicit.map fun json =>
    match scalar? json with
    | some literal => part .toTyped field.type literal
    | none => throw .nonconforming
  convert := Plain.nullable field.nullable (part direction field.type)

namespace StructDefn

def mapRules (defn : StructDefn) (details : Table FieldDetails) (direction : Direction)
    (part : TermOutcome) : List Plain.FieldRule :=
  defn.fields.entries.map fun entry =>
    entry.2.rule entry.1 ((details.get? entry.1).getD {}) direction part

/-- The rules of the fields in the order in which a tuple has them. -/
def tupleRules (defn : StructDefn) (order : Option (List String)) (direction : Direction)
    (part : TermOutcome) : List Plain.FieldRule :=
  (order.getD defn.fields.keys).filterMap fun name =>
    (defn.fields.get? name).map fun field => field.rule name {} direction part

def interpret (defn : StructDefn) (direction : Direction) (part : TermOutcome) (value : Value) :
    Outcome :=
  match defn.representation, direction with
  | .map details, .toTyped => Plain.readStruct (defn.mapRules details direction part) value
  | .map details, .toRepresentation => Plain.writeStruct (defn.mapRules details direction part) value
  | .tuple order, .toTyped => Plain.readTuple (defn.tupleRules order direction part) value
  | .tuple order, .toRepresentation => Plain.writeTuple (defn.tupleRules order direction part) value
  | _, _ => throw .nonconforming

end StructDefn

namespace UnionRepresentation

/-- The member that a representation shows, with the representation of the member. -/
def select? (representation : UnionRepresentation) (value : Value) : Option (String × Value) :=
  match representation, value with
  | kinded table, value =>
    if (Kind.of value).admits value then (table.get? (Kind.of value).name).map (·, value) else none
  | keyed table, .map entries =>
    match entries.toList with
    | [entry] => (table.get? entry.1).map (·, entry.2)
    | _ => none
  | envelope discriminantKey contentKey table, .map entries =>
    if entries.size = 2 then
      match entries.get? discriminantKey, entries.get? contentKey with
      | some (.string tag), some content => (table.get? tag).map (·, content)
      | _, _ => none
    else none
  | inlined discriminantKey table, .map entries =>
    match entries.get? discriminantKey with
    | some (.string tag) => (table.get? tag).map (·, .map (entries.erase discriminantKey))
    | _ => none
  | stringPrefix table, .string s =>
    table.entries.findSome? fun entry =>
      (after? entry.1.toList s.toList).map fun rest => (entry.2, .string (String.ofList rest))
  | bytesPrefix table, .bytes bytes =>
    table.entries.findSome? fun entry =>
      match Encoding.readHex entry.1 with
      | .ok beginning => (after? beginning bytes).map fun rest => (entry.2, .bytes rest)
      | .error _ => none
  | _, _ => none

/-- What selects a member in a table. -/
def discriminant? (table : Table String) (member : String) : Option String :=
  (table.entries.find? fun entry => entry.2 = member).map Prod.fst

/-- The representation that shows a member with the given representation of its own. -/
def wrap? (representation : UnionRepresentation) (member : String) (value : Value) :
    Option Value :=
  match representation with
  | kinded table =>
    if discriminant? table member = some (Kind.of value).name ∧ (Kind.of value).admits value then
      some value
    else none
  | keyed table =>
    (discriminant? table member).map fun key => .map (SortedMap.singleton key value)
  | envelope discriminantKey contentKey table =>
    (discriminant? table member).map fun tag =>
      .map (SortedMap.ofList [(discriminantKey, .string tag), (contentKey, value)])
  | inlined discriminantKey table =>
    match discriminant? table member, value with
    | some tag, .map entries =>
      if entries.contains discriminantKey then none
      else some (.map (entries.insert discriminantKey (.string tag)))
    | _, _ => none
  | stringPrefix table =>
    match discriminant? table member, value with
    | some beginning, .string rest => some (.string (beginning ++ rest))
    | _, _ => none
  | bytesPrefix table =>
    match (discriminant? table member).map Encoding.readHex, value with
    | some (.ok beginning), .bytes rest => some (.bytes (beginning ++ rest))
    | _, _ => none

end UnionRepresentation

/-- The typed form of a union is a map from the name of the member to its typed value. -/
def UnionDefn.interpret (defn : UnionDefn) (direction : Direction) (part : TermOutcome)
    (value : Value) : Outcome :=
  match direction with
  | .toTyped =>
    match defn.representation.select? value with
    | none => throw .nonconforming
    | some selected =>
      Plain.tag selected.1 (part .toTyped (.named selected.1)) selected.2
  | .toRepresentation =>
    match Plain.untag? value with
    | none => throw .nonconforming
    | some entry =>
      if entry.1 ∈ defn.members then do
        match defn.representation.wrap? entry.1
          (← part .toRepresentation (.named entry.1) entry.2) with
        | some shown => return shown
        | none => throw .nonconforming
      else throw .nonconforming

/-- What represents a member. -/
def EnumRepresentation.literal? (representation : EnumRepresentation) (member : String) :
    Option Value :=
  match representation with
  | string table => some (.string ((table.get? member).getD member))
  | int table => (table.get? member).map fun n => .int n.toInt

def EnumDefn.interpret (defn : EnumDefn) (direction : Direction) (value : Value) : Outcome :=
  match direction, value with
  | .toTyped, value =>
    match defn.members.find? fun member =>
      (defn.representation.literal? member).any (·.same value) with
    | some member => return .string member
    | none => throw .nonconforming
  | .toRepresentation, .string member =>
    if member ∈ defn.members then
      match defn.representation.literal? member with
      | some literal => return literal
      | none => throw .nonconforming
    else throw .nonconforming
  | .toRepresentation, _ => throw .nonconforming

/-- Converts a value by a definition, given the conversion by its references. -/
def TypeDefn.interpret (defn : TypeDefn) (direction : Direction) (part : TermOutcome)
    (value : Value) : Outcome :=
  match defn with
  | null => Kind.null.interpret value
  | bool => Kind.bool.interpret value
  | string => Kind.string.interpret value
  | bytes => Kind.bytes.interpret value
  | int => Kind.int.interpret value
  | float => Kind.float.interpret value
  | link _ => Kind.link.interpret value
  | map defn => defn.interpret direction part value
  | list defn => defn.interpret direction part value
  | struct defn => defn.interpret direction part value
  | union defn => defn.interpret direction part value
  | enum defn => defn.interpret direction value
  | copy fromType => part direction (.named fromType) value

namespace Source

/-- Converts a value by a reference to a type, with at most the given number of steps from a
reference to one in its definition. -/
def interpretUpTo (source : Source) : Nat → TermOutcome
  | 0, _, _, _ => throw .exhausted
  | most + 1, direction, .named name, value =>
    match source.custom.get? name with
    | some transform => Conversion.result (transform.convert name direction value) value
    | none =>
      match source.definition? name with
      | some defn => defn.interpret direction (source.interpretUpTo most) value
      | none => throw .nonconforming
  | most + 1, direction, .map defn, value =>
    (TypeDefn.map defn).interpret direction (source.interpretUpTo most) value
  | most + 1, direction, .list defn, value =>
    (TypeDefn.list defn).interpret direction (source.interpretUpTo most) value
  | most + 1, direction, .link defn, value =>
    (TypeDefn.link defn).interpret direction (source.interpretUpTo most) value

end Source

end LinkedSchema
