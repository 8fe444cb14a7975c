import LinkedSchema.Proofs.Plain.Collection

namespace LinkedSchema

/-- The conversion of the parts of a value, by the slots of their types, to plain outcomes. -/
abbrev PartOutcome := Slot → Value → Outcome

def PartConversion.result (convertPart : PartConversion) : PartOutcome := fun slot value =>
  Conversion.result (convertPart slot value) value

def PartType.plain (type : PartType) (part : PartOutcome) : Value → Outcome :=
  Plain.nullable type.nullable (part type.slot)

def Field.rule (part : PartOutcome) (field : Field) : Plain.FieldRule where
  name := field.name
  key := field.key
  isOptional := field.isOptional
  implicit := field.implicit.map .ok
  convert := field.type.plain part

@[simp] theorem Field.rule_name (part : PartOutcome) (field : Field) :
    (field.rule part).name = field.name := rfl

@[simp] theorem Field.rule_key (part : PartOutcome) (field : Field) :
    (field.rule part).key = field.key := rfl

namespace Node

def readPlainUnion (members : List Member) (strategy : Strategy) (part : PartOutcome)
    (value : Value) : Outcome :=
  match strategy.select? value with
  | none => throw .nonconforming
  | some (place, content) =>
    match members[place]? with
    | none => throw .impossible
    | some member => Plain.tag member.name (part member.slot) content

def writePlainUnion (members : List Member) (strategy : Strategy) (part : PartOutcome)
    (value : Value) : Outcome :=
  match Plain.untag? value with
  | none => throw .nonconforming
  | some (name, content) =>
    match members.findIdx? fun member => member.name = name with
    | none => throw .nonconforming
    | some place =>
      match members[place]? with
      | none => throw .impossible
      | some member => do
        match strategy.wrap? place (← part member.slot content) with
        | some value => return value
        | none => throw .nonconforming

def readPlainEnum (members : List (String × Value)) (value : Value) : Outcome :=
  match members.find? fun member => member.2.same value with
  | none => throw .nonconforming
  | some (name, _) => return .string name

def writePlainEnum (members : List (String × Value)) : Value → Outcome
  | .string name =>
    match members.find? fun member => member.1 = name with
    | none => throw .nonconforming
    | some (_, value) => return value
  | _ => throw .nonconforming

/-- Converts a value by a compiled type, given the outcomes of its parts. -/
def plain (node : Node) (direction : Direction) (part : PartOutcome) (value : Value) : Outcome :=
  match node, direction with
  | kind member, _ => if member.admits value then return value else throw .nonconforming
  | list items, _ => Plain.list (items.plain part) value
  | map values, _ => Plain.map (values.plain part) value
  | pairs values, .toTyped => Plain.readPairs (values.plain part) value
  | pairs values, .toRepresentation => Plain.writePairs (values.plain part) value
  | structMap layout, .toTyped => Plain.readStruct (layout.fields.values.map (Field.rule part)) value
  | structMap layout, .toRepresentation =>
    Plain.writeStruct (layout.fields.values.map (Field.rule part)) value
  | structTuple fields, .toTyped => Plain.readTuple (fields.map (Field.rule part)) value
  | structTuple fields, .toRepresentation => Plain.writeTuple (fields.map (Field.rule part)) value
  | union members strategy, .toTyped => readPlainUnion members strategy part value
  | union members strategy, .toRepresentation => writePlainUnion members strategy part value
  | enum members, .toTyped => readPlainEnum members value
  | enum members, .toRepresentation => writePlainEnum members value
  | custom name transform, direction =>
    Conversion.result (transform.convert name direction value) value

end Node

/-- Each discriminant selects another one of the given number of members. -/
structure SelectsApart {α : Type} (table : List (α × Nat)) (count : Nat) : Prop where
  discriminants : (table.map Prod.fst).Nodup
  places : (table.map Prod.snd).Nodup
  bound : ∀ entry ∈ table, entry.2 < count

/-- No beginning starts another. -/
def StartsApart {α : Type} (table : List (List α × Nat)) : Prop :=
  table.Pairwise fun a b => ¬a.1 <+: b.1 ∧ ¬b.1 <+: a.1

/-- The characters that the texts of a table begin with. -/
def beginnings (table : List (String × Nat)) : List (List Char × Nat) :=
  table.map fun (beginning, place) => (beginning.toList, place)

def Strategy.WellFormed (strategy : Strategy) (count : Nat) : Prop :=
  match strategy with
  | kinded table => SelectsApart table count
  | keyed table => SelectsApart table count
  | envelope discriminantKey contentKey table =>
    discriminantKey ≠ contentKey ∧ SelectsApart table count
  | inlined _ table => SelectsApart table count
  | stringPrefix table => SelectsApart table count ∧ StartsApart (beginnings table)
  | bytesPrefix table => SelectsApart table count ∧ StartsApart table

/-- The layout is that of a list of fields with distinct names and distinct keys. -/
structure StructMap.WellFormed (layout : StructMap) : Prop where
  names : (layout.fields.values.map Field.name).Nodup
  keys : (layout.fields.values.map Field.key).Nodup
  eq_ofFields : layout = ofFields layout.fields.values

/-- Members and what represents them, texts or numbers, are told apart. -/
structure EnumApart (members : List (String × Value)) : Prop where
  names : (members.map Prod.fst).Nodup
  values : members.Pairwise fun a b => a.2.same b.2 = false
  scalars : ∀ member ∈ members, (∃ s, member.2 = .string s) ∨ ∃ n, member.2 = .int n

/-- Values of the kind have no parts. -/
def Kind.isScalar (kind : Kind) : Bool :=
  kind ≠ list && kind ≠ map

def Node.WellFormed : Node → Prop
  | kind member => member.isScalar = true
  | structMap layout => layout.WellFormed
  | structTuple fields =>
    (fields.map Field.name).Nodup ∧ ∀ field ∈ fields, field.implicit = none
  | union members strategy =>
    (members.map Member.name).Nodup ∧ strategy.WellFormed members.length
  | enum members => EnumApart members
  | _ => True

/-- A type that no transform replaces. -/
def Node.Untransformed : Node → Prop
  | custom .. => False
  | _ => True

/-- All compiled types of a registry are well-formed. -/
def Registry.WellFormed (registry : Registry) : Prop :=
  ∀ slot node, registry.node? slot = some node → node.WellFormed

end LinkedSchema
