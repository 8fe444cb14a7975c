import LinkedSchema.Proofs.Outcome
import Mathlib.Data.List.ReduceOption

namespace LinkedSchema.Plain

/-- Null stays as it is where it may stand. -/
def nullable (allowed : Bool) (convert : Value → Outcome) (value : Value) : Outcome :=
  if allowed && value = .null then return .null else convert value

def list (convert : Value → Outcome) : Value → Outcome
  | .list items => do return .list (← items.mapM convert)
  | _ => throw .nonconforming

def entry (convert : Value → Outcome) (entry : String × Value) : Except Stop (String × Value) := do
  return (entry.1, ← convert entry.2)

def map (convert : Value → Outcome) : Value → Outcome
  | .map entries => do return .map (SortedMap.ofList (← entries.toList.mapM (entry convert)))
  | _ => throw .nonconforming

/-- Adds one pair of a list of pairs; a repeated key does not conform. -/
def readPair (convert : Value → Outcome) (built : SortedMap Value none) (pair : Value) :
    Except Stop (SortedMap Value none) :=
  match pair with
  | .list [.string key, value] => do
    if built.contains key then throw .nonconforming
    return built.insert key (← convert value)
  | _ => throw .nonconforming

def readPairs (convert : Value → Outcome) : Value → Outcome
  | .list items => do return .map (← items.foldlM (readPair convert) ∅)
  | _ => throw .nonconforming

def pair (convert : Value → Outcome) (entry : String × Value) : Outcome := do
  return .list [.string entry.1, ← convert entry.2]

def writePairs (convert : Value → Outcome) : Value → Outcome
  | .map entries => do return .list (← entries.toList.mapM (pair convert))
  | _ => throw .nonconforming

/-- What a struct demands of one of its fields: its name in the typed form, its key in the
representation, the typed value of an absent field, and the conversion of a present one. -/
structure FieldRule where
  name : String
  key : String
  isOptional : Bool
  implicit : Option Outcome
  convert : Value → Outcome

namespace FieldRule

def isRequired (rule : FieldRule) : Bool :=
  !rule.isOptional && rule.implicit.isNone

/-- The entry of a field that is absent from the representation. -/
def filling (rule : FieldRule) : Except Stop (Option (String × Value)) :=
  match rule.implicit with
  | none => return none
  | some implicit => do return some (rule.name, ← implicit)

/-- Whether a typed value is the one that an absent field has. -/
def isImplied (rule : FieldRule) (value : Value) : Except Stop Bool :=
  match rule.implicit with
  | none => return false
  | some implicit => do return (← implicit).same value

end FieldRule

def readEntry (rules : List FieldRule) (entry : String × Value) :
    Except Stop (String × Value) :=
  match rules.find? (·.key = entry.1) with
  | none => throw .nonconforming
  | some rule => do return (rule.name, ← rule.convert entry.2)

/-- Keys become names; then every required field must be there, and absent fields get the values
that they are known to have. -/
def readStruct (rules : List FieldRule) : Value → Outcome
  | .map entries => do
    let given ← entries.toList.mapM (readEntry rules)
    if rules.any fun rule => rule.isRequired && !entries.contains rule.key then
      throw .nonconforming
    let filled ← (rules.filter fun rule => !entries.contains rule.key).mapM FieldRule.filling
    return .map (SortedMap.ofList (given ++ filled.reduceOption))
  | _ => throw .nonconforming

def writeEntry (rules : List FieldRule) (entry : String × Value) :
    Except Stop (Option (String × Value)) :=
  match rules.find? (·.name = entry.1) with
  | none => throw .nonconforming
  | some rule => do
    if ← rule.isImplied entry.2 then return none
    else return some (rule.key, ← rule.convert entry.2)

/-- Names become keys, without the fields that are known from their absence. -/
def writeStruct (rules : List FieldRule) : Value → Outcome
  | .map entries => do
    let written ← entries.toList.mapM (writeEntry rules)
    if rules.any fun rule => rule.isRequired && !entries.contains rule.name then
      throw .nonconforming
    return .map (SortedMap.ofList written.reduceOption)
  | _ => throw .nonconforming

def readItem (item : FieldRule × Value) : Except Stop (String × Value) := do
  return (item.1.name, ← item.1.convert item.2)

def readTuple (rules : List FieldRule) : Value → Outcome
  | .list items => do
    if items.length ≠ rules.length then throw .nonconforming
    return .map (SortedMap.ofList (← (rules.zip items).mapM readItem))
  | _ => throw .nonconforming

def writeItem (entries : SortedMap Value none) (rule : FieldRule) : Outcome :=
  match entries.get? rule.name with
  | none => throw .nonconforming
  | some value => rule.convert value

def writeTuple (rules : List FieldRule) : Value → Outcome
  | .map entries => do
    if entries.size ≠ rules.length then throw .nonconforming
    return .list (← rules.mapM (writeItem entries))
  | _ => throw .nonconforming

/-- The typed form of a union: the name of the member with its typed value. -/
def tag (name : String) (convert : Value → Outcome) (content : Value) : Outcome := do
  return .map (SortedMap.singleton name (← convert content))

/-- The only entry of a map. -/
def untag? : Value → Option (String × Value)
  | .map entries =>
    match entries.toList with
    | [entry] => some entry
    | _ => none
  | _ => none

end LinkedSchema.Plain
