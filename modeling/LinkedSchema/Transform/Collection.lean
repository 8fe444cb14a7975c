import LinkedSchema.Transform.Node

namespace LinkedSchema

/-- The conversion of the parts of a value, by the slots of their types. -/
abbrev PartConversion := Slot → Value → Conversion

namespace PartType

def convert (type : PartType) (convertPart : PartConversion) (value : Value) : Conversion :=
  if type.nullable && value = .null then return .unchanged
  else convertPart type.slot value

end PartType

/-- A map under construction, or none as long as nothing has changed. -/
abbrev Draft := Option (SortedMap Value none)

namespace Draft

/-- The map under construction; one that is not begun yet begins with the given entries. -/
def begun (draft : Draft) (before : List (String × Value)) : SortedMap Value none :=
  draft.getD (SortedMap.ofList before)

/-- The change of a value to the map, if it is begun. -/
def change (draft : Draft) : Change :=
  match draft with
  | none => .unchanged
  | some entries => .replaced (.map entries)

end Draft

namespace Node

/-- Converts one item of a list. -/
def convertItem (convert : Value → Conversion) (items : List Value) (built : Option (Array Value))
    (item : Value × Nat) : Except Stop (Option (Array Value)) := do
  let change ← convert item.1
  match built with
  | some built => return some (built.push (change.apply item.1))
  | none =>
    if change.isUnchanged then return none
    else return some ((items.take item.2).toArray.push (change.apply item.1))

def convertList (convert : Value → Conversion) : Value → Conversion
  | .list items => do
    match ← items.zipIdx.foldlM (convertItem convert items) none with
    | none => return .unchanged
    | some built => return .replaced (.list built.toList)
  | _ => throw .nonconforming

/-- Converts one entry of a map. -/
def convertEntry (convert : Value → Conversion) (entries : List (String × Value)) (draft : Draft)
    (entry : (String × Value) × Nat) : Except Stop Draft := do
  let ((key, value), place) := entry
  let change ← convert value
  if draft.isNone && change.isUnchanged then return none
  else return some ((draft.begun (entries.take place)).insert key (change.apply value))

def convertMap (convert : Value → Conversion) : Value → Conversion
  | .map entries => do
    let draft ← entries.toList.zipIdx.foldlM (convertEntry convert entries.toList) none
    return draft.change
  | _ => throw .nonconforming

/-- Adds one pair of a list of pairs; a repeated key does not conform. -/
def readPair (convert : Value → Conversion) (built : SortedMap Value none) (pair : Value) :
    Except Stop (SortedMap Value none) :=
  match pair with
  | .list [.string key, value] => do
    if built.contains key then throw .nonconforming
    let change ← convert value
    return built.insert key (change.apply value)
  | _ => throw .nonconforming

def readPairs (convert : Value → Conversion) : Value → Conversion
  | .list items => do return .replaced (.map (← items.foldlM (readPair convert) ∅))
  | _ => throw .nonconforming

def writePairs (convert : Value → Conversion) : Value → Conversion
  | .map entries => do
    let items ← entries.toList.mapM fun (key, value) => do
      let change ← convert value
      return Value.list [.string key, change.apply value]
    return .replaced (.list items)
  | _ => throw .nonconforming

end Node

/-- The number of required fields still to come after one more field. -/
def Field.countDown (field : Field) (missing : Nat) : Except Stop Nat :=
  if field.isRequired then
    match missing with
    | 0 => throw .impossible
    | missing + 1 => return missing
  else return missing

namespace StructMap

/-- Where the conversion to the typed form stands: the number of required fields still to come, the
places of the fields that have come, and the map under construction. -/
structure Progress where
  missing : Nat
  present : List Nat
  draft : Draft

/-- Converts the entry of one key. -/
def readEntry (layout : StructMap) (convertPart : PartConversion)
    (entries : List (String × Value)) (progress : Progress) (entry : (String × Value) × Nat) :
    Except Stop Progress := do
  let ((key, value), place) := entry
  let some index := layout.keys.get? key | throw .nonconforming
  let some field := layout.fields.values[index]? | throw .impossible
  let change ← field.type.convert convertPart value
  let missing ← field.countDown progress.missing
  let draft :=
    if progress.draft.isNone && field.name = key && change.isUnchanged then none
    else
      some ((progress.draft.begun (entries.take place)).insert field.name (change.apply value))
  return ⟨missing, index :: progress.present, draft⟩

/-- Fills in the implicit value of a field that has not come. -/
def fillIn (given : SortedMap Value none) (present : List Nat) (draft : Draft)
    (field : Field × Nat) : Draft :=
  match field.1.implicit with
  | some value =>
    if present.contains field.2 then draft
    else some ((draft.getD given).insert field.1.name value)
  | none => draft

def read (layout : StructMap) (convertPart : PartConversion) : Value → Conversion
  | .map entries => do
    let progress ← entries.toList.zipIdx.foldlM
      (layout.readEntry convertPart entries.toList) ⟨layout.required, [], none⟩
    if progress.missing ≠ 0 then throw .nonconforming
    let draft := layout.fields.values.zipIdx.foldl (fillIn entries progress.present) progress.draft
    return draft.change
  | _ => throw .nonconforming

/-- Converts the entry of one field; one that has its implicit value is left out. -/
def writeEntry (layout : StructMap) (convertPart : PartConversion)
    (entries : List (String × Value)) (progress : Nat × Draft) (entry : (String × Value) × Nat) :
    Except Stop (Nat × Draft) := do
  let (missing, draft) := progress
  let ((name, value), place) := entry
  let some field := layout.fields.get? name | throw .nonconforming
  let missing ← field.countDown missing
  let before := entries.take place
  if field.implicit.any (·.same value) then return (missing, some (draft.begun before))
  let change ← field.type.convert convertPart value
  if draft.isNone && field.key = name && change.isUnchanged then return (missing, none)
  else return (missing, some ((draft.begun before).insert field.key (change.apply value)))

def write (layout : StructMap) (convertPart : PartConversion) : Value → Conversion
  | .map entries => do
    let (missing, draft) ← entries.toList.zipIdx.foldlM
      (layout.writeEntry convertPart entries.toList) (layout.required, none)
    if missing ≠ 0 then throw .nonconforming
    return draft.change
  | _ => throw .nonconforming

end StructMap

namespace Node

/-- The items of a list become the fields of a struct, one for each. -/
def readTuple (fields : List Field) (convertPart : PartConversion) : Value → Conversion
  | .list items => do
    if items.length ≠ fields.length then throw .nonconforming
    let entries ← (fields.zip items).mapM fun (field, item) => do
      let change ← field.type.convert convertPart item
      return (field.name, change.apply item)
    return .replaced (.map (SortedMap.ofList entries))
  | _ => throw .nonconforming

def writeTuple (fields : List Field) (convertPart : PartConversion) : Value → Conversion
  | .map entries => do
    if entries.size ≠ fields.length then throw .nonconforming
    let items ← fields.mapM fun field => do
      let some value := entries.get? field.name | throw .nonconforming
      let change ← field.type.convert convertPart value
      return change.apply value
    return .replaced (.list items)
  | _ => throw .nonconforming

end Node

end LinkedSchema
