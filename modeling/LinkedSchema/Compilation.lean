import LinkedSchema.Schema.Error
import LinkedSchema.Schema.Implicit
import LinkedSchema.Transform.Registry

namespace LinkedSchema

/-- What types are compiled from: a schema, and the transforms that replace named types. -/
structure Source where
  schema : Schema
  custom : Table CustomTransform

/-- A step of a compilation, which goes on with the registry after an error, too. -/
abbrev Compilation := ExceptT SchemaError (StateM Registry)

/-- Compiles a definition under a name. -/
abbrev DefnCompiler := String → TypeDefn → Compilation Unit

namespace Source

/-- The definition that the schema or, failing that, the implicit types have for a name. -/
def definition? (source : Source) (name : String) : Option TypeDefn :=
  source.schema.types.get? name <|> implicitType? name

def definition (source : Source) (name : String) : Except SchemaError TypeDefn :=
  match source.definition? name with
  | some defn => return defn
  | none => throw (.unknownType name)

end Source

namespace Compilation

def slot? (name : String) : Compilation (Option Slot) := do
  return (← get).slot? name

def isRegistered (name : String) : Compilation Bool := do
  return (← slot? name).isSome

/-- The slot of a name that has been added. -/
def slotOfAdded (name : String) : Compilation Slot := do
  match ← slot? name with
  | some slot => return slot
  | none => throw (.unknownType name)

/-- Reserves a slot for a name, makes a compiled type and puts it there. -/
def fillNewSlot (name : String) (node : Compilation Node) : Compilation Unit := do
  let slot := (← get).nodes.size
  modify (·.reserve name)
  let node ← node
  match (← get).fill? slot node with
  | some registry => set registry
  | none => throw .impossible

/-- Registers the transform of a name. -/
def addCustom (name : String) (transform : CustomTransform) : Compilation Unit := do
  if transform.isValid then fillNewSlot name (return .custom name transform)
  else throw (.emptyTransform name)

/-- Compiles the definition of a name, unless that is done or a transform replaces it. -/
def addNamed (source : Source) (add : DefnCompiler) (name : String) : Compilation Unit := do
  if ← isRegistered name then return
  match source.custom.get? name with
  | some transform => addCustom name transform
  | none => add name (← source.definition name)

/-- The slot of a named type, which is compiled if need be. -/
def slotOfName (source : Source) (add : DefnCompiler) (name : String) : Compilation Slot := do
  addNamed source add name
  slotOfAdded name

/-- The name of a definition that stands in the place of a reference. -/
def anonymousName (owner part : String) : String :=
  owner ++ " > " ++ part ++ " (anon)"

/-- The slot of the type that a part of a definition refers to. -/
def slotOfTerm (source : Source) (add : DefnCompiler) (owner part : String) (term : TypeTerm) :
    Compilation Slot :=
  match term with
  | .named name => slotOfName source add name
  | .map defn => anonymous (.map defn)
  | .list defn => anonymous (.list defn)
  | .link defn => anonymous (.link defn)
where
  anonymous (defn : TypeDefn) : Compilation Slot := do
    add (anonymousName owner part) defn
    slotOfAdded (anonymousName owner part)

end Compilation

open Compilation

def MapDefn.compile (source : Source) (add : DefnCompiler) (name : String)
    (defn : MapDefn TypeTerm) : Compilation Node := do
  if defn.keyType ≠ "String" then throw (.invalidKeyType name defn.keyType)
  let form : PartType → Node ←
    match defn.representation with
    | .map => pure .map
    | .listPairs => pure .pairs
    | .stringPairs .. => throw (.unsupported name "map" "stringpairs")
    | .advanced _ => throw (.unsupported name "map" "advanced")
  let slot ← slotOfTerm source add name "valueType" defn.valueType
  return form ⟨slot, defn.valueNullable⟩

def ListDefn.compile (source : Source) (add : DefnCompiler) (name : String)
    (defn : ListDefn TypeTerm) : Compilation Node := do
  match defn.representation with
  | .list => pure ()
  | .advanced _ => throw (.unsupported name "list" "advanced")
  let slot ← slotOfTerm source add name "valueType" defn.valueType
  return .list ⟨slot, defn.valueNullable⟩

/-- The scalar that an implicit value stands for. -/
def scalar? : Json Empty → Option Value
  | .bool b => some (.bool b)
  | .int n => some (.int n)
  | .float x => some (.float x)
  | .string s => some (.string s)
  | _ => none

namespace StructDefn

def partType (source : Source) (add : DefnCompiler) (owner name : String) (field : StructField) :
    Compilation PartType := do
  let slot ← slotOfTerm source add owner name field.type
  return ⟨slot, field.nullable⟩

/-- The typed form of an implicit value, by the types compiled so far. -/
def typedImplicit (owner name : String) (type : PartType) (value : Value) : Compilation Value := do
  match (← get).convert .toTyped type.slot value with
  | .ok change => return change.apply value
  | .error .impossible => throw .impossible
  | .error .exhausted => throw (.invalidImplicit owner name .endless)
  | .error _ => throw (.invalidImplicit owner name .invalid)

/-- Compiles one field of a struct that is represented as a map, given the keys before it. -/
def compileMapField (source : Source) (add : DefnCompiler) (owner : String)
    (details : Table FieldDetails) (before : List Field) (entry : String × StructField) :
    Compilation (List Field) := do
  let (name, field) := entry
  let detail := (details.get? name).getD {}
  let key := detail.rename.getD name
  if before.any (·.key = key) then throw (.duplicateKey owner key)
  let literal ←
    match detail.implicit with
    | none => pure none
    | some j =>
      match scalar? j with
      | some value => pure (some value)
      | none => throw (.invalidImplicit owner name .invalid)
  let type ← partType source add owner name field
  let implicit ← literal.mapM (typedImplicit owner name type)
  return before ++ [⟨name, key, type, field.isOptional, implicit⟩]

def compileMap (source : Source) (add : DefnCompiler) (name : String)
    (fields : Table StructField) (details : Table FieldDetails) : Compilation Node := do
  match details.keys.find? fun field => !fields.contains field with
  | some field => throw (.unknownField name field)
  | none => pure ()
  let fields ← fields.entries.foldlM (compileMapField source add name details) []
  return .structMap (.ofFields fields)

/-- The order of the fields of a tuple, which names each field once. -/
def tupleOrder (name : String) (fields : Table StructField) (order : Option (List String)) :
    Except SchemaError (List String) :=
  match order with
  | none => return fields.keys
  | some order =>
    if order.length = fields.size ∧ order.Nodup ∧ order.all fields.contains then return order
    else throw (.fieldOrder name fields.size)

/-- Compiles one field of a struct that is represented as a list. -/
def compileTupleField (source : Source) (add : DefnCompiler) (owner : String)
    (fields : Table StructField) (name : String) : Compilation Field := do
  let some defn := fields.get? name | throw .impossible
  let type ← partType source add owner name defn
  return { name, key := name, type, isOptional := defn.isOptional, implicit := none }

def compileTuple (source : Source) (add : DefnCompiler) (name : String)
    (fields : Table StructField) (order : Option (List String)) : Compilation Node := do
  match fields.entries.find? fun entry => entry.2.isOptional with
  | some (field, _) => throw (.optionalField name field)
  | none => pure ()
  let order ← tupleOrder name fields order
  let fields ← order.mapM (compileTupleField source add name fields)
  return .structTuple fields

def compile (source : Source) (add : DefnCompiler) (name : String) (defn : StructDefn) :
    Compilation Node :=
  match defn.representation with
  | .map details => compileMap source add name defn.fields details
  | .tuple order => compileTuple source add name defn.fields order
  | .stringPairs .. => throw (.unsupported name "struct" "stringpairs")
  | .stringJoin .. => throw (.unsupported name "struct" "stringjoin")
  | .listPairs => throw (.unsupported name "struct" "listpairs")
  | .advanced _ => throw (.unsupported name "struct" "advanced")

end StructDefn

namespace UnionDefn

/-- The places of the members that a table names, of which none may be named twice. -/
def resolve (members : List String) (table : Table String) :
    Except UnionFlaw (List (String × Nat)) :=
  table.entries.foldlM step []
where
  step (resolved : List (String × Nat)) (entry : String × String) :
      Except UnionFlaw (List (String × Nat)) := do
    let (discriminant, member) := entry
    let some place := members.idxOf? member | throw (.notMember member)
    if resolved.any (·.2 = place) then throw (.selectedTwice member)
    return resolved ++ [(discriminant, place)]

/-- Refuses a table in which one beginning starts another. -/
def checkBeginnings {α : Type} [DecidableEq α] : List (List α × Nat) → Except UnionFlaw Unit
  | [] => return
  | (beginning, _) :: rest =>
    if rest.any fun other => beginning.isPrefixOf other.1 || other.1.isPrefixOf beginning then
      throw .overlap
    else checkBeginnings rest

def kindOf (name : String) : Except UnionFlaw Kind :=
  match Kind.ofName? name with
  | some kind => return kind
  | none => throw (.notKind name)

def bytesOf (text : String) : Except UnionFlaw (List UInt8) :=
  (Encoding.readHex text).mapError (.notHex text)

/-- The strategy of a representation over the given members. -/
def strategy (members : List String) : UnionRepresentation → Except UnionFlaw Strategy
  | .kinded table => do
    let resolved ← resolve members table
    return .kinded (← resolved.mapM fun (name, place) => do return (← kindOf name, place))
  | .keyed table => do return .keyed (← resolve members table)
  | .envelope discriminantKey contentKey table => do
    if discriminantKey.isEmpty || contentKey.isEmpty then throw .emptyKeys
    if discriminantKey = contentKey then throw (.sharedKey contentKey)
    return .envelope discriminantKey contentKey (← resolve members table)
  | .inlined discriminantKey table => do
    if discriminantKey.isEmpty then throw .emptyDiscriminant
    return .inlined discriminantKey (← resolve members table)
  | .stringPrefix table => do
    let resolved ← resolve members table
    checkBeginnings (resolved.map fun (beginning, place) => (beginning.toList, place))
    return .stringPrefix resolved
  | .bytesPrefix table => do
    let resolved ← resolve members table
    let table ← resolved.mapM fun (text, place) => do return (← bytesOf text, place)
    checkBeginnings table
    return .bytesPrefix table

/-- Compiles one member, given those before it. -/
def compileMember (source : Source) (add : DefnCompiler) (invalid : UnionFlaw → SchemaError)
    (before : List Member) (name : String) : Compilation (List Member) := do
  if before.any (·.name = name) then throw (invalid (.listedTwice name))
  let slot ← slotOfName source add name
  return before ++ [⟨name, slot⟩]

def compile (source : Source) (add : DefnCompiler) (name : String) (defn : UnionDefn) :
    Compilation Node := do
  let invalid := SchemaError.invalidUnion name defn.representation.keyword
  let strategy ← (strategy defn.members defn.representation).mapError invalid
  let members ← defn.members.foldlM (compileMember source add invalid) []
  return .union members strategy

end UnionDefn

namespace EnumDefn

/-- Refuses a table that names something that is no member. -/
def checkNames {α : Type} (members : List String) (table : Table α) : Except EnumFlaw Unit :=
  match table.keys.find? fun name => !members.contains name with
  | some name => throw (.notMember name)
  | none => return

/-- The members with what represents them. -/
def values (defn : EnumDefn) : Except EnumFlaw (List (String × Value)) := do
  if ¬defn.members.Nodup then throw .repeatedMembers
  match defn.representation with
  | .string table => do
    checkNames defn.members table
    return defn.members.map fun member => (member, .string ((table.get? member).getD member))
  | .int table => do
    checkNames defn.members table
    defn.members.mapM fun member =>
      match table.get? member with
      | some n => return (member, .int n.toInt)
      | none => throw (.noInt member)

/-- Refuses members that share what represents them. -/
def checkValues (before : List Value) : List (String × Value) → Except EnumFlaw Unit
  | [] => return
  | (member, value) :: rest =>
    if before.any (·.same value) then throw (.sharedValue member)
    else checkValues (before ++ [value]) rest

def compile (name : String) (defn : EnumDefn) : Except SchemaError Node := do
  let members ← defn.values.mapError (.invalidEnum name)
  (checkValues [] members).mapError (.invalidEnum name)
  return .enum members

end EnumDefn

/-- Compiles a definition other than a copy. -/
def TypeDefn.compile (source : Source) (add : DefnCompiler) (name : String) (defn : TypeDefn) :
    Compilation Node :=
  match defn with
  | null => return .kind .null
  | bool => return .kind .bool
  | string => return .kind .string
  | bytes => return .kind .bytes
  | int => return .kind .int
  | float => return .kind .float
  | link _ => return .kind .link
  | map defn => defn.compile source add name
  | list defn => defn.compile source add name
  | struct defn => defn.compile source add name
  | union defn => defn.compile source add name
  | enum defn => do defn.compile name
  | copy _ => throw .impossible

namespace Compilation

/-- Follows a chain of copies to the first name that is registered, has a transform or is no copy.
The names before it are the chain. -/
def followCopies (source : Source) (name : String) :
    Nat → List String → String → Compilation (List String × String)
  | 0, _, _ => throw .exhausted
  | most + 1, chain, target => do
    if chain.contains target then throw (.copyCycle name (chain ++ [target]))
    if (← isRegistered target) || source.custom.contains target then return (chain, target)
    match ← source.definition target with
    | .copy next => followCopies source name most (chain ++ [target]) next
    | _ => return (chain, target)

/-- The chain of copies from a name, and the slot of the first type in it that is no copy. -/
def copiedSlot (source : Source) (add : DefnCompiler) (name fromType : String) :
    Compilation (List String × Slot) := do
  let (chain, target) ←
    followCopies source name (source.schema.types.size + 2) [name] fromType
  let slot ← slotOfName source add target
  return (chain, slot)

/-- A copy shares the slot of the first type in its chain that is no copy. -/
def addCopy (source : Source) (add : DefnCompiler) (name fromType : String) :
    Compilation Unit := do
  let (chain, slot) ← copiedSlot source add name fromType
  chain.forM fun name => modify (·.addName name slot)

/-- Compiles a definition under a name, unless that is done or a transform replaces it. At most the
given number of definitions lie within one another. -/
def addDefnUpTo (source : Source) : Nat → DefnCompiler
  | 0, _, _ => throw .exhausted
  | most + 1, name, defn => do
    if ← isRegistered name then return
    match source.custom.get? name, defn with
    | some transform, _ => addCustom name transform
    | none, .copy fromType => addCopy source (addDefnUpTo source most) name fromType
    | none, defn => fillNewSlot name (defn.compile source (addDefnUpTo source most) name)

end Compilation

/-- How many definitions stand in the place of references. -/
def TypeTerm.inlineCount : TypeTerm → Nat
  | named _ => 0
  | map ⟨_, valueType, _, _⟩ => valueType.inlineCount + 1
  | list ⟨valueType, _, _⟩ => valueType.inlineCount + 1
  | link _ => 1

def TypeDefn.inlineCount : TypeDefn → Nat
  | map defn => defn.valueType.inlineCount
  | list defn => defn.valueType.inlineCount
  | struct defn => defn.fields.values.foldl (fun count field => count + field.type.inlineCount) 0
  | _ => 0

def Schema.inlineCount (schema : Schema) : Nat :=
  schema.types.values.foldl (fun count defn => count + defn.inlineCount) 0

namespace Source

/-- How many definitions can lie within one another: each declared, implicit or inline one and the
one that is asked for, and a copy before each of them. -/
def budget (source : Source) (defn : TypeDefn) : Nat :=
  2 * (source.schema.types.size + implicitTypeNames.length + source.schema.inlineCount +
    defn.inlineCount + 1)

/-- Compiles a definition under a name. -/
def addDefn (source : Source) : DefnCompiler := fun name defn =>
  addDefnUpTo source (source.budget defn) name defn

/-- Compiles a named type. -/
def addType (source : Source) (name : String) : Compilation Unit :=
  addNamed source source.addDefn name

/-- Compiles every declared type, in the order of declaration. -/
def addAll (source : Source) : Compilation Unit :=
  source.schema.types.keys.forM source.addType

end Source

/-- Runs a step of a compilation. -/
def Registry.after (registry : Registry) (step : Compilation Unit) :
    Except SchemaError Unit × Registry :=
  (ExceptT.run step).run registry

/-- The converter of a named type of a schema, with everything it depends on compiled. -/
def Source.create (source : Source) (root : String) : Except SchemaError Transformer := do
  if root.isEmpty then throw .emptyRoot
  let (result, registry) := Registry.after ∅ (source.addType root)
  result
  match registry.transformer? root with
  | some transformer => return transformer
  | none => throw (.unknownType root)

end LinkedSchema
