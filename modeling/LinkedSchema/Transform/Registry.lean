import LinkedSchema.Text.Quoted
import LinkedSchema.Transform.Selection

namespace LinkedSchema

namespace Node

/-- Converts a value by a compiled type, given the conversion of its parts. -/
def convert (node : Node) (direction : Direction) (convertPart : PartConversion) (value : Value) :
    Conversion :=
  match node, direction with
  | kind member, _ => if member.admits value then return .unchanged else throw .nonconforming
  | list items, _ => convertList (items.convert convertPart) value
  | map values, _ => convertMap (values.convert convertPart) value
  | pairs values, .toTyped => readPairs (values.convert convertPart) value
  | pairs values, .toRepresentation => writePairs (values.convert convertPart) value
  | structMap layout, .toTyped => layout.read convertPart value
  | structMap layout, .toRepresentation => layout.write convertPart value
  | structTuple fields, .toTyped => readTuple fields convertPart value
  | structTuple fields, .toRepresentation => writeTuple fields convertPart value
  | union members strategy, .toTyped => readUnion members strategy convertPart value
  | union members strategy, .toRepresentation => writeUnion members strategy convertPart value
  | enum members, .toTyped => readEnum members value
  | enum members, .toRepresentation => writeEnum members value
  | custom name transform, direction => transform.convert name direction value

end Node

/-- Slots, some of them still empty, and the slots of the names in the order of registration. -/
structure Registry where
  nodes : Array (Option Node) := #[]
  names : Table Slot := ∅

namespace Registry

instance : EmptyCollection Registry := ⟨{}⟩

def slot? (registry : Registry) (name : String) : Option Slot :=
  registry.names.get? name

/-- The compiled type in a slot. -/
def node? (registry : Registry) (slot : Slot) : Option Node :=
  registry.nodes[slot]?.join

/-- Adds an empty slot for a name. -/
def reserve (registry : Registry) (name : String) : Registry :=
  ⟨registry.nodes.push none, registry.names.insert name registry.nodes.size⟩

/-- Puts a compiled type into a slot, if there is such a slot. -/
def fill? (registry : Registry) (slot : Slot) (node : Node) : Option Registry :=
  if h : slot < registry.nodes.size then
    some { registry with nodes := registry.nodes.set slot (some node) h }
  else none

/-- Gives a slot another name, unless the name has a slot. -/
def addName (registry : Registry) (name : String) (slot : Slot) : Registry :=
  { registry with names := registry.names.insertIfNew name slot }

/-- Converts a value by the type in a slot, in at most the given number of steps from a type to one
of its parts. -/
def convertUpTo (registry : Registry) (direction : Direction) : Nat → Slot → Value → Conversion
  | 0, _, _ => throw .exhausted
  | most + 1, slot, value =>
    match registry.node? slot with
    | none => throw .nonconforming
    | some node => node.convert direction (registry.convertUpTo direction most) value

/-- Steps enough for every conversion in which no type selects itself without taking anything from
the value: between two steps that take something each slot is met at most once. -/
def budget (registry : Registry) (value : Value) : Nat :=
  (value.weight + 1) * (registry.nodes.size + 1)

def convert (registry : Registry) (direction : Direction) (slot : Slot) (value : Value) :
    Conversion :=
  registry.convertUpTo direction (registry.budget value) slot value

theorem slot?_reserve (registry : Registry) (name query : String) :
    (registry.reserve name).slot? query =
      if query = name then some registry.nodes.size else registry.slot? query :=
  registry.names.get?_insert name registry.nodes.size query

theorem slot?_reserve_self (registry : Registry) (name : String) :
    (registry.reserve name).slot? name = some registry.nodes.size := by
  rw [slot?_reserve, if_pos rfl]

/-- A new slot is empty. -/
theorem node?_reserve (registry : Registry) (name : String) (slot : Slot) :
    (registry.reserve name).node? slot = registry.node? slot := by
  simp only [node?, reserve, Array.getElem?_push]
  split
  · rename_i h
    simp [h]
  · rfl

theorem slot?_addName (registry : Registry) (name : String) (slot : Slot) (query : String) :
    (registry.addName name slot).slot? query =
      if query = name ∧ registry.names.contains name = false then some slot
      else registry.slot? query :=
  registry.names.get?_insertIfNew name slot query

@[simp] theorem node?_addName (registry : Registry) (name : String) (slot query : Slot) :
    (registry.addName name slot).node? query = registry.node? query := rfl

theorem fill?_eq_none_iff {registry : Registry} {slot : Slot} {node : Node} :
    registry.fill? slot node = none ↔ registry.nodes.size ≤ slot := by
  simp [fill?]

theorem slot?_of_fill? {registry filled : Registry} {slot : Slot} {node : Node}
    (h : registry.fill? slot node = some filled) (query : String) :
    filled.slot? query = registry.slot? query := by
  unfold fill? at h
  split at h
  · cases h
    rfl
  · cases h

theorem node?_of_fill? {registry filled : Registry} {slot : Slot} {node : Node}
    (h : registry.fill? slot node = some filled) (query : Slot) :
    filled.node? query = if query = slot then some node else registry.node? query := by
  unfold fill? at h
  split at h
  · cases h
    simp only [node?, Array.getElem?_set]
    by_cases hq : query = slot
    · simp [hq]
    · simp [hq, Ne.symm hq]
  · cases h

/-- Nothing conforms to an empty slot. -/
theorem convert_of_node?_eq_none {registry : Registry} {slot : Slot}
    (h : registry.node? slot = none) (direction : Direction) (value : Value) :
    registry.convert direction slot value = .error .nonconforming := by
  obtain ⟨most, hm⟩ : ∃ most, registry.budget value = most + 1 :=
    ⟨registry.budget value - 1, by
      have : 0 < registry.budget value := Nat.mul_pos (by omega) (by omega)
      omega⟩
  rw [convert, hm, convertUpTo, h]
  rfl

/-- The names with their slots. -/
def description (registry : Registry) : String :=
  let entries := registry.names.entries.map fun (name, slot) =>
    Text.quote name ++ ": " ++ toString slot
  "Transformers \x7b registry: \x7b" ++ ", ".intercalate entries ++ "\x7d \x7d"

end Registry

/-- The converter of one type. -/
structure Transformer where
  name : String
  slot : Slot
  registry : Registry

namespace Transformer

def toTyped (transformer : Transformer) (value : Value) : Conversion :=
  transformer.registry.convert .toTyped transformer.slot value

def toRepresentation (transformer : Transformer) (value : Value) : Conversion :=
  transformer.registry.convert .toRepresentation transformer.slot value

def convert (transformer : Transformer) (direction : Direction) (value : Value) : Conversion :=
  transformer.registry.convert direction transformer.slot value

def description (transformer : Transformer) : String :=
  "Transformer \x7b name: " ++ Text.quote transformer.name ++ " \x7d"

end Transformer

namespace Registry

/-- The converter of a named type. -/
def transformer? (registry : Registry) (name : String) : Option Transformer :=
  (registry.slot? name).map fun slot => ⟨name, slot, registry⟩

/-- The converters of all names, in the order of registration. -/
def transformers (registry : Registry) : List Transformer :=
  registry.names.entries.map fun (name, slot) => ⟨name, slot, registry⟩

end Registry

end LinkedSchema
