import LinkedSchema.Transform.Collection

namespace LinkedSchema

/-- The first value of a table for a discriminant. -/
def selected? {α : Type} [DecidableEq α] (table : List (α × Nat)) (discriminant : α) :
    Option Nat :=
  (table.find? fun entry => entry.1 = discriminant).map Prod.snd

/-- The first discriminant of a table that selects a member. -/
def discriminant? {α : Type} (table : List (α × Nat)) (member : Nat) : Option α :=
  (table.find? fun entry => entry.2 = member).map Prod.fst

/-- What follows a beginning. -/
def after? {α : Type} [DecidableEq α] (beginning items : List α) : Option (List α) :=
  if beginning.isPrefixOf items then some (items.drop beginning.length) else none

theorem after?_append {α : Type} [DecidableEq α] (beginning rest : List α) :
    after? beginning (beginning ++ rest) = some rest := by
  simp [after?]

theorem after?_eq_some_iff {α : Type} [DecidableEq α] {beginning items rest : List α} :
    after? beginning items = some rest ↔ items = beginning ++ rest := by
  constructor
  · intro h
    unfold after? at h
    split at h
    · rename_i hp
      obtain ⟨tail, rfl⟩ := List.isPrefixOf_iff_prefix.mp hp
      simpa using h
    · cases h
  · intro he
    subst he
    exact after?_append beginning rest

namespace Strategy

/-- The place of the member that a representation shows, with the representation of the member. -/
def select? (strategy : Strategy) (value : Value) : Option (Nat × Value) :=
  match strategy, value with
  | kinded table, value =>
    if (Kind.of value).admits value then
      (selected? table (Kind.of value)).map (·, value)
    else none
  | keyed table, .map entries =>
    match entries.toList with
    | [(key, content)] => (selected? table key).map (·, content)
    | _ => none
  | envelope discriminantKey contentKey table, .map entries =>
    if entries.size = 2 then
      match entries.get? discriminantKey, entries.get? contentKey with
      | some (.string tag), some content => (selected? table tag).map (·, content)
      | _, _ => none
    else none
  | inlined discriminantKey table, .map entries =>
    match entries.get? discriminantKey with
    | some (.string tag) =>
      (selected? table tag).map (·, .map (entries.erase discriminantKey))
    | _ => none
  | stringPrefix table, .string s =>
    table.findSome? fun (beginning, member) =>
      (after? beginning.toList s.toList).map fun rest => (member, .string (String.ofList rest))
  | bytesPrefix table, .bytes b =>
    table.findSome? fun (beginning, member) =>
      (after? beginning b).map fun rest => (member, .bytes rest)
  | _, _ => none

/-- The representation that shows a member with the given representation of its own. -/
def wrap? (strategy : Strategy) (member : Nat) (value : Value) : Option Value :=
  match strategy with
  | kinded table =>
    match discriminant? table member with
    | some kind => if kind.admits value then some value else none
    | none => none
  | keyed table => (discriminant? table member).map fun key => .map (SortedMap.singleton key value)
  | envelope discriminantKey contentKey table =>
    (discriminant? table member).map fun tag =>
      .map (SortedMap.ofList [(discriminantKey, .string tag), (contentKey, value)])
  | inlined discriminantKey table =>
    match discriminant? table member, value with
    | some tag, .map entries =>
      if entries.contains discriminantKey then none
      else some (.map (entries.insert discriminantKey (.string tag)))
    | _, _ => none
  | stringPrefix table =>
    match discriminant? table member, value with
    | some beginning, .string rest => some (.string (beginning ++ rest))
    | _, _ => none
  | bytesPrefix table =>
    match discriminant? table member, value with
    | some beginning, .bytes rest => some (.bytes (beginning ++ rest))
    | _, _ => none

end Strategy

namespace Node

def readUnion (members : List Member) (strategy : Strategy) (convertPart : PartConversion)
    (value : Value) : Conversion := do
  let some (place, content) := strategy.select? value | throw .nonconforming
  let some member := members[place]? | throw .impossible
  let change ← convertPart member.slot content
  return .replaced (.map (SortedMap.singleton member.name (change.apply content)))

def writeUnion (members : List Member) (strategy : Strategy) (convertPart : PartConversion) :
    Value → Conversion
  | .map entries =>
    match entries.toList with
    | [(name, content)] => do
      let some place := members.findIdx? fun member => member.name = name
        | throw .nonconforming
      let some member := members[place]? | throw .impossible
      let change ← convertPart member.slot content
      match strategy.wrap? place (change.apply content) with
      | some value => return .replaced value
      | none => throw .nonconforming
    | _ => throw .nonconforming
  | _ => throw .nonconforming

def readEnum (members : List (String × Value)) (value : Value) : Conversion :=
  match members.find? fun member => member.2.same value with
  | none => throw .nonconforming
  | some (name, _) =>
    if value = .string name then return .unchanged else return .replaced (.string name)

def writeEnum (members : List (String × Value)) : Value → Conversion
  | .string name =>
    match members.find? fun member => member.1 = name with
    | none => throw .nonconforming
    | some (_, value) =>
      if value.same (.string name) then return .unchanged else return .replaced value
  | _ => throw .nonconforming

end Node

end LinkedSchema
