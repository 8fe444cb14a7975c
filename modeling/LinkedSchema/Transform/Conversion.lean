import LinkedSchema.Value.Basic

namespace LinkedSchema

/-- The two forms of a value: as it is stored, and as an application sees it. -/
inductive Direction where
  | toTyped
  | toRepresentation
  deriving DecidableEq

inductive Change where
  | unchanged
  | replaced (value : Value)
  deriving DecidableEq

namespace Change

/-- The converted value, given the value before the conversion. -/
def apply : Change → Value → Value
  | unchanged, value => value
  | replaced value, _ => value

def isUnchanged : Change → Bool
  | unchanged => true
  | replaced _ => false

@[simp] theorem apply_unchanged (value : Value) : unchanged.apply value = value := rfl

@[simp] theorem apply_replaced (value old : Value) : (replaced value).apply old = value := rfl

theorem isUnchanged_iff {change : Change} : change.isUnchanged = true ↔ change = unchanged := by
  cases change <;> simp [isUnchanged]

end Change

/-- Why a conversion gives no value. -/
inductive Stop where
  | nonconforming
  /-- The transform that is registered for the type failed. -/
  | failed (type reason : String)
  /-- The steps allowed for a conversion were not enough; a value is selected over and over. -/
  | exhausted
  /-- A part of a compiled type refers to something that is not there. -/
  | impossible
  deriving DecidableEq

/-- The message of a failed transform. -/
def Stop.message : Stop → String
  | nonconforming => "value does not conform"
  | failed type reason => "custom transform for `" ++ type ++ "` failed: " ++ reason
  | exhausted => "conversion does not end"
  | impossible => "compiled type is damaged"

abbrev Conversion := Except Stop Change

/-- A function that a user provides: a value, none if its argument does not conform, or the reason
of a failure. -/
abbrev TransformFunction := Value → Except String (Option Value)

/-- Replaces the conversion of a named type. A direction that is not provided changes nothing. -/
structure CustomTransform where
  toTyped : Option TransformFunction := none
  toRepresentation : Option TransformFunction := none

namespace CustomTransform

/-- Whether at least one direction is provided. -/
def isValid (transform : CustomTransform) : Bool :=
  transform.toTyped.isSome || transform.toRepresentation.isSome

def function? (transform : CustomTransform) : Direction → Option TransformFunction
  | .toTyped => transform.toTyped
  | .toRepresentation => transform.toRepresentation

/-- Converts by the function of the direction, on behalf of the named type. A function that is
called always makes a new value. -/
def convert (transform : CustomTransform) (type : String) (direction : Direction)
    (value : Value) : Conversion :=
  match transform.function? direction with
  | none => return .unchanged
  | some f =>
    match f value with
    | .ok (some converted) => return .replaced converted
    | .ok none => throw .nonconforming
    | .error reason => throw (.failed type reason)

/-- Which directions are provided. -/
def description (transform : CustomTransform) : String :=
  "CustomTransform \x7b to_typed: " ++ toString transform.toTyped.isSome ++
    ", to_representation: " ++ toString transform.toRepresentation.isSome ++ " \x7d"

end CustomTransform

end LinkedSchema
