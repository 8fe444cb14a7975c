import LinkedSchema.Value.Basic

namespace LinkedSchema

inductive Kind where
  | null
  | bool
  | int
  | float
  | string
  | bytes
  | link
  | list
  | map
  deriving DecidableEq

namespace Kind

def all : List Kind :=
  [null, bool, int, float, string, bytes, link, list, map]

/-- The name by which schemas call a kind. -/
def name : Kind → String
  | null => "null"
  | bool => "bool"
  | int => "int"
  | float => "float"
  | string => "string"
  | bytes => "bytes"
  | link => "link"
  | list => "list"
  | map => "map"

/-- The name in messages. -/
def label : Kind → String
  | null => "Null"
  | bool => "Bool"
  | int => "Int"
  | float => "Float"
  | string => "String"
  | bytes => "Bytes"
  | link => "Link"
  | list => "List"
  | map => "Map"

def ofName? (name : String) : Option Kind :=
  all.find? fun kind => kind.name = name

def of : Value → Kind
  | .null => null
  | .bool _ => bool
  | .int _ => int
  | .float _ => float
  | .string _ => string
  | .bytes _ => bytes
  | .list _ => list
  | .map _ => map
  | .link _ => link

/-- Whether a value is a member of the kind. -/
def admits (kind : Kind) : Value → Bool
  | .float x => kind = float && x.isFinite
  | value => kind = of value

theorem mem_all (kind : Kind) : kind ∈ all := by
  cases kind <;> simp [all]

theorem ofName?_name (kind : Kind) : ofName? kind.name = some kind := by
  cases kind <;> rfl

theorem name_inj {kind other : Kind} : kind.name = other.name ↔ kind = other := by
  refine ⟨fun h => ?_, congrArg name⟩
  have hn := congrArg ofName? h
  rw [ofName?_name, ofName?_name] at hn
  exact Option.some.inj hn

theorem of_eq_of_admits {kind : Kind} {value : Value} (h : kind.admits value = true) :
    of value = kind := by
  cases value <;> grind [admits, of]

/-- A value is a member of its kind unless it is a number that is not finite. -/
theorem admits_of_iff {value : Value} :
    (of value).admits value = true ↔ ∀ x, value = .float x → x.isFinite = true := by
  cases value <;> simp [admits, of]

theorem admits_iff {kind : Kind} {value : Value} :
    kind.admits value = true ↔ of value = kind ∧ (of value).admits value = true := by
  constructor
  · intro h
    have he := of_eq_of_admits h
    exact ⟨he, he ▸ h⟩
  · intro h
    obtain ⟨rfl, h⟩ := h
    exact h

end Kind

end LinkedSchema
