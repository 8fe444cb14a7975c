import LinkedSchema.Value.Basic

namespace LinkedSchema

/-- A single-precision number, kept as its bits. -/
structure Binary32 where
  bits : UInt32
  deriving DecidableEq

def Binary32.widen (x : Binary32) : Binary64 :=
  Binary64.ofSingle x.bits

/-- Types whose elements have a value that stands for them. -/
class ToValue (α : Type) where
  toValue : α → Value

export ToValue (toValue)

instance : ToValue Value := ⟨id⟩

instance : ToValue Bool := ⟨.bool⟩

instance : ToValue Int := ⟨.int⟩

instance : ToValue Int8 := ⟨fun n => .int n.toInt⟩

instance : ToValue Int16 := ⟨fun n => .int n.toInt⟩

instance : ToValue Int32 := ⟨fun n => .int n.toInt⟩

instance : ToValue Int64 := ⟨fun n => .int n.toInt⟩

instance : ToValue UInt8 := ⟨fun n => .int n.toNat⟩

instance : ToValue UInt16 := ⟨fun n => .int n.toNat⟩

instance : ToValue UInt32 := ⟨fun n => .int n.toNat⟩

instance : ToValue UInt64 := ⟨fun n => .int n.toNat⟩

instance : ToValue Binary64 := ⟨.float⟩

instance : ToValue Binary32 := ⟨fun x => .float x.widen⟩

instance : ToValue String := ⟨.string⟩

instance : ToValue (List UInt8) := ⟨.bytes⟩

instance : ToValue (List Value) := ⟨.list⟩

instance : ToValue (SortedMap Value none) := ⟨.map⟩

instance : ToValue Cid := ⟨.link⟩

/-- An absent element is null. -/
instance {α : Type} [ToValue α] : ToValue (Option α) :=
  ⟨fun x => (x.map toValue).getD .null⟩

end LinkedSchema
