namespace LinkedSchema

/-- A double-precision number, kept as its bits, the payload of a NaN included. -/
structure Binary64 where
  bits : UInt64
  deriving DecidableEq

namespace Binary64

/-- The number of fractions that share an exponent field, the 52nd power of two. -/
def fractionCount : Nat := 0x10000000000000

/-- The number of bit patterns without the sign, the 63rd power of two. -/
def magnitudeCount : Nat := 0x8000000000000000

/-- The exponent field of infinities and NaNs. -/
def topField : Nat := 2047

def isNegative (x : Binary64) : Bool :=
  x.bits ≥ 0x8000000000000000

/-- The bits other than the sign. -/
def magnitude (x : Binary64) : Nat :=
  x.bits.toNat % magnitudeCount

def exponentField (x : Binary64) : Nat :=
  x.magnitude / fractionCount

def fraction (x : Binary64) : Nat :=
  x.magnitude % fractionCount

def isFinite (x : Binary64) : Bool :=
  x.exponentField < topField

def isNaN (x : Binary64) : Bool :=
  x.exponentField = topField && x.fraction ≠ 0

def isZero (x : Binary64) : Bool :=
  x.magnitude = 0

/-- The integer factor of a finite number; below `fractionCount` only for numbers of the least scale. -/
def significand (x : Binary64) : Nat :=
  if x.exponentField = 0 then x.fraction else fractionCount + x.fraction

/-- The power of two by which the significand is multiplied. -/
def scale (x : Binary64) : Int :=
  if x.exponentField = 0 then -1074 else x.exponentField - 1075

/-- The number with the given sign and other bits. -/
def ofMagnitude (negative : Bool) (magnitude : Nat) : Binary64 :=
  ⟨(if negative then 0x8000000000000000 else 0) + UInt64.ofNat magnitude⟩

/-- Numerical equality: zeros are equal whatever their sign, and a NaN differs from itself. -/
def same (x y : Binary64) : Bool :=
  !x.isNaN && !y.isNaN && (x.bits = y.bits || (x.isZero && y.isZero))

theorem same_self_iff {x : Binary64} : x.same x = true ↔ x.isNaN = false := by
  simp [same]

/-- Widens a single-precision number, given as its bits; the payload of a NaN moves to the high end
of the wider fraction. -/
def ofSingle (bits : UInt32) : Binary64 :=
  let negative := decide (bits ≥ 0x80000000)
  let field := bits.toNat / 0x800000 % 256
  let fraction := bits.toNat % 0x800000
  if field = 255 then
    let quiet := if fraction = 0 then 0 else 0x8000000000000
    ofMagnitude negative (topField * fractionCount + (fraction * 0x20000000 ||| quiet))
  else if field ≠ 0 then
    ofMagnitude negative ((field + 896) * fractionCount + fraction * 0x20000000)
  else if fraction = 0 then
    ofMagnitude negative 0
  else
    let top := fraction.log2
    ofMagnitude negative
      ((top + 874) * fractionCount + (fraction * Nat.pow 2 (52 - top) - fractionCount))

end Binary64

end LinkedSchema
