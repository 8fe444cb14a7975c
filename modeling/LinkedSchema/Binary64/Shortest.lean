import LinkedSchema.Decimal

namespace LinkedSchema

namespace Binary64

/-- The absolute value of a finite number as a ratio. -/
def ratio (x : Binary64) : Nat × Nat :=
  if x.scale < 0 then (x.significand, Nat.pow 2 x.scale.natAbs)
  else (x.significand * Nat.pow 2 x.scale.natAbs, 1)

/-- The exponent of the first decimal digit of a positive ratio. -/
def floorLog10 (numerator denominator : Nat) : Int :=
  if denominator ≤ numerator then decimalLength (numerator / denominator) - 1
  else -(decimalLength ((denominator + numerator - 1) / numerator - 1) : Int)

/-- The two neighbours of the number among the multiples of a power of ten, the nearer one first; of
two equally near the even one is first. -/
def neighbours (x : Binary64) (exponent : Int) : List Decimal :=
  let (numerator, denominator) :=
    if exponent < 0 then (x.ratio.1 * Nat.pow 10 exponent.natAbs, x.ratio.2)
    else (x.ratio.1, x.ratio.2 * Nat.pow 10 exponent.natAbs)
  let below := numerator / denominator
  let nearest := roundQuotient numerator denominator
  let other := if nearest = below then below + 1 else below
  [⟨x.isNegative, nearest, exponent⟩, ⟨x.isNegative, other, exponent⟩]

/-- The neighbour on the grid of the given number of digits that reads back, if there is one. -/
def readableWith (x : Binary64) (places : Nat) : Option Decimal :=
  let exponent := floorLog10 x.ratio.1 x.ratio.2 - places + 1
  ((x.neighbours exponent).map Decimal.normalize).find? (·.toBinary64? = some x)

/-- All digits of a finite number. -/
def exactDecimal (x : Binary64) : Decimal :=
  if x.scale < 0 then
    Decimal.normalize ⟨x.isNegative, x.significand * Nat.pow 5 x.scale.natAbs, x.scale⟩
  else Decimal.normalize ⟨x.isNegative, x.significand * Nat.pow 2 x.scale.natAbs, 0⟩

/-- The shortest decimal number that reads back as `x`, for a finite `x`. Seventeen digits always
suffice. -/
def shortest (x : Binary64) : Decimal :=
  if x.isZero then ⟨x.isNegative, 0, 0⟩
  else ((List.range 17).findSome? fun n => x.readableWith (n + 1)).getD x.exactDecimal

/-- The text of a finite number. -/
def text (x : Binary64) : String :=
  x.shortest.text

end Binary64

end LinkedSchema
