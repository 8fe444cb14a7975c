import LinkedSchema.Binary64.Basic

namespace LinkedSchema

/-- The quotient rounded to the nearest natural number, a half to the even one. -/
def roundQuotient (numerator denominator : Nat) : Nat :=
  let floor := numerator / denominator
  let twice := 2 * (numerator % denominator)
  if twice < denominator then floor
  else if denominator < twice then floor + 1
  else floor + floor % 2

/-- The quotient of two natural numbers, with a power of two moved into it. -/
def scaledQuotient (numerator denominator : Nat) (scale : Int) : Nat :=
  if scale < 0 then roundQuotient (numerator * Nat.pow 2 scale.natAbs) denominator
  else roundQuotient numerator (denominator * Nat.pow 2 scale.natAbs)

/-- The greatest power of two that is at most the ratio, as its exponent. -/
def floorLog2 (numerator denominator : Nat) : Int :=
  let guess : Int := (numerator.log2 : Int) - denominator.log2
  let reached :=
    if guess < 0 then decide (denominator ≤ numerator * Nat.pow 2 guess.natAbs)
    else decide (denominator * Nat.pow 2 guess.natAbs ≤ numerator)
  if reached then guess else guess - 1

namespace Binary64

/-- The bits, without a sign, of the number nearest to a positive ratio. The significand has 53 bits
unless the ratio is so small that the scale is the least one. -/
def roundMagnitude (numerator denominator : Nat) : Nat :=
  let scale := max (floorLog2 numerator denominator - 52) (-1074)
  (scale + 1074).toNat * fractionCount + scaledQuotient numerator denominator scale

/-- The number nearest to a ratio; none if that is beyond the greatest finite number. -/
def ofRatio? (negative : Bool) (numerator denominator : Nat) : Option Binary64 :=
  if numerator = 0 then some (ofMagnitude negative 0)
  else
    let magnitude := roundMagnitude numerator denominator
    if magnitude < topField * fractionCount then some (ofMagnitude negative magnitude)
    else none

end Binary64

end LinkedSchema
