import LinkedSchema.Binary64.Rounding

namespace LinkedSchema

/-- The count of decimal digits of a natural number; zero has one. -/
def decimalLength (n : Nat) : Nat :=
  (Nat.toDigits 10 n).length

/-- A signed decimal number. The sign also tells the two zeros apart. -/
structure Decimal where
  negative : Bool
  digits : Nat
  exponent : Int
  deriving DecidableEq

namespace Decimal

/-- Moves up to the given number of trailing zeros from the digits into the exponent. -/
def stripZeros : Nat → Nat → Int → Nat × Int
  | 0, digits, exponent => (digits, exponent)
  | most + 1, digits, exponent =>
    if digits % 10 = 0 then stripZeros most (digits / 10) (exponent + 1) else (digits, exponent)

/-- The same number without trailing zeros in its digits; a zero has the exponent zero. -/
def normalize (d : Decimal) : Decimal :=
  if d.digits = 0 then ⟨d.negative, 0, 0⟩
  else
    let stripped := stripZeros (decimalLength d.digits) d.digits d.exponent
    ⟨d.negative, stripped.1, stripped.2⟩

/-- The exponent of the first digit. -/
def leadingExponent (d : Decimal) : Int :=
  d.exponent + decimalLength d.digits - 1

/-- The nearest double-precision number; none if that is beyond the greatest finite one. Numbers
that are far out of range are settled without computing their powers of ten. -/
def toBinary64? (d : Decimal) : Option Binary64 :=
  if d.digits = 0 then some (Binary64.ofMagnitude d.negative 0)
  else if 400 < d.leadingExponent then none
  else if d.leadingExponent < -400 then some (Binary64.ofMagnitude d.negative 0)
  else if 0 ≤ d.exponent then
    Binary64.ofRatio? d.negative (d.digits * Nat.pow 10 d.exponent.natAbs) 1
  else
    Binary64.ofRatio? d.negative d.digits (Nat.pow 10 d.exponent.natAbs)

/-- How decimal numbers are written: which exponents of the first digit are written without an
exponent part. -/
structure Layout where
  leastPlain : Int
  greatestPlain : Int

/-- Plain digits from `0.00001` up to sixteen places before the point. -/
def standard : Layout := ⟨-5, 15⟩

/-- The text of a normal decimal number. Plain text always has a fraction; otherwise the exponent is
written with its sign, and a point only where a second digit follows. -/
def textIn (layout : Layout) (d : Decimal) : String :=
  let digits := Nat.toDigits 10 d.digits
  let leading := d.leadingExponent
  let body :=
    if leading < layout.leastPlain || layout.greatestPlain < leading then
      let mantissa :=
        match digits with
        | first :: second :: rest => first :: '.' :: second :: rest
        | few => few
      mantissa ++ ['e', if leading < 0 then '-' else '+'] ++ Nat.toDigits 10 leading.natAbs
    else if leading < 0 then
      ['0', '.'] ++ List.replicate (leading.natAbs - 1) '0' ++ digits
    else if 0 ≤ d.exponent then
      digits ++ List.replicate d.exponent.natAbs '0' ++ ['.', '0']
    else
      digits.take (leading.natAbs + 1) ++ ['.'] ++ digits.drop (leading.natAbs + 1)
  String.ofList (if d.negative then '-' :: body else body)

def text (d : Decimal) : String :=
  d.textIn standard

end Decimal

end LinkedSchema
