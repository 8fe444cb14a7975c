import LinkedSchema.Text.Quoted
import LinkedSchema.Text.Utf8

namespace LinkedSchema.Encoding

inductive HexError where
  | oddLength
  | notDigit (byte : UInt8) (position : Nat)
  deriving DecidableEq

/-- A byte that is no digit is shown as the character of its number. -/
def HexError.message : HexError → String
  | .oddLength => "Odd number of digits"
  | .notDigit byte position =>
    "Invalid character " ++ Text.quoteChar (Char.ofNat byte.toNat) ++ " at position " ++
      toString position

/-- The number that a digit of either case stands for. -/
def hexDigit? (byte : UInt8) : Option Nat :=
  let c := Char.ofNat byte.toNat
  if c.isDigit then some (c.toNat - 48)
  else if 'a' ≤ c ∧ c ≤ 'f' then some (c.toNat - 87)
  else if 'A' ≤ c ∧ c ≤ 'F' then some (c.toNat - 55)
  else none

/-- Reads pairs of digits, the given position being that of the first one. -/
def readHexPairs (position : Nat) : List UInt8 → Except HexError (List UInt8)
  | high :: low :: rest => do
    let some h := hexDigit? high | throw (.notDigit high position)
    let some l := hexDigit? low | throw (.notDigit low (position + 1))
    let bytes ← readHexPairs (position + 2) rest
    return UInt8.ofNat (16 * h + l) :: bytes
  | _ => return []

/-- The length in bytes is looked at before the digits. -/
def readHex (text : String) : Except HexError (List UInt8) :=
  let bytes := Text.utf8 text
  if bytes.length % 2 = 1 then throw .oddLength else readHexPairs 0 bytes

/-- The two lower-case digits of a byte. -/
def hexPair (byte : UInt8) : List Char :=
  [Nat.digitChar (byte.toNat / 16), Nat.digitChar (byte.toNat % 16)]

def writeHex (bytes : List UInt8) : String :=
  String.ofList (bytes.flatMap hexPair)

theorem digitChar_lt {n : Nat} (h : n < 16) : (Nat.digitChar n).toNat < 128 := by
  revert n
  decide

theorem hexDigit?_digitChar {n : Nat} (h : n < 16) :
    hexDigit? (UInt8.ofNat (Nat.digitChar n).toNat) = some n := by
  revert n
  decide

end LinkedSchema.Encoding
