namespace LinkedSchema.Encoding

inductive VarintError where
  | endOfInput
  | malformed
  deriving DecidableEq

/-- Reads a number and gives the bytes after it. Of a tenth byte only the lowest bit counts. -/
def readVarint (bytes : List UInt8) : Except VarintError (UInt64 × List UInt8) :=
  go 10 0 0 bytes
where
  go : Nat → Nat → Nat → List UInt8 → Except VarintError (UInt64 × List UInt8)
    | 0, _, _, _ => throw .malformed
    | _, _, _, [] => throw .endOfInput
    | most + 1, place, value, byte :: rest =>
      let value := value + byte.toNat % 128 * Nat.pow 2 place
      if byte < 128 then
        if byte = 0 && place ≠ 0 then throw .malformed
        else return (UInt64.ofNat value, rest)
      else go most (place + 7) value rest

/-- The shortest form of a number. -/
def writeVarint (n : UInt64) : List UInt8 :=
  go 9 n.toNat
where
  go : Nat → Nat → List UInt8
    | 0, n => [UInt8.ofNat n]
    | most + 1, n =>
      if n < 128 then [UInt8.ofNat n] else UInt8.ofNat (n % 128 + 128) :: go most (n / 128)

end LinkedSchema.Encoding
