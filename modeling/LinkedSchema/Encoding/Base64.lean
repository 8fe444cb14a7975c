import LinkedSchema.Encoding.Multibase
import LinkedSchema.Text.Utf8

namespace LinkedSchema.Encoding

inductive Base64Error where
  | invalidByte (byte : UInt8) (offset : Nat)
  | lonelySymbol
  | padding
  | invalidLastSymbol (byte : UInt8) (offset : Nat)
  deriving DecidableEq

def Base64Error.message : Base64Error → String
  | .invalidByte byte offset =>
    "Invalid byte " ++ toString byte.toNat ++ ", offset " ++ toString offset ++ "."
  | .lonelySymbol => "Encoded text cannot have a 6-bit remainder."
  | .padding => "Invalid padding"
  | .invalidLastSymbol byte offset =>
    "Invalid last symbol " ++ toString byte.toNat ++ ", offset " ++ toString offset ++ "."

/-- The six bits that a symbol stands for. -/
def base64Value? (byte : UInt8) : Option Nat :=
  base64Alphabet.idxOf? (Char.ofNat byte.toNat)

/-- The byte of the padding symbol `=`. -/
def padByte : UInt8 := 61

/-- Reads symbols among which no padding is allowed. -/
def readFullChunks (offset : Nat) : List UInt8 → Except Base64Error (List Nat)
  | [] => return []
  | byte :: rest => do
    let some value := base64Value? byte | throw (.invalidByte byte offset)
    let values ← readFullChunks (offset + 1) rest
    return value :: values

/-- Reads the last chunk, which starts at the given offset. Padding may come after two symbols of a
group of four, and only padding may follow it; the place of the first padding symbol is kept. -/
def readLastChunk (start : Nat) (index : Nat) (firstPad : Option Nat) :
    List UInt8 → Except Base64Error (List Nat × Bool)
  | [] => return ([], firstPad.isSome)
  | byte :: rest =>
    if byte = padByte then
      if index % 4 < 2 then throw (.invalidByte padByte (start + firstPad.getD index))
      else readLastChunk start (index + 1) (some (firstPad.getD index)) rest
    else
      match firstPad with
      | some first => throw (.invalidByte padByte (start + first))
      | none => do
        let some value := base64Value? byte | throw (.invalidByte byte (start + index))
        let (values, padded) ← readLastChunk start (index + 1) none rest
        return (value :: values, padded)

/-- The last chunk holds the last one to eight symbols, counted in eights from the start. -/
def readBase64 (text : String) : Except Base64Error (List UInt8) := do
  let bytes := Text.utf8 text
  let length := bytes.length
  if length % 4 = 1 then
    let last := bytes.getLastD 0
    if last ≠ padByte && (base64Value? last).isNone then throw (.invalidByte last (length - 1))
    else throw .lonelySymbol
  let start := (length - 1) / 8 * 8
  let head ← readFullChunks 0 (bytes.take start)
  let (tail, padded) ← readLastChunk start 0 none (bytes.drop start)
  if padded then throw .padding
  let row := (head ++ tail).flatMap (bits 6)
  match bytesOfBits? 6 row with
  | some result => return result
  | none => throw (.invalidLastSymbol (bytes.getLastD 0) (length - 1))

def writeBase64 (bytes : List UInt8) : String :=
  String.ofList (writeGroups 6 base64Alphabet bytes)

end LinkedSchema.Encoding
