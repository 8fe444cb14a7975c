import LinkedSchema.Encoding.BitGroups
import LinkedSchema.Encoding.Radix
import LinkedSchema.Text.Utf8

namespace LinkedSchema.Encoding

def lowerLetters : List Char := "abcdefghijklmnopqrstuvwxyz".toList

def upperLetters : List Char := "ABCDEFGHIJKLMNOPQRSTUVWXYZ".toList

def decimalDigits : List Char := "0123456789".toList

def base16Alphabet : List Char := "0123456789abcdef".toList

def base32Alphabet : List Char := lowerLetters ++ "234567".toList

def base32HexAlphabet : List Char := "0123456789abcdefghijklmnopqrstuv".toList

def base32ZAlphabet : List Char := "ybndrfg8ejkmcpqxot1uwisza345h769".toList

def base36Alphabet : List Char := decimalDigits ++ lowerLetters

def base58Alphabet : List Char :=
  "123456789ABCDEFGHJKLMNPQRSTUVWXYZabcdefghijkmnopqrstuvwxyz".toList

def base58LowerFirstAlphabet : List Char :=
  "123456789abcdefghijkmnopqrstuvwxyzABCDEFGHJKLMNPQRSTUVWXYZ".toList

def base64Alphabet : List Char := upperLetters ++ lowerLetters ++ decimalDigits ++ ['+', '/']

def base64UrlAlphabet : List Char := upperLetters ++ lowerLetters ++ decimalDigits ++ ['-', '_']

/-- How the text after the first character stands for bytes. -/
inductive Base where
  /-- The bytes of the text itself. -/
  | identity
  /-- Symbols for groups of bits. -/
  | groups (width : Nat) (alphabet : List Char)
  /-- Symbols for groups of bits, in blocks filled up with `=`. -/
  | padded (width block : Nat) (alphabet : List Char)
  /-- The digits of one big number. -/
  | radix (alphabet : List Char)
  /-- Another base of lower-case letters, read without regard to the case of letters. -/
  | anyCase (base : Base)

namespace Base

/-- The base that the first character of a text names. -/
def ofCode? : Char → Option Base
  | '\x00' => some identity
  | '0' => some (groups 1 ['0', '1'])
  | '7' => some (groups 3 "01234567".toList)
  | '9' => some (radix decimalDigits)
  | 'f' | 'F' => some (anyCase (groups 4 base16Alphabet))
  | 'b' | 'B' => some (anyCase (groups 5 base32Alphabet))
  | 'c' | 'C' => some (anyCase (padded 5 8 base32Alphabet))
  | 'v' | 'V' => some (anyCase (groups 5 base32HexAlphabet))
  | 't' | 'T' => some (anyCase (padded 5 8 base32HexAlphabet))
  | 'h' => some (groups 5 base32ZAlphabet)
  | 'k' | 'K' => some (anyCase (radix base36Alphabet))
  | 'z' => some (radix base58Alphabet)
  | 'Z' => some (radix base58LowerFirstAlphabet)
  | 'm' => some (groups 6 base64Alphabet)
  | 'M' => some (padded 6 4 base64Alphabet)
  | 'u' => some (groups 6 base64UrlAlphabet)
  | 'U' => some (padded 6 4 base64UrlAlphabet)
  | _ => none

def read? : Base → List Char → Option (List UInt8)
  | identity, symbols => some (Text.utf8 (String.ofList symbols))
  | groups width alphabet, symbols => readGroups? width alphabet symbols
  | padded width block alphabet, symbols => readPadded? width block alphabet symbols
  | radix alphabet, symbols => readRadix? alphabet symbols
  | anyCase base, symbols => base.read? (symbols.map Char.toLower)

end Base

/-- The bytes of a text whose first character names its base. -/
def readMultibase? : List Char → Option (List UInt8)
  | [] => none
  | code :: symbols => do
    let base ← Base.ofCode? code
    base.read? symbols

end LinkedSchema.Encoding
