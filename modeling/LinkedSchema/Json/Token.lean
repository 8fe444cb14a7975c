import LinkedSchema.Decimal
import LinkedSchema.Encoding.Hex
import LinkedSchema.Json.Fault
import LinkedSchema.Text.Utf8

namespace LinkedSchema.Json

/-- A token of JSON text. Where it is known how far a flawed number or string goes it is a token
that carries its fault; after any other fault there are no more tokens. -/
inductive Token where
  | openList
  | closeList
  | openObject
  | closeObject
  | comma
  | colon
  | null
  | bool (b : Bool)
  | int (n : Int)
  | float (x : Binary64)
  /-- A number without a value. -/
  | flawedNumber (cause : JsonFault)
  | string (text : Except JsonFault String)
  /-- The text breaks off inside a string or has a string that never ends well. -/
  | brokenString (cause : JsonFault)
  /-- No token starts or ends as it should. -/
  | broken (cause : JsonFault)

/-- The character of a byte. -/
def symbol (byte : UInt8) : Char :=
  Char.ofNat byte.toNat

def isBlank (byte : UInt8) : Bool :=
  match symbol byte with
  | ' ' | '\t' | '\n' | '\r' => true
  | _ => false

def isDigit (byte : UInt8) : Bool :=
  (symbol byte).isDigit

/-- The number with the given digits. -/
def digitsValue (digits : List UInt8) : Nat :=
  digits.foldl (fun n byte => n * 10 + (byte.toNat - 48)) 0

/-- Where in a string reading stands. A first surrogate is kept until its partner is read. -/
inductive StringState where
  | plain
  | escape
  | hex (first : Option Nat) (before : List UInt8)
  | afterFirst (first : Nat)
  | escapeAfterFirst (first : Nat)

/-- What one byte of a string does. -/
inductive StringStep where
  | close
  | keep (state : StringState) (bytes : List UInt8)
  | stop (cause : JsonFault)

/-- The bytes of the character with the given code point. -/
def codePointBytes (n : Nat) : List UInt8 :=
  String.utf8EncodeChar (Char.ofNat n)

def isFirstSurrogate (n : Nat) : Bool :=
  0xd800 ≤ n && n < 0xdc00

def isSecondSurrogate (n : Nat) : Bool :=
  0xdc00 ≤ n && n < 0xe000

namespace StringState

def plainStep (byte : UInt8) : StringStep :=
  if symbol byte = '"' then .close
  else if symbol byte = '\\' then .keep escape []
  else if byte < 0x20 then .stop .controlCharacter
  else .keep plain [byte]

def escapeStep (byte : UInt8) : StringStep :=
  match symbol byte with
  | '"' | '\\' | '/' => .keep plain [byte]
  | 'b' => .keep plain [0x08]
  | 'f' => .keep plain [0x0c]
  | 'n' => .keep plain [0x0a]
  | 'r' => .keep plain [0x0d]
  | 't' => .keep plain [0x09]
  | 'u' => .keep (hex none []) []
  | _ => .stop .invalidEscape

/-- The effect of four hexadecimal digits, given a first surrogate before them. -/
def codeStep (first : Option Nat) (n : Nat) : Option JsonFault × StringStep :=
  match first with
  | none =>
    if isFirstSurrogate n then (none, .keep (afterFirst n) [])
    else if isSecondSurrogate n then (some .loneSurrogate, .keep plain [])
    else (none, .keep plain (codePointBytes n))
  | some first =>
    if isSecondSurrogate n then
      (none, .keep plain (codePointBytes (0x10000 + (first - 0xd800) * 0x400 + (n - 0xdc00))))
    else (some .loneSurrogate, .keep plain [])

/-- Four bytes are read before they are looked at. -/
def hexStep (first : Option Nat) (before : List UInt8) (byte : UInt8) :
    Option JsonFault × StringStep :=
  let bytes := before ++ [byte]
  if bytes.length < 4 then (none, .keep (hex first bytes) [])
  else
    match bytes.mapM Encoding.hexDigit? with
    | some digits => codeStep first (digits.foldl (fun n digit => n * 16 + digit) 0)
    | none => (none, .stop .invalidEscape)

/-- The effect of one byte, with the flaw of the string that it brings to light. -/
def step : StringState → UInt8 → Option JsonFault × StringStep
  | plain, byte => (none, plainStep byte)
  | escape, byte => (none, escapeStep byte)
  | hex first before, byte => hexStep first before byte
  | afterFirst first, byte =>
    if symbol byte = '\\' then (none, .keep (escapeAfterFirst first) [])
    else (some .unfinishedPair, plainStep byte)
  | escapeAfterFirst first, byte =>
    if symbol byte = 'u' then (none, .keep (hex (some first) []) [])
    else (some .unfinishedPair, escapeStep byte)

end StringState

/-- The outcome of reading a string. -/
inductive StringEnd where
  | closed (text : Except JsonFault String) (rest : List UInt8)
  | broken (cause : JsonFault)

/-- The content of a string, unless a flaw was noted on the way. -/
def stringOf (content : List UInt8) (noted : Option JsonFault) : Except JsonFault String :=
  match noted with
  | some cause => throw cause
  | none =>
    match Text.ofUtf8? content with
    | some text => return text
    | none => throw .invalidUtf8

/-- Reads a string after its opening mark. The content so far is kept in reverse, and the first flaw
counts before any later fault. -/
def readString (state : StringState) (content : List UInt8) (noted : Option JsonFault) :
    List UInt8 → StringEnd
  | [] => .broken (noted.getD .endInString)
  | byte :: rest =>
    let (flaw, effect) := state.step byte
    match effect with
    | .close => .closed (stringOf content.reverse (noted <|> flaw)) rest
    | .keep next bytes => readString next (bytes.reverse ++ content) (noted <|> flaw) rest
    | .stop cause => .broken ((noted <|> flaw).getD cause)

/-- A number as it is written: its sign, the digits before and after the point and the exponent,
where it has them. -/
structure NumberText where
  negative : Bool
  whole : List UInt8
  fraction : Option (List UInt8)
  exponent : Option (Bool × List UInt8)

/-- The digits in front, of which there must be one. -/
def readDigits (bytes : List UInt8) : Except JsonFault (List UInt8 × List UInt8) :=
  match bytes with
  | [] => throw .endInValue
  | byte :: _ =>
    if isDigit byte then return (bytes.takeWhile isDigit, bytes.dropWhile isDigit)
    else throw .invalidNumber

/-- The digits before the point; a zero in front stands alone. -/
def readWhole (bytes : List UInt8) : Except JsonFault (List UInt8 × List UInt8) := do
  let (digits, rest) ← readDigits bytes
  if 1 < digits.length && digits.head? = some 48 then throw .invalidNumber
  return (digits, rest)

def readFraction (bytes : List UInt8) :
    Except JsonFault (Option (List UInt8) × List UInt8) :=
  match bytes with
  | 46 :: rest => do
    let (digits, rest) ← readDigits rest
    return (some digits, rest)
  | _ => return (none, bytes)

def readExponent (bytes : List UInt8) :
    Except JsonFault (Option (Bool × List UInt8) × List UInt8) :=
  match bytes with
  | byte :: rest =>
    if symbol byte = 'e' || symbol byte = 'E' then do
      let (negative, rest) :=
        match rest with
        | 43 :: rest => (false, rest)
        | 45 :: rest => (true, rest)
        | _ => (false, rest)
      let (digits, rest) ← readDigits rest
      return (some (negative, digits), rest)
    else return (none, bytes)
  | [] => return (none, bytes)

/-- Reads the longest number in front. -/
def readNumber (bytes : List UInt8) : Except JsonFault (NumberText × List UInt8) := do
  let (negative, bytes) :=
    match bytes with
    | 45 :: rest => (true, rest)
    | _ => (false, bytes)
  let (whole, bytes) ← readWhole bytes
  let (fraction, bytes) ← readFraction bytes
  let (exponent, bytes) ← readExponent bytes
  return (⟨negative, whole, fraction, exponent⟩, bytes)

namespace NumberText

/-- The decimal number, with all its digits. -/
def decimal (n : NumberText) : Decimal :=
  let fraction := n.fraction.getD []
  let exponent : Int :=
    match n.exponent with
    | none => 0
    | some (true, digits) => -digitsValue digits
    | some (false, digits) => digitsValue digits
  ⟨n.negative, digitsValue (n.whole ++ fraction), exponent - fraction.length⟩

/-- The integer, if the text has neither point nor exponent and the number fits into 64 bits, signed
if negative and unsigned otherwise. A negative zero is no integer. -/
def integer? (n : NumberText) : Option Int :=
  if n.fraction.isSome || n.exponent.isSome then none
  else
    let magnitude := digitsValue n.whole
    if n.negative then
      if 0 < magnitude && magnitude ≤ Int64.minValue.toInt.natAbs then some (-magnitude) else none
    else if magnitude < UInt64.size then some magnitude
    else none

def token (n : NumberText) : Token :=
  match n.integer? with
  | some k => .int k
  | none =>
    match n.decimal.normalize.toBinary64? with
    | some x => .float x
    | none => .flawedNumber .numberOutOfRange

end NumberText

/-- What follows a word that must come in full. -/
def readWord : List UInt8 → List UInt8 → Except JsonFault (List UInt8)
  | [], rest => return rest
  | _, [] => throw .endInValue
  | expected :: word, byte :: rest =>
    if byte = expected then readWord word rest else throw .wrongWord

/-- One token with the bytes after it, or a last token. -/
def readToken (byte : UInt8) (rest : List UInt8) : Token × Option (List UInt8) :=
  match symbol byte with
  | '[' => (.openList, some rest)
  | ']' => (.closeList, some rest)
  | '\x7b' => (.openObject, some rest)
  | '\x7d' => (.closeObject, some rest)
  | ',' => (.comma, some rest)
  | ':' => (.colon, some rest)
  | 'n' => word .null "ull"
  | 't' => word (.bool true) "rue"
  | 'f' => word (.bool false) "alse"
  | '"' =>
    match readString .plain [] none rest with
    | .closed text rest => (.string text, some rest)
    | .broken cause => (.brokenString cause, none)
  | c =>
    if c = '-' || c.isDigit then
      match readNumber (byte :: rest) with
      | .ok (number, rest) => (number.token, some rest)
      | .error cause => (.broken cause, none)
    else (.broken .noValue, none)
where
  word (token : Token) (letters : String) : Token × Option (List UInt8) :=
    match readWord (Text.utf8 letters) rest with
    | .ok rest => (token, some rest)
    | .error cause => (.broken cause, none)

/-- The tokens of a text, at most as many as the first argument says. -/
def tokensUpTo : Nat → List UInt8 → List Token
  | 0, _ => []
  | most + 1, bytes =>
    match bytes.dropWhile isBlank with
    | [] => []
    | byte :: rest =>
      match readToken byte rest with
      | (token, some rest) => token :: tokensUpTo most rest
      | (token, none) => [token]

/-- All tokens of a text; each takes at least one byte. -/
def tokens (bytes : List UInt8) : List Token :=
  tokensUpTo bytes.length bytes

end LinkedSchema.Json
