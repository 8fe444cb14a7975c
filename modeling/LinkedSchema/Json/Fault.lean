namespace LinkedSchema

/-- The first problem that reading a text from the left meets. -/
inductive JsonFault where
  | endInValue
  | endInList
  | endInObject
  | endInString
  | noValue
  | wrongWord
  | invalidNumber
  | numberOutOfRange
  | trailingComma
  | noListSeparator
  | noObjectSeparator
  | noColon
  | keyNotString
  | trailingCharacters
  | controlCharacter
  | invalidEscape
  | loneSurrogate
  | unfinishedPair
  | invalidUtf8
  | tooDeep
  deriving DecidableEq

def JsonFault.message : JsonFault → String
  | endInValue => "EOF while parsing a value"
  | endInList => "EOF while parsing a list"
  | endInObject => "EOF while parsing an object"
  | endInString => "EOF while parsing a string"
  | noValue => "expected value"
  | wrongWord => "expected ident"
  | invalidNumber => "invalid number"
  | numberOutOfRange => "number out of range"
  | trailingComma => "trailing comma"
  | noListSeparator => "expected `,` or `]`"
  | noObjectSeparator => "expected `,` or `\x7d`"
  | noColon => "expected `:`"
  | keyNotString => "key must be a string"
  | trailingCharacters => "trailing characters"
  | controlCharacter => "control character (\\u0000-\\u001F) found while parsing a string"
  | invalidEscape => "invalid escape"
  | loneSurrogate => "lone leading surrogate in hex escape"
  | unfinishedPair => "unexpected end of hex escape"
  | invalidUtf8 => "invalid unicode code point"
  | tooDeep => "recursion limit exceeded"

end LinkedSchema
