import LinkedSchema.Json.Basic
import LinkedSchema.Json.Token

namespace LinkedSchema.Json

/-- A list or an object of which only a part has been read, latest first. In an object the value of
a key is still to come, and entries after a faulty key are left out. -/
inductive Frame where
  | list (before : List (Json JsonFault))
  | object (before : List (String × Json JsonFault)) (ending : Option JsonFault) (key : String)

/-- What was read: the tree, and the fault that stopped the text from being read to its end. Faults
stand in the tree where they were met; the first of them in the order of the text decides. -/
structure Reading where
  root : Json JsonFault
  stop : Option JsonFault

/-- The entries with one more, unless they have ended. -/
def addEntry (before : List (String × Json JsonFault)) (ending : Option JsonFault) (key : String)
    (value : Json JsonFault) : List (String × Json JsonFault) :=
  if ending.isSome then before else (key, value) :: before

/-- A finished list or object with the frames around it; one that lies too deep is a fault. -/
def sealed (limit : Nat) (outer : List Frame) (value : Json JsonFault) : Json JsonFault :=
  if outer.length < limit then value else .fault .tooDeep

def sealedObject (limit : Nat) (outer : List Frame) (before : List (String × Json JsonFault))
    (ending : Option JsonFault) : Json JsonFault :=
  sealed limit outer (.object before.reverse ending)

/-- The tree of a text that ends with a value in the given frames. -/
def closeAll (limit : Nat) (last : Json JsonFault) : List Frame → Json JsonFault
  | [] => last
  | .list before :: outer =>
    closeAll limit (sealed limit outer (.list (last :: before).reverse)) outer
  | .object before ending key :: outer =>
    closeAll limit (sealedObject limit outer (addEntry before ending key last) ending) outer

/-- A text that breaks off where a value or the end of a list should be. -/
def breakOff (limit : Nat) (cause : JsonFault) (frames : List Frame) : Reading :=
  ⟨closeAll limit (.fault cause) frames, some cause⟩

/-- A text that breaks off in an object, outside of its values. -/
def breakObject (limit : Nat) (cause : JsonFault) (before : List (String × Json JsonFault))
    (ending : Option JsonFault) (outer : List Frame) : Reading :=
  ⟨closeAll limit (sealedObject limit outer before (ending <|> some cause)) outer, some cause⟩

/-- What is wrong with a key. -/
def faultOfKey? : Except JsonFault String → Option JsonFault
  | .ok _ => none
  | .error cause => some cause

/-- The text of a key; that of a faulty key is never looked at. -/
def textOfKey : Except JsonFault String → String
  | .ok text => text
  | .error _ => ""

/-- The fault of a token that cannot start a value. -/
def Token.valueFault : Token → JsonFault
  | .brokenString cause => cause
  | .broken cause => cause
  | _ => .noValue

/-- The fault of a token that cannot be a key. -/
def Token.keyFault : Token → JsonFault
  | .brokenString cause => cause
  | _ => .keyNotString

/-- The value of a token that is a value by itself. -/
def Token.scalar? : Token → Option (Json JsonFault)
  | .null => some .null
  | .bool b => some (.bool b)
  | .int n => some (.int n)
  | .float x => some (.float x)
  | .flawedNumber cause => some (.fault cause)
  | .string (.ok text) => some (.string text)
  | .string (.error cause) => some (.fault cause)
  | _ => none

mutual

/-- Reads a value. -/
def readValue (limit : Nat) (frames : List Frame) : List Token → Reading
  | [] => breakOff limit .endInValue frames
  | .openList :: rest => readFirstItem limit frames rest
  | .openObject :: rest => readFirstKey limit frames rest
  | token :: rest =>
    match token.scalar? with
    | some value => readAfter limit value frames rest
    | none => breakOff limit token.valueFault frames

/-- Reads on after a finished value. -/
def readAfter (limit : Nat) (value : Json JsonFault) : List Frame → List Token → Reading
  | [], [] => ⟨value, none⟩
  | [], _ :: _ => ⟨value, some .trailingCharacters⟩
  | .list before :: outer, tokens =>
    match tokens with
    | [] => breakOff limit .endInList (.list (value :: before) :: outer)
    | .comma :: rest => readNextItem limit (.list (value :: before) :: outer) rest
    | .closeList :: rest =>
      readAfter limit (sealed limit outer (.list (value :: before).reverse)) outer rest
    | _ :: _ => breakOff limit .noListSeparator (.list (value :: before) :: outer)
  | .object before ending key :: outer, tokens =>
    let entries := addEntry before ending key value
    match tokens with
    | [] => breakObject limit .endInObject entries ending outer
    | .comma :: rest => readNextKey limit entries ending outer rest
    | .closeObject :: rest =>
      readAfter limit (sealedObject limit outer entries ending) outer rest
    | _ :: _ => breakObject limit .noObjectSeparator entries ending outer

/-- Reads on after the opening of a list. -/
def readFirstItem (limit : Nat) (outer : List Frame) : List Token → Reading
  | [] => breakOff limit .endInList (.list [] :: outer)
  | .closeList :: rest => readAfter limit (sealed limit outer (.list [])) outer rest
  | .openList :: rest => readFirstItem limit (.list [] :: outer) rest
  | .openObject :: rest => readFirstKey limit (.list [] :: outer) rest
  | token :: rest =>
    match token.scalar? with
    | some value => readAfter limit value (.list [] :: outer) rest
    | none => breakOff limit token.valueFault (.list [] :: outer)

/-- Reads on after a comma in a list. -/
def readNextItem (limit : Nat) (frames : List Frame) : List Token → Reading
  | [] => breakOff limit .endInValue frames
  | .closeList :: _ => breakOff limit .trailingComma frames
  | .openList :: rest => readFirstItem limit frames rest
  | .openObject :: rest => readFirstKey limit frames rest
  | token :: rest =>
    match token.scalar? with
    | some value => readAfter limit value frames rest
    | none => breakOff limit token.valueFault frames

/-- Reads on after the opening of an object. -/
def readFirstKey (limit : Nat) (outer : List Frame) : List Token → Reading
  | [] => breakObject limit .endInObject [] none outer
  | .closeObject :: rest => readAfter limit (sealedObject limit outer [] none) outer rest
  | .string key :: rest => readColon limit [] none key outer rest
  | token :: _ => breakObject limit token.keyFault [] none outer

/-- Reads on after a comma in an object. -/
def readNextKey (limit : Nat) (before : List (String × Json JsonFault))
    (ending : Option JsonFault) (outer : List Frame) : List Token → Reading
  | [] => breakObject limit .endInValue before ending outer
  | .closeObject :: _ => breakObject limit .trailingComma before ending outer
  | .string key :: rest => readColon limit before ending key outer rest
  | token :: _ => breakObject limit token.keyFault before ending outer

/-- Reads on after a key; a key without a text ends the entries of its object. -/
def readColon (limit : Nat) (before : List (String × Json JsonFault))
    (ending : Option JsonFault) (key : Except JsonFault String) (outer : List Frame) :
    List Token → Reading
  | [] => breakObject limit .endInObject before (ending <|> faultOfKey? key) outer
  | .colon :: rest =>
    readValue limit (.object before (ending <|> faultOfKey? key) (textOfKey key) :: outer) rest
  | _ :: _ => breakObject limit .noColon before (ending <|> faultOfKey? key) outer

end

/-- The number of lists and objects that may lie within one another. -/
def standardDepth : Nat := 127

/-- Reads a text with at most the given number of lists and objects within one another. -/
def readUpTo (limit : Nat) (bytes : List UInt8) : Reading :=
  readValue limit [] (tokens bytes)

def read (bytes : List UInt8) : Reading :=
  readUpTo standardDepth bytes

/-- The tree of a text without faults, or its first fault. -/
def Reading.tree (reading : Reading) : Except JsonFault (Json Empty) := do
  let tree ← reading.root.clean
  match reading.stop with
  | some cause => throw cause
  | none => return tree

end LinkedSchema.Json
