import LinkedSchema.Encoding.Base64
import LinkedSchema.Json.Printer
import LinkedSchema.Json.Reading
import LinkedSchema.Value.Basic

namespace LinkedSchema.DagJson

inductive Error where
  | json (fault : JsonFault)
  | link (error : CidError)
  | bytes (error : Encoding.Base64Error)
  deriving DecidableEq

def Error.reason : Error → String
  | json fault => fault.message
  | link error => error.message
  | bytes error => error.message

def Error.message (error : Error) : String :=
  "dag-json: " ++ error.reason

/-- The key of the objects that stand for links and bytes. -/
def linkKey : String := "/"

/-- The key below `linkKey` in the objects that stand for bytes. -/
def bytesKey : String := "bytes"

mutual

def toJson : Value → Json Empty
  | .null => .null
  | .bool b => .bool b
  | .int n => .int n
  | .float x => .float x
  | .string s => .string s
  | .bytes b => .ofEntries [(linkKey, .ofEntries [(bytesKey, .string (Encoding.writeBase64 b))])]
  | .list items => .list (toJsonItems items)
  | .map entries => .ofEntries (toJsonEntries entries)
  | .link cid => .ofEntries [(linkKey, .string cid.text)]

def toJsonItems : List Value → List (Json Empty)
  | [] => []
  | item :: items => toJson item :: toJsonItems items

def toJsonEntries {bound : Option String} : SortedMap Value bound → List (String × Json Empty)
  | .nil => []
  | .cons key value _ rest => (key, toJson value) :: toJsonEntries rest

end

/-- The value of an object with the given entries, repeated keys included. Only an object with a
single entry can be a link or bytes. -/
def ofEntries (entries : List (String × Value)) : Except Error Value :=
  match entries with
  | [(key, .string text)] =>
    if key = linkKey then (Cid.ofText text).map .link |>.mapError .link
    else return .map (SortedMap.ofList entries)
  | [(key, .map inner)] =>
    match inner.toList with
    | [(innerKey, .string text)] =>
      if key = linkKey ∧ innerKey = bytesKey then
        (Encoding.readBase64 text).map .bytes |>.mapError .bytes
      else return .map (SortedMap.ofList entries)
    | _ => return .map (SortedMap.ofList entries)
  | _ => return .map (SortedMap.ofList entries)

mutual

/-- The value of a tree, or the first error in the order of the text; an object that cannot be the
link or the bytes it seems to be is an error where it ends. -/
def ofJson : Json JsonFault → Except Error Value
  | .null => return .null
  | .bool b => return .bool b
  | .int n => return .int n
  | .float x => return .float x
  | .string s => return .string s
  | .list items => return .list (← ofJsonItems items)
  | .object entries ending => do
    let entries ← ofJsonEntries entries
    match ending with
    | none => ofEntries entries
    | some cause => throw (.json cause)
  | .fault cause => throw (.json cause)

def ofJsonItems : List (Json JsonFault) → Except Error (List Value)
  | [] => return []
  | item :: items => do
    let first ← ofJson item
    let rest ← ofJsonItems items
    return first :: rest

def ofJsonEntries : List (String × Json JsonFault) → Except Error (List (String × Value))
  | [] => return []
  | (key, value) :: entries => do
    let first ← ofJson value
    let rest ← ofJsonEntries entries
    return (key, first) :: rest

end

/-- The text of a value. -/
def encode (value : Value) : String :=
  (toJson value).text

/-- Reads a value; nothing may follow it. -/
def decode (bytes : List UInt8) : Except Error Value := do
  let reading := Json.read bytes
  let value ← ofJson reading.root
  match reading.stop with
  | some cause => throw (.json cause)
  | none => return value

end LinkedSchema.DagJson
