import LinkedSchema.Binary64.Shortest
import LinkedSchema.Json.Basic

namespace LinkedSchema.Json

/-- A character as it stands in a string. -/
def escapeChar (c : Char) : List Char :=
  if c = '"' then ['\\', '"']
  else if c = '\\' then ['\\', '\\']
  else if c.toNat = 8 then ['\\', 'b']
  else if c.toNat = 12 then ['\\', 'f']
  else if c = '\n' then ['\\', 'n']
  else if c = '\r' then ['\\', 'r']
  else if c = '\t' then ['\\', 't']
  else if c.toNat < 32 then
    ['\\', 'u', '0', '0', Nat.digitChar (c.toNat / 16), Nat.digitChar (c.toNat % 16)]
  else [c]

def renderString (s : String) : List Char :=
  '"' :: s.toList.flatMap escapeChar ++ ['"']

mutual

def render : Json Empty → List Char
  | null => "null".toList
  | bool true => "true".toList
  | bool false => "false".toList
  | int n => (toString n).toList
  | float x => if x.isFinite then x.text.toList else "null".toList
  | string s => renderString s
  | list items => '[' :: renderItems items ++ [']']
  | object entries _ => '\x7b' :: renderEntries entries ++ ['\x7d']
  | fault f => f.elim

def renderItems : List (Json Empty) → List Char
  | [] => []
  | [item] => item.render
  | item :: items => item.render ++ ',' :: renderItems items

def renderEntries : List (String × Json Empty) → List Char
  | [] => []
  | [(key, value)] => renderString key ++ ':' :: value.render
  | (key, value) :: entries =>
    renderString key ++ ':' :: value.render ++ ',' :: renderEntries entries

end

def text (j : Json Empty) : String :=
  String.ofList j.render

end LinkedSchema.Json
