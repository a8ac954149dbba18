/-!
# JSON values

Values, and their compact text: no blanks, object fields in order, and in strings only quotes,
backslashes and control characters escaped.
-/
namespace Pcode

inductive Json where
  | null
  | bool (value : Bool)
  | integer (value : Int)
  /-- A number that is not written as an integer; its value is not kept. -/
  | real
  /-- A string; `none` when its escapes hold one half of a surrogate pair alone, so that it is no
  text. -/
  | string (value : Option String)
  | array (items : List Json)
  | object (fields : List (Option String × Json))

namespace Json

def ofString (s : String) : Json := .string (some s)

def ofFields (fields : List (String × Json)) : Json :=
  .object (fields.map fun f => (some f.1, f.2))

/-- One character as it stands in a string. -/
def escape (c : Char) : List Char :=
  if c = '"' then ['\\', '"']
  else if c = '\\' then ['\\', '\\']
  else if c = '\x08' then ['\\', 'b']
  else if c = '\x0c' then ['\\', 'f']
  else if c = '\n' then ['\\', 'n']
  else if c = '\r' then ['\\', 'r']
  else if c = '\t' then ['\\', 't']
  else if c.toNat < 0x20 then
    ['\\', 'u', '0', '0', Nat.digitChar (c.toNat / 16), Nat.digitChar (c.toNat % 16)]
  else [c]

def renderString (s : String) : List Char := '"' :: s.toList.flatMap escape ++ ['"']

def renderText : Option String → List Char
  | some s => renderString s
  | none => ['"', '"']

mutual

def renderValue : Json → List Char
  | .null => "null".toList
  | .bool true => "true".toList
  | .bool false => "false".toList
  | .integer n => (toString n).toList
  | .real => ['0', '.', '0']
  | .string s => renderText s
  | .array items => '[' :: renderItems items ++ [']']
  | .object fields => '\x7b' :: renderFields fields ++ ['\x7d']

def renderItems : List Json → List Char
  | [] => []
  | [j] => renderValue j
  | j :: js => renderValue j ++ ',' :: renderItems js

def renderFields : List (Option String × Json) → List Char
  | [] => []
  | [(name, j)] => renderText name ++ ':' :: renderValue j
  | (name, j) :: fs => renderText name ++ ':' :: renderValue j ++ ',' :: renderFields fs

end

def render (j : Json) : String := String.ofList (renderValue j)

end Json

end Pcode
