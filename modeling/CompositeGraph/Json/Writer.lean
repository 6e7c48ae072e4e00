/-
  JSON TEXT of a document: compact, without blanks, fields in their order.
-/
import CompositeGraph.Json.Basic
import CompositeGraph.Decimal.Shortest

namespace CompositeGraph.Json

def hexDigit (n : Nat) : Char := (Nat.digitChar n)

/-- A character inside a quoted string.  Quote, backslash and control characters are escaped, five
    of them by a letter. -/
def escape (c : Char) : String :=
  if c == '"' then "\\\""
  else if c == '\\' then "\\\\"
  else if c == '\n' then "\\n"
  else if c == '\r' then "\\r"
  else if c == '\t' then "\\t"
  else if c.toNat == 8 then "\\b"
  else if c.toNat == 12 then "\\f"
  else if c.toNat < 32 then
    "\\u00" ++ String.ofList [hexDigit (c.toNat / 16), hexDigit (c.toNat % 16)]
  else c.toString

/-- A quoted string. -/
def quote (text : String) : String :=
  text.foldl (fun out c => out ++ escape c) "\"" ++ "\""

mutual

/-- The text of a document. -/
def render : Json → String
  | .null => "null"
  | .bool true => "true"
  | .bool false => "false"
  | .int value => toString value
  | .float value => Decimal.Layout.json.write value
  | .text value => quote value
  | .list items => "[" ++ ",".intercalate (renderItems items) ++ "]"
  | .object fields => "\x7b" ++ ",".intercalate (renderFields fields) ++ "\x7d"

def renderItems : List Json → List String
  | [] => []
  | item :: rest => render item :: renderItems rest

def renderFields : List (String × Json) → List String
  | [] => []
  | (name, value) :: rest => (quote name ++ ":" ++ render value) :: renderFields rest

end

end CompositeGraph.Json
