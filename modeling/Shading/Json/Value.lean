/-
  JSON values and their texts: on one line (`render`) or with one member a
  line, indented by two blanks a level (`pretty`).
-/
import Shading.Json.Numeral

namespace Shading

/-- A JSON value.  Members keep their order. -/
inductive Json where
  | null
  | bool (b : Bool)
  | number (n : Json.Numeral)
  | string (s : String)
  | array (items : List Json)
  | object (members : List (String × Json))

namespace Json

/-- A whole number. -/
def nat (n : Nat) : Json :=
  .number (.ofNat n)

/-! ## Quoted texts -/

/-- A digit of a `\u` escape. -/
def hexChar (n : Nat) : Char :=
  Nat.digitChar (n % 16)

/-- A character between quotation marks: only the quotation mark, the
    backslash and control characters are escaped. -/
def escape (c : Char) : List Char :=
  if c = '"' then ['\\', '"']
  else if c = '\\' then ['\\', '\\']
  else if c = '\n' then ['\\', 'n']
  else if c = '\r' then ['\\', 'r']
  else if c = '\t' then ['\\', 't']
  else if c.toNat = 8 then ['\\', 'b']
  else if c.toNat = 12 then ['\\', 'f']
  else if c.toNat < 32 then ['\\', 'u', '0', '0', hexChar (c.toNat / 16), hexChar c.toNat]
  else [c]

/-- A text in quotation marks. -/
def quote (s : String) : String :=
  "\"" ++ String.ofList (s.toList.flatMap escape) ++ "\""

/-! ## Texts of values -/

mutual

/-- The text of a value, without blanks. -/
def render : Json → String
  | .null => "null"
  | .bool true => "true"
  | .bool false => "false"
  | .number n => n.render
  | .string s => quote s
  | .array items => "[" ++ ",".intercalate (renderItems items) ++ "]"
  | .object members => "\x7b" ++ ",".intercalate (renderMembers members) ++ "\x7d"

/-- The texts of the elements of an array. -/
def renderItems : List Json → List String
  | [] => []
  | v :: rest => v.render :: renderItems rest

/-- The texts of the members of an object. -/
def renderMembers : List (String × Json) → List String
  | [] => []
  | (name, v) :: rest => (quote name ++ ":" ++ v.render) :: renderMembers rest

end

/-- A bracketed list of texts, one a line, indented by `depth + 1` levels; the
    brackets stand together around an empty list. -/
def layOut (opening closing : String) (depth : Nat) : List String → String
  | [] => opening ++ closing
  | texts =>
    let margin (n : Nat) := "\n" ++ String.ofList (List.replicate (2 * n) ' ')
    opening ++ ",".intercalate (texts.map (margin (depth + 1) ++ ·)) ++ margin depth ++ closing

mutual

/-- The text of a value with one element or member a line. -/
def prettyAt (depth : Nat) : Json → String
  | .array items => layOut "[" "]" depth (prettyItems (depth + 1) items)
  | .object members => layOut "\x7b" "\x7d" depth (prettyMembers (depth + 1) members)
  | .null => "null"
  | .bool true => "true"
  | .bool false => "false"
  | .number n => n.render
  | .string s => quote s

/-- The laid out texts of the elements of an array. -/
def prettyItems (depth : Nat) : List Json → List String
  | [] => []
  | v :: rest => v.prettyAt depth :: prettyItems depth rest

/-- The laid out texts of the members of an object. -/
def prettyMembers (depth : Nat) : List (String × Json) → List String
  | [] => []
  | (name, v) :: rest => (quote name ++ ": " ++ v.prettyAt depth) :: prettyMembers depth rest

end

/-- The text of a value, laid out from the margin. -/
def pretty (v : Json) : String :=
  v.prettyAt 0

end Json

end Shading
