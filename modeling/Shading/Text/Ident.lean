/-
  Identifiers made from display names.  `ident` makes any text an identifier
  `[A-Za-z_][A-Za-z0-9_]*`; `baseName` is the name that a local variable asks
  for: the display name without blanks, in lower case.
-/
import Shading.Text.Blank

namespace Shading.Text

/-- A character that may stand in an identifier. -/
def isWord (c : Char) : Bool :=
  c.isAlphanum || c == '_'

/-- The text `cs` with every character that may not stand in an identifier
    replaced, and a character put in front if it is empty or starts with a
    digit. -/
def identChars (cs : List Char) : List Char :=
  match cs.map fun c => if isWord c then c else '_' with
  | [] => ['_']
  | c :: rest => if c.isDigit then '_' :: c :: rest else c :: rest

/-- The identifier closest to `s`. -/
def ident (s : String) : String :=
  String.ofList (identChars s.toList)

/-- The lower case of a character, as far as an identifier can tell: beside
    the letters `A` to `Z`, only KELVIN SIGN and CAPITAL I WITH DOT ABOVE have
    ASCII letters in their lower case, and only the latter has more than one
    character in it.  All other characters leave one `_` in an identifier,
    lowered or not. -/
def lower (c : Char) : List Char :=
  if c = '\u0130' then ['i', '\u0307'] else if c = '\u212A' then ['k'] else [c.toLower]

/-- The name that a variable made from the display name `name` asks for;
    `fallback` is used when `name` is blank. -/
def baseName (name fallback : String) : String :=
  match squash name with
  | [] => ident fallback
  | cs => String.ofList (identChars (cs.flatMap lower))

end Shading.Text
