/-
  Blank characters: the Unicode property `White_Space`, and what is done with
  it: texts are trimmed (type names, pin defaults, function sources) or
  squashed (display names).
-/

namespace Shading.Text

/-- The code points with the property `White_Space`, as closed ranges. -/
def blankRanges : List (Nat × Nat) :=
  [(0x9, 0xD), (0x20, 0x20), (0x85, 0x85), (0xA0, 0xA0), (0x1680, 0x1680), (0x2000, 0x200A),
    (0x2028, 0x2029), (0x202F, 0x202F), (0x205F, 0x205F), (0x3000, 0x3000)]

/-- Whether a character has the property `White_Space`. -/
def isBlank (c : Char) : Bool :=
  blankRanges.any fun r => r.1 ≤ c.toNat && c.toNat ≤ r.2

/-- The characters `cs` without the blanks at their end. -/
def dropBlankEnd (cs : List Char) : List Char :=
  (cs.reverse.dropWhile isBlank).reverse

/-- The text `s` without the blanks at its end. -/
def trimEnd (s : String) : String :=
  String.ofList (dropBlankEnd s.toList)

/-- The text `s` without the blanks at either end. -/
def trim (s : String) : String :=
  String.ofList (dropBlankEnd (s.toList.dropWhile isBlank))

/-- The characters of `s` that are not blank. -/
def squash (s : String) : List Char :=
  s.toList.filter fun c => !isBlank c

/-- The trimmed text, unless nothing is left of it. -/
def content (s : String) : Option String :=
  let t := trim s
  if t.isEmpty then none else some t

end Shading.Text
