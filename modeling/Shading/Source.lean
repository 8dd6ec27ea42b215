/-
  Source text, written line by line with blocks indented.
-/

namespace Shading

/-- Source text and the number of blocks open at its end. -/
structure Source where
  text : String
  depth : Nat
  deriving DecidableEq, Repr

namespace Source

/-- No text yet. -/
def empty : Source := ⟨"", 0⟩

/-- The blanks in front of a line in `depth` blocks. -/
def indent : (depth : Nat) → String
  | 0 => ""
  | depth + 1 => "    " ++ indent depth

/-- One more line. -/
def line (s : Source) (text : String) : Source :=
  { s with text := s.text ++ indent s.depth ++ text ++ "\n" }

/-- More lines. -/
def lines (s : Source) (texts : List String) : Source :=
  texts.foldl line s

/-- An empty line, which has no indentation. -/
def blank (s : Source) : Source :=
  { s with text := s.text ++ "\n" }

/-- A line and the brace that opens a block after it. -/
def openBlock (s : Source) (header : String) : Source :=
  let s := (s.line header).line "\x7b"
  { s with depth := s.depth + 1 }

/-- The line that closes the innermost block. -/
def closeBlock (s : Source) (closer : String) : Source :=
  ({ s with depth := s.depth - 1 }).line closer

end Source

end Shading
