/-
  Expression texts that bind as one operand.  A text is *simple* if it is a
  name, a number or a chain of member accesses, and *atomic* if it is simple,
  or a possibly empty simple text followed by one parenthesized group that the
  last character closes: `(a + b)`, `float2(1.0, 0.0)`.
-/
import Shading.Text.Ident

namespace Shading.Text

/-- A character of a simple expression. -/
def isSimpleChar (c : Char) : Bool :=
  isWord c || c == '.'

/-- A nonempty text of letters, digits, `_` and `.` only. -/
def isSimple (cs : List Char) : Bool :=
  !cs.isEmpty && cs.all isSimpleChar

/-- With `depth + 1` parentheses open before it, whether the last character of
    the text closes the outermost of them, and no earlier one does. -/
def closesLast : (depth : Nat) → List Char → Bool
  | _, [] => false
  | depth, c :: rest =>
    if c = '(' then closesLast (depth + 1) rest
    else if c = ')' then
      match depth with
      | 0 => rest.isEmpty
      | outer + 1 => closesLast outer rest
    else closesLast depth rest

/-- Whether the text binds as one operand. -/
def isAtomic (cs : List Char) : Bool :=
  isSimple cs ||
    match cs.dropWhile (· != '(') with
    | [] => false
    | _ :: rest => (cs.takeWhile (· != '(')).all isSimpleChar && closesLast 0 rest

/-- The text `s`, in parentheses unless it binds as one operand. -/
def parenthesize (s : String) : String :=
  if isAtomic s.toList then s else "(" ++ s ++ ")"

end Shading.Text
