/-
  Expressions of the generated source.

  An expression is kept as a tree and written only in the end.  A text that the
  author of the graph wrote is a leaf, whatever stands in it; so whether an
  expression binds as one operand is a question about its text.
-/
import Shading.Text.Atom

namespace Shading

/-- An expression. -/
inductive Expr where
  /-- A text that the author wrote. -/
  | literal (text : String)
  /-- A variable. -/
  | name (n : String)
  | member (e : Expr) (field : String)
  /-- An expression in parentheses. -/
  | group (e : Expr)
  | cast (type : String) (e : Expr)
  | binary (op : String) (left right : Expr)
  | call (function : String) (args : List Expr)
  /-- A texture sampled at `coords`. -/
  | sample (texture sampler : String) (coords : Expr)
  deriving Repr

namespace Expr

mutual

/-- The text of an expression. -/
def render : Expr → String
  | literal text => text
  | name n => n
  | member e field => e.render ++ "." ++ field
  | group e => "(" ++ e.render ++ ")"
  | cast type e => "(" ++ type ++ ")" ++ e.render
  | binary op left right => left.render ++ " " ++ op ++ " " ++ right.render
  | call function args => function ++ "(" ++ ", ".intercalate (renderAll args) ++ ")"
  | sample texture sampler coords =>
    texture ++ ".Sample(" ++ sampler ++ ", " ++ coords.render ++ ")"

/-- The texts of expressions. -/
def renderAll : List Expr → List String
  | [] => []
  | e :: rest => e.render :: renderAll rest

end

/-- Whether an expression binds as one operand. -/
def isAtomic (e : Expr) : Bool :=
  Text.isAtomic e.render.toList

/-- The expression, in parentheses unless it binds as one operand. -/
def operand (e : Expr) : Expr :=
  if e.isAtomic then e else .group e

/-- The expression with a cast if a type is given. -/
def castTo (type? : Option String) (e : Expr) : Expr :=
  match type? with
  | some type => .cast type e
  | none => e

end Expr

end Shading
