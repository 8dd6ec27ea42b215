/-
  Operations: what a compilation emits for nodes.

  An operation has a value under a name of its own, or is done for its effect,
  or is only another way to read an expression.  It counts the uses of its value
  and remembers its consumers, the operations that use it.
-/
import Shading.Expr
import Shading.ValueType.Basic

namespace Shading

/-- A statement in the body of an entry point. -/
inductive Statement where
  /-- A variable with its value: `T n = e;` -/
  | define (type : ValueType) (name : String) (value : Expr)
  /-- An expression for its effect: `e;` -/
  | perform (e : Expr)
  /-- A variable without a value: `T n;` -/
  | introduce (type : ValueType) (name : String)
  /-- A value for a field: `v.f = e;` -/
  | assign (name field : String) (value : Expr)
  /-- The value of the entry point: `return e;` -/
  | result (value : Expr)
  deriving Repr

/-- The text of a statement. -/
def Statement.render : Statement → String
  | define type name value => type.name ++ " " ++ name ++ " = " ++ value.render ++ ";"
  | perform e => e.render ++ ";"
  | introduce type name => type.name ++ " " ++ name ++ ";"
  | assign name field value => name ++ "." ++ field ++ " = " ++ value.render ++ ";"
  | result value => "return " ++ value.render ++ ";"

/-- The three forms of operations. -/
inductive Operation.Form where
  /-- A value under a name.  It may stand in place of its name if it is
      `inlinable`. -/
  | value (name : String) (type : ValueType) (definition : Expr) (inlinable : Bool)
  /-- An expression for its effect. -/
  | effect (call : Expr)
  /-- Another way to read an expression, which emits nothing. -/
  | synonym (target : Expr) (type : ValueType)
  deriving Repr

/-- What a compilation emits for a node; the stage input belongs to no node. -/
structure Operation where
  node : Option String
  form : Operation.Form
  /-- The number of uses of the value. -/
  refs : Nat
  /-- The operations that use the value, in the order of the uses. -/
  consumers : List String
  deriving Repr

namespace Operation

/-- The text by which the value is read; empty for an effect. -/
def name (o : Operation) : String :=
  match o.form with
  | .value name .. => name
  | .effect _ => ""
  | .synonym target _ => target.render

/-- The expression by which the value is read. -/
def reference (o : Operation) : Expr :=
  match o.form with
  | .value name .. => .name name
  | .effect _ => .name ""
  | .synonym target _ => target

/-- The type of the value; an effect has none. -/
def type? (o : Operation) : Option ValueType :=
  match o.form with
  | .value _ type .. | .synonym _ type => some type
  | .effect _ => none

/-- What is emitted; a synonym emits nothing. -/
def definition? (o : Operation) : Option Expr :=
  match o.form with
  | .value _ _ definition _ => some definition
  | .effect call => some call
  | .synonym .. => none

/-- The text of what is emitted. -/
def definitionText (o : Operation) : String :=
  match o.definition? with
  | some e => e.render
  | none => ""

/-- Whether anything is emitted. -/
def emits (o : Operation) : Bool :=
  !o.definitionText.isEmpty

/-- Whether the definition may stand in place of the name.  A struct is never
    put in place. -/
def canInline (o : Operation) : Bool :=
  match o.form with
  | .value _ type _ inlinable => inlinable && !type.isStruct
  | _ => false

/-- The definition where it may stand in place of the name, and the reference
    elsewhere. -/
def expansion (o : Operation) : Expr :=
  match o.form with
  | .value _ _ definition _ => if o.canInline then definition.operand else o.reference
  | _ => o.reference

/-- What an operation is called as the consumer of another: by its name, or by
    its node if it has none. -/
def label (o : Operation) : String :=
  if o.name.isEmpty then o.node.getD "" else o.name

/-- The statement of an operation that emits anything. -/
def statement? (o : Operation) : Option Statement :=
  if !o.emits then none
  else
    match o.form with
    | .value name type definition _ =>
      some (if name.isEmpty then .perform definition else .define type name definition)
    | .effect call => some (.perform call)
    | .synonym .. => none

/-- One more use of the value. -/
def addConsumer (o : Operation) (consumer : String) : Operation :=
  { o with refs := o.refs + 1, consumers := o.consumers ++ [consumer] }

end Operation

end Shading
