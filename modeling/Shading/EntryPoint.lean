/-
  Entry points: the stage input and output around the operations of a graph.
-/
import Shading.Compilation.Emission

namespace Shading

/-- An entry point with its stage input and output. -/
structure EntryPoint where
  name : String
  input : Struct
  output : Struct
  /-- Whether the struct of the stage input is declared here, and not
      elsewhere. -/
  definesInput : Bool
  /-- Whether the struct of the stage output is declared here, and not
      elsewhere. -/
  definesOutput : Bool
  deriving DecidableEq, Repr

/-- What an entry point returns: a single scalar or vector by itself, unless its
    struct is declared here, and the struct of the stage output otherwise. -/
def EntryPoint.outputType (e : EntryPoint) : ValueType :=
  match e.definesOutput, e.output.fields with
  | false, [f] => if f.type.isScalar || f.type.isVector then f.type.bare else .struct e.output.name
  | _, _ => .struct e.output.name

namespace SymbolTable

/-- The table with a struct, which is either declared or has only its name
    taken. -/
def addStageStruct (t : SymbolTable) (s : Struct) (defines : Bool) : SymbolTable :=
  if defines then t.addStruct s else t.claim s.name

end SymbolTable

/-- The body of an entry point as far as it could be written. -/
structure Body where
  signature : String
  statements : List Statement
  /-- Why it could not be written to its end. -/
  failure : Option Cause

/-- The text of a body; one that was not written to its end is not closed. -/
def Body.write (b : Body) (out : Source) : Source :=
  let out := (out.openBlock b.signature).lines (b.statements.map Statement.render)
  if b.failure.isNone then out.closeBlock "\x7d" else out

namespace Compilation

/-! ## The stage -/

/-- The compilation with the stage input, through which its variable is
    read. -/
def defineInput (c : Compilation) (e : EntryPoint) : Compilation :=
  let table := c.table.addStageStruct e.input e.definesInput
  let name := table.freshName (Text.baseName e.input.name "input")
  { c with
    table := table.addOperation ⟨none, .synonym (.name name) (.struct e.input.name), 0, []⟩
    inputVar := some table.operations.length
    input := e.input }

/-- The compilation with the stage output.  Its struct is not declared again if
    it is that of the stage input. -/
def defineOutput (c : Compilation) (e : EntryPoint) : Compilation :=
  let type := e.outputType
  { c with
    table :=
      if type.isStruct && e.output.name != c.input.name then
        c.table.addStageStruct e.output e.definesOutput
      else c.table
    output := e.output
    outputType := type }

/-- The compilation with the stage input and output. -/
def defineStage (c : Compilation) (e : EntryPoint) : Compilation :=
  (c.defineInput e).defineOutput e

/-! ## The body -/

/-- The head of an entry point.  A single value has a semantic of its own. -/
def signature (c : Compilation) (entry semantic : String) : String :=
  let head :=
    c.outputType.name ++ " " ++ entry ++ "(" ++ c.input.name ++ " " ++ c.inputName ++ ")"
  if c.outputType.isStruct then head else head ++ " : " ++ semantic

/-- Whether an operation has no statement because its definition stands in place
    of its name. -/
def isSubstituted (c : Compilation) (o : Operation) : Bool :=
  c.inline && o.canInline

/-- The statements of all operations that are not put in place. -/
def statements (c : Compilation) : List Statement :=
  (c.table.operations.filter fun o => !c.isSubstituted o).filterMap Operation.statement?

/-- The value for the field of the stage output with a given index: what the
    root reads at its input pin with that index, or the value of the root
    itself if a single value is returned and the root has one. -/
def rootValue (c : Compilation) (g : Graph) (root : Node) (index : Nat) : Except Cause Operand :=
  if !root.kind.isOutput && !c.outputType.isStruct then c.nodeValue root
  else c.operandNo g root index

/-- Assignments to fields of the variable `name`, the first from the root's
    value `index`, as far as these can be read. -/
def assignments (c : Compilation) (g : Graph) (root : Node) (name : String) :
    (index : Nat) → List Field → List Statement × Option Cause
  | _, [] => ([], none)
  | index, f :: rest =>
    match c.rootValue g root index with
    | .error e => ([], some e)
    | .ok x =>
      let r := assignments c g root name (index + 1) rest
      (.assign name f.name x.expr :: r.1, r.2)

/-- The variable in which a struct is returned, with the table in which its
    name is taken and the statement that introduces it.  A struct with the name
    of the stage input's is returned in the variable of the stage input. -/
def outputVariable (c : Compilation) : Compilation × String × List Statement :=
  if c.outputType.name = c.input.name then (c, c.inputName, [])
  else
    let name := c.table.freshName (Text.baseName c.outputType.name "output")
    ({ c with table := c.table.claim name }, name, [.introduce c.outputType name])

/-- The statements that return the stage output, as far as they can be
    written. -/
def returning (c : Compilation) (g : Graph) (root : Node) :
    Compilation × List Statement × Option Cause :=
  if c.outputType.isStruct then
    let (c, name, introduction) := c.outputVariable
    match c.assignments g root name 0 c.output.fields with
    | (written, some e) => (c, introduction ++ written, some e)
    | (written, none) => (c, introduction ++ written ++ [.result (.name name)], none)
  else
    match c.rootValue g root 0 with
    | .error e => (c, [], some e)
    | .ok x => (c, [.result x.expr], none)

/-- The body of an entry point, with the compilation in which the names that it
    uses are taken. -/
def body (c : Compilation) (g : Graph) (root : Node) (entry semantic : String) :
    Compilation × Body :=
  let r := c.returning g root
  (r.1, ⟨c.signature entry semantic, c.statements ++ r.2.1, r.2.2⟩)

end Compilation

end Shading
