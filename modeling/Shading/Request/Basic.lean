/-
  Compile requests: a graph, its root, and the entry point to make of them.
-/
import Shading.Compiler

namespace Shading

namespace Signature

/-- A field of a stage signature.  Its type is a text as the author wrote
    it. -/
structure Field where
  name : String
  type : String
  semantic : Option String
  deriving DecidableEq, Repr

end Signature

/-- A stage signature: a named list of fields. -/
structure Signature where
  name : String
  fields : List Signature.Field
  deriving DecidableEq, Repr

/-- The struct of a signature, with its types from a registry. -/
def Signature.struct (s : Signature) (r : TypeRegistry) : Struct :=
  ⟨s.name, s.fields.map fun f =>
    let type := r.parse f.type
    ⟨f.name, match f.semantic with
      | some semantic => type.withSemantic semantic
      | none => type⟩⟩

/-- All that a compilation needs. -/
structure Request where
  version : String
  entryName : String
  root : String
  input : Signature
  output : Signature
  definesInput : Bool
  definesOutput : Bool
  options : Options
  graph : Graph
  deriving DecidableEq, Repr

/-- The entry point that a request asks for, with its types from a registry. -/
def Request.entryPoint (q : Request) (r : TypeRegistry) : EntryPoint where
  name := q.entryName
  input := q.input.struct r
  output := q.output.struct r
  definesInput := q.definesInput
  definesOutput := q.definesOutput

/-- Compile a request.  The compiler keeps the options of the request. -/
def Compiler.compile {ρ : Type} (k : Compiler ρ) (q : Request) : Outcome ρ :=
  ({ k with options := q.options }).generate q.graph q.root
    (q.entryPoint k.compilation.registry)

end Shading
