/-
  Compilers: from a shader graph and an entry point to source text.

  A compiler keeps its registry, its keywords and its options from one
  compilation to the next.  Hooks may look at the symbol table and change it,
  before a compilation begins and after all nodes are emitted.
-/
import Shading.EntryPoint
import Shading.Graph.Order
import Shading.Keyword

namespace Shading

/-- How to compile. -/
structure Options where
  /-- Whether definitions stand in place of names where they can. -/
  inline : Bool
  /-- The semantic of an entry point that returns a single value. -/
  semantic : String
  deriving DecidableEq, Repr

/-- The options where none are given. -/
def Options.standard : Options := ⟨false, "SV_TARGET"⟩

/-- Source text, with the slots of the textures and samplers of nodes. -/
structure Shader where
  source : String
  textureSlots : Dict UInt32
  samplerSlots : Dict UInt32
  deriving DecidableEq, Repr

/-- A look at the symbol table that may change it, with a report. -/
abbrev Hook (ρ : Type) := SymbolTable → SymbolTable × ρ

/-- A table after hooks, one after the other, with their reports. -/
def runHooks {ρ : Type} : List (Hook ρ) → SymbolTable → SymbolTable × List ρ
  | [], t => (t, [])
  | hook :: rest, t =>
    let (t, report) := hook t
    let (t, reports) := runHooks rest t
    (t, report :: reports)

namespace SymbolTable

/-- The table with the names of the functions that declared calls bring along
    taken for them, up to the first whose name means something else. -/
def reserveMethods : SymbolTable → List Node → SymbolTable × Option Failure
  | t, [] => (t, none)
  | t, n :: rest =>
    match n.kind with
    | .declaredCall function _ _ =>
      match (reserveMethod function).run t with
      | .error e t => (t, some (.during (.declaring n.id) e))
      | .ok _ t => reserveMethods t rest
    | _ => reserveMethods t rest

end SymbolTable

namespace Compilation

/-- The compilation back at its start, with keywords and the name of the entry
    point taken in a given table. -/
def start (c : Compilation) (inline : Bool) (table : SymbolTable) (keywords : List String)
    (entry : String) : Compilation :=
  { c.restart with
    inline := inline
    table := (table.claimAll keywords).claim entry }

/-- The compilation after nodes, up to the first that fails. -/
def emitAll (g : Graph) : Compilation → List Node → Compilation × Option Failure
  | c, [] => (c, none)
  | c, n :: rest =>
    match c.emit g n with
    | (c, .error e) => (c, some (.during (.compiling n.id) e))
    | (c, .ok _) => emitAll g c rest

/-- The compilation after the root, if that needs a value and has none yet:
    a root without links. -/
def emitRoot (c : Compilation) (g : Graph) (root : Node) : Compilation × Option Failure :=
  if root.kind.isOutput || c.isBound root.id then (c, none)
  else
    match c.emit g root with
    | (c, .error e) => (c, some (.during (.compilingRoot root.id) e))
    | (c, .ok _) => (c, none)

/-- The compilation after the stage and all nodes that matter, and the root. -/
def build (c : Compilation) (g : Graph) (root : String) (e : EntryPoint) :
    Compilation × Except Failure Node :=
  let (table, failure) := c.table.reserveMethods g.nodes
  let c := { c with table := table }
  match failure with
  | some f => (c, .error f)
  | none =>
    let c := c.defineStage e
    match g.node root with
    | .error cause => (c, .error (.during .findingRoot cause))
    | .ok root =>
      match g.order with
      | .error cause => (c, .error ⟨[], cause⟩)
      | .ok nodes =>
        match c.emitAll g nodes with
        | (c, some f) => (c, .error f)
        | (c, none) =>
          match c.emitRoot g root with
          | (c, some f) => (c, .error f)
          | (c, none) => (c, .ok root)

end Compilation

/-- A compiler whose hooks report values of type `ρ`. -/
structure Compiler (ρ : Type) where
  compilation : Compilation
  keywords : List String
  options : Options
  /-- Hooks that run before a compilation begins. -/
  before : List (Hook ρ)
  /-- Hooks that run when all nodes are emitted. -/
  after : List (Hook ρ)

namespace Compiler

variable {ρ : Type}

/-- The version of the compiler. -/
def version : Nat := 1

/-- The version of the compiler in words. -/
def versionText : String := "v1.0.0"

/-- A compiler with the types of a registry, and with all words that the
    language and these types take. -/
def new (registry : TypeRegistry) : Compiler ρ where
  compilation := .fresh registry
  keywords := Keyword.all registry
  options := .standard
  before := []
  after := []

/-- The compiler with the choice whether to inline. -/
def setInline (k : Compiler ρ) (inline : Bool) : Compiler ρ :=
  { k with options := { k.options with inline := inline } }

/-- The compiler after a compilation, what its hooks reported, and the shader
    or the failure. -/
structure Outcome (ρ : Type) where
  compiler : Compiler ρ
  reports : List ρ
  result : Except Failure Shader

/-- The text of a shader: declarations, then the entry point. -/
def sourceText (t : SymbolTable) (b : Body) : String :=
  (b.write (t.header .empty)).text

/-- Compile a graph to an entry point whose output comes from the root. -/
def generate (k : Compiler ρ) (g : Graph) (root : String) (e : EntryPoint) : Outcome ρ :=
  let (table, early) := runHooks k.before .empty
  let c := k.compilation.start k.options.inline table k.keywords e.name
  match c.build g root e with
  | (c, .error f) => ⟨{ k with compilation := c }, early, .error f⟩
  | (c, .ok root) =>
    let (table, late) := runHooks k.after c.table
    let (c, body) := ({ c with table := table }).body g root e.name k.options.semantic
    let result :=
      match body.failure with
      | some cause => .error ⟨[], cause⟩
      | none => .ok ⟨sourceText c.table body, c.textureSlots, c.samplerSlots⟩
    ⟨{ k with compilation := c }, early ++ late, result⟩

end Compiler

end Shading
