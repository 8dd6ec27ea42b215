/-
  Why a shader graph is refused.

  A `Cause` is what is wrong, a `Stage` is what the compiler was doing, and a
  `Failure` is a cause with the stages around it, outermost first.  All wording
  is in this module.
-/

namespace Shading

/-- What is wrong with a shader graph. -/
inductive Cause where
  /-- A pin is read that has no producer. -/
  | unresolvedLink (pin : String)
  /-- A field of a struct is wanted, but no link says which. -/
  | missingSourceLink (pin producer : String)
  /-- A node is read before anything was emitted for it. -/
  | notEmitted (node : String)
  /-- A cast to or from a type that has none. -/
  | invalidCast (type : String)
  /-- A node feeds itself. -/
  | cycle (node : String)
  /-- A link, or the root, names no node. -/
  | missingNode (node : String)
  /-- The name of a declared function means something else. -/
  | nameTaken (name : String)
  /-- A second node wants to be the stage input. -/
  | duplicateInput (node : String)
  /-- The value of a node without a value is read. -/
  | voidValue (node : String)
  /-- A node cannot have the type it declares. -/
  | unsupportedType (node type : String)
  deriving DecidableEq, Repr

/-- The cause in words. -/
def Cause.message : Cause → String
  | unresolvedLink pin => "unresolved link into pin " ++ pin
  | missingSourceLink pin producer => "no link from " ++ producer ++ " into pin " ++ pin
  | notEmitted node => "node " ++ node ++ " is referenced before it was emitted"
  | invalidCast type => "invalid cast to " ++ type
  | cycle node => "cycle detected in shader graph at node " ++ node
  | missingNode node => "link references missing node: " ++ node
  | nameTaken name => "function name " ++ name ++ " is already declared"
  | duplicateInput node => "graph has more than one input node (second: " ++ node ++ ")"
  | voidValue node => "node " ++ node ++ " produces no value"
  | unsupportedType node type => "node " ++ node ++ ": unsupported value type " ++ type

/-- What the compiler was doing. -/
inductive Stage where
  | declaring (node : String)
  | findingRoot
  | compiling (node : String)
  | compilingRoot (node : String)
  deriving DecidableEq, Repr

/-- The stage in words. -/
def Stage.message : Stage → String
  | declaring node => "failed to declare function for node " ++ node
  | findingRoot => "root node"
  | compiling node => "failed to compile node " ++ node
  | compilingRoot node => "failed to compile root node " ++ node

/-- A cause with the stages around it, outermost first. -/
structure Failure where
  stages : List Stage
  cause : Cause
  deriving DecidableEq, Repr

namespace Failure

/-- A cause during a stage. -/
def during (s : Stage) (c : Cause) : Failure := ⟨[s], c⟩

/-- The stages and the cause in words, outermost first. -/
def chain (f : Failure) : List String :=
  f.stages.map Stage.message ++ [f.cause.message]

/-- The failure in one line. -/
def message (f : Failure) : String :=
  ": ".intercalate f.chain

end Failure

end Shading
