/-
  Shader graphs.

  A node has pins, and a link carries the value of an output pin into an input
  pin.  Nodes, pins and links are known by the texts of their ids, which
  nothing forces to be distinct: a lookup finds the first.
-/
import Shading.Failure
import Shading.Number.Binary

namespace Shading

/-- The two sides of a node. -/
inductive PinSide where
  | input
  | output
  deriving DecidableEq, Repr

/-- Where a link can begin or end.  The type and the default value are texts as
    the author wrote them. -/
structure Pin where
  id : String
  name : String
  side : PinSide
  type? : Option String
  default? : Option String
  deriving DecidableEq, Repr

/-- The name by which a pin selects a member: its own, or its id if it has
    none. -/
def Pin.label (p : Pin) : String :=
  if p.name.isEmpty then p.id else p.name

/-- What a node does.  Types are texts as the author wrote them. -/
inductive NodeKind where
  /-- Samples a texture of its own. -/
  | texture
  /-- An operator between two operands. -/
  | operator (op type : String)
  /-- Calls a function for its value. -/
  | call (function type : String)
  /-- Calls a function for its effect. -/
  | voidCall (function : String)
  /-- Calls a function whose source it brings along. -/
  | declaredCall (function : String) (type? : Option String) (source : String)
  /-- Adds a last component. -/
  | convert (last : Number.Single)
  /-- Selects components. -/
  | mask (components type : String)
  /-- Makes a vector of its operands. -/
  | pack (type : String)
  /-- Gives the components of a vector, one at each output pin. -/
  | split (type : String)
  /-- The default value of its output pin. -/
  | constant (type : String)
  /-- The stage input. -/
  | input
  /-- The stage output. -/
  | output
  deriving DecidableEq, Repr

namespace NodeKind

/-- The name of a kind of node. -/
def label : NodeKind → String
  | texture => "Texture"
  | operator .. => "Operator"
  | call .. => "FuncCall"
  | voidCall .. => "FuncCallVoid"
  | declaredCall .. => "FuncCallDeclaration"
  | convert .. => "Convert"
  | mask .. => "ComponentMask"
  | pack .. => "Pack"
  | split .. => "Split"
  | constant .. => "Constant"
  | input => "Input"
  | output => "Output"

/-- The type that a node declares for its value. -/
def type? : NodeKind → Option String
  | operator _ type | call _ type | mask _ type | pack type | split type | constant type =>
    some type
  | declaredCall _ type? _ => type?
  | convert _ => some "float4"
  | texture | voidCall _ | input | output => none

/-- Whether a node is the stage output. -/
def isOutput : NodeKind → Bool
  | output => true
  | _ => false

/-- Whether a node splits a vector. -/
def isSplit : NodeKind → Bool
  | split _ => true
  | _ => false

end NodeKind

/-- A node of a shader graph. -/
structure Node where
  id : String
  name : String
  kind : NodeKind
  pins : List Pin
  deriving DecidableEq, Repr

namespace Node

/-- The first pin with an id. -/
def pin? (n : Node) (id : String) : Option Pin :=
  n.pins.find? (·.id == id)

/-- The input pins in their order. -/
def inputs (n : Node) : List Pin :=
  n.pins.filter (·.side == .input)

/-- The output pins in their order. -/
def outputs (n : Node) : List Pin :=
  n.pins.filter (·.side == .output)

end Node

/-- One end of a link. -/
structure Endpoint where
  node : String
  pin : String
  deriving DecidableEq, Repr

/-- A link from an output pin to an input pin. -/
structure Link where
  id : String
  source : Endpoint
  target : Endpoint
  deriving DecidableEq, Repr

/-- A shader graph. -/
structure Graph where
  nodes : List Node
  links : List Link
  deriving DecidableEq, Repr

namespace Graph

/-- The first node with an id. -/
def node? (g : Graph) (id : String) : Option Node :=
  g.nodes.find? (·.id == id)

/-- The first node with an id; there has to be one. -/
def node (g : Graph) (id : String) : Except Cause Node :=
  match g.node? id with
  | some n => .ok n
  | none => .error (.missingNode id)

/-- The first link into a pin of a node. -/
def incoming? (g : Graph) (node pin : String) : Option Link :=
  g.links.find? fun l => l.target.node == node && l.target.pin == pin

/-- The first link from a node into a pin of another. -/
def linkBetween? (g : Graph) (producer consumer pin : String) : Option Link :=
  g.links.find? fun l =>
    l.source.node == producer && l.target.node == consumer && l.target.pin == pin

/-- Whether a link begins or ends at a node. -/
def isLinked (g : Graph) (node : String) : Bool :=
  g.links.any fun l => l.source.node == node || l.target.node == node

end Graph

end Shading
