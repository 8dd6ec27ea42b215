/-
  The state of a compilation, and how values of nodes are read in it.

  An operand is what a node reads at an input pin.  It comes from the link into
  the pin, and where there is none from the default value of the pin.
-/
import Shading.Dict
import Shading.Graph.Basic
import Shading.SymbolTable
import Shading.ValueType.Registry

namespace Shading

/-- The state of a compilation. -/
structure Compilation where
  table : SymbolTable
  registry : TypeRegistry
  /-- The operations of nodes by their indices in the table. -/
  bindings : Dict Nat
  /-- The slots of the textures of nodes. -/
  textureSlots : Dict UInt32
  /-- The slots of the samplers of nodes. -/
  samplerSlots : Dict UInt32
  /-- The stage input. -/
  input : Struct
  /-- The stage output. -/
  output : Struct
  /-- The operation through which the stage input is read. -/
  inputVar : Option Nat
  /-- The type that the entry point returns. -/
  outputType : ValueType
  /-- Whether definitions stand in place of names. -/
  inline : Bool
  /-- The node that stands for the stage input. -/
  inputNode : Option String

/-- An expression with its type, and the operation whose value it reads. -/
structure Operand where
  expr : Expr
  type : ValueType
  source : Option String

/-- A text that reads no operation. -/
def Operand.literal (text : String) (type : ValueType) : Operand :=
  ⟨.literal text, type, none⟩

namespace Compilation

/-- A compilation in which nothing has happened. -/
def fresh (registry : TypeRegistry) : Compilation where
  table := .empty
  registry := registry
  bindings := .empty
  textureSlots := .empty
  samplerSlots := .empty
  input := .empty
  output := .empty
  inputVar := none
  outputType := .unknown
  inline := false
  inputNode := none

/-- The compilation back at its start; only the registry and the choice to
    inline stay. -/
def restart (c : Compilation) : Compilation :=
  { fresh c.registry with inline := c.inline }

/-! ## Looking things up -/

/-- Whether there is an operation for a node. -/
def isBound (c : Compilation) (node : String) : Bool :=
  c.bindings.contains node

/-- The operation for a node. -/
def operation? (c : Compilation) (node : String) : Option Operation :=
  (c.bindings.get? node).bind (c.table.operations[·]?)

/-- The operation through which the stage input is read. -/
def inputOperation? (c : Compilation) : Option Operation :=
  c.inputVar.bind (c.table.operations[·]?)

/-- The name of the stage input in the entry point. -/
def inputName (c : Compilation) : String :=
  match c.inputOperation? with
  | some o => o.name
  | none => "input"

/-- The struct with a name: the stage input, the stage output, or one of the
    table. -/
def struct? (c : Compilation) (name : String) : Option Struct :=
  if c.input.name = name then some c.input
  else if c.output.name = name then some c.output
  else c.table.struct? name

/-- The type of an optional text, unless it is blank. -/
def typeOf? (c : Compilation) (text : Option String) : Option ValueType :=
  text.bind c.registry.parse?

/-! ## Values of nodes -/

/-- The member of a value that an output pin selects: a component of a split
    vector or a field of a struct.  A struct that is declared elsewhere has the
    field that the pin names, with the type of the pin. -/
def memberAt? (c : Compilation) (producer : Node) (o : Operation) (type : ValueType) (p : Pin) :
    Option Operand :=
  if producer.kind.isSplit then
    some ⟨.member o.reference p.label, (type.element.map .scalar).getD .unknown, some o.name⟩
  else
    match type with
    | .struct name =>
      match c.struct? name with
      | some s =>
        (s.field? p.label).map fun f => ⟨.member o.reference f.name, f.type.bare, some o.name⟩
      | none =>
        some ⟨.member o.reference p.label, (c.typeOf? p.type?).getD .unknown, some o.name⟩
    | _ => none

/-- The value of an operation as a whole. -/
def wholeValue (c : Compilation) (o : Operation) (type : ValueType) : Operand :=
  ⟨if c.inline then o.expansion else o.reference, type, some o.name⟩

/-- The value of a node, read through one of its output pins or as a whole. -/
def valueOf (c : Compilation) (producer : Node) (pin : Option Pin) : Except Cause Operand :=
  match c.operation? producer.id with
  | none => .error (.notEmitted producer.id)
  | some o =>
    match o.type? with
    | none => .error (.voidValue producer.id)
    | some type =>
      .ok ((pin.bind (c.memberAt? producer o type)).getD (c.wholeValue o type))

/-- The value of a node as a whole. -/
def nodeValue (c : Compilation) (n : Node) : Except Cause Operand :=
  c.valueOf n none

/-! ## Operands -/

/-- What an input pin without a link reads: its default value, or zero, with
    the type of the pin or else of the node. -/
def defaultOperand (c : Compilation) (n : Node) (p : Pin) : Operand :=
  let type := ((c.typeOf? p.type?).or (c.typeOf? n.kind.type?)).getD .unknown
  .literal ((p.default?.bind Text.content).getD "0") type

/-- What a link carries. -/
def linkValue (c : Compilation) (g : Graph) (l : Link) : Except Cause Operand :=
  match g.node l.source.node with
  | .error e => .error e
  | .ok producer => c.valueOf producer (producer.pin? l.source.pin)

/-- What a node reads at an input pin. -/
def operandAt (c : Compilation) (g : Graph) (n : Node) (p : Pin) : Except Cause Operand :=
  match g.incoming? n.id p.id with
  | some l => c.linkValue g l
  | none => .ok (c.defaultOperand n p)

/-- What a node reads at its input pin with a given index; zero if there is no
    such pin. -/
def operandNo (c : Compilation) (g : Graph) (n : Node) (index : Nat) : Except Cause Operand :=
  match n.inputs[index]? with
  | some p => c.operandAt g n p
  | none => .ok (.literal "0" .unknown)

/-- What a node reads at pins, in order. -/
def operandsAt (c : Compilation) (g : Graph) (n : Node) : List Pin → Except Cause (List Operand)
  | [] => .ok []
  | p :: rest =>
    match c.operandAt g n p with
    | .error e => .error e
    | .ok x => (operandsAt c g n rest).map (x :: ·)

/-- What a node reads at all its input pins. -/
def operands (c : Compilation) (g : Graph) (n : Node) : Except Cause (List Operand) :=
  c.operandsAt g n n.inputs

/-- What a node reads at its input pins with given indices. -/
def operandsNo (c : Compilation) (g : Graph) (n : Node) : List Nat → Except Cause (List Operand)
  | [] => .ok []
  | i :: rest =>
    match c.operandNo g n i with
    | .error e => .error e
    | .ok x => (operandsNo c g n rest).map (x :: ·)

/-- Whether the value of a node is a struct. -/
def yieldsStruct (c : Compilation) (n : Node) : Bool :=
  match (c.operation? n.id).bind Operation.type? with
  | some type => type.isStruct
  | none => false

/-- What a producer delivers into a pin of a consumer.  Without a link between
    them it is the value as a whole, but of a struct only a link can say which
    field is meant. -/
def delivered (c : Compilation) (g : Graph) (consumer : Node) (p : Pin) (producer : Option Node) :
    Except Cause Operand :=
  match producer with
  | none => .error (.unresolvedLink p.id)
  | some producer =>
    match g.linkBetween? producer.id consumer.id p.id with
    | some l => c.valueOf producer (producer.pin? l.source.pin)
    | none =>
      if c.yieldsStruct producer then .error (.missingSourceLink p.id producer.id)
      else c.nodeValue producer

/-- What a link carries, if there is a link and its value can be read. -/
def linkValue? (c : Compilation) (g : Graph) (l : Option Link) : Option Operand :=
  l.bind fun l => (c.linkValue g l).toOption

/-- What the link into an input pin carries, if there is a link and its value
    can be read. -/
def linkedOperand? (c : Compilation) (g : Graph) (n : Node) (p : Pin) : Option Operand :=
  c.linkValue? g (g.incoming? n.id p.id)

/-- What a producer delivers into a pin of a consumer, if it can be read. -/
def delivered? (c : Compilation) (g : Graph) (consumer : Node) (p : Pin)
    (producer : Option Node) : Option Operand :=
  (c.delivered g consumer p producer).toOption

end Compilation

end Shading
