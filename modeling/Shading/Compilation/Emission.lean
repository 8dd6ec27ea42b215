/-
  What a node adds to a compilation.

  A node is compiled by a builder.  It reads the compilation, changes it as it
  goes, and may fail on the way: then the compilation stays as far as the builder
  has come.
-/
import Shading.Compilation.Basic
import Shading.Number.Shortest

namespace Shading

namespace Compilation

/-- The number of components that a declared type has, from one to four. -/
def arity (c : Compilation) (n : Node) (type : String) : Except Cause Nat :=
  match (c.registry.parse type).components with
  | some size =>
    if 1 ≤ size && size ≤ 4 then .ok size else .error (.unsupportedType n.id type)
  | none => .error (.unsupportedType n.id type)

/-! ## Operations -/

/-- The compilation with one more operation, bound to a node. -/
def addOperation (c : Compilation) (n : Node) (form : Operation.Form) : Compilation × Nat :=
  let index := c.table.operations.length
  ({ c with
      table := c.table.addOperation ⟨some n.id, form, 0, []⟩
      bindings := c.bindings.insert n.id index }, index)

/-- The compilation with a value for a node, under a name made from the name of
    the node. -/
def addValue (c : Compilation) (n : Node) (fallback : String) (type : ValueType)
    (definition : Expr) (inlinable : Bool) : Compilation × Nat :=
  let name := c.table.freshName (Text.baseName n.name fallback)
  c.addOperation n (.value name type definition inlinable)

/-- The compilation with an expression that a node has evaluated for its
    effect. -/
def addEffect (c : Compilation) (n : Node) (call : Expr) : Compilation × Nat :=
  c.addOperation n (.effect call)

/-- The compilation with a node bound to another way to read an expression. -/
def addSynonym (c : Compilation) (n : Node) (target : Expr) (type : ValueType) :
    Compilation × Nat :=
  c.addOperation n (.synonym target type)

/-- The table with one more use of each operand by a consumer. -/
def noteUses (consumer : String) (operands : List Operand) (t : SymbolTable) : SymbolTable :=
  operands.foldl (fun t x =>
    match x.source with
    | some source => t.addUse source consumer
    | none => t) t

/-- The compilation with one more use of each operand by the operation with
    index `consumer`. -/
def addUses (c : Compilation) (operands : List Operand) (consumer : Nat) : Compilation :=
  match c.table.operations[consumer]? with
  | some o => { c with table := noteUses o.label operands c.table }
  | none => c

/-- What the resources of a node are called, after a word for what they
    are. -/
def resourceName (n : Node) : String :=
  match Text.squash n.name with
  | [] => "Texture"
  | cs => String.ofList (Text.identChars cs)

/-- The compilation with a texture for a node, and the name of the texture. -/
def addTexture (c : Compilation) (n : Node) : Compilation × String :=
  let name := c.table.freshName ("Srv" ++ resourceName n)
  let slot := c.table.resourceViews.length.toUInt32
  ({ c with
      table := c.table.addResourceView name (.resource .texture2D) (some (.floats 4))
      textureSlots := c.textureSlots.insert n.id slot }, name)

/-- The compilation with a sampler for a node, and the name of the sampler. -/
def addSampler (c : Compilation) (n : Node) : Compilation × String :=
  let name := c.table.freshName ("Sampler" ++ resourceName n)
  let slot := c.table.samplers.length.toUInt32
  ({ c with
      table := c.table.addSampler name (.resource .samplerState)
      samplerSlots := c.samplerSlots.insert n.id slot }, name)

end Compilation

/-- A computation on a compilation that may fail. -/
abbrev Builder (α : Type) := EStateM Cause Compilation α

namespace Builder

variable {α : Type}

/-- Reads the compilation, and fails if the reading does. -/
def look (f : Compilation → Except Cause α) : Builder α := fun c =>
  match f c with
  | .ok a => .ok a c
  | .error e => .error e c

/-- Changes the compilation. -/
def change (f : Compilation → Compilation × α) : Builder α := fun c =>
  let (c, a) := f c
  .ok a c

/-- Runs a call on the table of the compilation. -/
def onTable (call : EStateM Cause SymbolTable α) : Builder α := fun c =>
  match call.run c.table with
  | .ok a t => .ok a { c with table := t }
  | .error e t => .error e { c with table := t }

/-- The compilation as a builder leaves it, and what the builder returns. -/
def outcome (x : Builder α) (c : Compilation) : Compilation × Except Cause α :=
  match x.run c with
  | .ok a c => (c, .ok a)
  | .error e c => (c, .error e)

/-! ## Values and calls -/

/-- Adds a value for a node, under a name made from the name of the node, and
    counts a use of each operand that it reads. -/
def value (n : Node) (fallback : String) (type : ValueType) (definition : Expr)
    (operands : List Operand) : Builder Nat := do
  let index ← change (·.addValue n fallback type definition true)
  modify (·.addUses operands index)
  pure index

/-- Adds a call for a node, for its value if it has a type and for its effect if
    it has not.  The uses of the arguments may stay uncounted. -/
def functionCall (n : Node) (function : String) (args : List Operand) (type : Option ValueType)
    (counts : Bool) : Builder Nat := do
  let call := Expr.call function (args.map (·.expr))
  let index ←
    match type with
    | some type => change (·.addValue n function type call true)
    | none => change (·.addEffect n call)
  if counts then modify (·.addUses args index)
  pure index

/-- Adds an operator between two operands for a node.  Operands of different
    types, neither of them a scalar, are both taken to the type of the result. -/
def operatorCall (n : Node) (op : String) (left right : Operand) (type : ValueType) :
    Builder Nat := do
  if left.type.needCast right.type then
    let l ← look fun _ => left.type.castFrom type
    let r ← look fun _ => right.type.castFrom type
    value n "op" type (.binary op (left.expr.castTo l) (right.expr.castTo r)) [left, right]
  else value n "op" type (.binary op left.expr right.expr) [left, right]

/-- Binds a node to the stage input; there may be one such node only. -/
def bindInput (n : Node) : Builder Nat := do
  let c ← get
  if c.inputNode.isSome then throw (.duplicateInput n.id)
  else
    match c.inputVar with
    | none => throw (.notEmitted n.id)
    | some index =>
      modify fun c => { c with inputNode := some n.id }
      modify fun c => { c with bindings := c.bindings.insert n.id index }
      pure index

/-! ## Nodes -/

/-- A texture with its sampler, and a sample of it. -/
def texture (g : Graph) (n : Node) : Builder Nat := do
  let coords ← look (·.operandNo g n 0)
  let texture ← change (·.addTexture n)
  let sampler ← change (·.addSampler n)
  value n "texture" (.floats 4) (.sample texture sampler coords.expr) [coords]

/-- An operator between the first two inputs. -/
def operator (g : Graph) (n : Node) (op type : String) : Builder Nat := do
  let left ← look (·.operandNo g n 0)
  let right ← look (·.operandNo g n 1)
  let type := (← get).registry.parse type
  operatorCall n op left right type

/-- A call of a function that is known to the target language. -/
def call (g : Graph) (n : Node) (function type : String) : Builder Nat := do
  let args ← look (·.operands g n)
  let type := (← get).registry.parse type
  functionCall n function args (some type) true

/-- A call for its effect. -/
def voidCall (g : Graph) (n : Node) (function : String) : Builder Nat := do
  let args ← look (·.operands g n)
  functionCall n function args none true

/-- A call of a function that the node brings along.  The function is defined
    before the arguments are read, and their uses are not counted. -/
def declaredCall (g : Graph) (n : Node) (function : String) (type : Option String)
    (source : String) : Builder Nat := do
  let _ ← onTable (SymbolTable.defineMethod function source)
  let args ← look (·.operands g n)
  let type := (← get).typeOf? type
  functionCall n function args type false

/-- The first input with one more component. -/
def convert (g : Graph) (n : Node) (last : Number.Single) : Builder Nat := do
  let x ← look (·.operandNo g n 0)
  value n "convert" (.floats 4) (.call "float4" [x.expr, .literal last.literal]) [x]

/-- Components of the first input. -/
def mask (g : Graph) (n : Node) (components type : String) : Builder Nat := do
  let size ← look (·.arity n type)
  let x ← look (·.operandNo g n 0)
  value n "mask" (.floats size) (.member x.expr.operand components) [x]

/-- A vector of the first inputs. -/
def pack (g : Graph) (n : Node) (type : String) : Builder Nat := do
  let size ← look (·.arity n type)
  let type := ValueType.floats size
  let args ← look (·.operandsNo g n (List.range size))
  value n "pack" type (.call type.name (args.map (·.expr))) args

/-- Another way to read the first input, with the declared type if there is
    one. -/
def split (g : Graph) (n : Node) (type : String) : Builder Nat := do
  let x ← look (·.operandNo g n 0)
  let declared := ((← get).registry.parse? type).getD .unknown
  change (·.addSynonym n x.expr.operand (if declared.isUnknown then x.type else declared))

/-- The default value of the first output pin, or zero, with the type that the
    node declares or else that of the pin. -/
def constant (n : Node) (type : String) : Builder Nat := do
  let c ← get
  let pin := n.outputs.head?
  match (c.registry.parse? type).or (c.typeOf? (pin.bind (·.type?))) with
  | none => throw (.unsupportedType n.id "")
  | some type =>
    let text := ((pin.bind (·.default?)).bind Text.content).getD "0"
    change (·.addValue n "constant" type (.literal text) true)

/-- Compiles a node, and returns the index of the operation to which it is now
    bound; there is none for the output. -/
def node (g : Graph) (n : Node) : Builder (Option Nat) :=
  match n.kind with
  | .texture => some <$> texture g n
  | .operator op type => some <$> operator g n op type
  | .call function type => some <$> call g n function type
  | .voidCall function => some <$> voidCall g n function
  | .declaredCall function type source => some <$> declaredCall g n function type source
  | .convert last => some <$> convert g n last
  | .mask components type => some <$> mask g n components type
  | .pack type => some <$> pack g n type
  | .split type => some <$> split g n type
  | .constant type => some <$> constant n type
  | .input => some <$> bindInput n
  | .output => pure none

end Builder

namespace Compilation

/-- The compilation after a node, and the index of the operation to which the
    node is now bound; where it fails, the compilation as it is left. -/
def emit (c : Compilation) (g : Graph) (n : Node) : Compilation × Except Cause (Option Nat) :=
  (Builder.node g n).outcome c

/-- The compilation with an operator between two operands for a node, and the
    index of the operation to which the node is now bound; where the operands
    cannot be cast, the compilation as it is left. -/
def operate (c : Compilation) (n : Node) (op : String) (left right : Operand) (type : ValueType) :
    Compilation × Except Cause (Option Nat) :=
  (some <$> Builder.operatorCall n op left right type).outcome c

end Compilation

end Shading
