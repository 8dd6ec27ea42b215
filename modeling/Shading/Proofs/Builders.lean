/-
  Builders decide before they emit.

  A builder reads the compilation and changes it by turns, and each reading may
  fail.  Here its decisions come first.

  * `Emission`: what is emitted for a node.  `Compilation.plan` decides it, and
    only reads; `Compilation.apply` carries it out, and cannot fail.
  * `outcome_bind`: a builder that fails leaves the compilation as far as it has
    come.
  * `emit_eq`: to compile a node is to define the function that it brings along,
    to decide what to emit, and to emit it.  So nothing is allocated for a node
    before the last reading that may fail (`emit_eq_error_iff`).
-/
import Shading.Proofs.SymbolTable

namespace Shading

/-- What is emitted for a node.  The uses of the operands in `counted` are
    counted. -/
inductive Emission where
  /-- Nothing. -/
  | nothing
  /-- The node stands for the stage input, an operation of the table. -/
  | stageInput (index : Nat)
  /-- A texture with its sampler, and a sample of it. -/
  | sample (coords : Operand)
  /-- A value.  Its name is made from the name of the node, or from `fallback`
      if the node has none. -/
  | value (fallback : String) (type : ValueType) (definition : Expr) (counted : List Operand)
  /-- An expression for its effect. -/
  | effect (call : Expr) (counted : List Operand)
  /-- Another way to read an expression. -/
  | synonym (target : Expr) (type : ValueType)

namespace Emission

/-- A call, for its value if it has a type and for its effect if it has not. -/
def ofCall (function : String) (args : List Operand) (type : Option ValueType) (counts : Bool) :
    Emission :=
  let call := Expr.call function (args.map (·.expr))
  let counted := if counts then args else []
  match type with
  | some type => .value function type call counted
  | none => .effect call counted

/-- An operator between two operands.  Operands of different types, neither of
    them a scalar, are both taken to the type of the result. -/
def ofOperator (op : String) (left right : Operand) (type : ValueType) : Except Cause Emission :=
  if left.type.needCast right.type then
    match left.type.castFrom type with
    | .error e => .error e
    | .ok l =>
      match right.type.castFrom type with
      | .error e => .error e
      | .ok r =>
        .ok (.value "op" type (.binary op (left.expr.castTo l) (right.expr.castTo r))
          [left, right])
  else .ok (.value "op" type (.binary op left.expr right.expr) [left, right])

end Emission

namespace Compilation

/-! ## Deciding what to emit -/

/-- What to emit for a constant: the default value of its first output pin, or
    zero, with the type that the node declares or else that of the pin. -/
def planConstant (c : Compilation) (n : Node) (type : String) : Except Cause Emission :=
  let pin := n.outputs.head?
  match (c.registry.parse? type).or (c.typeOf? (pin.bind (·.type?))) with
  | none => .error (.unsupportedType n.id "")
  | some type =>
    let text := ((pin.bind (·.default?)).bind Text.content).getD "0"
    .ok (.value "constant" type (.literal text) [])

/-- What to emit for a node that stands for the stage input; there may be one
    only. -/
def planInput (c : Compilation) (n : Node) : Except Cause Emission :=
  if c.inputNode.isSome then .error (.duplicateInput n.id)
  else
    match c.inputVar with
    | some index => .ok (.stageInput index)
    | none => .error (.notEmitted n.id)

/-- What to emit for a node. -/
def plan (c : Compilation) (g : Graph) (n : Node) : Except Cause Emission :=
  match n.kind with
  | .texture => (c.operandNo g n 0).map .sample
  | .operator op type =>
    match c.operandNo g n 0 with
    | .error e => .error e
    | .ok left =>
      match c.operandNo g n 1 with
      | .error e => .error e
      | .ok right => Emission.ofOperator op left right (c.registry.parse type)
  | .call function type =>
    (c.operands g n).map fun args => .ofCall function args (some (c.registry.parse type)) true
  | .voidCall function =>
    (c.operands g n).map fun args => .ofCall function args none true
  | .declaredCall function type _ =>
    (c.operands g n).map fun args => .ofCall function args (c.typeOf? type) false
  | .convert last =>
    (c.operandNo g n 0).map fun x =>
      .value "convert" (.floats 4) (.call "float4" [x.expr, .literal last.literal]) [x]
  | .mask components type =>
    match c.arity n type with
    | .error e => .error e
    | .ok size =>
      (c.operandNo g n 0).map fun x =>
        .value "mask" (.floats size) (.member x.expr.operand components) [x]
  | .pack type =>
    match c.arity n type with
    | .error e => .error e
    | .ok size =>
      (c.operandsNo g n (List.range size)).map fun args =>
        let type := ValueType.floats size
        .value "pack" type (.call type.name (args.map (·.expr))) args
  | .split type =>
    (c.operandNo g n 0).map fun x =>
      let declared := (c.registry.parse? type).getD .unknown
      .synonym x.expr.operand (if declared.isUnknown then x.type else declared)
  | .constant type => c.planConstant n type
  | .input => c.planInput n
  | .output => .ok .nothing

/-! ## Emitting -/

/-- The compilation with a node bound to the stage input. -/
def bindInput (c : Compilation) (n : Node) (index : Nat) : Compilation × Nat :=
  ({ c with inputNode := some n.id, bindings := c.bindings.insert n.id index }, index)

/-- The compilation with the uses of operands counted for the operation that it
    has just been given. -/
def counting (operands : List Operand) (r : Compilation × Nat) : Compilation × Option Nat :=
  (r.1.addUses operands r.2, some r.2)

/-- The compilation with an emission for a node, and the index of the operation
    to which the node is now bound. -/
def apply (c : Compilation) (n : Node) : Emission → Compilation × Option Nat
  | .nothing => (c, none)
  | .stageInput index => counting [] (c.bindInput n index)
  | .sample coords =>
    let (c, texture) := c.addTexture n
    let (c, sampler) := c.addSampler n
    counting [coords]
      (c.addValue n "texture" (.floats 4) (.sample texture sampler coords.expr) true)
  | .value fallback type definition counted =>
    counting counted (c.addValue n fallback type definition true)
  | .effect call counted => counting counted (c.addEffect n call)
  | .synonym target type => counting [] (c.addSynonym n target type)

/-- The compilation after what is decided for a node, and the index of the
    operation to which the node is now bound. -/
def carryOut (c : Compilation) (n : Node) :
    Except Cause Emission → Compilation × Except Cause (Option Nat)
  | .error e => (c, .error e)
  | .ok emission => ((c.apply n emission).1, .ok (c.apply n emission).2)

/-- The compilation with the function that a declared call brings along. -/
def declare (c : Compilation) (n : Node) : Except Cause Compilation :=
  match n.kind with
  | .declaredCall function _ source =>
    match (SymbolTable.defineMethod function source).run c.table with
    | .ok _ t => .ok { c with table := t }
    | .error e _ => .error e
  | _ => .ok c

theorem addUses_nil (c : Compilation) (index : Nat) : c.addUses [] index = c := by
  unfold addUses
  cases c.table.operations[index]? <;> rfl

theorem counting_nil (r : Compilation × Nat) : counting [] r = (r.1, some r.2) := by
  rw [counting, addUses_nil]

end Compilation

/-! ## What builders come to -/

namespace Builder

variable {α β : Type} (c : Compilation)

/-- A builder that fails leaves the compilation as far as it has come, and what
    follows it does not run. -/
theorem outcome_bind (x : Builder α) (f : α → Builder β) :
    (x >>= f).outcome c =
      match x.outcome c with
      | (d, .ok a) => (f a).outcome d
      | (d, .error e) => (d, .error e) := by
  unfold outcome
  rw [EStateM.run_bind]
  cases x.run c <;> rfl

theorem outcome_look (f : Compilation → Except Cause α) : (look f).outcome c = (c, f c) := by
  unfold outcome EStateM.run look
  cases f c <;> rfl

theorem outcome_look_bind (f : Compilation → Except Cause α) (k : α → Builder β) :
    (look f >>= k).outcome c =
      match f c with
      | .ok a => (k a).outcome c
      | .error e => (c, .error e) := by
  rw [outcome_bind, outcome_look]
  cases f c <;> rfl

theorem outcome_onTable_bind (call : EStateM Cause SymbolTable α) (k : α → Builder β) :
    (onTable call >>= k).outcome c =
      match call.run c.table with
      | .ok a t => (k a).outcome { c with table := t }
      | .error e t => ({ c with table := t }, .error e) := by
  have hcall : (onTable call).run c =
      match call.run c.table with
      | .ok a t => .ok a { c with table := t }
      | .error e t => .error e { c with table := t } := rfl
  unfold outcome
  rw [EStateM.run_bind, hcall]
  cases call.run c.table <;> rfl

theorem outcome_get_bind (k : Compilation → Builder β) :
    ((get : Builder Compilation) >>= k).outcome c = (k c).outcome c := rfl

variable (n : Node)

open Compilation

/-! ## One lemma for each builder -/

theorem outcome_value (fallback : String) (type : ValueType) (definition : Expr)
    (operands : List Operand) :
    (some <$> value n fallback type definition operands).outcome c =
      c.carryOut n (.ok (.value fallback type definition operands)) := rfl

theorem outcome_functionCall (function : String) (args : List Operand) (type : Option ValueType)
    (counts : Bool) :
    (some <$> functionCall n function args type counts).outcome c =
      c.carryOut n (.ok (.ofCall function args type counts)) := by
  cases counts with
  | true => cases type <;> rfl
  | false =>
    unfold Emission.ofCall
    cases type <;> simp only [Bool.false_eq_true, if_false, carryOut, apply, counting_nil] <;> rfl

theorem outcome_operatorCall (op : String) (left right : Operand) (type : ValueType) :
    (some <$> operatorCall n op left right type).outcome c =
      c.carryOut n (Emission.ofOperator op left right type) := by
  unfold operatorCall Emission.ofOperator
  split
  · simp only [map_bind, outcome_look_bind]
    cases left.type.castFrom type with
    | error e => rfl
    | ok l => cases right.type.castFrom type <;> rfl
  · rfl

theorem outcome_bindInput :
    (some <$> bindInput n).outcome c = c.carryOut n (c.planInput n) := by
  simp only [bindInput, map_bind, outcome_get_bind, planInput]
  split
  · rfl
  · cases c.inputVar with
    | none => rfl
    | some index =>
      simp only [carryOut, apply, counting_nil]
      rfl

theorem outcome_constant (type : String) :
    (some <$> constant n type).outcome c = c.carryOut n (c.planConstant n type) := by
  simp only [constant, map_bind, outcome_get_bind, planConstant]
  cases (c.registry.parse? type).or (c.typeOf? (n.outputs.head?.bind (·.type?))) with
  | none => rfl
  | some type =>
    simp only [carryOut, apply, counting_nil]
    rfl

end Builder

namespace Compilation

variable (c : Compilation) (g : Graph) (n : Node)

open Builder

/-- **Compiling a node decides before it emits**: first the function that the
    node brings along is defined, then everything is read that is needed, and
    only then is anything allocated. -/
theorem emit_eq :
    c.emit g n =
      match c.declare n with
      | .error e => (c, .error e)
      | .ok d => d.carryOut n (d.plan g n) := by
  unfold emit Builder.node declare plan
  cases n.kind with
  | texture =>
    simp only [texture, map_bind, outcome_look_bind]
    cases c.operandNo g n 0 <;> rfl
  | operator op type =>
    simp only [operator, map_bind, outcome_look_bind, outcome_get_bind, outcome_operatorCall]
    cases c.operandNo g n 0 with
    | error e => rfl
    | ok left => cases c.operandNo g n 1 <;> rfl
  | call function type =>
    simp only [call, map_bind, outcome_look_bind, outcome_get_bind, outcome_functionCall]
    cases c.operands g n <;> rfl
  | voidCall function =>
    simp only [voidCall, map_bind, outcome_look_bind, outcome_functionCall]
    cases c.operands g n <;> rfl
  | declaredCall function type source =>
    simp only [declaredCall, map_bind, outcome_onTable_bind]
    cases hdefine : (SymbolTable.defineMethod function source).run c.table with
    | error e t =>
      -- a name is refused before the table is changed
      obtain rfl := SymbolTable.eq_of_defineMethod_error hdefine
      rfl
    | ok new t =>
      simp only [outcome_look_bind, outcome_get_bind, outcome_functionCall]
      cases Compilation.operands { c with table := t } g n <;> rfl
  | convert last =>
    simp only [convert, map_bind, outcome_look_bind, outcome_value]
    cases c.operandNo g n 0 <;> rfl
  | mask components type =>
    simp only [mask, map_bind, outcome_look_bind, outcome_value]
    cases c.arity n type with
    | error e => rfl
    | ok size => cases c.operandNo g n 0 <;> rfl
  | pack type =>
    simp only [pack, map_bind, outcome_look_bind, outcome_value]
    cases c.arity n type with
    | error e => rfl
    | ok size =>
      dsimp only
      cases c.operandsNo g n (List.range size) <;> rfl
  | split type =>
    simp only [split, map_bind, outcome_look_bind, outcome_get_bind]
    cases c.operandNo g n 0 with
    | error e => rfl
    | ok x =>
      simp only [Except.map, carryOut, apply, counting_nil]
      rfl
  | constant type => exact outcome_constant c n type
  | input => exact outcome_bindInput c n
  | output => rfl

/-- How a node is emitted. -/
theorem emit_eq_ok_iff {c c' : Compilation} {g : Graph} {n : Node} {i : Option Nat} :
    c.emit g n = (c', .ok i) ↔
      ∃ d em, c.declare n = .ok d ∧ d.plan g n = .ok em ∧ d.apply n em = (c', i) := by
  rw [emit_eq]
  cases c.declare n with
  | error cause => simp
  | ok d =>
    cases hplan : d.plan g n with
    | error cause => simp [hplan, carryOut]
    | ok em => simp [hplan, carryOut, Prod.ext_iff]

/-- Where a node fails. -/
theorem emit_eq_error_iff {c c' : Compilation} {g : Graph} {n : Node} {cause : Cause} :
    c.emit g n = (c', .error cause) ↔
      (c.declare n = .error cause ∧ c' = c) ∨
        (c.declare n = .ok c' ∧ c'.plan g n = .error cause) := by
  rw [emit_eq]
  cases c.declare n with
  | error cause' => simp [and_comm, eq_comm]
  | ok d =>
    cases hplan : d.plan g n with
    | error cause' =>
      simp only [hplan, carryOut, Prod.mk.injEq, Except.error.injEq, reduceCtorEq, false_and,
        Except.ok.injEq, false_or]
      refine and_congr_right fun hd => ?_
      rw [← hd, hplan, Except.error.injEq]
    | ok em =>
      simp only [hplan, carryOut, Prod.mk.injEq, reduceCtorEq, and_false, false_and,
        Except.ok.injEq, false_or, false_iff, not_and]
      rintro rfl
      simp [hplan]

/-- What a node declares. -/
theorem declare_eq_ok_iff {c d : Compilation} {n : Node} :
    c.declare n = .ok d ↔
      (∃ function type? source new t, n.kind = .declaredCall function type? source ∧
        (SymbolTable.defineMethod function source).run c.table = .ok new t ∧
        d = { c with table := t }) ∨
      ((∀ function type? source, n.kind ≠ .declaredCall function type? source) ∧ d = c) := by
  unfold declare
  cases n.kind with
  | declaredCall function type? source =>
    cases hdefine : (SymbolTable.defineMethod function source).run c.table with
    | error e t => simp [hdefine]
    | ok new t => cases new <;> simp [hdefine, eq_comm]
  | _ => simp [eq_comm]

end Compilation

end Shading
