/-
  What does not depend on whether definitions stand in place of names.

  * `Agree`: two results are the same failure, or values that are related.
  * `Operation.profile`: what of an operation is not text.
  * `Compilation.Alike`: two compilations differ in texts only.
  * `Alike.plan`, `Alike.emit`: in two such compilations a node fails for the
    same cause, or keeps them alike (`Compilation.Together`).
  * `inlining_changes_text_only`: so it is with a whole compilation.
-/
import Shading.Proofs.Parallel

namespace Shading

/-- Two results are the same failure, or values that are related. -/
inductive Agree {ε α β : Type} (R : α → β → Prop) : Except ε α → Except ε β → Prop
  | error (e : ε) : Agree R (.error e) (.error e)
  | ok {a b} : R a b → Agree R (.ok a) (.ok b)

theorem Agree.elim {ε α β : Type} {R : α → β → Prop} {x : Except ε α} {y : Except ε β}
    (h : Agree R x y) :
    (∃ e, x = .error e ∧ y = .error e) ∨ ∃ a b, x = .ok a ∧ y = .ok b ∧ R a b := by
  cases h with
  | error e => exact .inl ⟨e, rfl, rfl⟩
  | ok hab => exact .inr ⟨_, _, rfl, rfl, hab⟩

theorem Agree.map {ε α β γ δ : Type} {R : α → β → Prop} {S : γ → δ → Prop} {x : Except ε α}
    {y : Except ε β} (h : Agree R x y) {f : α → γ} {f' : β → δ}
    (hf : ∀ a b, R a b → S (f a) (f' b)) : Agree S (x.map f) (y.map f') := by
  cases h with
  | error e => exact .error e
  | ok hab => exact .ok (hf _ _ hab)

theorem Agree.refl {ε α : Type} {R : α → α → Prop} (hR : ∀ a, R a a) (x : Except ε α) :
    Agree R x x := by
  cases x with
  | error e => exact .error e
  | ok a => exact .ok (hR a)

/-! ## What is not text -/

namespace Operation

/-- Whether the definition may stand in place of the name, but for structs. -/
def allowsInline (o : Operation) : Bool :=
  match o.form with
  | .value _ _ _ inlinable => inlinable
  | .effect _ | .synonym .. => false

/-- What is known of an operation without reading a text. -/
structure Profile where
  node : Option String
  type? : Option ValueType
  allowsInline : Bool
  emits : Bool
  deriving DecidableEq

/-- The profile of an operation: its node, its type, and whether it may be
    inlined and is emitted. -/
def profile (o : Operation) : Profile :=
  ⟨o.node, o.type?, o.allowsInline, o.emits⟩

theorem map_profile_bare (os : List Operation) :
    (os.map Operation.bare).map profile = os.map profile := by
  rw [List.map_map]
  rfl

end Operation

/-- Two tables differ in texts only. -/
structure SymbolTable.Alike (t t' : SymbolTable) : Prop where
  structs : t'.structs = t.structs
  functions : t'.functions = t.functions
  methods : t'.methods = t.methods
  resourceViews : t'.resourceViews.length = t.resourceViews.length
  samplers : t'.samplers.length = t.samplers.length
  operations : t'.operations.map Operation.profile = t.operations.map Operation.profile

/-- Emissions that differ in texts only. -/
inductive Emission.Alike : Emission → Emission → Prop
  | nothing : Alike .nothing .nothing
  | stageInput {i} : Alike (.stageInput i) (.stageInput i)
  | sample {x x'} : Alike (.sample x) (.sample x')
  | value {fallback type e e' xs xs'} :
      Alike (.value fallback type e xs) (.value fallback type e' xs')
  | effect {e e' xs xs'} : Alike (.effect e xs) (.effect e' xs')
  | synonym {e e' type} : Alike (.synonym e type) (.synonym e' type)

/-- The profile of the operation that an emission adds for a node. -/
def Emission.profile? (n : Node) : Emission → Option Operation.Profile
  | .nothing | .stageInput _ => none
  | .sample _ => some ⟨some n.id, some (.floats 4), true, true⟩
  | .value _ type _ _ => some ⟨some n.id, some type, true, true⟩
  | .effect .. => some ⟨some n.id, none, false, true⟩
  | .synonym _ type => some ⟨some n.id, some type, false, false⟩

theorem Emission.Alike.profile? {em em' : Emission} (h : em.Alike em') (n : Node) :
    em'.profile? n = em.profile? n := by
  cases h <;> rfl

theorem Emission.Alike.refl (em : Emission) : em.Alike em := by
  cases em with
  | nothing => exact .nothing
  | stageInput => exact .stageInput
  | sample => exact .sample
  | value => exact .value
  | effect => exact .effect
  | synonym => exact .synonym

/-- Operands that may differ in their texts, but not in their types. -/
def Operand.SameType (x x' : Operand) : Prop := x'.type = x.type

theorem agree_ofOperator (op : String) {x x' y y' : Operand} (hx : x.SameType x')
    (hy : y.SameType y') (type : ValueType) :
    Agree Emission.Alike (Emission.ofOperator op x y type) (Emission.ofOperator op x' y' type) := by
  unfold Operand.SameType at hx hy
  unfold Emission.ofOperator
  rw [hx, hy]
  split
  · cases x.type.castFrom type with
    | error e => exact .error e
    | ok l =>
      cases y.type.castFrom type with
      | error e => exact .error e
      | ok r => exact .ok .value
  · exact .ok .value

theorem alike_ofCall (function : String) (xs xs' : List Operand) (type? : Option ValueType)
    (counts : Bool) :
    (Emission.ofCall function xs type? counts).Alike (.ofCall function xs' type? counts) := by
  cases type? with
  | none => exact .effect
  | some type => exact .value

namespace Compilation

variable {g : Graph} {n : Node} {c c' d d' : Compilation} {em em' : Emission}

/-- Two compilations differ in texts only. -/
structure Alike (c c' : Compilation) : Prop where
  registry : c'.registry = c.registry
  input : c'.input = c.input
  output : c'.output = c.output
  inputVar : c'.inputVar = c.inputVar
  outputType : c'.outputType = c.outputType
  inputNode : c'.inputNode = c.inputNode
  bindings : c'.bindings = c.bindings
  textureSlots : c'.textureSlots = c.textureSlots
  samplerSlots : c'.samplerSlots = c.samplerSlots
  table : c.table.Alike c'.table

/-- Two runs come to the same result, in compilations that are alike. -/
structure Together {α : Type} (r r' : Compilation × α) : Prop where
  alike : r.1.Alike r'.1
  same : r'.2 = r.2

theorem Together.elim {α : Type} {r r' : Compilation × α} (h : Together r r') :
    ∃ d d' a, r = (d, a) ∧ r' = (d', a) ∧ d.Alike d' :=
  ⟨r.1, r'.1, r.2, rfl, by rw [← h.same], h.alike⟩

theorem readAt_type_eq (producer : Node) (o : Operation) (type : ValueType) (pin : Option Pin) :
    (c.readAt producer o type pin).type =
      ((c.member? producer type pin).map Prod.snd).getD type := by
  rw [readAt_eq]
  cases c.member? producer type pin <;> rfl

/-- The names and texts that an emission takes from a table leave the profile
    of its operation as it is. -/
theorem profile_operation? (hplan : c.plan g n = .ok em) (t : SymbolTable) :
    (em.operation? t n).map Operation.profile = em.profile? n := by
  obtain ⟨xs, -, hmade⟩ := plan_eq_ok_iff.1 hplan
  cases ho : em.operation? t n with
  | none =>
    cases em with
    | nothing | stageInput => rfl
    | sample | value | effect | synonym => cases ho
  | some o =>
    have hempty := Operation.isEmpty_definitionText (hmade.writable ho)
    rw [Option.map_some, Operation.profile, Operation.emits, hempty]
    cases em with
    | nothing | stageInput => cases ho
    | sample | value | effect | synonym => cases ho; rfl

namespace Alike

variable (h : c.Alike c')
include h

/-! ## Reading values -/

theorem struct? (name : String) : c'.struct? name = c.struct? name := by
  simp only [Compilation.struct?, SymbolTable.struct?, h.input, h.output, h.table.structs]

theorem length : c'.table.operations.length = c.table.operations.length := by
  simpa using congrArg List.length h.table.operations

theorem operation? (id : String) :
    (c'.operation? id).map Operation.profile = (c.operation? id).map Operation.profile := by
  unfold Compilation.operation?
  rw [h.bindings]
  cases c.bindings.get? id with
  | none => rfl
  | some i =>
    rw [Option.bind_some, Option.bind_some, ← List.getElem?_map, ← List.getElem?_map,
      h.table.operations]

theorem valueOf (producer : Node) (pin : Option Pin) :
    Agree Operand.SameType (c.valueOf producer pin) (c'.valueOf producer pin) := by
  have ho := h.operation? producer.id
  unfold Compilation.valueOf
  cases hc : c.operation? producer.id with
  | none =>
    rw [hc, Option.map_none, Option.map_eq_none_iff] at ho
    rw [ho]
    exact .error _
  | some o =>
    rw [hc, Option.map_some, Option.map_eq_some_iff] at ho
    obtain ⟨o', ho', hprofile⟩ := ho
    have ht : o'.type? = o.type? := congrArg Operation.Profile.type? hprofile
    rw [ho']
    simp only [ht]
    cases o.type? with
    | none => exact .error _
    | some type =>
      refine .ok ?_
      change (c'.readAt producer o' type pin).type = (c.readAt producer o type pin).type
      rw [readAt_type_eq, readAt_type_eq, member?_congr h.registry h.struct?]

theorem operandAt (g : Graph) (n : Node) (p : Pin) :
    Agree Operand.SameType (c.operandAt g n p) (c'.operandAt g n p) := by
  unfold Compilation.operandAt Compilation.linkValue
  cases g.incoming? n.id p.id with
  | none =>
    refine .ok ?_
    simp only [Operand.SameType, defaultOperand, Compilation.typeOf?, h.registry]
  | some l =>
    dsimp only
    cases g.node l.source.node with
    | error e => exact .error e
    | ok producer => exact h.valueOf producer _

theorem operandNo (g : Graph) (n : Node) (i : Nat) :
    Agree Operand.SameType (c.operandNo g n i) (c'.operandNo g n i) := by
  unfold Compilation.operandNo
  cases n.inputs[i]? with
  | none => exact .ok rfl
  | some p => exact h.operandAt g n p

theorem operandsNo (g : Graph) (n : Node) (is : List Nat) :
    Agree (List.Forall₂ Operand.SameType) (c.operandsNo g n is) (c'.operandsNo g n is) := by
  induction is with
  | nil => exact .ok .nil
  | cons i rest ih =>
    unfold Compilation.operandsNo
    obtain ⟨e, hx, hx'⟩ | ⟨x, x', hx, hx', hsame⟩ := (h.operandNo g n i).elim
    · rw [hx, hx']
      exact .error e
    · rw [hx, hx']
      exact ih.map fun _ _ hxs => .cons hsame hxs

theorem operands (g : Graph) (n : Node) :
    Agree (List.Forall₂ Operand.SameType) (c.operands g n) (c'.operands g n) := by
  rw [operands_eq, operands_eq]
  exact h.operandsNo g n _

/-! ## Nodes -/

/-- **What to emit is decided without reading a text.** -/
theorem plan (g : Graph) (n : Node) : Agree Emission.Alike (c.plan g n) (c'.plan g n) := by
  have harity : ∀ type, c'.arity n type = c.arity n type := by
    intro type
    simp only [arity, h.registry]
  unfold Compilation.plan
  cases n.kind with
  | texture => exact (h.operandNo g n 0).map fun _ _ _ => .sample
  | operator op type =>
    dsimp only
    rw [h.registry]
    obtain ⟨e, hx, hx'⟩ | ⟨x, x', hx, hx', hsame⟩ := (h.operandNo g n 0).elim
    · rw [hx, hx']
      exact .error e
    · obtain ⟨e, hy, hy'⟩ | ⟨y, y', hy, hy', hsame'⟩ := (h.operandNo g n 1).elim
      · rw [hx, hx', hy, hy']
        exact .error e
      · rw [hx, hx', hy, hy']
        exact agree_ofOperator op hsame hsame' _
  | call function type =>
    dsimp only
    rw [h.registry]
    exact (h.operands g n).map fun xs xs' _ => alike_ofCall function xs xs' _ _
  | voidCall function =>
    exact (h.operands g n).map fun xs xs' _ => alike_ofCall function xs xs' _ _
  | declaredCall function type source =>
    dsimp only
    rw [typeOf?, typeOf?, h.registry]
    exact (h.operands g n).map fun xs xs' _ => alike_ofCall function xs xs' _ _
  | convert last => exact (h.operandNo g n 0).map fun _ _ _ => .value
  | mask components type =>
    dsimp only
    rw [harity]
    cases c.arity n type with
    | error e => exact .error e
    | ok size => exact (h.operandNo g n 0).map fun _ _ _ => .value
  | pack type =>
    dsimp only
    rw [harity]
    cases c.arity n type with
    | error e => exact .error e
    | ok size => exact (h.operandsNo g n _).map fun _ _ _ => .value
  | split type =>
    dsimp only
    rw [h.registry]
    refine (h.operandNo g n 0).map fun x x' hx => ?_
    -- a split without a type of its own takes that of what it splits
    unfold Operand.SameType at hx
    rw [hx]
    exact .synonym
  | constant type =>
    have hsame : c'.planConstant n type = c.planConstant n type := by
      simp only [planConstant, typeOf?, h.registry]
    dsimp only
    rw [hsame]
    exact .refl .refl _
  | input =>
    have hsame : c'.planInput n = c.planInput n := by
      simp only [planInput, h.inputNode, h.inputVar]
    dsimp only
    rw [hsame]
    exact .refl .refl _
  | output => exact .ok .nothing

theorem withTable {t t' : SymbolTable} (ht : t.Alike t') :
    ({ c with table := t } : Compilation).Alike { c' with table := t' } where
  registry := h.registry
  input := h.input
  output := h.output
  inputVar := h.inputVar
  outputType := h.outputType
  inputNode := h.inputNode
  bindings := h.bindings
  textureSlots := h.textureSlots
  samplerSlots := h.samplerSlots
  table := ht

theorem withFunctions (fs : List Function) : (c.withFunctions fs).Alike (c'.withFunctions fs) :=
  h.withTable ⟨h.table.structs, rfl, h.table.methods, h.table.resourceViews, h.table.samplers,
    h.table.operations⟩

theorem functionsWith (n : Node) : c'.table.functionsWith n = c.table.functionsWith n := by
  unfold SymbolTable.functionsWith SymbolTable.hasFunction
  rw [h.table.functions]

theorem reserves (hr : c.table.Reserves n) : c'.table.Reserves n := by
  intro function type? source hk
  rw [h.table.methods]
  exact hr function type? source hk

theorem index? (hem : em.Alike em') : em'.index? c'.table = em.index? c.table := by
  cases hem with
  | nothing | stageInput => rfl
  | sample | value | effect | synonym => exact congrArg some h.length

/-- Emitting a node in both keeps them alike. -/
theorem step (hplan : c.plan g n = .ok em) (hplan' : c'.plan g n = .ok em')
    (hem : em.Alike em') (hd : c.Emitted n em d) (hd' : c'.Emitted n em' d') : d.Alike d' := by
  constructor
  case registry => rw [hd.registry, hd'.registry, h.registry]
  case input => rw [hd.input, hd'.input, h.input]
  case output => rw [hd.output, hd'.output, h.output]
  case inputVar => rw [hd.inputVar, hd'.inputVar, h.inputVar]
  case outputType => rw [hd.outputType, hd'.outputType, h.outputType]
  case inputNode =>
    rw [hd.inputNode, hd'.inputNode, h.inputNode]
    cases hem <;> rfl
  case bindings =>
    rw [hd.bindings, hd'.bindings, h.bindings, Emission.bind, Emission.bind, h.index? hem]
  case textureSlots =>
    rw [hd.textureSlots, hd'.textureSlots, h.textureSlots, h.table.resourceViews]
    cases hem <;> rfl
  case samplerSlots =>
    rw [hd.samplerSlots, hd'.samplerSlots, h.samplerSlots, h.table.samplers]
    cases hem <;> rfl
  case table =>
    constructor
    case structs => rw [hd.structs, hd'.structs, h.table.structs]
    case functions => rw [hd.functions, hd'.functions, h.functionsWith]
    case methods => rw [hd.methods, hd'.methods, h.table.methods]
    case resourceViews =>
      rw [hd.resourceViews, hd'.resourceViews]
      cases hem with
      | sample => simp [Emission.resourceViews_sample, h.table.resourceViews]
      | nothing | stageInput | value | effect | synonym => exact h.table.resourceViews
    case samplers =>
      rw [hd.samplers, hd'.samplers]
      cases hem with
      | sample => simp [Emission.samplers_sample, h.table.samplers]
      | nothing | stageInput | value | effect | synonym => exact h.table.samplers
    case operations =>
      rw [← Operation.map_profile_bare, ← Operation.map_profile_bare d.table.operations,
        hd.operations, hd'.operations, List.map_append, List.map_append,
        Operation.map_profile_bare, Operation.map_profile_bare, h.table.operations,
        ← Option.toList_map, ← Option.toList_map, profile_operation? hplan,
        profile_operation? hplan', hem.profile?]

/-- **A node fails in both for the same cause, or keeps them alike.** -/
theorem emit (hr : c.table.Reserves n) : Together (c.emit g n) (c'.emit g n) := by
  have hview := c.sameView_withFunctions (c.table.functionsWith n)
  have hview' := c'.sameView_withFunctions (c'.table.functionsWith n)
  have hplans := h.plan g n
  rw [emit_eq, emit_eq, declare_eq c n hr, declare_eq c' n (h.reserves hr)]
  dsimp only
  rw [hview.plan rfl rfl g n, hview'.plan rfl rfl g n]
  cases hplan : c.plan g n with
  | error e =>
    rw [hplan] at hplans
    generalize hplan' : c'.plan g n = r at hplans
    cases hplans
    rw [h.functionsWith]
    exact ⟨h.withFunctions _, rfl⟩
  | ok em =>
    rw [hplan] at hplans
    generalize hplan' : c'.plan g n = r at hplans
    cases hplans with
    | ok hem =>
      refine ⟨h.step hplan hplan' hem (emitted_of_bare (bare_apply _ n em))
        (emitted_of_bare (bare_apply _ n _)), ?_⟩
      simp only [carryOut, apply_index]
      exact congrArg Except.ok (h.index? hem)

/-! ## Runs -/

theorem emitAll {ns : List Node} (hr : ∀ n ∈ ns, c.table.Reserves n) :
    Together (Compilation.emitAll g c ns) (Compilation.emitAll g c' ns) := by
  induction ns generalizing c c' with
  | nil => exact ⟨h, rfl⟩
  | cons n rest ih =>
    obtain ⟨d, d', r, hemit, hemit', halike⟩ := (h.emit (g := g) (hr n (by simp))).elim
    rw [Compilation.emitAll, Compilation.emitAll, hemit, hemit']
    cases r with
    | error e => exact ⟨halike, rfl⟩
    | ok i =>
      obtain ⟨em, -, hem⟩ := emit_ok (hr n (by simp)) hemit
      exact ih halike fun m hm => hem.reserves (hr m (List.mem_cons_of_mem _ hm))

theorem emitRoot {root : Node} (hr : c.table.Reserves root) :
    Together (c.emitRoot g root) (c'.emitRoot g root) := by
  have hbound : c'.isBound root.id = c.isBound root.id := by
    simp only [isBound, h.bindings]
  obtain ⟨d, d', r, hemit, hemit', halike⟩ := (h.emit (g := g) hr).elim
  unfold Compilation.emitRoot
  rw [hbound, hemit, hemit']
  split
  · exact ⟨h, rfl⟩
  · cases r <;> exact ⟨halike, rfl⟩

theorem emitNodes {ns : List Node} {root : Node} (hr : ∀ n ∈ ns, c.table.Reserves n)
    (hroot : c.table.Reserves root) :
    Together (c.emitNodes g ns root) (c'.emitNodes g ns root) := by
  obtain ⟨d, d', f, hrun, hrun', hall⟩ := (h.emitAll (g := g) hr).elim
  unfold Compilation.emitNodes
  rw [hrun, hrun']
  cases f with
  | some f => exact ⟨hall, rfl⟩
  | none =>
    have hreserves := (run_follows hr hrun).reserves hroot
    obtain ⟨s, s', f, hemit, hemit', hlast⟩ := (hall.emitRoot (g := g) hreserves).elim
    dsimp only
    rw [hemit, hemit']
    cases f <;> exact ⟨hlast, rfl⟩

/-! ## The body -/

theorem rootValue (g : Graph) (root : Node) (i : Nat) :
    Agree Operand.SameType (c.rootValue g root i) (c'.rootValue g root i) := by
  unfold Compilation.rootValue
  rw [h.outputType]
  split
  · exact h.valueOf root none
  · exact h.operandNo g root i

theorem assignments (g : Graph) (root : Node) (name name' : String) (i : Nat)
    (fields : List Field) :
    (c'.assignments g root name' i fields).2 = (c.assignments g root name i fields).2 := by
  induction fields generalizing i with
  | nil => rfl
  | cons f rest ih =>
    rw [Compilation.assignments, Compilation.assignments]
    obtain ⟨e, hx, hx'⟩ | ⟨x, x', hx, hx', -⟩ := (h.rootValue g root i).elim
    · rw [hx, hx']
    · rw [hx, hx']
      exact ih (i + 1)

theorem outputVariable : c.outputVariable.1.Alike c'.outputVariable.1 := by
  have hsame : c'.outputType.name = c'.input.name ↔ c.outputType.name = c.input.name := by
    rw [h.outputType, h.input]
  unfold Compilation.outputVariable
  by_cases hname : c.outputType.name = c.input.name
  · rw [if_pos hname, if_pos (hsame.2 hname)]
    exact h
  · rw [if_neg hname, if_neg (mt hsame.1 hname)]
    exact h.withTable ⟨h.table.structs, h.table.functions, h.table.methods,
      h.table.resourceViews, h.table.samplers, h.table.operations⟩

theorem returning (g : Graph) (root : Node) :
    (c.returning g root).1.Alike (c'.returning g root).1 ∧
      (c'.returning g root).2.2 = (c.returning g root).2.2 := by
  unfold Compilation.returning
  rw [h.outputType]
  split
  · have hvariable := h.outputVariable
    cases hv : c.outputVariable with
    | mk d v =>
      cases hv' : c'.outputVariable with
      | mk d' v' =>
        rw [hv, hv'] at hvariable
        have hassign := hvariable.assignments g root v.1 v'.1 0 d.output.fields
        dsimp only
        rw [hvariable.output]
        cases hw : d.assignments g root v.1 0 d.output.fields with
        | mk written failure =>
          cases hw' : d'.assignments g root v'.1 0 d.output.fields with
          | mk written' failure' =>
            rw [hw, hw'] at hassign
            cases hassign
            cases failure <;> exact ⟨hvariable, rfl⟩
  · obtain ⟨e, hx, hx'⟩ | ⟨x, x', hx, hx', -⟩ := (h.rootValue g root 0).elim
    · rw [hx, hx']
      exact ⟨h, rfl⟩
    · rw [hx, hx']
      exact ⟨h, rfl⟩

end Alike

end Compilation

namespace Compiler

variable {ρ : Type} {k : Compiler ρ} (g : Graph) (root : String) (e : EntryPoint)

theorem alike_stage (inline inline' : Bool) :
    ((k.setInline inline).stage g e).Alike ((k.setInline inline').stage g e) :=
  ⟨rfl, rfl, rfl, rfl, rfl, rfl, rfl, rfl, rfl, rfl, rfl, rfl, rfl, rfl, rfl⟩

theorem together_build (h : ∀ hook ∈ k.before, hook.Proper) (inline inline' : Bool) :
    Compilation.Together (((k.setInline inline).start e).build g root e)
      (((k.setInline inline').start e).build g root e) := by
  have hstage := alike_stage (k := k) g e inline inline'
  unfold Compilation.build
  cases ht : ((k.setInline inline).start e).table.reserveMethods g.nodes with
  | mk t f =>
    have ht' : ((k.setInline inline').start e).table.reserveMethods g.nodes = (t, f) := ht
    rw [ht']
    cases f with
    | some f =>
      exact ⟨⟨rfl, rfl, rfl, rfl, rfl, rfl, rfl, rfl, rfl, rfl, rfl, rfl, rfl, rfl, rfl⟩, rfl⟩
    | none =>
      have hr := stage_reserves (k.setInline inline) g e h ⟨t, ht⟩
      unfold stage at hstage hr
      rw [ht] at hstage hr
      rw [ht'] at hstage
      dsimp only at hstage hr ⊢
      generalize ({ (k.setInline inline).start e with table := t } : Compilation).defineStage e = s
        at hstage hr ⊢
      generalize ({ (k.setInline inline').start e with
        table := t } : Compilation).defineStage e = s' at hstage ⊢
      cases hroot : g.node root with
      | error cause => exact ⟨hstage, rfl⟩
      | ok r =>
        cases horder : g.order with
        | error cause => exact ⟨hstage, rfl⟩
        | ok ns =>
          have hns : ∀ n ∈ ns, s.table.Reserves n := fun n hn => hr n (Graph.mem_of_order horder hn)
          exact hstage.emitNodes hns (hr r (Graph.mem_of_node? (Graph.node_eq_ok_iff.1 hroot)).1)

/-- Compilations that begin alike end alike, with bodies that fail for the same
    cause or not at all. -/
theorem alike_assemble (h : ∀ hook ∈ k.before, hook.Proper) (inline inline' : Bool) :
    Agree (fun r r' => r.1.Alike r'.1) ((k.setInline inline).assemble g root e)
      ((k.setInline inline').assemble g root e) := by
  obtain ⟨c, c', r, hb, hb', halike⟩ := (together_build g root e h inline inline').elim
  unfold assemble
  rw [hb, hb']
  cases r with
  | error f => exact .error f
  | ok r =>
    obtain ⟨hreturn, hfailure⟩ := halike.returning g r
    dsimp only [Compilation.body]
    rw [hfailure]
    cases (c.returning g r).2.2 with
    | some cause => exact .error _
    | none => exact .ok hreturn

theorem alike_generate (h : ∀ hook ∈ k.before, hook.Proper) (hafter : k.after = [])
    (inline inline' : Bool) :
    ((k.setInline inline).generate g root e).compiler.compilation.Alike
      ((k.setInline inline').generate g root e).compiler.compilation := by
  obtain ⟨c, c', r, hb, hb', halike⟩ := (together_build g root e h inline inline').elim
  rw [generate_compilation (k.setInline inline) g root e hafter,
    generate_compilation (k.setInline inline') g root e hafter, hb, hb']
  cases r with
  | error f => exact halike
  | ok r => exact (halike.returning g r).1

end Compiler

/-- **Inlining changes texts and nothing else**: a graph is refused for the same
    cause, or its shaders bind the same slots, and in either case the tables hold
    the same structs and functions, as many resources, and operations that
    differ in names and definitions only. -/
theorem inlining_changes_text_only {ρ : Type} (k : Compiler ρ)
    (hbefore : ∀ hook ∈ k.before, hook.Proper) (hafter : k.after = []) (g : Graph)
    (root : String) (e : EntryPoint) :
    Agree (fun s s' : Shader =>
        s'.textureSlots = s.textureSlots ∧ s'.samplerSlots = s.samplerSlots)
      ((k.setInline false).generate g root e).result
      ((k.setInline true).generate g root e).result ∧
    ((k.setInline false).generate g root e).compiler.compilation.table.Alike
      ((k.setInline true).generate g root e).compiler.compilation.table := by
  refine ⟨?_, (Compiler.alike_generate g root e hbefore hafter false true).table⟩
  rw [Compiler.generate_result (k.setInline false) g root e hafter,
    Compiler.generate_result (k.setInline true) g root e hafter]
  exact (Compiler.alike_assemble g root e hbefore false true).map fun r r' h =>
    ⟨h.textureSlots, h.samplerSlots⟩

/-- The sample, which binds one texture whether or not names stand for it. -/
theorem inlining_changes_text_only_halfRed :
    ∃ s s',
      (((Sample.compiler false []).setInline false).generate Sample.halfRed "out"
        Sample.pixel).result = .ok s ∧
      (((Sample.compiler false []).setInline true).generate Sample.halfRed "out"
        Sample.pixel).result = .ok s' ∧
      s.textureSlots.entries = [("tex", 0)] ∧ s'.textureSlots = s.textureSlots ∧
      s'.samplerSlots = s.samplerSlots ∧
      (((Sample.compiler false []).setInline false).generate Sample.halfRed "out"
          Sample.pixel).compiler.compilation.table.Alike
        (((Sample.compiler false []).setInline true).generate Sample.halfRed "out"
          Sample.pixel).compiler.compilation.table := by
  obtain ⟨hresults, htable⟩ := inlining_changes_text_only (Sample.compiler false [])
    (Sample.compiler_proper false []) rfl Sample.halfRed "out" Sample.pixel
  have hslots : (((Sample.compiler false []).setInline false).generate Sample.halfRed "out"
      Sample.pixel).result.map (fun s => s.textureSlots.entries) = .ok [("tex", 0)] := by
    decide +kernel
  obtain ⟨f, hf, -⟩ | ⟨s, s', hs, hs', htexture, hsampler⟩ := hresults.elim
  · rw [hf] at hslots
    cases hslots
  · rw [hs] at hslots
    exact ⟨s, s', hs, hs', Except.ok.inj hslots, htexture, hsampler, htable⟩

end Shading
