/-
  The calls in what is written.

  * `Expr.calls`, `Body.calls`: the calls in an expression and in a body.
  * `Operation.ownCalls`: the call that an operation is itself.  Its other calls
    are those of what its node reads (`Made.calls`).
  * `readCalls_eq`, `writtenCalls_eq`: the calls of an operation stand in its
    statement if it has one, and wherever it is read if it has none.
  * `Node.standsAlone`: whether there is a statement for a node, read off the
    graph (`Made.isSome_written?`).
  * `Composed`: all operations are made of what their nodes read, which every
    node keeps (`Composed.step`).
  * `Trace.tally`, `Trace.body_calls`: which calls the nodes of a compilation
    have, and which of them stand in the body.
-/
import Shading.Proofs.Acceptance
import Shading.Proofs.Inventory
import Shading.Proofs.Scope

namespace Shading

namespace Expr

mutual

/-- The calls in an expression, each before those in its arguments. -/
def calls : Expr → List Expr
  | literal _ | name _ => []
  | member e _ | group e | cast _ e | sample _ _ e => e.calls
  | binary _ left right => left.calls ++ right.calls
  | call function args => call function args :: callsAll args

/-- The calls in expressions. -/
def callsAll : List Expr → List Expr
  | [] => []
  | e :: rest => e.calls ++ callsAll rest

end

attribute [local simp] calls callsAll

theorem callsAll_eq (es : List Expr) : callsAll es = es.flatMap calls := by
  induction es with
  | nil => rfl
  | cons e rest ih =>
    show e.calls ++ callsAll rest = _
    rw [ih, List.flatMap_cons]

@[simp]
theorem calls_operand (e : Expr) : e.operand.calls = e.calls := by
  unfold operand
  split
  · rfl
  · rfl

@[simp]
theorem calls_castTo (type? : Option String) (e : Expr) : (e.castTo type?).calls = e.calls := by
  cases type? with
  | none => rfl
  | some type => rfl

end Expr

/-- The calls in a statement. -/
def Statement.calls (st : Statement) : List Expr :=
  (st.value?.map Expr.calls).getD []

/-- The calls in a body. -/
def Body.calls (b : Body) : List Expr :=
  b.statements.flatMap Statement.calls

namespace Operation

/-- The calls in what an operation stands for. -/
def calls (o : Operation) : List Expr :=
  match o.form with
  | .value _ _ e _ | .effect e | .synonym e _ => e.calls

/-- The call that an operation is itself, if it is one. -/
def ownCalls (o : Operation) : List Expr :=
  match o.definition? with
  | some (.call function args) => [.call function args]
  | _ => []

@[simp]
theorem bare_calls (o : Operation) : o.bare.calls = o.calls := rfl

@[simp]
theorem bare_ownCalls (o : Operation) : o.bare.ownCalls = o.ownCalls := rfl

end Operation

namespace Compilation

variable {c d : Compilation} {g : Graph} {n : Node} {em : Emission}

/-! ## Statements and readers -/

/-- The calls that stand wherever an operation is read. -/
def readCalls (c : Compilation) (o : Operation) : List Expr :=
  (if c.inline then o.expansion else o.reference).calls

/-- An operation without a statement has its calls wherever it is read. -/
theorem readCalls_eq (o : Operation) :
    c.readCalls o = if (c.written? o).isSome then [] else o.calls := by
  unfold readCalls written? isSubstituted
  cases hf : o.form with
  | value name type definition inlinable =>
    cases c.inline <;> cases hcan : o.canInline <;>
      simp [Operation.expansion, Operation.reference, Operation.written?, Operation.calls, hf, hcan,
        Expr.calls]
  | effect call =>
    have hcan : o.canInline = false := by simp [Operation.canInline, hf]
    cases c.inline <;>
      simp [Operation.expansion, Operation.reference, Operation.written?, hf, hcan, Expr.calls]
  | synonym target type =>
    cases c.inline <;>
      simp [Operation.expansion, Operation.reference, Operation.written?, Operation.calls, hf]

/-- An operation with a statement has its calls there. -/
theorem writtenCalls_eq (o : Operation) :
    (c.written? o).toList.flatMap Statement.calls =
      if (c.written? o).isSome then o.calls else [] := by
  unfold written?
  cases c.isSubstituted o with
  | true => rfl
  | false =>
    cases hf : o.form <;>
      simp [Operation.written?, Operation.calls, Statement.calls, Statement.value?, hf]

/-- What is read of an operation has the same calls, be it read as a whole or
    through a pin. -/
theorem calls_readAt {producer : Node} {o : Operation} {type : ValueType}
    (ht : o.type? = some type) (hs : producer.kind.isSplit = true → o.isSynonym = true)
    (pin : Option Pin) : (c.readAt producer o type pin).expr.calls = c.readCalls o := by
  rw [readAt_eq]
  cases hm : c.member? producer type pin with
  | none => rfl
  | some m =>
    have hcan := canInline_of_member? hm ht hs
    have hexpansion : o.expansion = o.reference := by
      cases hf : o.form <;> simp [Operation.expansion, hf, hcan]
    simp [readCalls, hexpansion, Expr.calls]

/-! ## What is made for a node -/

/-- **What is made for a node has the call that it is itself, and the calls of
    what the node reads.** -/
theorem Made.calls {xs : List Operand} (h : c.Made n xs em) {t : SymbolTable} {o : Operation}
    (ho : em.operation? t n = some o) :
    o.calls = o.ownCalls ++ xs.flatMap fun x => x.expr.calls := by
  have hargs : ∀ xs : List Operand,
      (xs.map (·.expr)).flatMap Expr.calls = xs.flatMap fun x => x.expr.calls := by
    intro xs
    rw [List.flatMap_map]
  cases h with
  | sample | operator | mask | split | constant =>
    cases ho
    simp [Operation.calls, Operation.ownCalls, Operation.definition?, Expr.calls]
  | call | voidCall | pack =>
    cases ho
    simp [Operation.calls, Operation.ownCalls, Operation.definition?, Expr.calls,
      Expr.callsAll_eq, hargs]
  | declaredCall hk =>
    rename_i function type source
    cases htype : c.typeOf? type <;> rw [htype] at ho <;> cases ho <;>
      simp [Operation.calls, Operation.ownCalls, Operation.definition?, Expr.calls,
        Expr.callsAll_eq, hargs]
  | convert =>
    cases ho
    simp [Operation.calls, Operation.ownCalls, Operation.definition?, Expr.calls,
      Expr.callsAll_eq]
  | input | output => cases ho

end Compilation

/-- Whether there is a statement for a node, and its name is read elsewhere.
    Otherwise what is made for it stands wherever it is read: splits always do,
    and where definitions stand in place of names, all values but structs. -/
def Node.standsAlone (r : TypeRegistry) (e : EntryPoint) (inline : Bool) (n : Node) : Bool :=
  !n.kind.isSplit && (!inline || (n.ownType? r e).all ValueType.isStruct)

namespace Compilation

variable {c d : Compilation} {n : Node} {em : Emission}

theorem isSome_written? {t : SymbolTable} {o : Operation} (ho : em.operation? t n = some o) :
    (d.written? o).isSome =
      (!o.isSynonym && (!d.inline || o.type?.all ValueType.isStruct)) := by
  unfold written? isSubstituted
  cases em with
  | nothing | stageInput => cases ho
  | effect | synonym =>
    cases ho
    simp [Operation.written?, Operation.canInline, Operation.isSynonym, Operation.type?]
  | sample =>
    cases ho
    cases d.inline <;> rfl
  | value fallback type =>
    cases ho
    cases d.inline <;> cases hs : type.isStruct <;>
      simp [Operation.written?, Operation.canInline, Operation.isSynonym, Operation.type?, hs]

/-- **Which nodes have statements.** -/
theorem Made.isSome_written? {e : EntryPoint} {xs : List Operand} (h : c.Made n xs em)
    (hstage : ∃ o, c.inputOperation? = some o ∧ o.type? = some (.struct e.input.name))
    {o : Operation} (ho : em.operation? c.table n = some o) :
    (c.written? o).isSome = n.standsAlone c.registry e c.inline := by
  rw [Compilation.isSome_written? ho, h.isSynonym_eq ho, Node.standsAlone]
  cases hout : n.kind.isOutput with
  | true => cases h <;> simp_all [NodeKind.isOutput, Emission.operation?, Emission.form?]
  | false =>
    obtain ⟨o', ho', -, htype⟩ := h.exists_bound hstage hout
    rw [Emission.bound?_of_operation? ho, Option.some.injEq] at ho'
    subst ho'
    rcases htype with ⟨-, htype⟩ | ⟨hsplit, -⟩
    · rw [htype]
    · simp [hsplit]

/-! ## What a node holds -/

/-- The call that the operation of a node is itself. -/
def ownCallsOf (c : Compilation) (id : String) : List Expr :=
  ((c.operation? id).map Operation.ownCalls).getD []

/-- The calls in what the operation of a node stands for. -/
def callsOf (c : Compilation) (id : String) : List Expr :=
  ((c.operation? id).map Operation.calls).getD []

/-- The calls that stand wherever the value of a node is read. -/
def heldCalls (c : Compilation) (id : String) : List Expr :=
  ((c.operation? id).map c.readCalls).getD []

/-- The calls in what a node reads at an input pin. -/
def slotCalls (c : Compilation) (g : Graph) (n : Node) (i : Nat) : List Expr :=
  ((g.linkInto? n i).map fun l => c.heldCalls l.source.node).getD []

theorem calls_valueOf {done : List Node} (ha : Aliased done d) {producer : Node}
    (hp : producer ∈ done) {pin : Option Pin} {x : Operand}
    (hx : d.valueOf producer pin = .ok x) : x.expr.calls = d.heldCalls producer.id := by
  obtain ⟨o, type, ho, ht, rfl⟩ := valueOf_eq_ok_iff.1 hx
  rw [calls_readAt ht (ha.isSynonym hp ho) pin, heldCalls, ho]
  rfl

theorem calls_operandNo {g : Graph} {done : List Node} (ha : Aliased done d)
    (hready : g.Ready done n) {i : Nat} {x : Operand} (hx : d.operandNo g n i = .ok x) :
    x.expr.calls = d.slotCalls g n i := by
  unfold slotCalls
  rcases operandNo_eq_ok_iff.1 hx with ⟨hl, rfl⟩ | ⟨l, producer, hl, hp, hvalue⟩
  · rw [hl]
    unfold unlinked
    cases n.inputs[i]? <;> rfl
  · obtain ⟨m, hm, hnode⟩ := hready i l hl
    cases hp.symm.trans hnode
    rw [hl, calls_valueOf ha hm hvalue, (Graph.mem_of_node? hp).2]
    rfl

theorem calls_operandsNo {g : Graph} {done : List Node} (ha : Aliased done d)
    (hready : g.Ready done n) {is : List Nat} {xs : List Operand}
    (hxs : List.Forall₂ (fun i x => d.operandNo g n i = .ok x) is xs) :
    (xs.flatMap fun x => x.expr.calls) = is.flatMap (d.slotCalls g n) := by
  induction hxs with
  | nil => rfl
  | cons hx _ ih => rw [List.flatMap_cons, List.flatMap_cons, ih, calls_operandNo ha hready hx]

/-- What the operation of a node is made of, and whether it has a statement. -/
structure Composition (e : EntryPoint) (g : Graph) (d : Compilation) (n : Node)
    (o : Operation) : Prop where
  written : (d.written? o).isSome = n.standsAlone d.registry e d.inline
  declared : ∀ function type source, n.kind = .declaredCall function type source →
    ∃ args, o.ownCalls = [.call function args]
  calls : ∃ xs, List.Forall₂ (fun i x => d.operandNo g n i = .ok x) (n.slots d.registry) xs ∧
    o.calls = o.ownCalls ++ xs.flatMap fun x => x.expr.calls

theorem Made.composition {e : EntryPoint} {g : Graph} {xs : List Operand} (h : d.Made n xs em)
    (hstage : ∃ o, d.inputOperation? = some o ∧ o.type? = some (.struct e.input.name))
    (hxs : List.Forall₂ (fun i x => d.operandNo g n i = .ok x) (n.slots d.registry) xs)
    {o : Operation} (ho : em.operation? d.table n = some o) : Composition e g d n o := by
  refine ⟨h.isSome_written? hstage ho, fun function type source hk => ?_, xs, hxs, h.calls ho⟩
  cases h with
  | declaredCall hk' =>
    cases hk.symm.trans hk'
    cases htype : d.typeOf? type <;> rw [htype] at ho <;> cases ho <;> exact ⟨_, rfl⟩
  | sample hk' | operator hk' | call hk' | voidCall hk' | convert hk' | mask hk' | pack hk'
  | split hk' | constant hk' | input hk' | output hk' => cases hk.symm.trans hk'

/-- A node that is emitted leaves the operations of others as they are. -/
theorem Composition.emitted {e : EntryPoint} {g : Graph} {m : Node} {o o' : Operation}
    (h : Composition e g d m o) {d' : Compilation} (hem : d.Emitted n em d')
    (hsource : ∀ i l, g.linkInto? m i = some l → l.source.node ≠ n.id)
    (hbare : o'.bare = o.bare) : Composition e g d' m o' := by
  have hown : o'.ownCalls = o.ownCalls := by simpa using congrArg Operation.ownCalls hbare
  have hcalls : o'.calls = o.calls := by simpa using congrArg Operation.calls hbare
  constructor
  case written =>
    have hsame : d.written? o'.bare = d.written? o.bare := congrArg d.written? hbare
    have hwritten : d'.written? o' = d.written? o := by
      unfold written? isSubstituted at hsame ⊢
      rw [hem.inline]
      exact hsame
    rw [hwritten, h.written, hem.registry, hem.inline]
  case declared =>
    rw [hown]
    exact h.declared
  case calls =>
    obtain ⟨xs, hxs, hmade⟩ := h.calls
    rw [hown, hcalls, hem.registry]
    exact ⟨xs, hxs.imp fun i x hx => hem.operandNo (hsource i) hx, hmade⟩

/-- The operations of the nodes `done` are made of what these read. -/
def Composed (e : EntryPoint) (g : Graph) (done : List Node) (d : Compilation) : Prop :=
  ∀ n ∈ done, n.kind.isOperation = true →
    ∃ o, d.operation? n.id = some o ∧ Composition e g d n o

/-- **A node keeps operations made of what nodes read.** -/
theorem Composed.step {e : EntryPoint} {g : Graph} {done : List Node} {d' : Compilation}
    (h : Composed e g done d)
    (hstage : ∃ o, d.inputOperation? = some o ∧ o.type? = some (.struct e.input.name))
    (hne : ∀ m ∈ done, m.id ≠ n.id)
    (hsource : ∀ m ∈ done ++ [n], ∀ i l, g.linkInto? m i = some l → l.source.node ≠ n.id)
    (hplan : d.plan g n = .ok em) (hem : d.Emitted n em d') : Composed e g (done ++ [n]) d' := by
  obtain ⟨xs, hxs, hmade⟩ := plan_eq_ok_iff.1 hplan
  intro m hm hop
  have hreads := hsource m hm
  rw [List.mem_append, List.mem_singleton] at hm
  rcases hm with hm | rfl
  · obtain ⟨o, ho, hcomposition⟩ := h m hm hop
    obtain ⟨o', ho', hbare⟩ := hem.operation?_ne (hne m hm) ho
    exact ⟨o', ho', hcomposition.emitted hem hreads hbare⟩
  · cases ho : em.operation? d.table m with
    | none =>
      rw [(hmade.operation?_eq_none d.table).1 ho] at hop
      cases hop
    | some o =>
      obtain ⟨o', ho', hbare⟩ := hem.operation?_self (Emission.bound?_of_operation? ho)
      exact ⟨o', ho', (hmade.composition hstage hxs ho).emitted hem hreads hbare⟩

/-! ## All nodes -/

/-- The calls of a node stand in its statement or wherever it is read; and they
    are its own and those of what it reads. -/
structure Tally (e : EntryPoint) (g : Graph) (d : Compilation) (n : Node) : Prop where
  held : d.heldCalls n.id = if n.standsAlone d.registry e d.inline then [] else d.callsOf n.id
  calls : d.callsOf n.id = d.ownCallsOf n.id ++ (n.slots d.registry).flatMap (d.slotCalls g n)

theorem Composition.tally {e : EntryPoint} {g : Graph} {o : Operation} {done : List Node}
    (h : Composition e g d n o) (ho : d.operation? n.id = some o) (ha : Aliased done d)
    (hready : g.Ready done n) : Tally e g d n := by
  obtain ⟨xs, hxs, hcalls⟩ := h.calls
  constructor
  · rw [heldCalls, callsOf, ho, ← h.written]
    exact readCalls_eq o
  · rw [callsOf, ownCallsOf, ho, ← calls_operandsNo ha hready hxs]
    exact hcalls

/-- A node that has no operation of its own has no calls. -/
theorem tally_of_no_calls {e : EntryPoint} {g : Graph} (hop : n.kind.isOperation = false)
    (h : ∀ o, d.operation? n.id = some o →
      o.calls = [] ∧ o.ownCalls = [] ∧ d.readCalls o = []) : Tally e g d n := by
  have hslots : n.slots d.registry = [] := by
    revert hop
    unfold Node.slots
    cases n.kind <;> simp [NodeKind.isOperation, NodeKind.isInput, NodeKind.isOutput]
  cases ho : d.operation? n.id with
  | none => constructor <;> simp [heldCalls, callsOf, ownCallsOf, ho, hslots]
  | some o => constructor <;> simp [heldCalls, callsOf, ownCallsOf, ho, hslots, h o ho]

end Compilation

theorem Compilation.assigned_calls (name : String) {fields : List Field} {xs : List Operand}
    (h : xs.length = fields.length) :
    (assigned name fields xs).flatMap Statement.calls = xs.flatMap fun x => x.expr.calls := by
  induction xs generalizing fields with
  | nil =>
    cases fields with
    | nil => rfl
    | cons => cases h
  | cons x xs ih =>
    cases fields with
    | nil => cases h
    | cons f fields =>
      have hrest := ih (Nat.succ.inj h)
      rw [assigned] at hrest ⊢
      rw [List.zipWith_cons_cons, List.flatMap_cons, List.flatMap_cons, hrest]
      rfl

theorem flatMap_eq_of_forall₂ {α β γ : Type} {R : α → β → Prop} {p : α → Bool}
    {f : α → List γ} {f' : β → List γ} {as : List α} {bs : List β}
    (h : List.Forall₂ R (as.filter p) bs) (hnot : ∀ a ∈ as, p a = false → f a = [])
    (hf : ∀ a ∈ as, p a = true → ∀ b, R a b → f a = f' b) : as.flatMap f = bs.flatMap f' := by
  induction as generalizing bs with
  | nil => cases h; rfl
  | cons a as ih =>
    rw [List.forall_mem_cons] at hnot hf
    rw [List.flatMap_cons]
    cases ha : p a with
    | false =>
      rw [List.filter_cons_of_neg (by simp [ha])] at h
      rw [hnot.1 ha, ih h hnot.2 hf.2, List.nil_append]
    | true =>
      rw [List.filter_cons_of_pos ha] at h
      obtain ⟨b, bs, hb, hbs, rfl⟩ := List.forall₂_cons_left_iff.1 h
      rw [hf.1 ha b hb, ih hbs hnot.2 hf.2, List.flatMap_cons]

namespace Compiler.Trace

open Compilation

variable {ρ : Type} {k : Compiler ρ} {g : Graph} {e : EntryPoint} {r : Node} {ns : List Node}
  {d : Compilation} {xs : List Operand} (h : k.Trace g e r ns d xs)
include h

theorem composed : Composed e g ns d := by
  refine (run_induct (motive := fun done d => (k.stage g e).Follows d ∧ Composed e g done d)
    h.reserves h.run ⟨Follows.refl _, by simp [Composed]⟩ ?_).2
  rintro done n rest d em d' hns ⟨hfollows, hd⟩ hplan hem
  obtain ⟨o, ho, hbare⟩ := hfollows.inputOperation? (k.stage_inputOperation? g e)
  have htype : o.bare.type? = (k.stageOperation g e).bare.type? := congrArg Operation.type? hbare
  exact ⟨hfollows.step hem, hd.step ⟨o, ho, htype⟩
    (fun m hm => h.schedule.id_ne h.distinctIds hns hm)
    (fun m hm i l hl => h.schedule.source_ne h.distinctIds hns hm hl) hplan hem⟩

/-- The stage input and the stage output have no calls. -/
theorem no_calls {n : Node} (hn : n ∈ ns) (hop : n.kind.isOperation = false) {o : Operation}
    (ho : d.operation? n.id = some o) : o.calls = [] ∧ o.ownCalls = [] ∧ d.readCalls o = [] := by
  cases hinput : n.kind.isInput with
  | true =>
    obtain ⟨o', ho', hbare⟩ := h.follows.inputOperation? (k.stage_inputOperation? g e)
    have hsame : d.operation? n.id = d.inputOperation? := by
      rw [operation?, inputOperation?, h.inventory.inputVar, h.inventory.stageInput n hn hinput]
    rw [← hsame, ho, Option.some.injEq] at ho'
    subst ho'
    have hform : o.bare.form = .synonym (.name (k.stageVariable g e)) (.struct e.input.name) := by
      rw [hbare]
      rfl
    change o.form = _ at hform
    simp [Operation.calls, Operation.ownCalls, Operation.definition?, readCalls,
      Operation.expansion, Operation.reference, hform, Expr.calls]
  | false =>
    -- nothing is bound to the stage output
    obtain ⟨i, hi, -⟩ := Option.bind_eq_some_iff.1 ho
    obtain ⟨m, hm, hid, hout⟩ := h.inventory.only n.id i hi
    rw [h.distinctIds.eq_of_id (h.mem_nodes hm) (h.mem_nodes hn) hid] at hout
    rw [NodeKind.isOperation, hinput, hout] at hop
    cases hop

/-- **What each node that is emitted is made of.** -/
theorem tally {n : Node} (hn : n ∈ ns) : Tally e g d n := by
  cases hop : n.kind.isOperation with
  | true =>
    obtain ⟨o, ho, hcomposition⟩ := h.composed n hn hop
    exact hcomposition.tally ho h.run_scoped.2 (h.schedule.ready_of_closed h.closed n)
  | false => exact tally_of_no_calls hop fun o ho => h.no_calls hn hop ho

/-- The calls in the statements of nodes. -/
theorem statements_calls :
    d.statements.flatMap Statement.calls =
      ns.flatMap fun n => if n.standsAlone d.registry e d.inline then d.callsOf n.id else [] := by
  obtain ⟨o, os, hops, -, -⟩ := List.map_eq_cons_iff.1 h.inventory.operations
  -- the stage input has no statement
  obtain ⟨rest, hprefix⟩ := h.follows.operations
  rw [stage_operations_of_nil h.noHooks h.reserved, hops] at hprefix
  have hstage : d.written? o.bare = none := by
    rw [← (List.cons.inj hprefix).1, written?]
    exact ite_self none
  rw [h.statements, hops, List.map_cons, List.filterMap_cons_none hstage,
    List.filterMap_eq_flatMap_toList, List.flatMap_assoc, List.flatMap_map]
  refine (flatMap_eq_of_forall₂ (h.forall₂_operations hops) ?_ ?_).symm
  · intro n hn hop
    have hcalls : d.callsOf n.id = [] := by
      cases ho : d.operation? n.id with
      | none => simp [callsOf, ho]
      | some o => simp [callsOf, ho, h.no_calls hn hop ho]
    rw [hcalls, ite_self]
  · rintro n hn hop o ⟨ho, -⟩
    obtain ⟨o', ho', hcomposition⟩ := h.composed n hn hop
    cases ho.symm.trans ho'
    have hbare : d.written? o.bare = d.written? o := rfl
    rw [hbare, writtenCalls_eq, hcomposition.written, callsOf, ho]
    rfl

/-- The calls in what the root returns. -/
theorem values_calls :
    (xs.flatMap fun x => x.expr.calls) =
      (Graph.rootSlots e r).flatMap (d.slotCalls g r) ++
        if !e.outputType.isStruct && !r.kind.isOutput then d.heldCalls r.id else [] := by
  have hvalues : List.Forall₂ (fun i x => d.rootValue g r i = .ok x)
      (List.range d.resultCount) xs := by
    refine List.forall₂_iff_get.2 ⟨by simp [h.length_values], fun i hi hi' => ?_⟩
    simpa using h.values i _ (List.getElem?_eq_getElem hi')
  have hready := h.schedule.ready_of_closed h.closed r
  unfold Graph.rootSlots
  unfold resultCount rootValue at hvalues
  rw [h.outputType, h.output] at hvalues
  cases hstruct : e.outputType.isStruct with
  | true =>
    simp only [hstruct, Bool.not_true, Bool.and_false, Bool.false_and, Bool.false_eq_true,
      if_true, if_false, List.append_nil] at hvalues ⊢
    exact calls_operandsNo h.run_scoped.2 hready hvalues
  | false =>
    cases hout : r.kind.isOutput with
    | true =>
      simp only [hstruct, hout, Bool.not_true, Bool.and_false, Bool.false_and, Bool.false_eq_true,
        if_true, if_false, List.append_nil] at hvalues ⊢
      exact calls_operandsNo h.run_scoped.2 hready hvalues
    | false =>
      simp only [hstruct, hout, Bool.not_false, Bool.and_true, Bool.false_eq_true, if_true,
        if_false, List.flatMap_nil, List.nil_append] at hvalues ⊢
      obtain ⟨x, _, hx, hnil, rfl⟩ := List.forall₂_cons_left_iff.1 hvalues
      cases hnil
      rw [List.flatMap_singleton]
      exact calls_valueOf h.run_scoped.2 (h.root_mem_schedule hout) hx

theorem closing_calls :
    (d.closing xs).flatMap Statement.calls = xs.flatMap fun x => x.expr.calls := by
  have hlen := h.length_values
  have hintroduction : d.outputVariable.2.2.flatMap Statement.calls = [] := by
    rw [introduction_eq]
    split <;> rfl
  have hresult : (Statement.result (.name d.outputName)).calls = [] := by
    simp [Statement.calls, Statement.value?, Expr.calls]
  unfold resultCount at hlen
  unfold closing
  split at hlen
  · rename_i hstruct
    rw [if_pos hstruct, List.flatMap_append, List.flatMap_append, hintroduction,
      assigned_calls _ hlen, List.flatMap_singleton, hresult, List.nil_append, List.append_nil]
  · rename_i hstruct
    rw [if_neg hstruct, List.flatMap_map]
    rfl

/-- **The calls in a body:** those of the nodes that stand alone, and those in
    what the root returns. -/
theorem body_calls {b : Body} (hb : b.statements = d.statements ++ d.closing xs) :
    b.calls =
      (ns.flatMap fun n => if n.standsAlone d.registry e d.inline then d.callsOf n.id else []) ++
        ((Graph.rootSlots e r).flatMap (d.slotCalls g r) ++
          if !e.outputType.isStruct && !r.kind.isOutput then d.heldCalls r.id else []) := by
  rw [Body.calls, hb, List.flatMap_append, h.statements_calls, h.closing_calls, h.values_calls]

end Compiler.Trace

end Shading
