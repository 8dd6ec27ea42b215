/-
  What the statements of a body refer to.

  * `Graph.Rooted`: a leaf is the stage input, a variable that is defined before,
    or a text that the author wrote.
  * `Compilation.Scoped`: what operations read is in scope where they stand,
    which every node keeps (`Scoped.step`).
  * `statements_scoped`: no statement of a compilation refers forward, or to a
    value whose definition stands in place of its name.
-/
import Shading.Proofs.Expressions
import Shading.Proofs.Statements

namespace Shading

/-! ## Statements in scope -/

namespace Graph

/-- A text that the author wrote, or zero where there is none. -/
def Authored (g : Graph) (text : String) : Prop :=
  text = "0" ∨ ∃ n ∈ g.nodes, (∃ p ∈ n.pins, p.default?.bind Text.content = some text) ∨
    ∃ last, n.kind = .convert last ∧ text = last.literal

/-- A leaf has a meaning after the statements `before`. -/
inductive Rooted (g : Graph) (input : String) (before : List Statement) : Leaf → Prop
  | input : Rooted g input before (.name input)
  | defined {type n value} : .define type n value ∈ before → Rooted g input before (.name n)
  | literal {text} : g.Authored text → Rooted g input before (.literal text)

/-- All that a statement refers to has a meaning after the statements
    `before`. -/
inductive InScope (g : Graph) (input : String) (before : List Statement) : Statement → Prop
  | define {type n value} : (∀ leaf ∈ value.leaves, g.Rooted input before leaf) →
      InScope g input before (.define type n value)
  | perform {e} : (∀ leaf ∈ e.leaves, g.Rooted input before leaf) →
      InScope g input before (.perform e)
  | introduce {type n} : InScope g input before (.introduce type n)
  | assign {n field value} : n = input ∨ (∃ type, .introduce type n ∈ before) →
      (∀ leaf ∈ value.leaves, g.Rooted input before leaf) →
      InScope g input before (.assign n field value)
  | result {value} : (∀ leaf ∈ value.leaves, g.Rooted input before leaf) →
      InScope g input before (.result value)
  /-- A struct is returned in the variable that is introduced for it. -/
  | returned {type n} : .introduce type n ∈ before → InScope g input before (.result (.name n))

end Graph

/-- The expression in a statement. -/
def Statement.value? : Statement → Option Expr
  | define _ _ value | perform value | assign _ _ value | result value => some value
  | introduce _ _ => none

/-! ## Operations in scope -/

/-- The leaves of what an operation reads. -/
def Operation.leaves (o : Operation) : List Leaf :=
  match o.form with
  | .value _ _ e _ | .effect e | .synonym e _ => e.leaves

theorem Operation.leaves_of_definition? (o : Operation) {e : Expr} (h : o.definition? = some e) :
    e.leaves = o.leaves := by
  cases hf : o.form <;> simp [definition?, hf] at h <;> simp [leaves, hf, h]

/-- The leaves of what an emission reads. -/
def Emission.leaves : Emission → List Leaf
  | .nothing | .stageInput _ => []
  | .sample coords => coords.expr.leaves
  | .value _ _ e _ | .effect e _ | .synonym e _ => e.leaves

namespace Compilation

variable {g : Graph} {input : String} {c d d' : Compilation} {n : Node}

/-- A leaf has a meaning after operations: it is not the name of one whose
    definition stands in its place. -/
inductive Visible (g : Graph) (input : String) (inline : Bool) (ops : List Operation) : Leaf → Prop
  | input : Visible g input inline ops (.name input)
  | own {o n} : o ∈ ops → o.ownName? = some n → (inline && o.canInline) = false →
      Visible g input inline ops (.name n)
  | literal {text} : g.Authored text → Visible g input inline ops (.literal text)

theorem Visible.mono {inline : Bool} {ops more : List Operation} {leaf : Leaf}
    (h : Visible g input inline ops leaf) (hsub : ∀ o ∈ ops, o ∈ more) :
    Visible g input inline more leaf := by
  cases h with
  | input => exact .input
  | own ho hn hi => exact .own (hsub _ ho) hn hi
  | literal ht => exact .literal ht

/-- What each operation reads is visible where it stands. -/
def Scoped (g : Graph) (input : String) (d : Compilation) : Prop :=
  ∀ before o after, d.table.operations.map Operation.bare = before ++ o :: after →
    ∀ leaf ∈ o.leaves, Visible g input d.inline before leaf

theorem Scoped.visible (h : Scoped g input d) {o : Operation} (ho : o ∈ d.table.operations)
    {leaf : Leaf} (hleaf : leaf ∈ o.leaves) :
    Visible g input d.inline (d.table.operations.map Operation.bare) leaf := by
  obtain ⟨before, after, hsplit⟩ :=
    List.append_of_mem (List.mem_map_of_mem (f := Operation.bare) ho)
  refine (h before o.bare after hsplit leaf hleaf).mono fun o' ho' => ?_
  rw [hsplit]
  exact List.mem_append_left _ ho'

/-- An operation that keeps its name may be referred to. -/
theorem Scoped.reference (h : Scoped g input d) {o : Operation} (ho : o ∈ d.table.operations)
    {type : ValueType} (ht : o.type? = some type) (hi : (d.inline && o.canInline) = false)
    {leaf : Leaf} (hleaf : leaf ∈ o.reference.leaves) :
    Visible g input d.inline (d.table.operations.map Operation.bare) leaf := by
  cases hf : o.form with
  | value name type definition inlinable =>
    simp only [Operation.reference, hf, Expr.leaves, List.mem_singleton] at hleaf
    rw [hleaf]
    exact .own (List.mem_map_of_mem ho) (by simp [Operation.ownName?, Operation.bare, hf]) hi
  | effect call => simp [Operation.type?, hf] at ht
  | synonym target type =>
    refine h.visible ho ?_
    simpa [Operation.reference, Operation.leaves, hf] using hleaf

/-- What is read of an operation is visible. -/
theorem Scoped.readAt (h : Scoped g input d) {producer : Node} {o : Operation}
    (ho : o ∈ d.table.operations) {type : ValueType} (ht : o.type? = some type)
    (hs : producer.kind.isSplit = true → o.isSynonym = true) (pin : Option Pin) {leaf : Leaf}
    (hleaf : leaf ∈ (d.readAt producer o type pin).expr.leaves) :
    Visible g input d.inline (d.table.operations.map Operation.bare) leaf := by
  rw [readAt_eq] at hleaf
  cases hm : d.member? producer type pin with
  | some m =>
    have hi := canInline_of_member? hm ht hs
    rw [hm] at hleaf
    simp only [Expr.leaves] at hleaf
    exact h.reference ho ht (by rw [hi, Bool.and_false]) hleaf
  | none =>
    rw [hm] at hleaf
    simp only [wholeValue] at hleaf
    cases hinline : d.inline with
    | false =>
      rw [hinline] at hleaf
      have := h.reference ho ht (by rw [hinline]; rfl) hleaf
      rwa [hinline] at this
    | true =>
      rw [hinline] at hleaf
      simp only [if_true] at hleaf
      cases hcan : o.canInline with
      | false =>
        have hexp : o.expansion = o.reference := by
          cases hf : o.form <;> simp [Operation.expansion, hf, hcan]
        have := h.reference ho ht (by rw [hcan, Bool.and_false]) (hexp ▸ hleaf)
        rwa [hinline] at this
      | true =>
        have hdef : o.expansion.leaves = o.leaves := by
          cases hf : o.form <;> simp [Operation.canInline, hf] at hcan
          simp [Operation.expansion, Operation.leaves, Operation.canInline, hf, hcan]
        have := h.visible ho (hdef ▸ hleaf)
        rwa [hinline] at this

theorem unlinked_leaves (hn : n ∈ g.nodes) (i : Nat) {leaf : Leaf}
    (hleaf : leaf ∈ (c.unlinked n i).expr.leaves) :
    ∃ text, leaf = .literal text ∧ g.Authored text := by
  unfold unlinked at hleaf
  cases hp : n.inputs[i]? with
  | none =>
    rw [hp] at hleaf
    exact ⟨"0", List.mem_singleton.1 hleaf, Or.inl rfl⟩
  | some p =>
    rw [hp] at hleaf
    refine ⟨_, List.mem_singleton.1 hleaf, ?_⟩
    cases hdefault : p.default?.bind Text.content with
    | none => exact Or.inl rfl
    | some text =>
      have hpin : p ∈ n.pins := List.mem_of_mem_filter (List.mem_of_getElem? hp)
      exact Or.inr ⟨n, hn, Or.inl ⟨p, hpin, hdefault⟩⟩

theorem Scoped.valueOf {done : List Node} (h : Scoped g input d) (ha : Aliased done d)
    {producer : Node} (hp : producer ∈ done) {pin : Option Pin} {x : Operand}
    (hx : d.valueOf producer pin = .ok x) {leaf : Leaf} (hleaf : leaf ∈ x.expr.leaves) :
    Visible g input d.inline (d.table.operations.map Operation.bare) leaf := by
  obtain ⟨o, type, ho, ht, rfl⟩ := valueOf_eq_ok_iff.1 hx
  obtain ⟨i, -, hget⟩ := Option.bind_eq_some_iff.1 ho
  exact h.readAt (List.mem_of_getElem? hget) ht (ha.isSynonym hp ho) pin hleaf

/-- What a node reads at an input pin is visible. -/
theorem Scoped.operandNo {done : List Node} (h : Scoped g input d) (ha : Aliased done d)
    (hready : g.Ready done n) (hn : n ∈ g.nodes) {i : Nat} {x : Operand}
    (hx : d.operandNo g n i = .ok x) {leaf : Leaf} (hleaf : leaf ∈ x.expr.leaves) :
    Visible g input d.inline (d.table.operations.map Operation.bare) leaf := by
  rcases operandNo_eq_ok_iff.1 hx with ⟨-, rfl⟩ | ⟨l, producer, hl, hp, hvalue⟩
  · obtain ⟨text, rfl, hauthored⟩ := unlinked_leaves hn i hleaf
    exact .literal hauthored
  · obtain ⟨m, hm, hnode⟩ := hready i l hl
    cases hp.symm.trans hnode
    exact h.valueOf ha hm hvalue hleaf

/-- What is made for a node reads what the node reads, and texts of its own. -/
theorem Made.leaves {xs : List Operand} {em : Emission} (h : c.Made n xs em) (hn : n ∈ g.nodes)
    {leaf : Leaf} (hleaf : leaf ∈ em.leaves) :
    (∃ x ∈ xs, leaf ∈ x.expr.leaves) ∨ ∃ text, leaf = .literal text ∧ g.Authored text := by
  have hargs : ∀ xs : List Operand, leaf ∈ Expr.leavesAll (xs.map (·.expr)) →
      ∃ x ∈ xs, leaf ∈ x.expr.leaves := by
    intro xs h
    obtain ⟨_, he, hmem⟩ := Expr.mem_leavesAll.1 h
    obtain ⟨x, hx, rfl⟩ := List.mem_map.1 he
    exact ⟨x, hx, hmem⟩
  cases h with
  | sample => exact Or.inl ⟨_, by simp, hleaf⟩
  | operator =>
    simp only [Emission.leaves, Expr.leaves, Expr.leaves_castTo, List.mem_append] at hleaf
    exact Or.inl (hleaf.elim (fun h => ⟨_, by simp, h⟩) fun h => ⟨_, by simp, h⟩)
  | call | voidCall =>
    simp only [Emission.leaves, Emission.ofCall, Expr.leaves] at hleaf
    exact Or.inl (hargs _ hleaf)
  | declaredCall hk =>
    rename_i function type source
    cases htype : c.typeOf? type <;>
      simp only [Emission.leaves, Emission.ofCall, htype, Expr.leaves] at hleaf <;>
      exact Or.inl (hargs _ hleaf)
  | convert hk =>
    rename_i last x
    simp only [Emission.leaves, Expr.leaves, Expr.leavesAll, List.append_nil, List.mem_append,
      List.mem_singleton] at hleaf
    rcases hleaf with hleaf | rfl
    · exact Or.inl ⟨x, by simp, hleaf⟩
    · exact Or.inr ⟨_, rfl, Or.inr ⟨n, hn, Or.inr ⟨last, hk, rfl⟩⟩⟩
  | mask =>
    simp only [Emission.leaves, Expr.leaves, Expr.leaves_operand] at hleaf
    exact Or.inl ⟨_, by simp, hleaf⟩
  | pack =>
    simp only [Emission.leaves, Expr.leaves] at hleaf
    exact Or.inl (hargs _ hleaf)
  | split =>
    simp only [Emission.leaves, Expr.leaves_operand] at hleaf
    exact Or.inl ⟨_, by simp, hleaf⟩
  | constant =>
    simp only [Emission.leaves, Expr.leaves, List.mem_singleton] at hleaf
    refine Or.inr ⟨_, hleaf, ?_⟩
    unfold constantText
    cases hdefault : (n.outputs.head?.bind (·.default?)).bind Text.content with
    | none => exact Or.inl rfl
    | some text =>
      cases hp : n.outputs.head? with
      | none => rw [hp] at hdefault; cases hdefault
      | some p =>
        rw [hp] at hdefault
        have hpin : p ∈ n.pins := List.mem_of_mem_filter (List.mem_of_head? hp)
        exact Or.inr ⟨n, hn, Or.inl ⟨p, hpin, hdefault⟩⟩
  | input | output => cases hleaf

theorem leaves_operation? {em : Emission} {t : SymbolTable} {o : Operation}
    (h : em.operation? t n = some o) : o.leaves = em.leaves := by
  cases em with
  | nothing | stageInput => cases h
  | sample => cases h; simp [Operation.leaves, Emission.leaves, Expr.leaves]
  | value | effect | synonym => cases h; rfl

/-- **A node keeps what is read in scope.** -/
theorem Scoped.step {done : List Node} (h : Scoped g input d) (ha : Aliased done d)
    (hready : g.Ready done n) (hn : n ∈ g.nodes) {em : Emission} (hplan : d.plan g n = .ok em)
    (hem : d.Emitted n em d') : Scoped g input d' := by
  obtain ⟨xs, hxs, hmade⟩ := plan_eq_ok_iff.1 hplan
  have hnew : ∀ leaf ∈ em.leaves,
      Visible g input d.inline (d.table.operations.map Operation.bare) leaf := by
    intro leaf hleaf
    rcases hmade.leaves hn hleaf with ⟨x, hx, hleaf⟩ | ⟨text, rfl, hauthored⟩
    · obtain ⟨i, hi⟩ := exists_operandNo_of_mem hxs hx
      exact h.operandNo ha hready hn hi hleaf
    · exact .literal hauthored
  intro before o after hsplit leaf hleaf
  rw [hem.operations] at hsplit
  rw [hem.inline]
  cases ho : em.operation? d.table n with
  | none =>
    rw [ho, Option.toList_none, List.append_nil] at hsplit
    exact h before o after hsplit leaf hleaf
  | some new =>
    rw [ho, Option.toList_some] at hsplit
    rcases eq_or_of_concat_eq hsplit with ⟨rfl, rfl⟩ | ⟨rest, hinit⟩
    · exact hnew leaf (leaves_operation? ho ▸ hleaf)
    · exact h before o rest hinit leaf hleaf

/-- What is read of the root is visible. -/
theorem Scoped.rootValue {done : List Node} {root : Node} (h : Scoped g input d)
    (ha : Aliased done d) (hready : g.Ready done root) (hn : root ∈ g.nodes)
    (hdone : root.kind.isOutput = false → root ∈ done) {i : Nat} {x : Operand}
    (hx : d.rootValue g root i = .ok x) {leaf : Leaf} (hleaf : leaf ∈ x.expr.leaves) :
    Visible g input d.inline (d.table.operations.map Operation.bare) leaf := by
  unfold Compilation.rootValue at hx
  split at hx
  · rename_i hout
    rw [Bool.and_eq_true, Bool.not_eq_true'] at hout
    exact h.valueOf ha (hdone hout.1) hx hleaf
  · exact h.operandNo ha hready hn hx hleaf

/-! ## From operations to statements -/

theorem Visible.rooted {ops : List Operation} {leaf : Leaf}
    (h : Visible g input d.inline ops leaf) : g.Rooted input (ops.filterMap d.written?) leaf := by
  cases h with
  | input => exact .input
  | literal ht => exact .literal ht
  | own ho hn hi =>
    rename_i o name
    cases hf : o.form with
    | value n type definition inlinable =>
      simp only [Operation.ownName?, hf, Option.some.injEq] at hn
      subst hn
      have hwritten : d.written? o = some (.define type n definition) := by
        simp [written?, isSubstituted, hi, Operation.written?, hf]
      exact .defined (List.mem_filterMap.2 ⟨o, ho, hwritten⟩)
    | effect call => simp [Operation.ownName?, hf] at hn
    | synonym target type => simp [Operation.ownName?, hf] at hn

theorem rooted_mono {before more : List Statement} {leaf : Leaf} (h : g.Rooted input before leaf)
    (hsub : ∀ st ∈ before, st ∈ more) : g.Rooted input more leaf := by
  cases h with
  | input => exact .input
  | defined hmem => exact .defined (hsub _ hmem)
  | literal ht => exact .literal ht

/-- The statements of operations are in scope. -/
theorem Scoped.inScope (h : Scoped g input d) {before after : List Statement} {st : Statement}
    (hsplit : (d.table.operations.map Operation.bare).filterMap d.written? =
      before ++ st :: after) : g.InScope input before st := by
  obtain ⟨l₁, o, l₂, hops, ho, rfl⟩ := exists_of_filterMap_eq hsplit
  have hleaves : ∀ leaf ∈ o.leaves, g.Rooted input (l₁.filterMap d.written?) leaf :=
    fun leaf hleaf => (h l₁ o l₂ hops leaf hleaf).rooted
  cases (written?_eq_some_iff.1 ho).2 with
  | define hf =>
    exact .define fun leaf hleaf => hleaves leaf (by rw [Operation.leaves, hf]; exact hleaf)
  | perform hf =>
    exact .perform fun leaf hleaf => hleaves leaf (by rw [Operation.leaves, hf]; exact hleaf)

/-- The variable in which a struct is returned is the stage input, or introduced
    before all that uses it. -/
theorem outputName_in_scope {before after : List Statement} {xs : List Operand} {st : Statement}
    (hstruct : d.outputType.isStruct = true) (hsplit : d.closing xs = before ++ st :: after) :
    st = .introduce d.outputType d.outputName ∨ d.outputName = d.inputName ∨
      .introduce d.outputType d.outputName ∈ before := by
  rw [closing, if_pos hstruct, introduction_eq] at hsplit
  split at hsplit
  · rename_i hname
    exact Or.inr (Or.inl (by rw [outputName_eq, if_pos hname]))
  · rw [List.append_assoc, List.singleton_append] at hsplit
    cases before with
    | nil => exact Or.inl (List.cons.inj hsplit).1.symm
    | cons s rest => exact Or.inr (Or.inr (by rw [(List.cons.inj hsplit).1]; simp))

/-- The statements that return the stage output are in scope after others in
    which the values of the root are. -/
theorem closing_inScope {stmts before after : List Statement} {xs : List Operand} {st : Statement}
    (hinput : d.inputName = input)
    (hxs : ∀ x ∈ xs, ∀ leaf ∈ x.expr.leaves, g.Rooted input stmts leaf)
    (hsplit : d.closing xs = before ++ st :: after) : g.InScope input (stmts ++ before) st := by
  have hrooted : ∀ x ∈ xs, ∀ leaf ∈ x.expr.leaves, g.Rooted input (stmts ++ before) leaf :=
    fun x hx leaf hleaf => rooted_mono (hxs x hx leaf hleaf) fun s hs => List.mem_append_left _ hs
  have hmem : st ∈ d.closing xs := by rw [hsplit]; simp
  cases mem_closing_cases hmem with
  | introduce => exact .introduce
  | value hx => exact .result (hrooted _ hx)
  | assign hstruct _ hx =>
    refine .assign ?_ (hrooted _ hx)
    rcases outputName_in_scope hstruct hsplit with h | h | h
    · cases h
    · exact Or.inl (h.trans hinput)
    · exact Or.inr ⟨_, List.mem_append_right _ h⟩
  | struct hstruct =>
    rcases outputName_in_scope hstruct hsplit with h | h | h
    · cases h
    · refine .result fun leaf hleaf => ?_
      rw [Expr.leaves, List.mem_singleton] at hleaf
      rw [hleaf, h, hinput]
      exact .input
    · exact .returned (List.mem_append_right _ h)

theorem define_not_mem_closing {type : ValueType} {name : String} {value : Expr}
    {xs : List Operand} : .define type name value ∉ d.closing xs := by
  intro h
  cases isClosing_of_mem_closing h

end Compilation

/-! ## The whole body -/

namespace Compiler

open Compilation

variable {ρ : Type} {k : Compiler ρ} {g : Graph} {e : EntryPoint}

theorem scoped_stage (h : k.before = [])
    (hr : ∃ t, (k.start e).table.reserveMethods g.nodes = (t, none)) :
    Scoped g (k.stageVariable g e) (k.stage g e) := by
  intro before o after hsplit leaf hleaf
  rw [stage_operations_of_nil h hr] at hsplit
  obtain ⟨rfl, rfl⟩ : before = [] ∧ k.stageOperation g e = o := by
    rcases List.cons_eq_append_iff.1 hsplit with ⟨rfl, ho⟩ | ⟨_, -, hnil⟩
    · exact ⟨rfl, (List.cons.inj ho).1.symm⟩
    · cases (List.nil_eq_append_iff.1 hnil).2
  rw [List.mem_singleton.1 hleaf]
  exact .input

namespace Trace

variable {r : Node} {ns : List Node} {d : Compilation} {xs : List Operand}
  (h : k.Trace g e r ns d xs)
include h

theorem run_scoped : Scoped g (k.stageVariable g e) d ∧ Aliased ns d := by
  refine run_induct (motive := fun done d => Scoped g (k.stageVariable g e) d ∧ Aliased done d)
    h.reserves h.run ⟨scoped_stage h.noHooks h.reserved, fun n hn => nomatch hn⟩ ?_
  rintro done n rest d em d' hsplit ⟨hscoped, haliased⟩ hplan hem
  have hn : n ∈ g.nodes := h.mem_nodes (by rw [hsplit]; simp)
  exact ⟨hscoped.step haliased (h.schedule.ready h.distinctIds hsplit) hn hplan hem,
    haliased.step (fun m hm => h.schedule.id_ne h.distinctIds hsplit hm) hplan hem⟩

/-- What is read of the root is visible after all operations. -/
theorem visible_value {x : Operand} (hx : x ∈ xs) {leaf : Leaf} (hleaf : leaf ∈ x.expr.leaves) :
    Visible g (k.stageVariable g e) d.inline (d.table.operations.map Operation.bare) leaf := by
  obtain ⟨hscoped, haliased⟩ := h.run_scoped
  obtain ⟨i, hi⟩ := List.getElem?_of_mem hx
  exact hscoped.rootValue haliased (h.schedule.ready_of_closed h.closed r) h.root_mem
    h.root_mem_schedule (h.values i x hi) hleaf

/-- Every statement of the body is in scope. -/
theorem inScope {before after : List Statement} {st : Statement}
    (hsplit : d.statements ++ d.closing xs = before ++ st :: after) :
    g.InScope (k.stageVariable g e) before st := by
  have hclose : ∀ (before after : List Statement) (st : Statement),
      d.closing xs = before ++ st :: after →
      g.InScope (k.stageVariable g e) (d.statements ++ before) st := by
    intro before after st hclosing
    refine closing_inScope h.inputName (fun x hx leaf hleaf => ?_) hclosing
    rw [h.statements]
    exact (h.visible_value hx hleaf).rooted
  rcases List.append_eq_append_iff.1 hsplit with ⟨rest, rfl, hclosing⟩ | ⟨rest, hstmts, hrest⟩
  · exact hclose rest after st hclosing
  · cases rest with
    | nil =>
      rw [List.append_nil] at hstmts
      rw [← hstmts, ← List.append_nil d.statements]
      exact hclose [] after st hrest.symm
    | cons st' rest =>
      cases (List.cons.inj hrest).1
      rw [h.statements] at hstmts
      exact h.run_scoped.1.inScope hstmts

theorem ownName_ne_input {o : Operation} (ho : o ∈ d.table.operations.map Operation.bare)
    {name : String} (hname : o.ownName? = some name) :
    name ≠ k.stageVariable g e ∧ d.table.taken name = true :=
  ownName_ne_stageVariable h.noHooks h.reserved h.follows h.coined ho hname

theorem ownNames_nodup :
    ((d.table.operations.map Operation.bare).filterMap Operation.ownName?).Nodup := by
  have hnodup := h.coined.nodup
  rw [coined_stage h.noHooks h.reserved h.follows] at hnodup
  exact (List.nodup_append.1 (List.nodup_append.1 hnodup).1).1

/-- A value whose definition stands in place of its name is not defined. -/
theorem substituted_not_defined {o : Operation} (ho : o ∈ d.table.operations)
    (hsub : d.isSubstituted o = true) {b : Body}
    (hb : b.statements = d.statements ++ d.closing xs) (type : ValueType) (value : Expr) :
    .define type o.name value ∉ b.statements := by
  intro hmem
  rw [hb, List.mem_append, h.statements] at hmem
  rcases hmem with hmem | hmem
  · -- it would be defined by an operation of the same name, which is the same
    obtain ⟨o', ho', hwritten⟩ := List.mem_filterMap.1 hmem
    obtain ⟨hnot, hwritten⟩ := written?_eq_some_iff.1 hwritten
    have hown' : o'.ownName? = some o.name := by
      cases hwritten with
      | define hf => rw [Operation.ownName?, hf]
    have hown : o.bare.ownName? = some o.name :=
      o.ownName?_of_canInline (Bool.and_eq_true_iff.1 hsub).2
    rw [← eq_of_ownName? h.ownNames_nodup (List.mem_map_of_mem ho) ho' hown hown'] at hnot
    exact Bool.false_ne_true (hnot.symm.trans hsub)
  · exact define_not_mem_closing hmem

/-- No statement of the body names a value whose definition stands in place of
    its name. -/
theorem substituted_not_mem {o : Operation} (ho : o ∈ d.table.operations)
    (hsub : d.isSubstituted o = true) {b : Body}
    (hb : b.statements = d.statements ++ d.closing xs) {st : Statement} (hst : st ∈ b.statements)
    {value : Expr} (hvalue : st.value? = some value) : .name o.name ∉ value.leaves := by
  intro hleaf
  have hown := o.ownName?_of_canInline (Bool.and_eq_true_iff.1 hsub).2
  obtain ⟨hne, htaken⟩ := h.ownName_ne_input (List.mem_map_of_mem ho) hown
  obtain ⟨before, after, hsplit⟩ := List.append_of_mem hst
  have hearlier : ∀ st' ∈ before, st' ∈ b.statements := fun st' hst' => by
    rw [hsplit]; exact List.mem_append_left _ hst'
  have hrooted : ¬ g.Rooted (k.stageVariable g e) before (.name o.name) := by
    intro hroot
    generalize hl : Leaf.name o.name = leaf at hroot
    cases hroot with
    | input => exact hne (Leaf.name.inj hl)
    | literal => cases hl
    | defined hdef =>
      cases hl
      exact h.substituted_not_defined ho hsub hb _ _ (hearlier _ hdef)
  cases h.inScope (hb ▸ hsplit) with
  | define hl | perform hl | assign _ hl | result hl =>
    cases hvalue
    exact hrooted (hl _ hleaf)
  | introduce => cases hvalue
  | returned hintro =>
    cases hvalue
    rw [Expr.leaves, List.mem_singleton] at hleaf
    have hmem : o.name ∈ b.introduced :=
      List.mem_filterMap.2 ⟨_, hearlier _ hintro, congrArg some (Leaf.name.inj hleaf).symm⟩
    rw [(introduced_fresh hb).2 _ hmem |>.2] at htaken
    cases htaken

end Trace

end Compiler

/-- **No statement refers forward or to nothing.**  Where ids are distinct, what
    a statement of the body refers to is the stage input, a variable defined
    before it, or a text of the author; and no statement names a value whose
    definition stands in place of its name.  The statements are the lines of the
    body, which stands after the header. -/
theorem statements_scoped {ρ : Type} (k : Compiler ρ) (hbefore : k.before = [])
    (hafter : k.after = []) (g : Graph) (hids : g.DistinctIds) (root : String) (e : EntryPoint)
    {s : Shader} (h : (k.generate g root e).result = .ok s) :
    ∃ c b, k.assemble g root e = .ok (c, b) ∧ s = Compiler.shader c b ∧
      s.source = (c.table.header .empty).text ++ b.text ∧
      (∀ before st after, b.statements = before ++ st :: after →
        g.InScope c.inputName before st) ∧
      ∀ o ∈ c.table.operations, c.isSubstituted o = true →
        ∀ st ∈ b.statements, ∀ value, st.value? = some value → .name o.name ∉ value.leaves := by
  obtain ⟨c, b, hok, rfl⟩ := (k.generate_eq_ok_iff g root e hafter).1 h
  obtain ⟨r, ns, d, xs, -, -, htrace, hstatements, rfl⟩ := Compiler.exists_trace hbefore hids hok
  have hinput : d.closed.inputName = k.stageVariable g e :=
    (Compilation.inputName_closed d).trans htrace.inputName
  refine ⟨d.closed, b, hok, rfl, Compiler.source_of_assemble hok,
    fun before st after hsplit => ?_, fun o ho hsub st hst value => ?_⟩
  · rw [hinput]
    exact htrace.inScope (hstatements ▸ hsplit)
  · rw [Compilation.isSubstituted_closed] at hsub
    exact htrace.substituted_not_mem (d.operations_closed ▸ ho) hsub hstatements hst

/-- The sample with definitions in place of names, among them that of `x`. -/
theorem statements_scoped_halfRed :
    ∃ c b, (Sample.compiler true []).assemble Sample.halfRed "out" Sample.pixel = .ok (c, b) ∧
      (∀ before st after, b.statements = before ++ st :: after →
        Sample.halfRed.InScope c.inputName before st) ∧
      ∃ o ∈ c.table.operations, o.name = "x" ∧
        ∀ st ∈ b.statements, ∀ value, st.value? = some value → .name o.name ∉ value.leaves := by
  obtain ⟨s, hs⟩ := Sample.exists_ok (r := ((Sample.compiler true []).generate
    Sample.halfRed "out" Sample.pixel).result) (by decide +kernel)
  obtain ⟨c, b, hok, -, -, hscope, hnames⟩ := statements_scoped (Sample.compiler true []) rfl rfl
    Sample.halfRed Sample.halfRed_distinctIds "out" Sample.pixel hs
  have hx : ((Sample.compiler true []).assemble Sample.halfRed "out" Sample.pixel).map
      (fun r => r.1.table.operations.any fun o => o.name == "x" && r.1.isSubstituted o) =
      .ok true := by decide +kernel
  rw [hok] at hx
  obtain ⟨o, ho, hxo⟩ := List.any_eq_true.1 (Except.ok.inj hx)
  rw [Bool.and_eq_true, beq_iff_eq] at hxo
  exact ⟨c, b, hok, hscope, o, ho, hxo.1, hnames o ho hxo.2⟩

end Shading
