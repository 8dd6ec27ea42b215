/-
  The statements of operations.

  * `Operation.Writable`: an operation that has something to write, if it is to
    be written at all.  A run adds only such operations (`writable_run`).
  * `statements_eq`: the statements of a compilation, one for each operation that
    has one.
  * `assemble_emitted`: how a body comes about, from the stage to the values of
    the root.  `Compiler.Passage`: the same without hooks (`exists_passage`);
    `Compiler.Trace`: the same where ids are distinct (`exists_trace`).
  * `Aliased`: the nodes that split vectors are bound to synonyms, which every
    node keeps (`Aliased.step`).
-/
import Shading.Proofs.Body
import Shading.Proofs.Header
import Shading.Proofs.Naming
import Shading.Proofs.Schedule

namespace Shading

namespace Operation

/-- The statement of an operation; a synonym has none. -/
def written? (o : Operation) : Option Statement :=
  match o.form with
  | .value name type definition _ => some (.define type name definition)
  | .effect call => some (.perform call)
  | .synonym .. => none

/-- What the statement of an operation is: the definition of a value, or an
    expression for its effect. -/
inductive Written (o : Operation) : Statement → Prop
  | define {name type definition inlinable} :
      o.form = .value name type definition inlinable → Written o (.define type name definition)
  | perform {call} : o.form = .effect call → Written o (.perform call)

theorem written?_eq_some_iff {o : Operation} {st : Statement} :
    o.written? = some st ↔ o.Written st := by
  constructor
  · intro h
    unfold written? at h
    split at h
    · rename_i hf
      cases h
      exact .define hf
    · rename_i hf
      cases h
      exact .perform hf
    · cases h
  · rintro (hf | hf) <;> rw [written?, hf]

/-- What is to be written of an operation is not empty. -/
def Writable (o : Operation) : Prop :=
  match o.form with
  | .value name _ definition _ => name ≠ "" ∧ definition.render ≠ ""
  | .effect call => call.render ≠ ""
  | .synonym .. => True

/-- Whether an operation is only another way to read an expression. -/
def isSynonym (o : Operation) : Bool :=
  match o.form with
  | .synonym .. => true
  | _ => false

theorem statement?_eq {o : Operation} (h : o.Writable) : o.statement? = o.written? := by
  obtain ⟨node, form, refs, consumers⟩ := o
  cases form with
  | value name type definition inlinable =>
    simp only [Writable] at h
    simp [statement?, written?, emits, definitionText, definition?, h]
  | effect call =>
    simp only [Writable] at h
    simp [statement?, written?, emits, definitionText, definition?, h]
  | synonym target type => simp [statement?, written?]

theorem isEmpty_definitionText {o : Operation} (h : o.Writable) :
    o.definitionText.isEmpty = o.isSynonym := by
  obtain ⟨node, form, refs, consumers⟩ := o
  cases form with
  | value name type definition inlinable =>
    simp only [Writable] at h
    simp [definitionText, definition?, isSynonym, h.2]
  | effect call =>
    simp only [Writable] at h
    simp [definitionText, definition?, isSynonym, h]
  | synonym target type => rfl

end Operation

/-! ## What is written is not empty -/

theorem Text.content_ne_empty {s t : String} (h : Text.content s = some t) : t ≠ "" := by
  unfold Text.content at h
  dsimp only at h
  split at h
  · cases h
  · rename_i hne
    cases h
    simpa using hne

namespace Expr

variable (e : Expr) (es : List Expr)

theorem render_member_ne (field : String) : (member e field).render ≠ "" := by
  simp [render]

theorem render_binary_ne (op : String) (right : Expr) : (binary op e right).render ≠ "" := by
  simp [render]

theorem render_call_ne (function : String) : (call function es).render ≠ "" := by
  simp [render]

theorem render_sample_ne (texture sampler : String) : (sample texture sampler e).render ≠ "" := by
  simp [render]

end Expr

namespace Compilation

variable {c c' d d' : Compilation} {g : Graph} {n : Node} {em : Emission}

theorem constantText_ne (n : Node) : constantText n ≠ "" := by
  unfold constantText
  cases h : (n.outputs.head?.bind (·.default?)).bind Text.content with
  | none => decide
  | some t =>
    obtain ⟨s, -, hs⟩ := Option.bind_eq_some_iff.1 h
    exact Text.content_ne_empty hs

/-- The definition of a value that is made for a node is not empty. -/
theorem Made.writable {xs : List Operand} (h : c.Made n xs em) {t : SymbolTable} {o : Operation}
    (ho : em.operation? t n = some o) : o.Writable := by
  have hname : ∀ (t : SymbolTable) (name fallback : String),
      t.freshName (Text.baseName name fallback) ≠ "" := fun t name fallback =>
    Text.ne_empty_of_isIdent (t.isIdent_freshName (Text.isIdent_baseName name fallback))
  cases h with
  | sample => cases ho; exact ⟨hname _ _ _, Expr.render_sample_ne _ _ _⟩
  | operator => cases ho; exact ⟨hname _ _ _, Expr.render_binary_ne _ _ _⟩
  | call => cases ho; exact ⟨hname _ _ _, Expr.render_call_ne _ _⟩
  | voidCall => cases ho; exact Expr.render_call_ne _ _
  | declaredCall hk =>
    rename_i function type source
    cases htype : c.typeOf? type with
    | none => rw [htype] at ho; cases ho; exact Expr.render_call_ne _ _
    | some => rw [htype] at ho; cases ho; exact ⟨hname _ _ _, Expr.render_call_ne _ _⟩
  | convert => cases ho; exact ⟨hname _ _ _, Expr.render_call_ne _ _⟩
  | mask => cases ho; exact ⟨hname _ _ _, Expr.render_member_ne _ _⟩
  | pack => cases ho; exact ⟨hname _ _ _, Expr.render_call_ne _ _⟩
  | split => cases ho; trivial
  | constant => cases ho; exact ⟨hname _ _ _, constantText_ne n⟩
  | input => cases ho
  | output => cases ho

/-- A run adds only operations that can be written. -/
theorem writable_run {ns : List Node} (hr : ∀ n ∈ ns, c.table.Reserves n)
    (h : emitAll g c ns = (c', none)) :
    ∃ added, c'.table.operations.map Operation.bare =
      c.table.operations.map Operation.bare ++ added ∧ ∀ o ∈ added, o.Writable := by
  refine run_induct (motive := fun _ d => ∃ added, d.table.operations.map Operation.bare =
    c.table.operations.map Operation.bare ++ added ∧ ∀ o ∈ added, o.Writable) hr h
    ⟨[], by simp, by simp⟩ ?_
  rintro done n rest d em d' - ⟨added, hadded, hwritable⟩ hplan hem
  obtain ⟨xs, -, hmade⟩ := plan_eq_ok_iff.1 hplan
  refine ⟨added ++ (em.operation? d.table n).toList, ?_, fun o ho => ?_⟩
  · rw [hem.operations, hadded, List.append_assoc]
  · rw [List.mem_append, Option.mem_toList] at ho
    exact ho.elim (hwritable o) hmade.writable

/-- The statement of an operation, unless its definition stands in its place. -/
def written? (d : Compilation) (o : Operation) : Option Statement :=
  if d.isSubstituted o then none else o.written?

theorem written?_eq_some_iff {o : Operation} {st : Statement} :
    d.written? o = some st ↔ d.isSubstituted o = false ∧ o.Written st := by
  rw [written?, ← Operation.written?_eq_some_iff]
  cases d.isSubstituted o <;> simp

/-- The statements of a compilation, one for each operation that has one. -/
theorem statements_eq (h : ∀ o ∈ c.table.operations.map Operation.bare, o.Writable) :
    c.statements = (c.table.operations.map Operation.bare).filterMap c.written? := by
  unfold statements
  rw [List.filterMap_filter, List.filterMap_map]
  refine List.filterMap_congr fun o ho => ?_
  have hw : o.Writable := h o.bare (List.mem_map.2 ⟨o, ho, rfl⟩)
  have hsub : c.isSubstituted o.bare = c.isSubstituted o := rfl
  have hwritten : o.bare.written? = o.written? := rfl
  rw [Function.comp_apply, written?, hsub, hwritten, Operation.statement?_eq hw]
  cases c.isSubstituted o <;> rfl

/-! ## Splits -/

/-- Nodes that split vectors are bound to synonyms. -/
def Aliased (done : List Node) (d : Compilation) : Prop :=
  ∀ n ∈ done, n.kind.isSplit = true → ∃ o, d.operation? n.id = some o ∧ o.isSynonym = true

/-- The operations of splits are synonyms, and those of no other nodes. -/
theorem Made.isSynonym_eq {xs : List Operand} (h : c.Made n xs em) {t : SymbolTable}
    {o : Operation} (ho : em.operation? t n = some o) : o.isSynonym = n.kind.isSplit := by
  cases h with
  | sample hk | operator hk | call hk | voidCall hk | convert hk | mask hk | pack hk | split hk
  | constant hk => rw [hk]; cases ho; rfl
  | declaredCall hk =>
    rename_i function type source
    rw [hk]
    cases htype : c.typeOf? type <;> rw [htype] at ho <;> cases ho <;> rfl
  | input | output => cases ho

theorem Made.isSynonym_bound? {xs : List Operand} (h : c.Made n xs em)
    (hs : n.kind.isSplit = true) (t : SymbolTable) :
    ∃ o, em.bound? t n = some o ∧ o.isSynonym = true := by
  cases h with
  | split => exact ⟨_, rfl, rfl⟩
  | sample hk | operator hk | call hk | voidCall hk | declaredCall hk | convert hk | mask hk
  | pack hk | constant hk | input hk | output hk => rw [hk] at hs; cases hs

theorem Aliased.isSynonym {done : List Node} (h : Aliased done d) {producer : Node}
    (hp : producer ∈ done) {o : Operation} (ho : d.operation? producer.id = some o)
    (hs : producer.kind.isSplit = true) : o.isSynonym = true := by
  obtain ⟨o', ho', hsyn⟩ := h producer hp hs
  rw [ho] at ho'
  exact Option.some.inj ho' ▸ hsyn

/-- Members are selected of synonyms and of structs, which keep their names. -/
theorem canInline_of_member? {producer : Node} {o : Operation} {type : ValueType}
    {pin : Option Pin} {m : String × ValueType} (hm : d.member? producer type pin = some m)
    (ht : o.type? = some type) (hs : producer.kind.isSplit = true → o.isSynonym = true) :
    o.canInline = false := by
  rcases isSplit_or_isStruct_of_member? hm with hsplit | hstruct
  · have hsyn := hs hsplit
    cases hf : o.form <;> simp [Operation.isSynonym, Operation.canInline, hf] at hsyn ⊢
  · cases hf : o.form <;> simp [Operation.type?, Operation.canInline, hf] at ht ⊢
    rw [ht, hstruct]
    exact fun _ => rfl

theorem isSynonym_of_bare {o o' : Operation} (h : o'.bare = o.bare) :
    o'.isSynonym = o.isSynonym := by
  have hbare : ∀ o : Operation, o.bare.isSynonym = o.isSynonym := fun _ => rfl
  rw [← hbare o', h, hbare]

theorem Aliased.step {done : List Node} (h : Aliased done d) (hne : ∀ m ∈ done, m.id ≠ n.id)
    (hplan : d.plan g n = .ok em) (hem : d.Emitted n em d') : Aliased (done ++ [n]) d' := by
  obtain ⟨xs, -, hmade⟩ := plan_eq_ok_iff.1 hplan
  intro m hm hs
  rw [List.mem_append, List.mem_singleton] at hm
  rcases hm with hm | rfl
  · obtain ⟨o, ho, hsyn⟩ := h m hm hs
    obtain ⟨o', ho', hbare⟩ := hem.operation?_ne (hne m hm) ho
    exact ⟨o', ho', (isSynonym_of_bare hbare).trans hsyn⟩
  · obtain ⟨o, ho, hsyn⟩ := hmade.isSynonym_bound? hs d.table
    obtain ⟨o', ho', hbare⟩ := hem.operation?_self ho
    exact ⟨o', ho', (isSynonym_of_bare hbare).trans hsyn⟩

end Compilation

/-! ## Any graph -/

/-- The nodes that are emitted where `ns` are the linked ones in their order:
    these, and then the root, unless it has nothing to emit or a node of its id
    is emitted already. -/
def Graph.emitted (r : Node) (ns : List Node) : List Node :=
  ns ++ if r.kind.isOutput || ns.any (fun n => n.id == r.id && !n.kind.isOutput) then [] else [r]

namespace Compiler

open Compilation

variable {ρ : Type} {k : Compiler ρ} {g : Graph} {root : String} {e : EntryPoint}

/-- How a body comes about without hooks, also where ids are repeated: the nodes
    `ns` are emitted, which ends in the compilation `d`, and the values `xs` of
    the root are returned. -/
structure Passage (k : Compiler ρ) (g : Graph) (e : EntryPoint) (r : Node) (ns : List Node)
    (d : Compilation) (xs : List Operand) : Prop where
  noHooks : k.before = []
  reserved : ∃ t, (k.start e).table.reserveMethods g.nodes = (t, none)
  mem_nodes : ∀ n ∈ ns, n ∈ g.nodes
  run : emitAll g (k.stage g e) ns = (d, none)
  length_values : xs.length = d.resultCount
  values : d.RootValues g r 0 xs

/-- **How a body comes about:** the linked nodes are emitted in their order, then
    the root if it has to be, and the values of the root are returned. -/
theorem assemble_emitted (h : ∀ hook ∈ k.before, hook.Proper) {c : Compilation} {b : Body}
    (hok : k.assemble g root e = .ok (c, b)) :
    (∃ t, (k.start e).table.reserveMethods g.nodes = (t, none)) ∧
      ∃ r ns d xs, g.node? root = some r ∧ g.order = .ok ns ∧
        (∀ n ∈ Graph.emitted r ns, n ∈ g.nodes) ∧
        emitAll g (k.stage g e) (Graph.emitted r ns) = (d, none) ∧
        xs.length = d.resultCount ∧ d.RootValues g r 0 xs ∧
        b.signature = d.signature e.name k.options.semantic ∧
        b.statements = d.statements ++ d.closing xs ∧ c = d.closed := by
  obtain ⟨hreserve, r, ns, d, d', hroot, horder, hrun, hemit, hbody, hfail⟩ :=
    (k.assemble_eq_ok_iff g root e).1 hok
  obtain ⟨xs, hlen, hxs, hstatements, hc⟩ := body_ok hbody hfail
  have hsignature : b.signature = d'.signature e.name k.options.semantic := by
    cases hbody
    rfl
  rw [Graph.node_eq_ok_iff] at hroot
  have hns : ∀ n ∈ ns, n ∈ g.nodes := fun n hn => Graph.mem_of_order horder hn
  have hreserves := k.stage_reserves g e h hreserve
  -- no node is bound when the stage is set up
  have hbound := isBound_run (fun n hn => hreserves n (hns n hn)) hrun r.id
  have hstage : (k.stage g e).isBound r.id = false := rfl
  rw [hstage, Bool.false_or] at hbound
  rw [emitRoot_eq_none_iff, hbound] at hemit
  refine ⟨hreserve, r, ns, d', xs, hroot, horder, fun n hn => ?_, ?_, hlen, hxs, hsignature,
    hstatements, hc⟩
  · rcases List.mem_append.1 hn with hn | hn
    · exact hns n hn
    · split at hn
      · cases hn
      · rw [List.mem_singleton.1 hn]
        exact (Graph.mem_of_node? hroot).1
  · rw [Graph.emitted, emitAll_append, hrun]
    exact hemit

/-- The text of a shader is a header and then that of the body. -/
theorem source_of_assemble {c : Compilation} {b : Body} (hok : k.assemble g root e = .ok (c, b)) :
    (shader c b).source = (c.table.header .empty).text ++ b.text := by
  obtain ⟨-, -, -, -, -, -, -, -, hfail⟩ := k.assemble_root g root e hok
  exact sourceText_body c.table b hfail

theorem exists_passage (h : k.before = []) {c : Compilation} {b : Body}
    (hok : k.assemble g root e = .ok (c, b)) :
    ∃ r ns d xs, g.node? root = some r ∧ g.order = .ok ns ∧
      k.Passage g e r (Graph.emitted r ns) d xs ∧ b.statements = d.statements ++ d.closing xs ∧
      c = d.closed := by
  obtain ⟨hreserve, r, ns, d, xs, hroot, horder, hmem, hrun, hlen, hxs, -, hstatements, hc⟩ :=
    assemble_emitted (k.proper_of_nil h) hok
  exact ⟨r, ns, d, xs, hroot, horder, ⟨h, hreserve, hmem, hrun, hlen, hxs⟩, hstatements, hc⟩

namespace Passage

variable {r : Node} {ns : List Node} {d : Compilation} {xs : List Operand}
  (h : k.Passage g e r ns d xs)
include h

theorem reserves : ∀ n ∈ ns, (k.stage g e).table.Reserves n := fun n hn =>
  k.stage_reserves g e (k.proper_of_nil h.noHooks) h.reserved n (h.mem_nodes n hn)

theorem follows : (k.stage g e).Follows d := run_follows h.reserves h.run

theorem coined : SymbolTable.Coined (k.stage g e).table d.table :=
  SymbolTable.coined_run h.reserves h.run

theorem inline : d.inline = k.options.inline := h.follows.inline.trans (k.stage_inline g e)

theorem statements :
    d.statements = (d.table.operations.map Operation.bare).filterMap d.written? := by
  obtain ⟨added, hadded, hwritable⟩ := writable_run h.reserves h.run
  rw [stage_operations_of_nil h.noHooks h.reserved] at hadded
  refine statements_eq fun o ho => ?_
  rw [hadded] at ho
  rcases List.mem_cons.1 ho with rfl | ho
  · trivial
  · exact hwritable o ho

end Passage

end Compiler

/-! ## Traces -/

namespace Compiler

open Compilation

variable {ρ : Type} {k : Compiler ρ} {g : Graph} {root : String} {e : EntryPoint}

/-- How a body comes about without hooks: the nodes `ns` are emitted, which ends
    in the compilation `d`, and the values `xs` of the root are returned. -/
structure Trace (k : Compiler ρ) (g : Graph) (e : EntryPoint) (r : Node) (ns : List Node)
    (d : Compilation) (xs : List Operand) : Prop where
  noHooks : k.before = []
  distinctIds : g.DistinctIds
  reserved : ∃ t, (k.start e).table.reserveMethods g.nodes = (t, none)
  closed : g.Closed
  root_mem : r ∈ g.nodes
  schedule : g.IsSchedule r ns
  run : emitAll g (k.stage g e) ns = (d, none)
  length_values : xs.length = d.resultCount
  values : d.RootValues g r 0 xs

theorem exists_trace (h : k.before = []) (hids : g.DistinctIds) {c : Compilation} {b : Body}
    (hok : k.assemble g root e = .ok (c, b)) :
    ∃ r ns d xs, g.node? root = some r ∧ g.order = .ok ns ∧
      k.Trace g e r (g.schedule r ns) d xs ∧ b.statements = d.statements ++ d.closing xs ∧
      c = d.closed := by
  obtain ⟨hreserve, r, ns, d, hroot, horder, hrun, hbody, hfail⟩ :=
    (k.assemble_eq_ok_iff_schedule g root e (k.proper_of_nil h) hids).1 hok
  obtain ⟨xs, hlen, hxs, hstatements, hc⟩ := body_ok hbody hfail
  have hmem := (Graph.mem_of_node? hroot).1
  exact ⟨r, ns, d, xs, hroot, horder,
    ⟨h, hids, hreserve, ((Graph.order_isOk_iff g).1 ⟨ns, horder⟩).1, hmem,
      (Graph.order_isOrder hids horder).schedule hmem, hrun, hlen, hxs⟩, hstatements, hc⟩

namespace Trace

variable {r : Node} {ns : List Node} {d : Compilation} {xs : List Operand}
  (h : k.Trace g e r ns d xs)
include h

theorem mem_nodes {n : Node} (hn : n ∈ ns) : n ∈ g.nodes := ((h.schedule.mem_iff n).1 hn).1

theorem passage : k.Passage g e r ns d xs :=
  ⟨h.noHooks, h.reserved, fun _ => h.mem_nodes, h.run, h.length_values, h.values⟩

theorem reserves : ∀ n ∈ ns, (k.stage g e).table.Reserves n := h.passage.reserves

theorem follows : (k.stage g e).Follows d := h.passage.follows

theorem coined : SymbolTable.Coined (k.stage g e).table d.table := h.passage.coined

theorem inline : d.inline = k.options.inline := h.passage.inline

theorem input : d.input = e.input := h.follows.input.trans (k.stage_input g e)

theorem output : d.output = e.output := h.follows.output.trans (k.stage_output g e)

theorem outputType : d.outputType = e.outputType :=
  h.follows.outputType.trans (k.stage_outputType g e)

theorem inputName : d.inputName = k.stageVariable g e :=
  h.follows.inputName (k.stage_inputOperation? g e)

theorem root_mem_schedule (hout : r.kind.isOutput = false) : r ∈ ns :=
  (h.schedule.mem_iff r).2 ⟨h.root_mem, Or.inr ⟨rfl, hout⟩⟩

theorem statements :
    d.statements = (d.table.operations.map Operation.bare).filterMap d.written? :=
  h.passage.statements

end Trace

end Compiler

end Shading
