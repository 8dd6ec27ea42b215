/-
  The struct that an entry point returns.

  * `Compilation.Known`: all names that the operations mention are taken, which
    every node keeps (`Known.step`).  So a variable with a name that is not taken
    is read by nothing.
  * `returned_fields_faithful_iff`: the fields of the struct are assigned what
    the root has for them, and that is the value before the assignments exactly
    if these are undisturbed.  Only where the struct is returned in the variable
    of the stage input may they not be (`swapped_fields_disturbed`).
-/
import Shading.Proofs.Meaning
import Shading.Proofs.Scope

namespace Shading

/-! ## Names that are mentioned -/

namespace Operation

/-- What is read of an operation has its name or what it reads itself. -/
theorem mentions_reference {o : Operation} {type : ValueType} (ht : o.type? = some type)
    {name : String} (h : .name name ∈ o.reference.leaves) :
    o.ownName? = some name ∨ .name name ∈ o.leaves := by
  cases hf : o.form with
  | value own type definition inlinable =>
    simp only [reference, hf, Expr.leaves, List.mem_singleton, Leaf.name.injEq] at h
    exact Or.inl (by rw [ownName?, hf, h])
  | effect call => simp [type?, hf] at ht
  | synonym target type =>
    simp only [reference, hf] at h
    exact Or.inr (by rw [leaves, hf]; exact h)

theorem mentions_expansion {o : Operation} {type : ValueType} (ht : o.type? = some type)
    {name : String} (h : .name name ∈ o.expansion.leaves) :
    o.ownName? = some name ∨ .name name ∈ o.leaves := by
  cases hcan : o.canInline with
  | true =>
    cases hf : o.form <;> simp [canInline, hf] at hcan
    simp [expansion, canInline, hf, hcan] at h
    exact Or.inr (by rw [leaves, hf]; exact h)
  | false =>
    have hexp : o.expansion = o.reference := by
      cases hf : o.form <;> simp [expansion, hf, hcan]
    exact mentions_reference ht (hexp ▸ h)

end Operation

namespace Compilation

variable {g : Graph} {c d d' : Compilation} {n : Node} {em : Emission}

/-- All names that operations mention are taken. -/
def Known (d : Compilation) : Prop :=
  ∀ o ∈ d.table.operations.map Operation.bare, ∀ name,
    o.ownName? = some name ∨ .name name ∈ o.leaves → d.table.taken name = true

theorem Known.valueOf (h : d.Known) {producer : Node} {pin : Option Pin} {x : Operand}
    (hx : d.valueOf producer pin = .ok x) {name : String} (hname : .name name ∈ x.expr.leaves) :
    d.table.taken name = true := by
  obtain ⟨o, type, ho, ht, rfl⟩ := valueOf_eq_ok_iff.1 hx
  obtain ⟨i, -, hget⟩ := Option.bind_eq_some_iff.1 ho
  refine h o.bare (List.mem_map_of_mem (List.mem_of_getElem? hget)) name ?_
  rw [readAt_eq] at hname
  cases hm : d.member? producer type pin with
  | some m =>
    rw [hm] at hname
    simp only [Expr.leaves] at hname
    exact Operation.mentions_reference ht hname
  | none =>
    rw [hm] at hname
    simp only [wholeValue] at hname
    split at hname
    · exact Operation.mentions_expansion ht hname
    · exact Operation.mentions_reference ht hname

theorem Known.operandNo (h : d.Known) (hn : n ∈ g.nodes) {i : Nat} {x : Operand}
    (hx : d.operandNo g n i = .ok x) {name : String} (hname : .name name ∈ x.expr.leaves) :
    d.table.taken name = true := by
  rcases operandNo_eq_ok_iff.1 hx with ⟨-, rfl⟩ | ⟨l, producer, -, -, hvalue⟩
  · obtain ⟨text, htext, -⟩ := unlinked_leaves hn i hname
    cases htext
  · exact h.valueOf hvalue hname

theorem Known.rootValue (h : d.Known) {root : Node} (hroot : root ∈ g.nodes) {i : Nat}
    {x : Operand} (hx : d.rootValue g root i = .ok x) {name : String}
    (hname : .name name ∈ x.expr.leaves) : d.table.taken name = true := by
  unfold Compilation.rootValue at hx
  split at hx
  · exact h.valueOf hx hname
  · exact h.operandNo hroot hx hname

/-- **A node keeps all names known.** -/
theorem Known.step (h : d.Known) (hn : n ∈ g.nodes) (hplan : d.plan g n = .ok em)
    (hem : d.Emitted n em d') : d'.Known := by
  obtain ⟨xs, hxs, hmade⟩ := plan_eq_ok_iff.1 hplan
  intro o ho name hname
  rw [hem.operations, List.mem_append, Option.mem_toList] at ho
  rcases ho with ho | ho
  · exact hem.taken (Or.inl (h o ho name hname))
  · rcases hname with hown | hleaf
    · refine hem.taken (Or.inr (List.mem_append_left _ ?_))
      rw [ho, Option.bind_some, hown]
      simp
    · rw [leaves_operation? ho] at hleaf
      rcases hmade.leaves hn hleaf with ⟨x, hx, hleaf⟩ | ⟨text, htext, -⟩
      · obtain ⟨i, hi⟩ := exists_operandNo_of_mem hxs hx
        exact hem.taken (Or.inl (h.operandNo hn hi hleaf))
      · cases htext

theorem known_run {ns : List Node} (hr : ∀ n ∈ ns, c.table.Reserves n)
    (hns : ∀ n ∈ ns, n ∈ g.nodes) (h : emitAll g c ns = (d, none)) (hc : c.Known) : d.Known := by
  refine run_induct (motive := fun _ d => d.Known) hr h hc ?_
  intro done n rest d em d' hsplit hd hplan hem
  exact hd.step (hns n (by rw [hsplit]; simp)) hplan hem

end Compilation

/-! ## What is written -/

/-- The variable to which a statement gives a value. -/
def Statement.target? : Statement → Option String
  | define _ n _ | assign n .. => some n
  | perform _ | introduce .. | result _ => none

theorem Operation.ownName?_of_target? {o : Operation} {st : Statement} {name : String}
    (h : o.statement? = some st) (hname : st.target? = some name) : o.ownName? = some name := by
  unfold statement? at h
  split at h
  · cases h
  · unfold ownName?
    cases hf : o.form with
    | value own type definition inlinable =>
      simp only [hf, Option.some.injEq] at h
      subst h
      split at hname
      · cases hname
      · exact hname
    | effect call =>
      simp only [hf, Option.some.injEq] at h
      subst h
      cases hname
    | synonym target type => simp [hf] at h

namespace Compilation

variable {d : Compilation} {st : Statement}

/-- Statements give values to the names of operations only. -/
theorem exists_ownName?_of_target? (hst : st ∈ d.statements) {name : String}
    (hname : st.target? = some name) :
    ∃ o ∈ d.table.operations.map Operation.bare, o.ownName? = some name := by
  obtain ⟨o, ho, hwritten⟩ := List.mem_filterMap.1 hst
  have hown := Operation.ownName?_of_target? hwritten hname
  exact ⟨o.bare, List.mem_map_of_mem (List.mem_filter.1 ho).1, hown⟩

theorem target?_introduction (hst : st ∈ d.outputVariable.2.2) : st.target? = none := by
  rw [introduction_eq] at hst
  split at hst
  · cases hst
  · rw [List.mem_singleton.1 hst]
    rfl

/-- A variable of its own for the struct has a name that is not taken. -/
theorem taken_outputName (h : d.outputType.name ≠ d.input.name) :
    d.table.taken d.outputName = false := by
  rw [outputName_eq, if_neg h]
  exact d.table.freshName_not_taken _

end Compilation

/-- Statements leave a variable as it is to which they give no value. -/
theorem Meaning.run_of_target? {V : Type} (M : Meaning V) (σ : String → V) {n : String}
    {sts : List Statement} (h : ∀ st ∈ sts, st.target? ≠ some n) : M.run σ sts n = σ n := by
  induction sts generalizing σ with
  | nil => rfl
  | cons st rest ih =>
    have hst : st.target? ≠ some n := h st (by simp)
    refine (ih (M.exec σ st) fun st hst => h st (List.mem_cons_of_mem _ hst)).trans ?_
    cases st with
    | define type n' value =>
      exact Function.update_of_ne (fun heq => hst (congrArg some heq.symm)) _ _
    | assign n' field value =>
      exact Function.update_of_ne (fun heq => hst (congrArg some heq.symm)) _ _
    | perform | introduce | result => rfl

/-- The values for the fields of a struct, with the names of the fields. -/
def fieldValues : List Field → List Operand → List (String × Expr) :=
  List.zipWith fun f x => (f.name, x.expr)

theorem writes_fieldValues (v : String) (fields : List Field) (xs : List Operand) :
    writes v (fieldValues fields xs) = Compilation.assigned v fields xs := by
  unfold writes fieldValues Compilation.assigned
  rw [List.map_zipWith]

theorem getElem?_fieldValues {fields : List Field} {xs : List Operand} {i : Nat}
    {w : String × Expr} (h : (fieldValues fields xs)[i]? = some w) :
    ∃ x, xs[i]? = some x ∧ w.2 = x.expr := by
  obtain ⟨f, x, -, hx, rfl⟩ := List.getElem?_zipWith_eq_some.1 h
  exact ⟨x, hx, rfl⟩

theorem map_fst_fieldValues {fields : List Field} {xs : List Operand}
    (h : xs.length = fields.length) :
    (fieldValues fields xs).map Prod.fst = fields.map Field.name := by
  induction fields generalizing xs with
  | nil => rfl
  | cons f rest ih =>
    cases xs with
    | nil => cases h
    | cons x xs => exact congrArg (f.name :: ·) (ih (Nat.succ.inj h))

theorem EntryPoint.outputType_name {e : EntryPoint} (h : e.outputType.isStruct = true) :
    e.outputType.name = e.output.name := by
  unfold EntryPoint.outputType at h ⊢
  split at h
  · rename_i f _ _
    split at h
    · rename_i hsimple
      cases htype : f.type <;>
        simp [htype, ValueType.isScalar, ValueType.isVector, ValueType.bare,
          ValueType.isStruct] at hsimple h
    · rename_i hsimple
      rw [if_neg hsimple]
      rfl
  · rfl

/-- How a body returns a struct: the statements `before` leave the stage input
    as it is, then the values of the root are assigned to the fields of the
    variable `v`, which is that of the stage input if the structs have one
    name. -/
structure Compiler.ReturnsFields (g : Graph) (e : EntryPoint) (r : Node) (c : Compilation)
    (b : Body) (before : List Statement) (v : String) (ws : List (String × Expr)) : Prop where
  statements : b.statements = before ++ writes v ws ++ [.result (.name v)]
  fields : ws.map Prod.fst = e.output.fields.map Field.name
  values : ∀ i w, ws[i]? = some w → ∃ x, c.rootValue g r i = .ok x ∧ w.2 = x.expr
  shared : v = c.inputName ↔ e.output.name = e.input.name
  input : ∀ (V : Type) (M : Meaning V) (σ : String → V),
    M.run σ before c.inputName = σ c.inputName

theorem writes_injective {v : String} {ws ws' : List (String × Expr)}
    (h : writes v ws = writes v ws') : ws = ws' := by
  refine List.map_injective_iff.2 ?_ h
  rintro ⟨f, e⟩ ⟨f', e'⟩ hassign
  cases hassign
  rfl

/-- The statements of a body leave no choice of what it assigns. -/
theorem Compiler.ReturnsFields.eq_of_statements {g : Graph} {e : EntryPoint} {r : Node}
    {c : Compilation} {b : Body} {before before' : List Statement} {v v' : String}
    {ws ws' : List (String × Expr)} (h : Compiler.ReturnsFields g e r c b before v ws)
    (hb : b.statements = before' ++ writes v' ws' ++ [.result (.name v')])
    (hlen : ws'.length = e.output.fields.length) : before = before' ∧ v = v' ∧ ws = ws' := by
  have hws : ws.length = ws'.length := by
    rw [hlen, ← List.length_map Prod.fst, h.fields, List.length_map]
  have hlast := h.statements.symm.trans hb
  obtain ⟨hfront, hresult⟩ := List.append_inj' hlast rfl
  cases hresult
  obtain ⟨hbefore, hwrites⟩ := List.append_inj' hfront (by simp [writes, hws])
  exact ⟨hbefore, rfl, writes_injective hwrites⟩

/-! ## A whole compilation -/

namespace Compiler

open Compilation

variable {ρ : Type} {k : Compiler ρ} {g : Graph} {root : String} {e : EntryPoint}
  {c : Compilation} {b : Body}

theorem known_stage (h : k.before = [])
    (hr : ∃ t, (k.start e).table.reserveMethods g.nodes = (t, none)) :
    (k.stage g e).Known := by
  intro o ho name hname
  rw [stage_operations_of_nil h hr, List.map_cons, List.map_nil, List.mem_singleton] at ho
  subst ho
  rcases hname with hown | hleaf
  · cases hown
  · have hvariable : name = k.stageVariable g e := by
      simpa [Operation.leaves, Operation.bare, stageOperation, Expr.leaves] using hleaf
    exact k.taken_stage g e (k.proper_of_nil h) hr name (Or.inr (Or.inr (Or.inl hvariable)))

theorem exists_returnsFields (h : k.before = []) (hstruct : e.outputType.isStruct = true)
    (hok : k.assemble g root e = .ok (c, b)) :
    ∃ r before v ws, g.node? root = some r ∧ ReturnsFields g e r c b before v ws ∧
      (e.output.name ≠ e.input.name → ∀ w ∈ ws, .name v ∉ w.2.leaves) := by
  obtain ⟨hreserve, r, ns, d, hroot, hmem, hrun, hbody, hfail⟩ := k.assemble_root g root e hok
  obtain ⟨xs, hlen, hxs, hstatements, rfl⟩ := body_ok hbody hfail
  have hr : ∀ n ∈ ns, (k.stage g e).table.Reserves n := fun n hn =>
    k.stage_reserves g e (k.proper_of_nil h) hreserve n (hmem n hn)
  have hfollows := run_follows hr hrun
  have hcoined := SymbolTable.coined_run hr hrun
  have hknown := known_run hr hmem hrun (known_stage h hreserve)
  have houtput : d.output = e.output := hfollows.output.trans (k.stage_output g e)
  have hinput : d.input = e.input := hfollows.input.trans (k.stage_input g e)
  have htype : d.outputType = e.outputType := hfollows.outputType.trans (k.stage_outputType g e)
  have hinputName : d.inputName = k.stageVariable g e :=
    hfollows.inputName (k.stage_inputOperation? g e)
  have hname : d.outputType.name = d.input.name ↔ e.output.name = e.input.name := by
    rw [htype, EntryPoint.outputType_name hstruct, hinput]
  rw [← htype] at hstruct
  rw [resultCount, if_pos hstruct] at hlen
  have hfresh : e.output.name ≠ e.input.name → d.table.taken d.outputName = false :=
    fun hne => taken_outputName (mt hname.1 hne)
  have htaken : d.table.taken d.inputName = true := by
    rw [hinputName]
    exact hcoined.kept _ (k.taken_stage g e (k.proper_of_nil h) hreserve _
      (Or.inr (Or.inr (Or.inl rfl))))
  refine ⟨r, d.statements ++ d.outputVariable.2.2, d.outputName, fieldValues d.output.fields xs,
    hroot, ?_, ?_⟩
  · constructor
    case statements =>
      rw [hstatements, closing, if_pos hstruct, writes_fieldValues]
      simp only [List.append_assoc]
    case fields => rw [map_fst_fieldValues hlen, houtput]
    case values =>
      intro i w hw
      obtain ⟨x, hx, hvalue⟩ := getElem?_fieldValues hw
      obtain ⟨identifiers, hclosed⟩ := d.closed_eq
      have hroot := hxs i x hx
      rw [Nat.zero_add] at hroot
      exact ⟨x, by rw [hclosed]; exact hroot, hvalue⟩
    case shared =>
      rw [inputName_closed]
      constructor
      · intro heq
        by_contra hne
        rw [heq, htaken] at hfresh
        cases hfresh hne
      · intro heq
        rw [outputName_eq, if_pos (hname.2 heq)]
    case input =>
      intro V M σ
      refine M.run_of_target? σ fun st hst htarget => ?_
      rw [inputName_closed, hinputName] at htarget
      rcases List.mem_append.1 hst with hst | hst
      · obtain ⟨o, ho, hown⟩ := exists_ownName?_of_target? hst htarget
        exact (ownName_ne_stageVariable h hreserve hfollows hcoined ho hown).1 rfl
      · rw [target?_introduction hst] at htarget
        cases htarget
  · intro hne w hw hleaf
    obtain ⟨i, hi⟩ := List.getElem?_of_mem hw
    obtain ⟨x, hx, hvalue⟩ := getElem?_fieldValues hi
    have hknow := hknown.rootValue (Graph.mem_of_node? hroot).1 (hxs i x hx) (hvalue ▸ hleaf)
    rw [hfresh hne] at hknow
    cases hknow

end Compiler

/-- **The fields that are returned have the values of the root on the stage input
    exactly if no assignment to them is disturbed by another,** which none is
    where the struct has a variable of its own.  A struct with the name of the
    stage input's is returned in the variable of the stage input, and there an
    assignment may read a field that one before it has changed. -/
theorem returned_fields_faithful_iff {ρ : Type} (k : Compiler ρ) (hbefore : k.before = [])
    (hafter : k.after = []) (g : Graph) (root : String) (e : EntryPoint)
    (hstruct : e.outputType.isStruct = true) {s : Shader}
    (hok : (k.generate g root e).result = .ok s) :
    ∃ c b r before v ws, k.assemble g root e = .ok (c, b) ∧ s = Compiler.shader c b ∧
      g.node? root = some r ∧ Compiler.ReturnsFields g e r c b before v ws ∧
      (Faithful v ws ↔ undisturbed v [] ws = true) ∧
      (e.output.name ≠ e.input.name → Faithful v ws) ∧
      (Faithful v ws → (e.output.fields.map Field.name).Nodup →
        ∀ (V : Type) (M : Meaning V) (σ : String → V), ∀ w ∈ ws,
          M.select (M.run σ (writes v ws) v) w.1 = M.eval σ w.2) := by
  obtain ⟨c, b, hassemble, hs⟩ := (k.generate_eq_ok_iff g root e hafter).1 hok
  obtain ⟨r, before, v, ws, hroot, hreturns, hunread⟩ :=
    Compiler.exists_returnsFields hbefore hstruct hassemble
  refine ⟨c, b, r, before, v, ws, hassemble, hs, hroot, hreturns, faithful_iff, ?_, ?_⟩
  · intro hne
    exact faithful_iff.2 (undisturbed_of_reads_nil [] fun w hw =>
      Expr.reads_eq_nil (hunread hne w hw))
  · intro hfaithful hnodup V M σ w hw
    rw [← hreturns.fields] at hnodup
    exact hfaithful.select hnodup M σ hw

namespace Sample

/-- A graph that gives each of two fields the value of the other. -/
def crossed : Graph where
  nodes :=
    [⟨"in", "", .input, [⟨"a", "a", .output, none, none⟩, ⟨"b", "b", .output, none, none⟩]⟩,
      ⟨"out", "", .output, [⟨"a", "a", .input, none, none⟩, ⟨"b", "b", .input, none, none⟩]⟩]
  links := [⟨"1", ⟨"in", "b"⟩, ⟨"out", "a"⟩⟩, ⟨"2", ⟨"in", "a"⟩, ⟨"out", "b"⟩⟩]

/-- An entry point from two fields to two fields. -/
def surface (output : String) : EntryPoint where
  name := "main"
  input := ⟨"Surface", [⟨"a", .floats 1⟩, ⟨"b", .floats 1⟩]⟩
  output := ⟨output, [⟨"a", .floats 1⟩, ⟨"b", .floats 1⟩]⟩
  definesInput := true
  definesOutput := true

/-- What the fields are given. -/
def crossings : List (String × Expr) :=
  [("a", .member (.name "surface") "b"), ("b", .member (.name "surface") "a")]

end Sample

/-- A struct with a name of its own has the two fields crossed. -/
theorem returned_fields_faithful_iff_crossed :
    ∃ s c b r,
      ((Sample.compiler false []).generate Sample.crossed "out"
        (Sample.surface "Crossed")).result = .ok s ∧
      s = Compiler.shader c b ∧
      Compiler.ReturnsFields Sample.crossed (Sample.surface "Crossed") r c b
        [.introduce (.struct "Crossed") "crossed"] "crossed" Sample.crossings ∧
      ∀ (V : Type) (M : Meaning V) (σ : String → V), ∀ w ∈ Sample.crossings,
        M.select (M.run σ (writes "crossed" Sample.crossings) "crossed") w.1 = M.eval σ w.2 := by
  obtain ⟨s, hs⟩ := Sample.exists_ok (r := ((Sample.compiler false []).generate Sample.crossed "out"
    (Sample.surface "Crossed")).result) (by decide +kernel)
  obtain ⟨c, b, r, before, v, ws, hok, hshader, -, hreturns, -, hfaithful, hselect⟩ :=
    returned_fields_faithful_iff (Sample.compiler false []) rfl rfl Sample.crossed "out"
      (Sample.surface "Crossed") rfl hs
  have hbody : ((Sample.compiler false []).assemble Sample.crossed "out"
      (Sample.surface "Crossed")).map (fun p => p.2.statements) =
      .ok ([.introduce (.struct "Crossed") "crossed"] ++ writes "crossed" Sample.crossings ++
        [.result (.name "crossed")]) := rfl
  rw [hok] at hbody
  obtain ⟨rfl, rfl, rfl⟩ := hreturns.eq_of_statements (Except.ok.inj hbody) rfl
  exact ⟨s, c, b, r, hs, hshader, hreturns, hselect (hfaithful (by decide)) (by decide)⟩

/-- A struct with the name of the stage input's has not: the second field is left
    with its own value. -/
theorem swapped_fields_disturbed :
    ∃ c b r,
      ((Sample.compiler false []).generate Sample.crossed "out"
        (Sample.surface "Surface")).result = .ok (Compiler.shader c b) ∧
      Compiler.ReturnsFields Sample.crossed (Sample.surface "Surface") r c b [] "surface"
        Sample.crossings ∧
      ¬ Faithful "surface" Sample.crossings ∧
      ∀ (V : Type) (M : Meaning V) (σ : String → V),
        M.select (M.run σ (writes "surface" Sample.crossings) "surface") "b" =
          M.select (σ "surface") "b" := by
  obtain ⟨⟨c, b⟩, hok⟩ := Sample.exists_ok (r := (Sample.compiler false []).assemble Sample.crossed
    "out" (Sample.surface "Surface")) (by decide +kernel)
  obtain ⟨r, before, v, ws, -, hreturns, -⟩ :=
    Compiler.exists_returnsFields rfl (by decide) hok
  have hbody : ((Sample.compiler false []).assemble Sample.crossed "out"
      (Sample.surface "Surface")).map (fun p => p.2.statements) =
      .ok ([] ++ writes "surface" Sample.crossings ++ [.result (.name "surface")]) := rfl
  rw [hok] at hbody
  obtain ⟨rfl, rfl, rfl⟩ := hreturns.eq_of_statements (Except.ok.inj hbody) rfl
  have hresult := ((Sample.compiler false []).generate_eq_ok_iff Sample.crossed "out"
    (Sample.surface "Surface") rfl).2 ⟨c, b, hok, rfl⟩
  refine ⟨c, b, r, hresult, hreturns, ?_, ?_⟩
  · rw [faithful_iff]
    decide
  · intro V M σ
    have hnodup : (Sample.crossings.map Prod.fst).Nodup := by decide
    -- when it is given the first field, that has become the second
    have hself := M.select_run_writes_self (v := "surface") σ hnodup (i := 1)
      (w := ("b", .member (.name "surface") "a")) rfl
    rw [hself]
    show M.select (M.exec σ (.assign "surface" "a" (.member (.name "surface") "b")) "surface") "a" =
      M.eval σ (.member (.name "surface") "b")
    rw [Meaning.exec, Function.update_self, M.select_update]

end Shading
