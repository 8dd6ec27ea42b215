/-
  What a node does that no link names and that is not the root.

  * `dead_node_ignored`: nothing, if it declares no function.
  * `SymbolTable.clash?`: why a node cannot declare its function.  The names of
    functions are taken up to the first clash (`reserveMethods_failure`), and
    what else there is in the table does not matter.
  * `Compilation.withMethods`: which names are taken for functions is never read
    once all of them are taken (`emit_withMethods`).
  * `orphan_function_reserves`: if the node declares a function, it does what a
    keyword does: it takes the name of the function, and may clash.
-/
import Shading.Proofs.Isolation
import Shading.Proofs.Stage

namespace Shading

open SymbolTable (declaredNames mem_declaredNames)

/-! ## Nodes that declare no function -/

theorem SymbolTable.reserveMethods_skip {n : Node}
    (h : ∀ function type? source, n.kind ≠ .declaredCall function type? source) (t : SymbolTable)
    (before after : List Node) :
    t.reserveMethods (before ++ n :: after) = t.reserveMethods (before ++ after) := by
  induction before generalizing t with
  | nil =>
    rw [List.nil_append, reserveMethods]
    cases hk : n.kind with
    | declaredCall function type? source => exact absurd hk (h function type? source)
    | _ => rfl
  | cons m rest ih =>
    rw [List.cons_append, List.cons_append, reserveMethods, reserveMethods]
    cases m.kind with
    | declaredCall function type? source =>
      dsimp only
      cases (reserveMethod function).run t with
      | error e u => rfl
      | ok _ u => exact ih u
    | _ => exact ih t

/-- **A node that no link names, that is not the root and that declares no
    function does not matter**: without it the outcome is the same in all. -/
theorem dead_node_ignored {ρ : Type} (k : Compiler ρ) {g g' : Graph} {n : Node}
    (h : g.Without n g')
    (hkind : ∀ function type? source, n.kind ≠ .declaredCall function type? source)
    {root : String} (hroot : n.id ≠ root) (e : EntryPoint) :
    k.generate g' root e = k.generate g root e := by
  have hwires := h.sameWires
  have hreserve : ∀ t : SymbolTable, t.reserveMethods g'.nodes = t.reserveMethods g.nodes := by
    intro t
    obtain ⟨before, after, hnodes, hnodes'⟩ := h.nodes
    rw [hnodes, hnodes', SymbolTable.reserveMethods_skip hkind]
  have hbuild : (k.start e).build g' root e = (k.start e).build g root e := by
    unfold Compilation.build
    simp only [hreserve, h.node hroot, h.order, hwires.emitAll, hwires.emitRoot]
  rw [Compiler.generate_eq, Compiler.generate_eq, hbuild]
  simp only [hwires.body]

namespace Sample

/-- The sample with one more node. -/
def halfRedWith (n : Node) : Graph :=
  ⟨halfRed.nodes.take 2 ++ n :: halfRed.nodes.drop 2, halfRed.links⟩

theorem halfRedWith_without {n : Node} (h : halfRed.isLinked n.id = false) :
    (halfRedWith n).Without n halfRed :=
  ⟨⟨halfRed.nodes.take 2, halfRed.nodes.drop 2, rfl, (List.take_append_drop 2 _).symm⟩, rfl, h⟩

/-- A texture that nothing reads, with the name of one that is read. -/
def dead : Node :=
  ⟨"dead", "Albedo", .texture, [⟨"rgba", "", .output, none, none⟩]⟩

/-- A call of a declared function that nothing reads. -/
def orphan (function : String) : Node :=
  ⟨"orphan", "", .declaredCall function none "", []⟩

end Sample

/-- The sample with a texture that nothing reads. -/
theorem dead_node_ignored_halfRed :
    (∃ s, ((Sample.compiler false []).generate (Sample.halfRedWith Sample.dead) "out"
      Sample.pixel).result = .ok s) ∧
    (Sample.compiler false []).generate Sample.halfRed "out" Sample.pixel =
      (Sample.compiler false []).generate (Sample.halfRedWith Sample.dead) "out" Sample.pixel :=
  ⟨Sample.exists_ok (by decide +kernel),
    dead_node_ignored (Sample.compiler false []) (Sample.halfRedWith_without (by decide))
      (by simp [Sample.dead]) (by decide) Sample.pixel⟩

/-! ## Clashes -/

namespace SymbolTable

/-- Why a node cannot declare its function: the name means something else. -/
def clash? (t : SymbolTable) (n : Node) : Option Failure :=
  match n.kind with
  | .declaredCall function _ _ =>
    if t.taken function && !t.methods.contains function then
      some (.during (.declaring n.id) (.nameTaken function))
    else none
  | _ => none

/-- Taking a name for a function makes no other name clash. -/
theorem clash?_reserved {t u : SymbolTable} {function : String} (h : t.Lawful)
    (hu : (reserveMethod function).run t = .ok () u) : u.clash? = t.clash? := by
  have hspec := reserveMethod_spec h hu
  have hself : t.methods.contains function = true ∨ t.taken function = false :=
    (reserveMethod_eq_ok_iff.1 hu).imp And.left fun hn => hn.2.1
  funext n
  unfold clash?
  cases n.kind with
  | declaredCall f _ _ =>
    dsimp only
    rw [hspec.taken, hspec.methods]
    by_cases hf : f = function
    · subst hf
      rcases hself with hself | hself <;> simp [hself]
    · simp [hf]
  | _ => rfl

/-- **Names are taken for functions up to the first clash.** -/
theorem reserveMethods_failure {t : SymbolTable} (h : t.Lawful) (nodes : List Node) :
    (t.reserveMethods nodes).2 = nodes.findSome? t.clash? := by
  induction nodes generalizing t with
  | nil => rfl
  | cons n rest ih =>
    rw [reserveMethods, List.findSome?_cons]
    cases hk : n.kind with
    | declaredCall function type? source =>
      dsimp only
      cases hu : (reserveMethod function).run t with
      | error cause u =>
        have hclash : t.clash? n = some (.during (.declaring n.id) cause) := by
          obtain ⟨⟨hm, ht⟩, rfl, -⟩ := reserveMethod_eq_error_iff.1 hu
          simp [clash?, hk, hm, ht]
        rw [hclash]
      | ok _ u =>
        have hfree : t.clash? n = none := by
          have hself := reserveMethod_eq_ok_iff.1 hu
          rcases hself with ⟨hm, -⟩ | ⟨-, ht, -⟩ <;> simp [clash?, *]
        rw [hfree]
        dsimp only
        rw [ih ((reserveMethod_spec h hu).lawful h), clash?_reserved h hu]
    | _ =>
      have hfree : t.clash? n = none := by simp [clash?, hk]
      rw [hfree]
      exact ih h

/-! ## Which names are taken for functions -/

/-- The table with other names taken for functions. -/
def withMethods (t : SymbolTable) (methods : Std.ExtTreeSet String) : SymbolTable :=
  { t with methods := methods }

variable (t : SymbolTable) (methods : Std.ExtTreeSet String)

theorem freshName_withMethods (base : String) :
    (t.withMethods methods).freshName base = t.freshName base := by
  apply freshName_congr
  rfl

theorem addOperation_withMethods (o : Operation) :
    (t.withMethods methods).addOperation o = (t.addOperation o).withMethods methods := by
  unfold addOperation
  split <;> rfl

theorem addStageStruct_withMethods (s : Struct) (defines : Bool) :
    (t.withMethods methods).addStageStruct s defines =
      (t.addStageStruct s defines).withMethods methods := by
  cases defines <;> rfl

end SymbolTable

namespace Compilation

/-- The compilation with other names taken for functions. -/
def withMethods (c : Compilation) (methods : Std.ExtTreeSet String) : Compilation :=
  { c with table := c.table.withMethods methods }

variable (c : Compilation) (methods : Std.ExtTreeSet String) (g : Graph) (n : Node)

theorem noteUses_withMethods (consumer : String) (xs : List Operand) (t : SymbolTable) :
    noteUses consumer xs (t.withMethods methods) =
      (noteUses consumer xs t).withMethods methods := by
  unfold noteUses
  induction xs generalizing t with
  | nil => rfl
  | cons x rest ih =>
    rw [List.foldl_cons, List.foldl_cons, ← ih]
    cases x.source <;> rfl

theorem addUses_withMethods (xs : List Operand) (i : Nat) :
    (c.withMethods methods).addUses xs i = (c.addUses xs i).withMethods methods := by
  have hoperations : (c.withMethods methods).table.operations = c.table.operations := rfl
  unfold addUses
  rw [hoperations]
  cases c.table.operations[i]? with
  | none => rfl
  | some o =>
    dsimp only [withMethods]
    rw [noteUses_withMethods]

theorem addOperation_withMethods (form : Operation.Form) :
    (c.withMethods methods).addOperation n form =
      ((c.addOperation n form).1.withMethods methods, (c.addOperation n form).2) := by
  unfold addOperation
  dsimp only [withMethods]
  rw [SymbolTable.addOperation_withMethods]
  rfl

theorem counting_withMethods (xs : List Operand) (r : Compilation × Nat) :
    counting xs (r.1.withMethods methods, r.2) =
      ((counting xs r).1.withMethods methods, (counting xs r).2) := by
  unfold counting
  rw [addUses_withMethods]

theorem addValue_withMethods (fallback : String) (type : ValueType) (definition : Expr)
    (inlinable : Bool) :
    (c.withMethods methods).addValue n fallback type definition inlinable =
      ((c.addValue n fallback type definition inlinable).1.withMethods methods,
        (c.addValue n fallback type definition inlinable).2) := by
  unfold addValue
  dsimp only
  rw [← addOperation_withMethods]
  congr 2
  exact SymbolTable.freshName_withMethods c.table methods _

theorem addTexture_withMethods :
    (c.withMethods methods).addTexture n =
      ((c.addTexture n).1.withMethods methods, (c.addTexture n).2) := by
  unfold addTexture
  dsimp only [withMethods]
  rw [SymbolTable.freshName_withMethods]
  rfl

theorem addSampler_withMethods :
    (c.withMethods methods).addSampler n =
      ((c.addSampler n).1.withMethods methods, (c.addSampler n).2) := by
  unfold addSampler
  dsimp only [withMethods]
  rw [SymbolTable.freshName_withMethods]
  rfl

theorem apply_withMethods (em : Emission) :
    (c.withMethods methods).apply n em =
      ((c.apply n em).1.withMethods methods, (c.apply n em).2) := by
  cases em with
  | nothing => rfl
  | stageInput index => exact counting_withMethods methods [] (c.bindInput n index)
  | sample coords =>
    unfold apply
    dsimp only
    rw [addTexture_withMethods]
    dsimp only
    rw [addSampler_withMethods]
    dsimp only
    rw [addValue_withMethods]
    exact counting_withMethods methods _ _
  | value fallback type definition counted =>
    exact (congrArg (counting counted) (addValue_withMethods c methods n _ _ _ _)).trans
      (counting_withMethods methods _ _)
  | effect call counted =>
    exact (congrArg (counting counted) (addOperation_withMethods c methods n _)).trans
      (counting_withMethods methods _ _)
  | synonym target type =>
    exact (congrArg (counting []) (addOperation_withMethods c methods n _)).trans
      (counting_withMethods methods _ _)

theorem sameView_withMethods : SameView c (c.withMethods methods) :=
  ⟨rfl, rfl, fun _ => rfl, fun _ => rfl⟩

/-- Emitting a node does not read which names are taken for functions, where all
    of them are. -/
theorem emit_withMethods (h : c.table.Reserves n) (h' : (c.withMethods methods).table.Reserves n) :
    (c.withMethods methods).emit g n =
      ((c.emit g n).1.withMethods methods, (c.emit g n).2) := by
  have hplan : ∀ fs, ((c.withMethods methods).withFunctions fs).plan g n =
      (c.withFunctions fs).plan g n :=
    fun fs => (sameView_withMethods (c.withFunctions fs) methods).plan rfl rfl g n
  rw [emit_eq, emit_eq, declare_eq _ n h, declare_eq _ n h']
  dsimp only
  have hfunctions : (c.withMethods methods).table.functionsWith n = c.table.functionsWith n := rfl
  rw [hfunctions, hplan]
  cases (c.withFunctions (c.table.functionsWith n)).plan g n with
  | error e => rfl
  | ok em =>
    have happly := apply_withMethods (c.withFunctions (c.table.functionsWith n)) methods n em
    exact congrArg (fun r : Compilation × Option Nat => (r.1, Except.ok r.2)) happly

theorem emitAll_withMethods {ns : List Node} (h : ∀ n ∈ ns, c.table.Reserves n)
    (h' : ∀ n ∈ ns, (c.withMethods methods).table.Reserves n) :
    emitAll g (c.withMethods methods) ns =
      ((emitAll g c ns).1.withMethods methods, (emitAll g c ns).2) := by
  induction ns generalizing c with
  | nil => rfl
  | cons n rest ih =>
    rw [emitAll, emitAll, emit_withMethods c methods g n (h n (by simp)) (h' n (by simp))]
    cases hemit : c.emit g n with
    | mk d r =>
      cases r with
      | error e => rfl
      | ok i =>
        obtain ⟨em, -, hem⟩ := emit_ok (h n (by simp)) hemit
        exact ih d (fun m hm => hem.reserves (h m (List.mem_cons_of_mem _ hm)))
          fun m hm => h' m (List.mem_cons_of_mem _ hm)

theorem emitRoot_withMethods (h : c.table.Reserves n)
    (h' : (c.withMethods methods).table.Reserves n) :
    (c.withMethods methods).emitRoot g n =
      ((c.emitRoot g n).1.withMethods methods, (c.emitRoot g n).2) := by
  have hbound : (c.withMethods methods).isBound n.id = c.isBound n.id := rfl
  unfold emitRoot
  rw [hbound, emit_withMethods c methods g n h h']
  split
  · rfl
  · cases c.emit g n with
    | mk d r => cases r <;> rfl

theorem emitNodes_withMethods {ns : List Node} (h : ∀ n ∈ ns, c.table.Reserves n)
    (h' : ∀ n ∈ ns, (c.withMethods methods).table.Reserves n) (hn : c.table.Reserves n)
    (hn' : (c.withMethods methods).table.Reserves n) :
    (c.withMethods methods).emitNodes g ns n =
      ((c.emitNodes g ns n).1.withMethods methods, (c.emitNodes g ns n).2) := by
  unfold emitNodes
  rw [emitAll_withMethods c methods g h h']
  cases hrun : emitAll g c ns with
  | mk d failure =>
    cases failure with
    | some f => rfl
    | none =>
      dsimp only
      rw [emitRoot_withMethods d methods g n ((run_follows h hrun).reserves hn) hn']
      cases d.emitRoot g n with
      | mk d' failure => cases failure <;> rfl

theorem defineInput_withMethods (e : EntryPoint) :
    (c.withMethods methods).defineInput e = (c.defineInput e).withMethods methods := by
  unfold defineInput
  dsimp only [withMethods]
  rw [SymbolTable.addStageStruct_withMethods, SymbolTable.addOperation_withMethods,
    SymbolTable.freshName_withMethods]
  rfl

theorem defineOutput_withMethods (e : EntryPoint) :
    (c.withMethods methods).defineOutput e = (c.defineOutput e).withMethods methods := by
  have htable : ∀ named : Bool,
      (if named then (c.table.withMethods methods).addStageStruct e.output e.definesOutput
        else c.table.withMethods methods) =
      (if named then c.table.addStageStruct e.output e.definesOutput
        else c.table).withMethods methods := by
    intro named
    cases named with
    | false => rfl
    | true => exact c.table.addStageStruct_withMethods methods e.output e.definesOutput
  exact congrArg
    (fun table => ({ c with table := table, output := e.output, outputType := e.outputType } :
      Compilation)) (htable (e.outputType.isStruct && e.output.name != c.input.name))

theorem defineStage_withMethods (e : EntryPoint) :
    (c.withMethods methods).defineStage e = (c.defineStage e).withMethods methods := by
  unfold defineStage
  rw [defineInput_withMethods, defineOutput_withMethods]

theorem outputVariable_withMethods :
    (c.withMethods methods).outputVariable =
      (c.outputVariable.1.withMethods methods, c.outputVariable.2) := by
  have hfresh := SymbolTable.freshName_withMethods c.table methods
    (Text.baseName c.outputType.name "output")
  have htype : (c.withMethods methods).outputType = c.outputType := rfl
  have hinput : (c.withMethods methods).input = c.input := rfl
  unfold outputVariable
  rw [htype, hinput]
  split
  · rfl
  · dsimp only [withMethods]
    rw [hfresh]
    rfl

theorem rootValue_withMethods (i : Nat) :
    (c.withMethods methods).rootValue g n i = c.rootValue g n i := by
  have hview := c.sameView_withMethods methods
  unfold rootValue nodeValue
  rw [hview.valueOf, hview.operandNo]
  rfl

theorem assignments_withMethods (name : String) (i : Nat) (fields : List Field) :
    (c.withMethods methods).assignments g n name i fields =
      c.assignments g n name i fields := by
  induction fields generalizing i with
  | nil => rfl
  | cons f rest ih => rw [assignments, assignments, rootValue_withMethods, ih]

theorem returning_withMethods :
    (c.withMethods methods).returning g n =
      ((c.returning g n).1.withMethods methods, (c.returning g n).2) := by
  have htype : (c.withMethods methods).outputType = c.outputType := rfl
  have houtput : (c.outputVariable.1.withMethods methods).output = c.outputVariable.1.output := rfl
  unfold returning
  rw [htype, outputVariable_withMethods, rootValue_withMethods]
  split
  · dsimp only
    rw [assignments_withMethods, houtput]
    cases c.outputVariable.1.assignments g n c.outputVariable.2.1 0
      c.outputVariable.1.output.fields with
    | mk written failure => cases failure <;> rfl
  · cases c.rootValue g n 0 <;> rfl

theorem body_withMethods (entry semantic : String) :
    (c.withMethods methods).body g n entry semantic =
      ((c.body g n entry semantic).1.withMethods methods, (c.body g n entry semantic).2) := by
  unfold body
  rw [returning_withMethods]
  rfl

/-- Two compilations that have taken the same names, but not the same for
    functions, go on alike. -/
theorem build_withMethods {c c' : Compilation} {t : SymbolTable} {g g' : Graph} {root : String}
    {e : EntryPoint} (hwires : g'.SameWires g) (horder : g.order = g'.order)
    (hroot : g.node root = g'.node root) (hc : { c with table := t } = { c' with table := t })
    (ht : c.table.reserveMethods g.nodes = (t.withMethods methods, none))
    (ht' : c'.table.reserveMethods g'.nodes = (t, none)) (hr : ∀ n ∈ g'.nodes, t.Reserves n)
    (hr' : ∀ n ∈ g'.nodes, (t.withMethods methods).Reserves n) :
    c.build g root e =
      ((c'.build g' root e).1.withMethods methods, (c'.build g' root e).2) := by
  have hstart : { c with table := t.withMethods methods } =
      ({ c' with table := t } : Compilation).withMethods methods := by
    rw [← hc]
    rfl
  unfold build
  rw [ht, ht']
  dsimp only
  rw [hstart, defineStage_withMethods, hroot, horder]
  have hs := methods_defineStage { c' with table := t } e
  generalize ({ c' with table := t } : Compilation).defineStage e = s at hs ⊢
  have hkept : ∀ n ∈ g'.nodes, s.table.Reserves n := by
    intro n hn function type? source hk
    rw [hs]
    exact hr n hn function type? source hk
  cases hnode : g'.node root with
  | error cause => rfl
  | ok r =>
    have hmem := (Graph.mem_of_node? (Graph.node_eq_ok_iff.1 hnode)).1
    cases hnodes : g'.order with
    | error cause => rfl
    | ok ns =>
      have hns : ∀ n ∈ ns, n ∈ g'.nodes := fun n hn => Graph.mem_of_order hnodes hn
      exact (hwires.emitNodes (s.withMethods methods) r ns).trans
        (emitNodes_withMethods s methods g' r (fun n hn => hkept n (hns n hn))
          (fun n hn => hr' n (hns n hn)) (hkept r hmem) (hr' r hmem))

end Compilation

/-! ## Nodes that declare a function -/

theorem SymbolTable.mem_declaredNames_insert {n : Node} {function : String} {type? : Option String}
    {source : String} (hk : n.kind = .declaredCall function type? source) (before after : List Node)
    (name : String) :
    name ∈ declaredNames (before ++ n :: after) ↔
      name = function ∨ name ∈ declaredNames (before ++ after) := by
  simp only [declaredNames, List.filterMap_append, List.filterMap_cons, hk, List.mem_append,
    List.mem_cons]
  tauto

/-- Two tables in which names are taken for functions differ in nothing else if
    the same names are taken. -/
theorem SymbolTable.Reserved.eq_withMethods {t t' u u' : SymbolTable} {names names' : List String}
    (h : Reserved t names u) (h' : Reserved t' names' u')
    (hbase : t = { t' with identifiers := t.identifiers })
    (htaken : ∀ name, (t.taken name || names.contains name) =
      (t'.taken name || names'.contains name)) : u = u'.withMethods u.methods := by
  have hidentifiers : u.identifiers = u'.identifiers := by
    refine Std.ExtTreeSet.ext_contains fun name => ?_
    exact (h.taken name).trans ((htaken name).trans (h'.taken name).symm)
  rw [h.eq, h'.eq, hbase]
  simp only [withMethods, hidentifiers]

namespace Compiler

variable {ρ : Type} (k : Compiler ρ)

/-- The compiler with more words that it must not use. -/
def avoiding (words : List String) : Compiler ρ :=
  { k with keywords := words ++ k.keywords }

/-- Two outcomes give the same shader or failure and have the same operations. -/
structure Outcome.Agrees (o o' : Outcome ρ) : Prop where
  result : o.result = o'.result
  operations : o.compiler.compilation.table.operations = o'.compiler.compilation.table.operations

variable {k}

/-- Without hooks a node cannot declare its function if that has the name of a
    keyword or of the entry point. -/
theorem clash?_start_eq_some_iff (h : k.before = []) (e : EntryPoint) (n : Node) (f : Failure) :
    (k.start e).table.clash? n = some f ↔
      ∃ function type? source, n.kind = .declaredCall function type? source ∧
        (function ∈ k.keywords ∨ function = e.name) ∧
        f = .during (.declaring n.id) (.nameTaken function) := by
  unfold SymbolTable.clash?
  cases n.kind with
  | declaredCall function type? source =>
    simp only [k.methods_start_of_nil e h, Bool.not_false, Bool.and_true,
      k.taken_start_of_nil e h]
    split <;> simp_all [eq_comm]
  | _ => simp

/-- Compilations that are built alike have outcomes that agree. -/
theorem agrees_of_build (k' : Compiler ρ) {g g' : Graph} {root : String} {e : EntryPoint}
    (hafter : k.after = []) (hafter' : k'.after = []) (hoptions : k.options = k'.options)
    (hwires : g'.SameWires g) (methods : Std.ExtTreeSet String)
    (h : (k.start e).build g root e = (((k'.start e).build g' root e).1.withMethods methods,
      ((k'.start e).build g' root e).2)) :
    (k.generate g root e).Agrees (k'.generate g' root e) := by
  suffices hboth : (k.generate g root e).result = (k'.generate g' root e).result ∧
      (k.generate g root e).compiler.compilation.table.operations =
        (k'.generate g' root e).compiler.compilation.table.operations from ⟨hboth.1, hboth.2⟩
  rw [generate_result _ _ _ _ hafter, generate_result _ _ _ _ hafter',
    generate_compilation _ _ _ _ hafter, generate_compilation _ _ _ _ hafter', assemble, assemble,
    h, hoptions]
  cases (k'.start e).build g' root e with
  | mk c r =>
    cases r with
    | error f => exact ⟨rfl, rfl⟩
    | ok r =>
      dsimp only
      rw [hwires.body, Compilation.body_withMethods]
      refine ⟨?_, rfl⟩
      cases (c.body g' r e.name k'.options.semantic).2.failure <;> rfl

/-- Where a name of a function clashes, nothing else is done. -/
theorem generate_of_clash {g : Graph} (root : String) {e : EntryPoint} {f : Failure}
    (hbefore : k.before = []) (hafter : k.after = [])
    (h : g.nodes.findSome? (k.start e).table.clash? = some f) :
    (k.generate g root e).result = .error f ∧
      (k.generate g root e).compiler.compilation.table.operations = [] := by
  have hfail : ((k.start e).table.reserveMethods g.nodes).2 = some f := by
    rw [SymbolTable.reserveMethods_failure (k.lawful_start e (k.proper_of_nil hbefore)), h]
  have hnone : ((k.start e).table.reserveMethods g.nodes).1.operations = [] := by
    rw [SymbolTable.operations_reserveMethods, k.start_table e hbefore]
    rfl
  have hbuild : (k.start e).build g root e =
      ({ k.start e with table := ((k.start e).table.reserveMethods g.nodes).1 }, .error f) := by
    unfold Compilation.build
    rw [← Prod.mk.eta (p := (k.start e).table.reserveMethods g.nodes), hfail]
  rw [generate_result _ _ _ _ hafter, generate_compilation _ _ _ _ hafter, assemble, hbuild]
  exact ⟨rfl, hnone⟩

/-- Words that no node declares make none of them clash. -/
theorem findSome?_clash?_avoiding (h : k.before = []) (e : EntryPoint) {words : List String}
    {nodes : List Node} (hwords : ∀ word ∈ words, word ∉ declaredNames nodes) :
    nodes.findSome? ((k.avoiding words).start e).table.clash? =
      nodes.findSome? (k.start e).table.clash? := by
  have hsame : ∀ n ∈ nodes, ((k.avoiding words).start e).table.clash? n =
      (k.start e).table.clash? n := by
    intro n hn
    refine Option.ext fun f => ?_
    rw [clash?_start_eq_some_iff h, clash?_start_eq_some_iff (k := k.avoiding words) h]
    refine exists_congr fun name => exists_congr fun type? => exists_congr fun source =>
      and_congr_right fun hk => and_congr_left' (or_congr_left ?_)
    have hname := mem_declaredNames.2 ⟨n, hn, type?, source, hk⟩
    rw [avoiding, List.mem_append, or_iff_right fun hword => hwords name hword hname]
  rw [← List.head?_filterMap, ← List.head?_filterMap, List.filterMap_congr hsame]

/-- Where no name clashes, the names taken are keywords, the entry point and the
    functions. -/
theorem reserve_of_clash?_eq_none {g : Graph} {e : EntryPoint} (h : k.before = [])
    (hclash : g.nodes.findSome? (k.start e).table.clash? = none) :
    ∃ t, (k.start e).table.reserveMethods g.nodes = (t, none) ∧
      SymbolTable.Reserved (k.start e).table (declaredNames g.nodes) t := by
  have hlawful := k.lawful_start e (k.proper_of_nil h)
  rw [← SymbolTable.reserveMethods_failure hlawful] at hclash
  exact ⟨_, Prod.ext rfl hclash, SymbolTable.reserveMethods_spec hlawful (Prod.ext rfl hclash)⟩

/-- A function of no consequence but that its name is to be avoided. -/
theorem agrees_avoiding {g g' : Graph} {n : Node} {function : String} {type? : Option String}
    {source : String} {root : String} {e : EntryPoint} {words : List String}
    (hbefore : k.before = []) (hafter : k.after = []) (h : g.Without n g')
    (hkind : n.kind = .declaredCall function type? source) (hroot : n.id ≠ root)
    (hkeyword : function ∉ k.keywords) (hentry : function ≠ e.name)
    (hwords : ∀ name, name ∈ words ↔ name = function ∧ function ∉ declaredNames g'.nodes) :
    (k.generate g root e).Agrees ((k.avoiding words).generate g' root e) := by
  obtain ⟨before, after, hnodes, hnodes'⟩ := h.nodes
  have hdeclared := SymbolTable.mem_declaredNames_insert hkind before after
  rw [← hnodes, ← hnodes'] at hdeclared
  have hself : (k.start e).table.clash? n = none := by
    rw [Option.eq_none_iff_forall_ne_some]
    intro f hf
    obtain ⟨name, _, _, hk, hname, -⟩ := (clash?_start_eq_some_iff hbefore e n f).1 hf
    cases hkind.symm.trans hk
    exact hname.elim hkeyword hentry
  have hclash : g.nodes.findSome? (k.start e).table.clash? =
      g'.nodes.findSome? ((k.avoiding words).start e).table.clash? := by
    rw [findSome?_clash?_avoiding hbefore e fun word hword => ?_]
    · rw [hnodes, hnodes', List.findSome?_append, List.findSome?_append, List.findSome?_cons,
        hself]
    · obtain ⟨rfl, hnot⟩ := (hwords word).1 hword
      exact hnot
  cases hfirst : g.nodes.findSome? (k.start e).table.clash? with
  | some f =>
    -- another node clashes in both, before anything is emitted
    have hleft := generate_of_clash root hbefore hafter hfirst
    have hright := generate_of_clash (k := k.avoiding words) root hbefore hafter
      (hclash.symm.trans hfirst)
    exact ⟨hleft.1.trans hright.1.symm, hleft.2.trans hright.2.symm⟩
  | none =>
    obtain ⟨t, ht, hspec⟩ := reserve_of_clash?_eq_none hbefore hfirst
    obtain ⟨t', ht', hspec'⟩ := reserve_of_clash?_eq_none (k := k.avoiding words) hbefore
      (hclash.symm.trans hfirst)
    -- the same names are taken, but that of the function may be a keyword on one side
    have htable : t = t'.withMethods t.methods := by
      refine hspec.eq_withMethods hspec' ?_ fun name => ?_
      · rw [k.start_table e hbefore, (k.avoiding words).start_table e hbefore]
      · rw [Bool.eq_iff_iff, Bool.or_eq_true, Bool.or_eq_true, List.contains_iff_mem,
          List.contains_iff_mem, k.taken_start_of_nil e hbefore,
          (k.avoiding words).taken_start_of_nil e hbefore, hdeclared, avoiding, List.mem_append,
          hwords]
        by_cases hname : name = function
        · subst hname; tauto
        · tauto
    have hr : ∀ m ∈ g'.nodes, t'.Reserves m := by
      intro m hm f _ _ hk
      rw [hspec'.methods, List.contains_iff_mem.2 (mem_declaredNames.2 ⟨m, hm, _, _, hk⟩),
        Bool.or_true]
    have hr' : ∀ m ∈ g'.nodes, (t'.withMethods t.methods).Reserves m := by
      intro m hm f _ _ hk
      have hmem := (hdeclared f).2 (.inr (mem_declaredNames.2 ⟨m, hm, _, _, hk⟩))
      rw [← htable, hspec.methods, List.contains_iff_mem.2 hmem, Bool.or_true]
    refine agrees_of_build (k.avoiding words) hafter hafter rfl h.sameWires.symm t.methods ?_
    exact Compilation.build_withMethods t.methods h.sameWires.symm h.order.symm (h.node hroot).symm
      rfl (htable ▸ ht) ht' hr hr'

end Compiler

/-- **What a node does that declares a function, that no link names and that is
    not the root.**  If the function has the name of a keyword or of the entry
    point, the graph is refused.  Otherwise the outcome agrees with that
    without the node, but for the name of the function: unless another node
    declares the function as well, it is to be avoided like a keyword. -/
theorem orphan_function_reserves {ρ : Type} {k : Compiler ρ} (hbefore : k.before = [])
    (hafter : k.after = []) {g g' : Graph} {n : Node} (h : g.Without n g') {function : String}
    {type? : Option String} {source : String}
    (hkind : n.kind = .declaredCall function type? source) {root : String} (hroot : n.id ≠ root)
    (e : EntryPoint) :
    (function ∈ k.keywords ∨ function = e.name →
      ∃ m ∈ g.nodes, ∃ name type? source, m.kind = .declaredCall name type? source ∧
        (name ∈ k.keywords ∨ name = e.name) ∧
        (k.generate g root e).result = .error (.during (.declaring m.id) (.nameTaken name))) ∧
    (function ∉ k.keywords → function ≠ e.name →
      (k.generate g root e).Agrees ((k.avoiding
        (if function ∈ declaredNames g'.nodes then [] else [function])).generate g' root e)) := by
  constructor
  · intro hclash
    have hn : n ∈ g.nodes := by
      obtain ⟨before, after, hnodes, -⟩ := h.nodes
      simp [hnodes]
    have hself := (Compiler.clash?_start_eq_some_iff hbefore e n _).2
      ⟨function, type?, source, hkind, hclash, rfl⟩
    cases hfirst : g.nodes.findSome? (k.start e).table.clash? with
    | none => rw [List.findSome?_eq_none_iff.1 hfirst n hn] at hself; cases hself
    | some f =>
      -- the first clash may be that of a node before this one
      obtain ⟨m, hm, hf⟩ := List.exists_of_findSome?_eq_some hfirst
      obtain ⟨name, type?, source, hk, hname, rfl⟩ :=
        (Compiler.clash?_start_eq_some_iff hbefore e m f).1 hf
      exact ⟨m, hm, name, type?, source, hk, hname,
        (Compiler.generate_of_clash root hbefore hafter hfirst).1⟩
  · intro hkeyword hentry
    refine Compiler.agrees_avoiding hbefore hafter h hkind hroot hkeyword hentry fun name => ?_
    by_cases hfree : function ∈ declaredNames g'.nodes <;> simp [hfree]

/-- The sample with a function that has the name of a keyword, and with one that
    has the name a node would have. -/
theorem orphan_function_reserves_halfRed :
    (∃ m ∈ (Sample.halfRedWith (Sample.orphan "return")).nodes, ∃ name,
      ((Sample.compiler false []).generate (Sample.halfRedWith (Sample.orphan "return")) "out"
        Sample.pixel).result = .error (.during (.declaring m.id) (.nameTaken name))) ∧
    ((Sample.compiler false []).generate (Sample.halfRedWith (Sample.orphan "x")) "out"
      Sample.pixel).Agrees
        (((Sample.compiler false []).avoiding ["x"]).generate Sample.halfRed "out"
          Sample.pixel) := by
  obtain ⟨m, hm, name, -, -, -, -, hfail⟩ :=
    (orphan_function_reserves (k := Sample.compiler false []) rfl rfl
      (Sample.halfRedWith_without (n := Sample.orphan "return") (by decide)) rfl
      (by decide : "orphan" ≠ "out") Sample.pixel).1 (.inl (by decide))
  refine ⟨⟨m, hm, name, hfail⟩, ?_⟩
  exact (orphan_function_reserves (k := Sample.compiler false []) rfl rfl
    (Sample.halfRedWith_without (n := Sample.orphan "x") (by decide)) rfl
    (by decide : "orphan" ≠ "out") Sample.pixel).2 (by decide) (by decide)

/-- So the function is not without effect: nodes that would have its name get
    another, and with a keyword for its name the graph is refused. -/
theorem orphan_function_matters :
    (((Sample.compiler false []).generate Sample.halfRed "out" Sample.pixel).result.isOk = true ∧
      ((Sample.compiler false []).generate (Sample.halfRedWith (Sample.orphan "return")) "out"
        Sample.pixel).result.isOk = false) ∧
    ((Sample.compiler false []).generate Sample.halfRed "out"
      Sample.pixel).compiler.compilation.table.operations.map Operation.name =
        ["varying", "albedo", "albedo", "x", "x0"] ∧
    ((Sample.compiler false []).generate (Sample.halfRedWith (Sample.orphan "x")) "out"
      Sample.pixel).compiler.compilation.table.operations.map Operation.name =
        ["varying", "albedo", "albedo", "x0", "x1"] := by
  decide +kernel

end Shading
