/-
  The functions that a shader declares, and the names that they must not have.

  * `functions_run`: the functions of a run are those of the nodes emitted.
  * `Clashless`: a computation that never finds the name of a function taken.
    Once the names of all functions are taken, nothing does (`emitAll_clashless`,
    `assemble_eq_nameTaken_iff`).
  * `function_names_checked`: a graph is refused for the name of a function
    exactly if that is a keyword or the entry point.  The names of structs are
    not looked at.
-/
import Shading.Proofs.Orphans
import Shading.Proofs.Statements

namespace Shading

open SymbolTable (declaredNames mem_declaredNames)

/-! ## The functions of a run -/

/-- The names of the functions of a table. -/
def SymbolTable.functionNames (t : SymbolTable) : List String :=
  t.functions.map Function.name

theorem SymbolTable.mem_functionNames_with {t : SymbolTable} {n : Node} {name : String} :
    name ∈ (t.functionsWith n).map Function.name ↔
      name ∈ t.functionNames ∨ name ∈ declaredNames [n] := by
  unfold functionsWith functionNames
  cases hk : n.kind with
  | declaredCall function type? source =>
    have hnames : declaredNames [n] = [function] := by simp [declaredNames, hk]
    have hhas : t.hasFunction function = true ↔ function ∈ t.functions.map Function.name := by
      simp [hasFunction]
    rw [hnames, List.mem_singleton]
    by_cases hf : t.hasFunction function = true
    · simp only [hf, if_true]
      refine ⟨Or.inl, fun h => h.elim id ?_⟩
      rintro rfl
      exact hhas.1 hf
    · simp [hf]
  | _ => simp [declaredNames, hk]

/-- **The functions of a run are those of the nodes emitted.** -/
theorem Compilation.functions_run {g : Graph} {c c' : Compilation} {ns : List Node}
    (hr : ∀ n ∈ ns, c.table.Reserves n) (h : emitAll g c ns = (c', none)) (name : String) :
    name ∈ c'.table.functionNames ↔ name ∈ c.table.functionNames ∨ name ∈ declaredNames ns := by
  refine run_induct (motive := fun done d => name ∈ d.table.functionNames ↔
    name ∈ c.table.functionNames ∨ name ∈ declaredNames done) hr h ?_ ?_
  · simp [declaredNames]
  · intro done n rest d em d' _ hd _ hem
    have happend : declaredNames (done ++ [n]) = declaredNames done ++ declaredNames [n] :=
      List.filterMap_append
    rw [SymbolTable.functionNames, hem.functions, SymbolTable.mem_functionNames_with, hd, happend,
      List.mem_append, or_assoc]

/-! ## Where no name is found taken -/

/-- A computation that never finds the name of a function taken. -/
def Clashless {α : Type} (x : Except Cause α) : Prop :=
  ∀ name, x ≠ .error (.nameTaken name)

@[simp]
theorem clashless_ok {α : Type} (a : α) : Clashless (.ok a : Except Cause α) := by
  intro name h
  cases h

theorem Clashless.map {α β : Type} {x : Except Cause α} (h : Clashless x) (f : α → β) :
    Clashless (x.map f) := by
  intro name hname
  cases x with
  | error e =>
    cases hname
    exact h name rfl
  | ok a => cases hname

/-- What fails in a part fails as the part does. -/
theorem Clashless.error {α β : Type} {x : Except Cause α} (h : Clashless x) {e : Cause}
    (hx : x = .error e) : Clashless (.error e : Except Cause β) := by
  rintro name ⟨⟩
  exact h name hx

theorem Graph.clashless_node (g : Graph) (id : String) : Clashless (g.node id) := by
  intro name
  unfold Graph.node
  split <;> simp

theorem Graph.clashless_order (g : Graph) : Clashless g.order := by
  have hposition : ∀ id, Clashless (g.position id) := by
    intro id name
    unfold Graph.position
    split <;> simp
  have hedge : ∀ l, Clashless (g.edge l) := by
    intro l
    unfold Graph.edge
    split
    · exact (hposition _).error ‹_›
    · split
      · exact (hposition _).error ‹_›
      · simp
  have hedges : ∀ ls, Clashless (g.edgesOf ls) := by
    intro ls
    induction ls with
    | nil => simp [Graph.edgesOf]
    | cons l rest ih =>
      unfold Graph.edgesOf
      split
      · exact (hedge l).error ‹_›
      · exact ih.map _
  unfold Graph.order
  split
  · exact (hedges g.links).error ‹_›
  · split <;> intro name <;> simp

namespace Compilation

variable (c : Compilation) (g : Graph) (n : Node)

theorem clashless_valueOf (producer : Node) (pin : Option Pin) :
    Clashless (c.valueOf producer pin) := by
  intro name
  unfold valueOf
  split
  · simp
  · split <;> simp

theorem clashless_operandAt (p : Pin) : Clashless (c.operandAt g n p) := by
  unfold operandAt linkValue
  split
  · split
    · exact (g.clashless_node _).error ‹_›
    · exact c.clashless_valueOf _ _
  · simp

theorem clashless_operandNo (i : Nat) : Clashless (c.operandNo g n i) := by
  unfold operandNo
  split
  · exact c.clashless_operandAt g n _
  · simp

theorem clashless_operandsAt (pins : List Pin) : Clashless (c.operandsAt g n pins) := by
  induction pins with
  | nil => simp [operandsAt]
  | cons p rest ih =>
    unfold operandsAt
    split
    · exact (c.clashless_operandAt g n p).error ‹_›
    · exact ih.map _

theorem clashless_operandsNo (is : List Nat) : Clashless (c.operandsNo g n is) := by
  induction is with
  | nil => simp [operandsNo]
  | cons i rest ih =>
    unfold operandsNo
    split
    · exact (c.clashless_operandNo g n i).error ‹_›
    · exact ih.map _

theorem clashless_arity (type : String) : Clashless (c.arity n type) := by
  intro name
  unfold arity
  split
  · split <;> simp
  · simp

theorem clashless_ofOperator (op : String) (left right : Operand) (type : ValueType) :
    Clashless (Emission.ofOperator op left right type) := by
  have hcast : ∀ a b : ValueType, Clashless (a.castFrom b) := by
    intro a b name
    unfold ValueType.castFrom ValueType.castTarget
    split
    · simp
    · split
      · simp
      · split <;> simp [Functor.map, Except.map]
  unfold Emission.ofOperator
  split
  · split
    · exact (hcast _ _).error ‹_›
    · split
      · exact (hcast _ _).error ‹_›
      · simp
  · simp

theorem clashless_plan : Clashless (c.plan g n) := by
  have hone := c.clashless_operandNo g n
  have hall := c.clashless_operandsAt g n n.inputs
  unfold plan
  cases n.kind with
  | texture | convert | split => exact (hone 0).map _
  | call | voidCall | declaredCall => exact hall.map _
  | operator op type =>
    dsimp only
    split
    · exact (hone 0).error ‹_›
    · split
      · exact (hone 1).error ‹_›
      · exact clashless_ofOperator _ _ _ _
  | mask components type =>
    dsimp only
    split
    · exact (c.clashless_arity n type).error ‹_›
    · exact (hone 0).map _
  | pack type =>
    dsimp only
    split
    · exact (c.clashless_arity n type).error ‹_›
    · exact (c.clashless_operandsNo g n _).map _
  | constant type =>
    intro name
    unfold planConstant
    dsimp only
    split <;> simp
  | input =>
    intro name
    unfold planInput
    dsimp only
    split
    · simp
    · split <;> simp
  | output => simp

variable {c n} in
theorem clashless_emit (h : c.table.Reserves n) : Clashless (c.emit g n).2 := by
  rw [emit_eq, declare_eq c n h]
  dsimp only
  cases hplan : (c.withFunctions (c.table.functionsWith n)).plan g n with
  | error cause => exact (clashless_plan _ g n).error hplan
  | ok em => simp [carryOut]

variable {c} in
/-- A run in which the names of all functions are taken fails for other reasons
    only. -/
theorem emitAll_clashless {ns : List Node} (hr : ∀ m ∈ ns, c.table.Reserves m) {f : Failure}
    (h : (emitAll g c ns).2 = some f) (name : String) : f.cause ≠ .nameTaken name := by
  induction ns generalizing c with
  | nil => cases h
  | cons m rest ih =>
    unfold emitAll at h
    cases hemit : c.emit g m with
    | mk d r =>
      rw [hemit] at h
      cases r with
      | error cause =>
        cases h
        rintro rfl
        exact clashless_emit g (hr m (by simp)) name (by rw [hemit])
      | ok i =>
        obtain ⟨em, -, hem⟩ := emit_ok (hr m (by simp)) hemit
        exact ih (fun m' hm' => hem.reserves (hr m' (List.mem_cons_of_mem _ hm'))) h

variable {c n} in
theorem emitRoot_clashless (hr : c.table.Reserves n) {f : Failure}
    (h : (c.emitRoot g n).2 = some f) (name : String) : f.cause ≠ .nameTaken name := by
  unfold emitRoot at h
  split at h
  · cases h
  · cases hemit : c.emit g n with
    | mk d r =>
      rw [hemit] at h
      cases r with
      | error cause =>
        cases h
        rintro rfl
        exact clashless_emit g hr name (by rw [hemit])
      | ok i => cases h

theorem body_clashless (entry semantic name : String) :
    (c.body g n entry semantic).2.failure ≠ some (.nameTaken name) := by
  have hvalue : ∀ (c : Compilation) i, Clashless (c.rootValue g n i) := by
    intro c i
    unfold rootValue nodeValue
    split
    · exact c.clashless_valueOf _ _
    · exact c.clashless_operandNo g n i
  have hassign : ∀ (c : Compilation) (v : String) (fields : List Field) (i : Nat),
      (c.assignments g n v i fields).2 ≠ some (.nameTaken name) := by
    intro c v fields
    induction fields with
    | nil => simp [assignments]
    | cons f rest ih =>
      intro i
      unfold assignments
      split
      · rintro ⟨⟩
        exact hvalue c i name ‹_›
      · exact ih (i + 1)
  intro h
  change (c.returning g n).2.2 = _ at h
  unfold returning at h
  split at h
  · dsimp only at h
    split at h
    · rename_i hfail
      cases h
      exact hassign _ _ _ _ (congrArg Prod.snd hfail)
    · cases h
  · split at h
    · cases h
      exact hvalue c 0 name ‹_›
    · cases h

end Compilation

/-! ## Whole compilations -/

namespace Compiler

open Compilation

variable {ρ : Type} {k : Compiler ρ}

/-- Once the names of functions are reserved, none of them is found taken. -/
theorem assemble_clashless (h : k.before = []) {g : Graph} {root : String} {e : EntryPoint}
    (hr : ∃ t, (k.start e).table.reserveMethods g.nodes = (t, none)) {f : Failure}
    (herror : k.assemble g root e = .error f) (name : String) : f.cause ≠ .nameTaken name := by
  intro hf
  have hreserves := k.stage_reserves g e (k.proper_of_nil h) hr
  obtain ⟨t, ht⟩ := hr
  have hstage : k.stage g e = ({ k.start e with table := t }).defineStage e := by
    rw [stage, ht]
  unfold assemble build at herror
  simp only [ht, ← hstage] at herror
  cases hroot : g.node root with
  | error cause =>
    simp only [hroot, Except.error.injEq] at herror
    subst herror
    exact g.clashless_node root name (hroot.trans (congrArg _ hf))
  | ok r =>
    have hmem := (Graph.mem_of_node? (Graph.node_eq_ok_iff.1 hroot)).1
    cases horder : g.order with
    | error cause =>
      simp only [hroot, horder, Except.error.injEq] at herror
      subst herror
      exact g.clashless_order name (horder.trans (congrArg _ hf))
    | ok ns =>
      have hns : ∀ n ∈ ns, (k.stage g e).table.Reserves n :=
        fun n hn => hreserves n (Graph.mem_of_order horder hn)
      simp only [hroot, horder] at herror
      cases hrun : emitAll g (k.stage g e) ns with
      | mk d failure =>
        rw [hrun] at herror
        cases failure with
        | some f' =>
          cases herror
          exact emitAll_clashless g hns (congrArg Prod.snd hrun) name hf
        | none =>
          dsimp only at herror
          have hd := (run_follows hns hrun).reserves (hreserves r hmem)
          cases hemit : d.emitRoot g r with
          | mk d' failure =>
            rw [hemit] at herror
            cases failure with
            | some f' =>
              cases herror
              exact emitRoot_clashless g hd (congrArg Prod.snd hemit) name hf
            | none =>
              dsimp only at herror
              split at herror
              · rename_i cause hcause
                cases herror
                exact body_clashless d' g r _ _ name (hcause.trans (congrArg _ hf))
              · cases herror

/-- **The name of a function is found taken only before any node is emitted.** -/
theorem assemble_eq_nameTaken_iff (h : k.before = []) (g : Graph) (root : String) (e : EntryPoint)
    {f : Failure} {name : String} (hf : f.cause = .nameTaken name) :
    k.assemble g root e = .error f ↔
      g.nodes.findSome? (k.start e).table.clash? = some f := by
  have hlawful := k.lawful_start e (k.proper_of_nil h)
  rw [← SymbolTable.reserveMethods_failure hlawful]
  cases ht : (k.start e).table.reserveMethods g.nodes with
  | mk t failure =>
    cases failure with
    | some f' => simp [assemble, build, ht]
    | none =>
      simp only [reduceCtorEq, iff_false]
      exact fun herror => assemble_clashless h ⟨t, ht⟩ herror name hf

/-- The first node that declares a function of a keyword's name or the entry
    point's is blamed. -/
theorem findSome?_clash?_start (h : k.before = []) (e : EntryPoint) (ns : List Node)
    (stages : List Stage) (name : String) :
    ns.findSome? (k.start e).table.clash? = some ⟨stages, .nameTaken name⟩ ↔
      ∃ before n after type? source, ns = before ++ n :: after ∧
        n.kind = .declaredCall name type? source ∧ (name ∈ k.keywords ∨ name = e.name) ∧
        (∀ f ∈ declaredNames before, f ∉ k.keywords ∧ f ≠ e.name) ∧
        stages = [.declaring n.id] := by
  have hclash := clash?_start_eq_some_iff h e
  rw [List.findSome?_eq_some_iff]
  constructor
  · rintro ⟨before, n, after, hnodes, hn, hfree⟩
    obtain ⟨function, type?, source, hk, hname, hf⟩ := (hclash n _).1 hn
    cases hf
    refine ⟨before, n, after, type?, source, hnodes, hk, hname, fun f hf => ?_, rfl⟩
    obtain ⟨m, hm, type?, source, hmk⟩ := mem_declaredNames.1 hf
    rw [← not_or]
    intro hbad
    have := (hclash m _).2 ⟨f, type?, source, hmk, hbad, rfl⟩
    rw [hfree m hm] at this
    cases this
  · rintro ⟨before, n, after, type?, source, hnodes, hk, hname, hfree, rfl⟩
    refine ⟨before, n, after, hnodes, (hclash n _).2 ⟨name, type?, source, hk, hname, rfl⟩, ?_⟩
    intro m hm
    rw [Option.eq_none_iff_forall_ne_some]
    intro f hf
    obtain ⟨function, type?, source, hmk, hbad, -⟩ := (hclash m f).1 hf
    have hgood := hfree function (mem_declaredNames.2 ⟨m, hm, type?, source, hmk⟩)
    exact hbad.elim hgood.1 hgood.2

theorem stage_functions_of_nil (h : k.before = []) {g : Graph} {e : EntryPoint}
    (hr : ∃ t, (k.start e).table.reserveMethods g.nodes = (t, none)) :
    (k.stage g e).table.functionNames = [] := by
  rw [SymbolTable.functionNames, (stage_declarations_of_nil h hr).2]
  rfl

/-- The functions in the header are those that the nodes declare. -/
theorem Passage.mem_functionNames {g : Graph} {e : EntryPoint} {r : Node} {ns : List Node}
    {d : Compilation} {xs : List Operand} (h : k.Passage g e r ns d xs) (name : String) :
    name ∈ d.closed.table.functionNames ↔ name ∈ declaredNames ns := by
  have hclosed : d.closed.table.functionNames = d.table.functionNames := by
    obtain ⟨identifiers, hd⟩ := d.closed_eq
    rw [hd]
    rfl
  have hrun := functions_run h.reserves h.run name
  rw [stage_functions_of_nil h.noHooks h.reserved] at hrun
  simpa [hclosed] using hrun

end Compiler

/-- **The names of functions are checked against keywords and the entry point,
    and against nothing else.**  A graph is refused for the name of a function
    exactly if that is a keyword or the entry point, and the first node with
    such a function is blamed.  Otherwise the functions of all nodes that are
    emitted are declared, whatever else their names may mean: that of a struct
    of the stage is as good as any. -/
theorem function_names_checked {ρ : Type} (k : Compiler ρ) (hbefore : k.before = [])
    (hafter : k.after = []) (g : Graph) (root : String) (e : EntryPoint) :
    (∀ stages name, (k.generate g root e).result = .error ⟨stages, .nameTaken name⟩ ↔
      ∃ before n after type? source, g.nodes = before ++ n :: after ∧
        n.kind = .declaredCall name type? source ∧ (name ∈ k.keywords ∨ name = e.name) ∧
        (∀ f ∈ declaredNames before, f ∉ k.keywords ∧ f ≠ e.name) ∧
        stages = [.declaring n.id]) ∧
    ∀ s, (k.generate g root e).result = .ok s →
      ∃ c b r ns, k.assemble g root e = .ok (c, b) ∧ s = Compiler.shader c b ∧
        g.node? root = some r ∧ g.order = .ok ns ∧
        (∀ name, name ∈ c.table.functionNames ↔ name ∈ declaredNames (Graph.emitted r ns)) ∧
        ∀ name ∈ c.table.functionNames, name ∉ k.keywords ∧ name ≠ e.name := by
  constructor
  · intro stages name
    have herror : (k.assemble g root e).map (fun r => Compiler.shader r.1 r.2) =
        .error ⟨stages, .nameTaken name⟩ ↔
        k.assemble g root e = .error ⟨stages, .nameTaken name⟩ := by
      cases k.assemble g root e <;> simp [Except.map]
    rw [k.generate_result g root e hafter, herror,
      Compiler.assemble_eq_nameTaken_iff hbefore g root e rfl,
      Compiler.findSome?_clash?_start hbefore]
  · intro s hs
    obtain ⟨c, b, hok, rfl⟩ := (k.generate_eq_ok_iff g root e hafter).1 hs
    obtain ⟨r, ns, d, xs, hroot, horder, hpass, -, rfl⟩ := Compiler.exists_passage hbefore hok
    refine ⟨d.closed, b, r, ns, hok, rfl, hroot, horder, hpass.mem_functionNames,
      fun name hname => ?_⟩
    obtain ⟨n, hn, type?, source, hk⟩ :=
      mem_declaredNames.1 ((hpass.mem_functionNames name).1 hname)
    exact (k.reserve_isOk_iff g e hbefore).1 hpass.reserved name
      (mem_declaredNames.2 ⟨n, hpass.mem_nodes n hn, type?, source, hk⟩)

namespace Sample

/-- A node without a name that nothing feeds, and that feeds the stage output. -/
def single (kind : NodeKind) : Graph where
  nodes :=
    [⟨"only", "", kind, [⟨"is", "", .output, none, none⟩]⟩,
      ⟨"out", "", .output, [⟨"shade", "", .input, none, none⟩]⟩]
  links := [⟨"1", ⟨"only", "is"⟩, ⟨"out", "shade"⟩⟩]

theorem single_order (kind : NodeKind) : (single kind).order = .ok (single kind).nodes := rfl

end Sample

/-- A function with the name of a keyword, and one with that of the struct that
    is returned. -/
theorem function_names_checked_single :
    ((Sample.compiler false []).generate
      (Sample.single (.declaredCall "return" (some "float") "")) "out" Sample.pixel).result =
        .error ⟨[.declaring "only"], .nameTaken "return"⟩ ∧
    ∃ c b, (Sample.compiler false []).assemble
        (Sample.single (.declaredCall "Pixel" (some "float") "")) "out" Sample.pixel = .ok (c, b) ∧
      "Pixel" ∉ (Sample.compiler false []).keywords ∧ "Pixel" ∈ c.table.functionNames := by
  constructor
  · exact ((function_names_checked (Sample.compiler false []) rfl rfl
      (Sample.single (.declaredCall "return" (some "float") "")) "out" Sample.pixel).1 _ _).2
      ⟨[], _, _, _, _, rfl, rfl, .inl (by decide), by simp [declaredNames], rfl⟩
  · obtain ⟨s, hs⟩ := Sample.exists_ok (r := ((Sample.compiler false []).generate
      (Sample.single (.declaredCall "Pixel" (some "float") "")) "out" Sample.pixel).result)
      (by decide +kernel)
    obtain ⟨c, b, r, ns, hok, -, -, -, -, hfree⟩ := (function_names_checked
      (Sample.compiler false []) rfl rfl
      (Sample.single (.declaredCall "Pixel" (some "float") "")) "out" Sample.pixel).2 s hs
    have hnames : ((Sample.compiler false []).assemble
        (Sample.single (.declaredCall "Pixel" (some "float") "")) "out" Sample.pixel).map
        (·.1.table.functionNames) = .ok ["Pixel"] := by decide +kernel
    rw [hok] at hnames
    have hmem : "Pixel" ∈ c.table.functionNames := by simp [Except.ok.inj hnames]
    exact ⟨c, b, hok, (hfree "Pixel" hmem).1, hmem⟩

/-- So a function and a struct may be declared under one name, be it that of the
    stage input or of the stage output. -/
theorem function_named_as_struct :
    ((Sample.compiler false []).assemble
      (Sample.single (.declaredCall "Pixel" (some "float") "")) "out" Sample.pixel).map
      (fun r => (r.1.table.structs.map Struct.name, r.1.table.functionNames)) =
        .ok (["Varying", "Pixel"], ["Pixel"]) ∧
    ((Sample.compiler false []).assemble
      (Sample.single (.declaredCall "Varying" (some "float") "")) "out" Sample.pixel).map
      (fun r => (r.1.table.structs.map Struct.name, r.1.table.functionNames)) =
        .ok (["Varying", "Pixel"], ["Varying"]) := by
  decide +kernel

end Shading
