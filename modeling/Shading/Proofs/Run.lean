/-
  Runs of a compiler.

  * `run_steps`: induction along the nodes that are emitted;
    `run_induct`, `run_induct_reached`, `run_isOk`: the same by what is planned
    and put in place; `run_induct₂`: the same along two runs at once.
  * `Compilation.Follows`: what stays as it is in a run.
  * `Compiler.stage`: the compilation when the stage is set up and no node is
    emitted yet.
  * `Compiler.assemble`: the compilation and the body of which `generate` makes
    a shader (`generate_eq_ok_iff`), and what it goes through if all goes well
    (`assemble_eq_ok_iff`).
-/
import Shading.Proofs.Emission
import Shading.Proofs.Order
import Shading.Proofs.SymbolTable

namespace Shading

namespace Compilation

variable {g : Graph}

/-! ## Emitting node after node -/

theorem emitAll_append (c : Compilation) (ns ms : List Node) :
    emitAll g c (ns ++ ms) =
      match emitAll g c ns with
      | (d, none) => emitAll g d ms
      | (d, some f) => (d, some f) := by
  induction ns generalizing c with
  | nil => rfl
  | cons n rest ih =>
    rw [List.cons_append, emitAll, emitAll]
    cases c.emit g n with
    | mk d r =>
      cases r with
      | error e => rfl
      | ok i => exact ih d

theorem emitAll_cons_eq_none_iff {c c' : Compilation} {n : Node} {rest : List Node} :
    emitAll g c (n :: rest) = (c', none) ↔
      ∃ d i, c.emit g n = (d, .ok i) ∧ emitAll g d rest = (c', none) := by
  rw [emitAll]
  cases c.emit g n with
  | mk d r => cases r <;> simp

/-- The root is emitted like any other node, if it has to be. -/
theorem emitRoot_eq_none_iff {c c' : Compilation} {root : Node} :
    c.emitRoot g root = (c', none) ↔
      emitAll g c (if root.kind.isOutput || c.isBound root.id then [] else [root]) =
        (c', none) := by
  unfold emitRoot
  split
  · rfl
  · rw [emitAll_cons_eq_none_iff]
    cases c.emit g root with
    | mk d r => cases r <;> simp [emitAll]

/-- The compilation after nodes and then the root, if nothing fails. -/
def emitNodes (c : Compilation) (g : Graph) (ns : List Node) (root : Node) :
    Compilation × Except Failure Node :=
  match emitAll g c ns with
  | (c, some f) => (c, .error f)
  | (c, none) =>
    match c.emitRoot g root with
    | (c, some f) => (c, .error f)
    | (c, none) => (c, .ok root)

theorem Emitted.reserves {c c' : Compilation} {n m : Node} {em : Emission}
    (h : c.Emitted n em c') (hm : c.table.Reserves m) : c'.table.Reserves m := by
  intro function type? source hk
  rw [h.methods]
  exact hm function type? source hk

/-- **Induction along a run.**  What holds at the start and is kept by every
    node that is emitted holds at the end.  Each step may use what the run has
    come to. -/
theorem run_steps {motive : List Node → Compilation → Prop} {c c' : Compilation}
    {ns : List Node} (h : emitAll g c ns = (c', none)) (start : motive [] c)
    (step : ∀ done n rest d i d', ns = done ++ n :: rest → emitAll g c done = (d, none) →
      motive done d → d.emit g n = (d', .ok i) → motive (done ++ [n]) d') : motive ns c' := by
  have key : ∀ (rest done : List Node) (d : Compilation), ns = done ++ rest →
      emitAll g c done = (d, none) → motive done d → emitAll g d rest = (c', none) →
      motive ns c' := by
    intro rest
    induction rest with
    | nil =>
      intro done d hns _ hd hrun
      rw [List.append_nil] at hns
      cases hrun
      exact hns ▸ hd
    | cons n rest ih =>
      intro done d hns hdone hd hrun
      obtain ⟨d', i, hemit, hrun⟩ := emitAll_cons_eq_none_iff.1 hrun
      refine ih (done ++ [n]) d' (by simp [hns]) ?_ (step done n rest d i d' hns hdone hd hemit)
        hrun
      rw [emitAll_append, hdone]
      exact emitAll_cons_eq_none_iff.2 ⟨d', i, hemit, rfl⟩
  exact key ns [] c rfl rfl start h

/-- Induction along a run of nodes whose functions have their names taken, by
    what is planned for a node and put in place. -/
theorem run_induct_reached {motive : List Node → Compilation → Prop} {c c' : Compilation}
    {ns : List Node} (hr : ∀ n ∈ ns, c.table.Reserves n) (h : emitAll g c ns = (c', none))
    (start : motive [] c)
    (step : ∀ done n rest d em d', ns = done ++ n :: rest → emitAll g c done = (d, none) →
      motive done d → d.plan g n = .ok em → d.Emitted n em d' → motive (done ++ [n]) d') :
    motive ns c' := by
  refine (run_steps (motive := fun done d => (∀ n ∈ ns, d.table.Reserves n) ∧ motive done d) h
    ⟨hr, start⟩ ?_).2
  rintro done n rest d i d' hns hdone ⟨hres, hd⟩ hemit
  obtain ⟨em, hplan, hem⟩ := emit_ok (hres n (by simp [hns])) hemit
  exact ⟨fun m hm => hem.reserves (hres m hm), step done n rest d em d' hns hdone hd hplan hem⟩

/-- Induction along a run, where steps depend on the last compilation only. -/
theorem run_induct {motive : List Node → Compilation → Prop} {c c' : Compilation} {ns : List Node}
    (hr : ∀ n ∈ ns, c.table.Reserves n) (h : emitAll g c ns = (c', none)) (start : motive [] c)
    (step : ∀ done n rest d em d', ns = done ++ n :: rest → motive done d →
      d.plan g n = .ok em → d.Emitted n em d' → motive (done ++ [n]) d') : motive ns c' :=
  run_induct_reached hr h start fun done n rest d em d' hns _ => step done n rest d em d' hns

/-- A run goes well if every node can be planned where it stands. -/
theorem run_isOk {motive : List Node → Compilation → Prop} {c : Compilation} {ns : List Node}
    (hr : ∀ n ∈ ns, c.table.Reserves n) (start : motive [] c)
    (plan : ∀ done n rest d, ns = done ++ n :: rest → motive done d → ∃ em, d.plan g n = .ok em)
    (step : ∀ done n rest d em d', ns = done ++ n :: rest → motive done d →
      d.plan g n = .ok em → d.Emitted n em d' → motive (done ++ [n]) d') :
    ∃ c', emitAll g c ns = (c', none) := by
  have key : ∀ (rest done : List Node) (d : Compilation), ns = done ++ rest →
      (∀ n ∈ rest, d.table.Reserves n) → motive done d → ∃ c', emitAll g d rest = (c', none) := by
    intro rest
    induction rest with
    | nil => exact fun done d _ _ _ => ⟨d, rfl⟩
    | cons n rest ih =>
      intro done d hns hres hd
      obtain ⟨d', i, hemit⟩ :=
        (emit_isOk_iff d n g (hres n (by simp))).2 (plan done n rest d hns hd)
      obtain ⟨em, hplan, hem⟩ := emit_ok (hres n (by simp)) hemit
      obtain ⟨c', hc'⟩ := ih (done ++ [n]) d' (by simp [hns])
        (fun m hm => hem.reserves (hres m (List.mem_cons_of_mem _ hm)))
        (step done n rest d em d' hns hd hplan hem)
      exact ⟨c', emitAll_cons_eq_none_iff.2 ⟨d', i, hemit, hc'⟩⟩
  exact key ns [] c rfl hr start

/-! ## What stays as it is -/

/-- The compilation `c` may come after `s` in a run. -/
structure Follows (s c : Compilation) : Prop where
  registry : c.registry = s.registry
  inline : c.inline = s.inline
  input : c.input = s.input
  output : c.output = s.output
  inputVar : c.inputVar = s.inputVar
  outputType : c.outputType = s.outputType
  accessViews : c.table.accessViews = s.table.accessViews
  structs : c.table.structs = s.table.structs
  methods : c.table.methods = s.table.methods
  operations : s.table.operations.map Operation.bare <+: c.table.operations.map Operation.bare
  resourceViews : s.table.resourceViews <+: c.table.resourceViews
  samplers : s.table.samplers <+: c.table.samplers

theorem Follows.refl (s : Compilation) : s.Follows s :=
  ⟨rfl, rfl, rfl, rfl, rfl, rfl, rfl, rfl, rfl, List.prefix_rfl, List.prefix_rfl, List.prefix_rfl⟩

theorem Follows.step {s c c' : Compilation} {n : Node} {em : Emission} (h : s.Follows c)
    (hem : c.Emitted n em c') : s.Follows c' where
  registry := hem.registry.trans h.registry
  inline := hem.inline.trans h.inline
  input := hem.input.trans h.input
  output := hem.output.trans h.output
  inputVar := hem.inputVar.trans h.inputVar
  outputType := hem.outputType.trans h.outputType
  accessViews := hem.accessViews.trans h.accessViews
  structs := hem.structs.trans h.structs
  methods := hem.methods.trans h.methods
  operations := h.operations.trans (hem.operations ▸ List.prefix_append _ _)
  resourceViews := h.resourceViews.trans (hem.resourceViews ▸ em.resourceViews_resources _ n)
  samplers := h.samplers.trans (hem.samplers ▸ em.samplers_resources _ n)

theorem run_follows {c c' : Compilation} {ns : List Node} (hr : ∀ n ∈ ns, c.table.Reserves n)
    (h : emitAll g c ns = (c', none)) : c.Follows c' :=
  run_induct (motive := fun _ d => c.Follows d) hr h (.refl c)
    fun _ _ _ _ _ _ _ hd _ hem => hd.step hem

/-- Names stay taken for functions. -/
theorem Follows.reserves {s c : Compilation} {n : Node} (h : s.Follows c)
    (hn : s.table.Reserves n) : c.table.Reserves n := by
  intro function type? source hk
  rw [h.methods]
  exact hn function type? source hk

theorem Follows.struct? {s c : Compilation} (h : s.Follows c) (name : String) :
    c.struct? name = s.struct? name := by
  simp only [Compilation.struct?, SymbolTable.struct?, h.input, h.output, h.structs]

/-- An operation keeps its index. -/
theorem Follows.getElem? {s c : Compilation} (h : s.Follows c) {i : Nat} {o : Operation}
    (ho : s.table.operations[i]? = some o) :
    (c.table.operations[i]?).map Operation.bare = some o.bare := by
  obtain ⟨rest, hrest⟩ := h.operations
  rw [← List.getElem?_map, ← hrest, List.getElem?_append_left, List.getElem?_map, ho,
    Option.map_some]
  simpa using (List.getElem?_eq_some_iff.1 ho).1

/-- **Induction along two runs** over the same nodes.  Each step may use that the
    rest of both runs follows it. -/
theorem run_induct₂ {motive : List Node → Compilation → Compilation → Prop}
    {c c' d d' : Compilation} {ns : List Node} (hr : ∀ n ∈ ns, c.table.Reserves n)
    (hr' : ∀ n ∈ ns, c'.table.Reserves n) (h : emitAll g c ns = (d, none))
    (h' : emitAll g c' ns = (d', none)) (start : motive [] c c')
    (step : ∀ done n rest s em s₁ s' em' s₁', ns = done ++ n :: rest → motive done s s' →
      s.plan g n = .ok em → s.Emitted n em s₁ → s'.plan g n = .ok em' → s'.Emitted n em' s₁' →
      s₁.Follows d → s₁'.Follows d' → motive (done ++ [n]) s₁ s₁') : motive ns d d' := by
  have key : ∀ (rest done : List Node) (s s' : Compilation), ns = done ++ rest →
      (∀ n ∈ rest, s.table.Reserves n) → (∀ n ∈ rest, s'.table.Reserves n) → motive done s s' →
      emitAll g s rest = (d, none) → emitAll g s' rest = (d', none) → motive ns d d' := by
    intro rest
    induction rest with
    | nil =>
      intro done s s' hns _ _ hs hrun hrun'
      rw [List.append_nil] at hns
      cases hrun
      cases hrun'
      exact hns ▸ hs
    | cons n rest ih =>
      intro done s s' hns hres hres' hs hrun hrun'
      obtain ⟨s₁, i, hemit, hrun⟩ := emitAll_cons_eq_none_iff.1 hrun
      obtain ⟨s₁', i', hemit', hrun'⟩ := emitAll_cons_eq_none_iff.1 hrun'
      obtain ⟨em, hplan, hem⟩ := emit_ok (hres n (by simp)) hemit
      obtain ⟨em', hplan', hem'⟩ := emit_ok (hres' n (by simp)) hemit'
      have hrest := fun m hm => hem.reserves (hres m (List.mem_cons_of_mem _ hm))
      have hrest' := fun m hm => hem'.reserves (hres' m (List.mem_cons_of_mem _ hm))
      exact ih (done ++ [n]) s₁ s₁' (by simp [hns]) hrest hrest'
        (step done n rest s em s₁ s' em' s₁' hns hs hplan hem hplan' hem'
          (run_follows hrest hrun) (run_follows hrest' hrun')) hrun hrun'
  exact key ns [] c c' rfl hr hr' start h h'

/-- The stage input keeps its name. -/
theorem Follows.inputOperation? {s c : Compilation} (h : s.Follows c) {o : Operation}
    (ho : s.inputOperation? = some o) : ∃ o', c.inputOperation? = some o' ∧ o'.bare = o.bare := by
  obtain ⟨i, hi, ho⟩ := Option.bind_eq_some_iff.1 ho
  obtain ⟨o', ho', hbare⟩ := Option.map_eq_some_iff.1 (h.getElem? ho)
  exact ⟨o', by rw [Compilation.inputOperation?, h.inputVar, hi, Option.bind_some, ho'], hbare⟩

theorem Follows.inputName {s c : Compilation} (h : s.Follows c) {o : Operation}
    (ho : s.inputOperation? = some o) : c.inputName = o.name := by
  obtain ⟨o', ho', hbare⟩ := h.inputOperation? ho
  simp only [Compilation.inputName, ho']
  exact Operation.name_of_bare hbare

end Compilation

/-! ## The stages of a run -/

namespace Compiler

variable {ρ : Type} (k : Compiler ρ) (g : Graph) (root : String) (e : EntryPoint)

/-- The compilation as it begins: only names are taken. -/
def start : Compilation :=
  k.compilation.start k.options.inline (runHooks k.before .empty).1 k.keywords e.name

/-- The compilation with the stage set up, before any node is emitted. -/
def stage : Compilation :=
  ({ k.start e with table := ((k.start e).table.reserveMethods g.nodes).1 }).defineStage e

/-- The compilation and the body of which a shader is made. -/
def assemble : Except Failure (Compilation × Body) :=
  match (k.start e).build g root e with
  | (_, .error f) => .error f
  | (c, .ok root) =>
    let (c, body) := c.body g root e.name k.options.semantic
    match body.failure with
    | some cause => .error ⟨[], cause⟩
    | none => .ok (c, body)

/-- The shader of a compilation and a body. -/
def shader (c : Compilation) (b : Body) : Shader :=
  ⟨sourceText c.table b, c.textureSlots, c.samplerSlots⟩

/-- What a compiler makes of the compilation of all nodes. -/
theorem generate_eq :
    k.generate g root e =
      match (k.start e).build g root e with
      | (c, .error f) =>
        ⟨{ k with compilation := c }, (runHooks k.before .empty).2, .error f⟩
      | (c, .ok root) =>
        let (table, late) := runHooks k.after c.table
        let (c, body) := ({ c with table := table }).body g root e.name k.options.semantic
        ⟨{ k with compilation := c }, (runHooks k.before .empty).2 ++ late,
          match body.failure with
          | some cause => .error ⟨[], cause⟩
          | none => .ok (shader c body)⟩ := rfl

/-- Without hooks at its end, a compiler makes its shader of the compilation and
    the body. -/
theorem generate_result (h : k.after = []) :
    (k.generate g root e).result = (k.assemble g root e).map fun r => shader r.1 r.2 := by
  rw [generate_eq]
  unfold assemble
  cases (k.start e).build g root e with
  | mk c r =>
    cases r with
    | error f => rfl
    | ok r =>
      simp only [h, runHooks]
      cases (c.body g r e.name k.options.semantic).2.failure <;> rfl

theorem generate_eq_ok_iff (h : k.after = []) {s : Shader} :
    (k.generate g root e).result = .ok s ↔
      ∃ c b, k.assemble g root e = .ok (c, b) ∧ s = shader c b := by
  rw [generate_result k g root e h]
  cases k.assemble g root e with
  | error f => simp [Except.map]
  | ok r => obtain ⟨c, b⟩ := r; simp [Except.map, eq_comm]

/-- The compilation that a compiler keeps, also of a graph that it refuses. -/
theorem generate_compilation (h : k.after = []) :
    (k.generate g root e).compiler.compilation =
      match (k.start e).build g root e with
      | (c, .error _) => c
      | (c, .ok r) => (c.body g r e.name k.options.semantic).1 := by
  rw [generate_eq]
  cases (k.start e).build g root e with
  | mk c r =>
    cases r with
    | error f => rfl
    | ok r => simp only [h, runHooks]

theorem generate_compilation_of_ok (h : k.after = []) {c : Compilation} {b : Body}
    (hok : k.assemble g root e = .ok (c, b)) : (k.generate g root e).compiler.compilation = c := by
  rw [generate_compilation k g root e h]
  unfold assemble at hok
  cases hbuild : (k.start e).build g root e with
  | mk d r =>
    rw [hbuild] at hok
    cases r with
    | error f => cases hok
    | ok r =>
      dsimp only at hok ⊢
      cases hf : (d.body g r e.name k.options.semantic).2.failure with
      | some cause => rw [hf] at hok; cases hok
      | none => rw [hf] at hok; exact congrArg Prod.fst (Except.ok.inj hok)

/-- What `build` goes through if all goes well. -/
theorem build_eq_ok_iff {c c' : Compilation} {r : Node} :
    c.build g root e = (c', .ok r) ↔
      (∃ t, c.table.reserveMethods g.nodes = (t, none)) ∧ g.node root = .ok r ∧
      ∃ ns d, g.order = .ok ns ∧
        Compilation.emitAll g (({ c with
          table := (c.table.reserveMethods g.nodes).1 }).defineStage e) ns = (d, none) ∧
        d.emitRoot g r = (c', none) := by
  constructor
  · intro h
    unfold Compilation.build at h
    cases ht : c.table.reserveMethods g.nodes with
    | mk t f =>
      cases f with
      | some f => simp only [ht] at h; cases h
      | none =>
        simp only [ht] at h
        cases hroot : g.node root with
        | error cause => simp only [hroot] at h; cases h
        | ok r' =>
          cases hord : g.order with
          | error cause => simp only [hroot, hord] at h; cases h
          | ok ns =>
            simp only [hroot, hord] at h
            split at h
            · cases h
            · rename_i d hrun
              split at h
              · cases h
              · rename_i d' hemit
                cases h
                exact ⟨⟨t, rfl⟩, rfl, ns, d, rfl, hrun, hemit⟩
  · rintro ⟨⟨t, ht⟩, hroot, ns, d, hord, hrun, hemit⟩
    rw [ht] at hrun
    simp only [Compilation.build, ht, hroot, hord, hrun, hemit]

/-- **What a compilation goes through** if it succeeds: the names of functions
    are taken, the linked nodes are emitted in their order, then the root if it
    has no value yet, and the body is written to its end. -/
theorem assemble_eq_ok_iff {c : Compilation} {b : Body} :
    k.assemble g root e = .ok (c, b) ↔
      (∃ t, (k.start e).table.reserveMethods g.nodes = (t, none)) ∧
      ∃ r ns d d', g.node root = .ok r ∧ g.order = .ok ns ∧
        Compilation.emitAll g (k.stage g e) ns = (d, none) ∧ d.emitRoot g r = (d', none) ∧
        d'.body g r e.name k.options.semantic = (c, b) ∧ b.failure = none := by
  unfold assemble
  constructor
  · intro h
    cases hbuild : (k.start e).build g root e with
    | mk d' r =>
      cases r with
      | error f => rw [hbuild] at h; cases h
      | ok r =>
        rw [hbuild] at h
        obtain ⟨ht, hroot, ns, d, hord, hrun, hemit⟩ := (build_eq_ok_iff g root e).1 hbuild
        dsimp only at h
        split at h
        · cases h
        · rename_i hfail
          cases h
          exact ⟨ht, r, ns, d, d', hroot, hord, hrun, hemit, rfl, hfail⟩
  · rintro ⟨ht, r, ns, d, d', hroot, hord, hrun, hemit, hbody, hfail⟩
    rw [(build_eq_ok_iff g root e).2 ⟨ht, hroot, ns, d, hord, hrun, hemit⟩]
    simp only [hbody, hfail]

/-- Nodes of the graph are emitted one after the other, then the body is
    written for the root. -/
theorem assemble_root {c : Compilation} {b : Body} (h : k.assemble g root e = .ok (c, b)) :
    (∃ t, (k.start e).table.reserveMethods g.nodes = (t, none)) ∧
      ∃ r ns d, g.node? root = some r ∧ (∀ n ∈ ns, n ∈ g.nodes) ∧
        Compilation.emitAll g (k.stage g e) ns = (d, none) ∧
        d.body g r e.name k.options.semantic = (c, b) ∧ b.failure = none := by
  obtain ⟨hreserve, r, ns, d, d', hroot, horder, hrun, hemit, hbody, hfail⟩ :=
    (k.assemble_eq_ok_iff g root e).1 h
  rw [Compilation.emitRoot_eq_none_iff] at hemit
  rw [Graph.node_eq_ok_iff] at hroot
  refine ⟨hreserve, r, ns ++ if r.kind.isOutput || d.isBound r.id then [] else [r], d', hroot,
    fun n hn => ?_, ?_, hbody, hfail⟩
  · rcases List.mem_append.1 hn with hn | hn
    · exact Graph.mem_of_order horder hn
    · split at hn
      · cases hn
      · rw [List.mem_singleton.1 hn]
        exact (Graph.mem_of_node? hroot).1
  · rw [Compilation.emitAll_append, hrun]
    exact hemit

theorem assemble_run {c : Compilation} {b : Body} (h : k.assemble g root e = .ok (c, b)) :
    (∃ t, (k.start e).table.reserveMethods g.nodes = (t, none)) ∧
      ∃ r ns d, (∀ n ∈ ns, n ∈ g.nodes) ∧ Compilation.emitAll g (k.stage g e) ns = (d, none) ∧
        d.body g r e.name k.options.semantic = (c, b) ∧ b.failure = none := by
  obtain ⟨hreserve, r, ns, d, -, hrest⟩ := k.assemble_root g root e h
  exact ⟨hreserve, r, ns, d, hrest⟩

end Compiler

/-! ## A graph to look at -/

namespace Sample

/-- Half of the red that a texture has where the stage input says. -/
def halfRed : Graph where
  nodes :=
    [⟨"in", "", .input, [⟨"uv", "", .output, none, none⟩]⟩,
      ⟨"tex", "Albedo", .texture,
        [⟨"at", "", .input, none, none⟩, ⟨"rgba", "", .output, none, none⟩]⟩,
      ⟨"parts", "", .split "", [⟨"of", "", .input, none, none⟩, ⟨"r", "", .output, none, none⟩]⟩,
      ⟨"half", "x", .constant "float", [⟨"is", "", .output, none, some "0.5"⟩]⟩,
      ⟨"mul", "x", .operator "*" "float",
        [⟨"a", "", .input, none, none⟩, ⟨"b", "", .input, none, none⟩,
          ⟨"ab", "", .output, none, none⟩]⟩,
      ⟨"out", "", .output, [⟨"shade", "", .input, none, none⟩]⟩]
  links :=
    [⟨"1", ⟨"in", "uv"⟩, ⟨"tex", "at"⟩⟩, ⟨"2", ⟨"tex", "rgba"⟩, ⟨"parts", "of"⟩⟩,
      ⟨"3", ⟨"parts", "r"⟩, ⟨"mul", "a"⟩⟩, ⟨"4", ⟨"half", "is"⟩, ⟨"mul", "b"⟩⟩,
      ⟨"5", ⟨"mul", "ab"⟩, ⟨"out", "shade"⟩⟩]

/-- The same graph with a link that closes a cycle. -/
def looped : Graph :=
  ⟨halfRed.nodes, ⟨"0", ⟨"mul", "ab"⟩, ⟨"tex", "at"⟩⟩ :: halfRed.links⟩

theorem halfRed_distinctIds : halfRed.DistinctIds := by
  unfold Graph.DistinctIds
  decide

/-- An entry point that takes coordinates to a shade. -/
def pixel : EntryPoint where
  name := "main"
  input := ⟨"Varying", [⟨"uv", .floats 2⟩]⟩
  output := ⟨"Pixel", [⟨"shade", .floats 1⟩]⟩
  definesInput := true
  definesOutput := true

/-- A compiler that knows one type, and names that hooks have taken. -/
def compiler (inline : Bool) (names : List String) : Compiler Unit where
  compilation := .fresh ⟨⟨[("float", .floats 1)]⟩⟩
  keywords := ["float", "return"]
  options := ⟨inline, "SV_TARGET"⟩
  before := names.map fun name t => (t.claim name, ())
  after := []

theorem compiler_proper (inline : Bool) (names : List String) :
    ∀ hook ∈ (compiler inline names).before, hook.Proper := by
  intro hook hmem
  obtain ⟨name, -, rfl⟩ := List.mem_map.1 hmem
  exact fun t => .single (.claim t name)

theorem exists_ok {α : Type} {r : Except Failure α} (h : r.isOk = true) : ∃ a, r = .ok a := by
  cases r with
  | error f => cases h
  | ok a => exact ⟨a, rfl⟩

end Sample

end Shading
