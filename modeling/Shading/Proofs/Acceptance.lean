/-
  Which graphs a compiler without hooks accepts.

  * `Graph.Emittable`: what has to hold of a node that matters, said of the graph
    alone.
  * `Graph.Acceptable`: what has to hold of a graph as a whole.
  * `emittable_of_plan`, `plan_of_emittable`: where the nodes before it are done,
    a node can be planned exactly if it is emittable and no second stage input.
  * `generate_isOk_iff`: the compiler makes a shader exactly of the acceptable
    graphs.
-/
import Shading.Proofs.Body
import Shading.Proofs.Typing

namespace Shading

/-! ## Casts -/

namespace ValueType

theorem isResource_bare (a : ValueType) : a.bare.isResource = a.isResource := by
  cases a <;> rfl

theorem same_isResource {a b : ValueType} (h : a.same b = true) : a.isResource = b.isResource := by
  rw [← isResource_bare a, ← isResource_bare b, eq_of_beq h]

theorem isScalar_bare (a : ValueType) : a.bare.isScalar = a.isScalar := by
  cases a with
  | numeric shape semantic => cases shape <;> rfl
  | resource | struct => rfl

theorem same_isScalar {a b : ValueType} (h : a.same b = true) : a.isScalar = b.isScalar := by
  rw [← isScalar_bare a, ← isScalar_bare b, eq_of_beq h]

theorem isScalar_of_isUnknown {a : ValueType} (h : a.isUnknown = true) : a.isScalar = true := by
  unfold isUnknown at h
  split at h
  · rfl
  · cases h

theorem castFrom_isOk_iff {a b : ValueType} :
    (∃ l, a.castFrom b = .ok l) ↔
      a.isResource = false ∧
        (a.same b = true ∨ b.isResource = false ∧ b.isUnknown = false) := by
  unfold castFrom castTarget
  cases a.isResource with
  | true => simp
  | false =>
    cases a.same b with
    | true => simp
    | false =>
      cases b.isResource with
      | true => simp [Functor.map, Except.map]
      | false => cases b.isUnknown <;> simp [Functor.map, Except.map]

end ValueType

/-- Operands of different types, neither of them a scalar, can be taken to the
    type of the result unless one of the three types is a resource or the last
    is unknown. -/
theorem Compilation.exists_casts_iff {a b type : ValueType} :
    (∃ l r, Casts a b type l r) ↔
      (a.needCast b = true → a.isResource = false ∧ b.isResource = false ∧
        type.isResource = false ∧ type.isUnknown = false) := by
  unfold Casts
  cases hneed : a.needCast b with
  | false => simp
  | true =>
    simp only [if_true, exists_and_left, exists_and_right, forall_const,
      ValueType.castFrom_isOk_iff]
    unfold ValueType.needCast at hneed
    simp only [Bool.and_eq_true, Bool.not_eq_true'] at hneed
    obtain ⟨⟨-, ha⟩, hb⟩ := hneed
    -- a type like that of an operand is no resource and no scalar either
    have hsame : ∀ {x : ValueType}, x.isScalar = false → x.isResource = false →
        x.same type = true → type.isResource = false ∧ type.isUnknown = false := by
      intro x hx hr hs
      refine ⟨(ValueType.same_isResource hs).symm.trans hr, ?_⟩
      by_contra hu
      have := ValueType.isScalar_of_isUnknown (by simpa using hu)
      rw [← ValueType.same_isScalar hs, hx] at this
      cases this
    constructor
    · rintro ⟨⟨har, hat⟩, hbr, -⟩
      exact ⟨har, hbr, hat.elim (hsame ha har) id⟩
    · rintro ⟨har, hbr, ht⟩
      exact ⟨⟨har, Or.inr ht⟩, hbr, Or.inr ht⟩

/-! ## Acceptable graphs -/

namespace Graph

/-- The links into input pins of a node begin at nodes that have values. -/
def Fed (g : Graph) (n : Node) (slots : List Nat) : Prop :=
  ∀ i ∈ slots, ∀ l producer, g.linkInto? n i = some l → g.node? l.source.node = some producer →
    producer.yieldsValue = true

/-- What has to hold of a node that is to be emitted. -/
structure Emittable (r : TypeRegistry) (e : EntryPoint) (g : Graph) (n : Node) : Prop where
  /-- What it reads has a value. -/
  fed : g.Fed n (n.slots r)
  /-- A mask or a pack has a type of one to four components. -/
  sized : ∀ type, (∃ components, n.kind = .mask components type) ∨ n.kind = .pack type →
    ∃ size, (r.parse type).components = some size ∧ 1 ≤ size ∧ size ≤ 4
  /-- A constant has a type, or else its first output pin has. -/
  typed : ∀ type, n.kind = .constant type →
    (Text.content type).isSome = true ∨
      ∃ p text, n.outputs.head? = some p ∧ p.type? = some text ∧
        (Text.content text).isSome = true
  /-- Operands that need casts can be cast. -/
  castable : ∀ op type a b, n.kind = .operator op type → SlotType r e g n 0 a →
    SlotType r e g n 1 b → a.needCast b = true →
    a.isResource = false ∧ b.isResource = false ∧ (r.parse type).isResource = false ∧
      (r.parse type).isUnknown = false

/-- The input pins of the root that are read for the stage output. -/
def rootSlots (e : EntryPoint) (root : Node) : List Nat :=
  if e.outputType.isStruct then List.range e.output.fields.length
  else if root.kind.isOutput then [0]
  else []

/-- What has to hold of a graph with a root node. -/
structure AcceptableAt (r : TypeRegistry) (e : EntryPoint) (g : Graph) (root : Node) : Prop where
  nodes : ∀ n, g.Live root n → g.Emittable r e n
  oneInput : ∀ n m, g.Live root n → g.Live root m → n.kind = .input → m.kind = .input → n = m
  fed : g.Fed root (rootSlots e root)
  /-- A single value comes from the stage output or from a root that has one. -/
  value : e.outputType.isStruct = false → root.kind.isOutput = false → root.yieldsValue = true

/-- What has to hold of a graph to be compiled. -/
structure Acceptable (keywords : List String) (r : TypeRegistry) (e : EntryPoint) (g : Graph)
    (root : String) : Prop where
  functions : ∀ f ∈ SymbolTable.declaredNames g.nodes, f ∉ keywords ∧ f ≠ e.name
  closed : g.Closed
  acyclic : g.Acyclic
  root : ∃ n, g.node? root = some n ∧ g.AcceptableAt r e n

end Graph

/-! ## Nodes -/

namespace Compilation

open Shading.Graph

variable {r : TypeRegistry} {e : EntryPoint} {g : Graph} {d : Compilation} {done : List Node}
  {n : Node}

theorem exists_constantType?_iff {type : String} :
    (∃ t, constantType? r n type = some t) ↔
      (Text.content type).isSome = true ∨
        ∃ p text, n.outputs.head? = some p ∧ p.type? = some text ∧
          (Text.content text).isSome = true := by
  rw [← Option.isSome_iff_exists, constantType?, Option.isSome_or, Bool.or_eq_true]
  refine or_congr (by simp [TypeRegistry.parse?]) ?_
  cases n.outputs.head? with
  | none => simp
  | some p => cases hp : p.type? <;> simp [hp, TypeRegistry.parse?]

/-- What a plan says about the node. -/
theorem emittable_of_plan (h : Typed r e g done d) (hids : g.DistinctIds)
    (hready : g.Ready done n) {em : Emission} (hplan : d.plan g n = .ok em) :
    g.Emittable r e n ∧ (n.kind = .input → ∀ m ∈ done, m.kind ≠ .input) := by
  obtain ⟨xs, hxs, -⟩ := plan_eq_ok_iff.1 hplan
  rw [h.registry] at hxs
  refine ⟨⟨?_, ?_, ?_, ?_⟩, ?_⟩
  · have hall := operandsNo_isOk_iff.1 ⟨xs, operandsNo_eq_ok_iff.2 hxs⟩
    exact fun i hi => (h.operandNo_isOk_iff hids hready i).1 (hall i hi)
  · intro type hk
    cases ha : d.arity n type with
    | ok size =>
      rw [← h.registry]
      exact ⟨size, arity_eq_ok_iff.1 ha⟩
    | error cause => rcases hk with ⟨components, hk⟩ | hk <;> simp [plan, hk, ha] at hplan
  · intro type hk
    rw [plan, hk] at hplan
    obtain ⟨t, ht, -⟩ := planConstant_eq_ok_iff.1 hplan
    exact exists_constantType?_iff.1 ⟨t, ht⟩
  · intro op type a b hk ha hb
    simp only [plan, hk] at hplan
    cases hx : d.operandNo g n 0 with
    | error cause => rw [hx] at hplan; cases hplan
    | ok x =>
      cases hy : d.operandNo g n 1 with
      | error cause => rw [hx, hy] at hplan; cases hplan
      | ok y =>
        rw [hx, hy] at hplan
        obtain ⟨l, r', hcasts, -⟩ := ofOperator_eq_ok_iff.1 hplan
        rw [ha.unique (h.slotType hids hready hx), hb.unique (h.slotType hids hready hy),
          ← h.registry]
        exact exists_casts_iff.1 ⟨l, r', hcasts⟩
  · intro hk m hm hmk
    rw [plan, hk] at hplan
    obtain ⟨hnone, -⟩ := planInput_eq_ok_iff.1 hplan
    have := h.input.2 ⟨m, hm, hmk⟩
    rw [hnone] at this
    cases this

/-- A node of which all this holds can be planned. -/
theorem plan_of_emittable (h : Typed r e g done d) (hids : g.DistinctIds)
    (hready : g.Ready done n) (hn : g.Emittable r e n)
    (hinput : n.kind = .input → ∀ m ∈ done, m.kind ≠ .input) : ∃ em, d.plan g n = .ok em := by
  obtain ⟨xs, hxs⟩ : ∃ xs, d.operandsNo g n (n.slots d.registry) = .ok xs := by
    refine operandsNo_isOk_iff.2 fun i hi => (h.operandNo_isOk_iff hids hready i).2 ?_
    exact hn.fed i (h.registry ▸ hi)
  have hsized : ∀ type, (∃ components, n.kind = .mask components type) ∨ n.kind = .pack type →
      ∃ size, d.arity n type = .ok size := by
    intro type hk
    obtain ⟨size, hsize⟩ := hn.sized type hk
    exact ⟨size, arity_eq_ok_iff.2 (by rwa [h.registry])⟩
  suffices hmade : ∃ em, d.Made n xs em by
    obtain ⟨em, hmade⟩ := hmade
    exact ⟨em, plan_of_made hxs hmade⟩
  unfold Node.slots at hxs
  cases hk : n.kind with
  | texture =>
    simp only [hk] at hxs
    obtain ⟨x, -, rfl⟩ := operandsNo_singleton hxs
    exact ⟨_, .sample hk⟩
  | convert last =>
    simp only [hk] at hxs
    obtain ⟨x, -, rfl⟩ := operandsNo_singleton hxs
    exact ⟨_, .convert hk⟩
  | split type =>
    simp only [hk] at hxs
    obtain ⟨x, -, rfl⟩ := operandsNo_singleton hxs
    exact ⟨_, .split hk⟩
  | mask components type =>
    simp only [hk] at hxs
    obtain ⟨x, -, rfl⟩ := operandsNo_singleton hxs
    obtain ⟨size, hsize⟩ := hsized type (Or.inl ⟨components, hk⟩)
    exact ⟨_, .mask hk hsize⟩
  | operator op type =>
    simp only [hk] at hxs
    obtain ⟨x, y, hx, hy, rfl⟩ := operandsNo_pair hxs
    have hcast := hn.castable op type _ _ hk (h.slotType hids hready hx)
      (h.slotType hids hready hy)
    rw [← h.registry] at hcast
    obtain ⟨l, r', hcasts⟩ := exists_casts_iff.2 hcast
    exact ⟨_, .operator hk hcasts⟩
  | call function type => exact ⟨_, .call hk⟩
  | voidCall function => exact ⟨_, .voidCall hk⟩
  | declaredCall function type source => exact ⟨_, .declaredCall hk⟩
  | pack type =>
    obtain ⟨size, hsize⟩ := hsized type (Or.inr hk)
    exact ⟨_, .pack hk hsize⟩
  | constant type =>
    simp only [hk, operandsNo] at hxs
    cases hxs
    obtain ⟨t, ht⟩ := exists_constantType?_iff.2 (hn.typed type hk)
    exact ⟨_, .constant hk ht⟩
  | input =>
    simp only [hk, operandsNo] at hxs
    cases hxs
    obtain ⟨o, ho, -⟩ := h.stage
    obtain ⟨i, hi, -⟩ := Option.bind_eq_some_iff.1 ho
    refine ⟨_, .input hk ?_ hi⟩
    by_contra hsome
    obtain ⟨m, hm, hmk⟩ := h.input.1 (by simpa [Option.isSome_iff_ne_none] using hsome)
    exact hinput hk m hm hmk
  | output =>
    simp only [hk, operandsNo] at hxs
    cases hxs
    exact ⟨_, .output hk⟩

/-- The values of the root that are returned can be read exactly if the sources
    of its pins, or the root itself, have values. -/
theorem rootValue_isOk_iff (h : Typed r e g done d) (hids : g.DistinctIds) {root : Node}
    (hready : g.Ready done root) (hroot : root.kind.isOutput = false → root ∈ done)
    (hout : d.output = e.output) (htype : d.outputType = e.outputType) :
    (∀ i < d.resultCount, ∃ x, d.rootValue g root i = .ok x) ↔
      g.Fed root (rootSlots e root) ∧
        (e.outputType.isStruct = false → root.kind.isOutput = false →
          root.yieldsValue = true) := by
  unfold resultCount rootValue rootSlots Fed
  rw [hout, htype]
  cases e.outputType.isStruct with
  | true => simp [h.operandNo_isOk_iff hids hready]
  | false =>
    cases hkind : root.kind.isOutput with
    | true => simp [h.operandNo_isOk_iff hids hready]
    | false =>
      have hvalue := (h.valueOf hids (hroot hkind) none).1
      simp [nodeValue, hvalue]

end Compilation

/-! ## Graphs -/

namespace Compiler

open Compilation Shading.Graph

variable {ρ : Type} {k : Compiler ρ} {g : Graph} {e : EntryPoint}

/-- Without hooks structs are looked up among those of the stage. -/
theorem stage_struct? (h : k.before = [])
    (hr : ∃ t, (k.start e).table.reserveMethods g.nodes = (t, none)) (name : String) :
    (k.stage g e).struct? name = e.struct? name := by
  unfold Compilation.struct? EntryPoint.struct?
  rw [stage_input, stage_output]
  split
  · rfl
  · rename_i hin
    split
    · rfl
    · rename_i hout
      refine List.find?_eq_none.2 fun s hs => ?_
      rcases mem_stage_structs h hr hs with rfl | rfl
      · simpa using hin
      · simpa using hout

theorem typed_stage (h : k.before = [])
    (hr : ∃ t, (k.start e).table.reserveMethods g.nodes = (t, none)) :
    Typed k.compilation.registry e g [] (k.stage g e) where
  nodes := by simp
  registry := rfl
  struct? := stage_struct? h hr
  stage := ⟨_, k.stage_inputOperation? g e, rfl⟩
  bound := by simp
  mem_of_isBound := by simp [isBound, Dict.contains]
  input := by simp

variable (h : k.before = []) (hids : g.DistinctIds)
  (hr : ∃ t, (k.start e).table.reserveMethods g.nodes = (t, none))
  {root : Node} {ns : List Node} (hns : g.IsSchedule root ns)
include h hids hr hns

/-- A run keeps its types, emits only emittable nodes, and only one stage
    input. -/
theorem run_emittable {d : Compilation}
    (hrun : emitAll g (k.stage g e) ns = (d, none)) :
    Typed k.compilation.registry e g ns d ∧
      (∀ n ∈ ns, g.Emittable k.compilation.registry e n) ∧
      ∀ n ∈ ns, ∀ m ∈ ns, n.kind = .input → m.kind = .input → n = m := by
  have hreserves := k.stage_reserves g e (k.proper_of_nil h) hr
  refine run_induct (motive := fun done d => Typed k.compilation.registry e g done d ∧
      (∀ n ∈ done, g.Emittable k.compilation.registry e n) ∧
      ∀ n ∈ done, ∀ m ∈ done, n.kind = .input → m.kind = .input → n = m)
    (fun n hn => hreserves n ((hns.mem_iff n).1 hn).1) hrun
    ⟨typed_stage h hr, by simp, by simp⟩ ?_
  rintro done n rest d em d' hsplit ⟨hd, hdone, hone⟩ hplan hem
  have hn : n ∈ g.nodes := ((hns.mem_iff n).1 (by rw [hsplit]; simp)).1
  have hready := hns.ready hids hsplit
  obtain ⟨hemittable, hinput⟩ := emittable_of_plan hd hids hready hplan
  refine ⟨hd.step hids hn hready (fun m hm => hns.id_ne hids hsplit hm) hplan hem, ?_, ?_⟩
  · intro m hm
    rcases List.mem_append.1 hm with hm | hm
    · exact hdone m hm
    · exact List.mem_singleton.1 hm ▸ hemittable
  · intro m hm m' hm' hk hk'
    rw [List.mem_append, List.mem_singleton] at hm hm'
    rcases hm with hm | rfl <;> rcases hm' with hm' | rfl
    · exact hone m hm m' hm' hk hk'
    · exact absurd hk (hinput hk' m hm)
    · exact absurd hk' (hinput hk m' hm')
    · rfl

/-- A run over emittable nodes goes well. -/
theorem run_isOk_of_emittable
    (hnodes : ∀ n ∈ ns, g.Emittable k.compilation.registry e n)
    (hone : ∀ n ∈ ns, ∀ m ∈ ns, n.kind = .input → m.kind = .input → n = m) :
    ∃ d, emitAll g (k.stage g e) ns = (d, none) := by
  have hreserves := k.stage_reserves g e (k.proper_of_nil h) hr
  refine run_isOk (motive := Typed k.compilation.registry e g)
    (fun n hn => hreserves n ((hns.mem_iff n).1 hn).1) (typed_stage h hr) ?_ ?_
  · intro done n rest d hsplit hd
    have hmem : n ∈ ns := by rw [hsplit]; simp
    refine plan_of_emittable hd hids (hns.ready hids hsplit) (hnodes n hmem) ?_
    intro hk m hm hmk
    have hm' : m ∈ ns := by rw [hsplit]; exact List.mem_append_left _ hm
    exact hns.id_ne hids hsplit hm (by rw [hone m hm' n hmem hmk hk])
  · intro done n rest d em d' hsplit hd hplan hem
    have hn : n ∈ g.nodes := ((hns.mem_iff n).1 (by rw [hsplit]; simp)).1
    exact hd.step hids hn (hns.ready hids hsplit)
      (fun m hm => hns.id_ne hids hsplit hm) hplan hem

/-- After a run the body can be written exactly if the root has what it
    returns. -/
theorem run_body_iff {d : Compilation} (hclosed : g.Closed)
    (hrun : emitAll g (k.stage g e) ns = (d, none)) (hroot : root ∈ g.nodes) (semantic : String) :
    (d.body g root e.name semantic).2.failure = none ↔
      g.Fed root (rootSlots e root) ∧
        (e.outputType.isStruct = false → root.kind.isOutput = false →
          root.yieldsValue = true) := by
  have hreserves := k.stage_reserves g e (k.proper_of_nil h) hr
  have hfollows := run_follows (fun n hn => hreserves n ((hns.mem_iff n).1 hn).1) hrun
  have htyped := (run_emittable h hids hr hns hrun).1
  rw [body_failure_eq_none_iff]
  refine rootValue_isOk_iff htyped hids ?_ ?_ (by rw [hfollows.output]; rfl)
    (by rw [hfollows.outputType]; rfl)
  · exact hns.ready_of_closed hclosed root
  · exact fun hout => (hns.mem_iff root).2 ⟨hroot, Or.inr ⟨rfl, hout⟩⟩

end Compiler

open Compiler in
/-- Where ids are distinct, a compilation without hooks goes well exactly if the
    graph is acceptable. -/
theorem Compiler.assemble_isOk_iff {ρ : Type} (k : Compiler ρ) (h : k.before = []) (g : Graph)
    (hids : g.DistinctIds) (root : String) (e : EntryPoint) :
    (∃ c b, k.assemble g root e = .ok (c, b)) ↔
      g.Acceptable k.keywords k.compilation.registry e root := by
  simp only [k.assemble_eq_ok_iff_schedule g root e (k.proper_of_nil h) hids]
  constructor
  · rintro ⟨c, b, hreserve, r, ns, d, hroot, horder, hrun, hbody, hfail⟩
    obtain ⟨hclosed, hacyclic⟩ := (Graph.order_isOk_iff g).1 ⟨ns, horder⟩
    have hmem := (Graph.mem_of_node? hroot).1
    have hns := (Graph.order_isOrder hids horder).schedule hmem
    obtain ⟨-, hnodes, hone⟩ := run_emittable h hids hreserve hns hrun
    obtain ⟨hfed, hvalue⟩ := (run_body_iff h hids hreserve hns hclosed hrun hmem
      k.options.semantic).1 (by rw [hbody]; exact hfail)
    refine ⟨(k.reserve_isOk_iff g e h).1 hreserve, hclosed, hacyclic, r, hroot, ?_⟩
    refine ⟨fun n hn => hnodes n ((hns.mem_iff n).2 hn), fun n m hn hm => ?_, hfed, hvalue⟩
    exact hone n ((hns.mem_iff n).2 hn) m ((hns.mem_iff m).2 hm)
  · rintro ⟨hfunctions, hclosed, hacyclic, r, hroot, hok⟩
    obtain ⟨ns, horder⟩ := (Graph.order_isOk_iff g).2 ⟨hclosed, hacyclic⟩
    have hmem := (Graph.mem_of_node? hroot).1
    have hns := (Graph.order_isOrder hids horder).schedule hmem
    have hreserve := (k.reserve_isOk_iff g e h).2 hfunctions
    obtain ⟨d, hrun⟩ := run_isOk_of_emittable h hids hreserve hns
      (fun n hn => hok.nodes n ((hns.mem_iff n).1 hn))
      (fun n hn m hm => hok.oneInput n m ((hns.mem_iff n).1 hn) ((hns.mem_iff m).1 hm))
    have hfail := (run_body_iff h hids hreserve hns hclosed hrun hmem
      k.options.semantic).2 ⟨hok.fed, hok.value⟩
    exact ⟨_, _, hreserve, r, ns, d, hroot, horder, hrun, rfl, hfail⟩

/-- **Exact acceptance.**  Where ids are distinct, a compiler without hooks makes
    a shader of a graph exactly if the graph is acceptable. -/
theorem generate_isOk_iff {ρ : Type} (k : Compiler ρ) (hbefore : k.before = [])
    (hafter : k.after = []) (g : Graph) (hids : g.DistinctIds) (root : String) (e : EntryPoint) :
    (∃ s, (k.generate g root e).result = .ok s) ↔
      g.Acceptable k.keywords k.compilation.registry e root := by
  simp only [← k.assemble_isOk_iff hbefore g hids, k.generate_eq_ok_iff g root e hafter]
  constructor
  · rintro ⟨_, c, b, hok, -⟩
    exact ⟨c, b, hok⟩
  · rintro ⟨c, b, hok⟩
    exact ⟨_, c, b, hok, rfl⟩

/-- The sample is acceptable, but not with a link that closes a cycle. -/
theorem generate_isOk_iff_halfRed :
    Sample.halfRed.Acceptable ["float", "return"] ⟨⟨[("float", .floats 1)]⟩⟩ Sample.pixel "out" ∧
      ¬ Sample.looped.Acceptable ["float", "return"] ⟨⟨[("float", .floats 1)]⟩⟩
        Sample.pixel "out" := by
  constructor
  · exact (generate_isOk_iff (Sample.compiler false []) rfl rfl Sample.halfRed
      Sample.halfRed_distinctIds "out" Sample.pixel).1 (Sample.exists_ok (by decide +kernel))
  · intro hok
    obtain ⟨s, hs⟩ := (generate_isOk_iff (Sample.compiler false []) rfl rfl Sample.looped
      Sample.halfRed_distinctIds "out" Sample.pixel).2 hok
    have hfail : ((Sample.compiler false []).generate Sample.looped "out"
      Sample.pixel).result.isOk = false := by decide +kernel
    rw [hs] at hfail
    cases hfail

end Shading
