/-
  Compilations of graphs whose nodes are renamed.

  * `Compilation.Renamed`: two compilations differ in the ids of nodes only, and
    in the record of who uses what, which has ids for effects.
  * `Renamed.plan`, `Renamed.emit`: in two such compilations a node fails for
    the same cause, or is emitted alike (`Compilation.Matched`).
  * `renaming_changes_ids_only`: so it is with a whole compilation.
-/
import Shading.Proofs.Renaming
import Shading.Proofs.Stage

namespace Shading

/-! ## Compilations that differ in ids -/

/-- Two tables differ in the nodes of their operations only, and in the record of
    uses. -/
structure SymbolTable.Renamed (f : String → String) (t t' : SymbolTable) : Prop where
  identifiers : t'.identifiers = t.identifiers
  methods : t'.methods = t.methods
  structs : t'.structs = t.structs
  accessViews : t'.accessViews = t.accessViews
  resourceViews : t'.resourceViews = t.resourceViews
  samplers : t'.samplers = t.samplers
  constantBuffers : t'.constantBuffers = t.constantBuffers
  functions : t'.functions = t.functions
  operations : t'.operations.map Operation.bare =
    (t.operations.map Operation.bare).map (Operation.rename f)

namespace SymbolTable.Renamed

variable {f : String → String} {t t' : SymbolTable} (h : t.Renamed f t')
include h

theorem forms : t'.operations.map Operation.form = t.operations.map Operation.form := by
  simpa [Function.comp_def, Operation.bare, Operation.rename] using
    congrArg (List.map Operation.form) h.operations

theorem length : t'.operations.length = t.operations.length := by
  simpa using congrArg List.length h.forms

theorem getElem? (i : Nat) :
    (t'.operations[i]?).map Operation.form = (t.operations[i]?).map Operation.form := by
  rw [← List.getElem?_map, ← List.getElem?_map, h.forms]

theorem header (out : Source) : t'.header out = t.header out := by
  simp only [SymbolTable.header, h.accessViews, h.resourceViews, h.samplers, h.structs,
    h.constantBuffers, h.functions]

theorem reserves {n : Node} (hr : t.Reserves n) : t'.Reserves (n.rename f) := by
  intro function type? source hk
  rw [h.methods]
  exact hr function type? source hk

theorem functionsWith (n : Node) : t'.functionsWith (n.rename f) = t.functionsWith n := by
  simp only [SymbolTable.functionsWith, SymbolTable.hasFunction, h.functions]
  rfl

theorem withFunctions (fs : List Function) :
    SymbolTable.Renamed f { t with functions := fs } { t' with functions := fs } :=
  ⟨h.identifiers, h.methods, h.structs, h.accessViews, h.resourceViews, h.samplers,
    h.constantBuffers, rfl, h.operations⟩

theorem claim (name : String) : (t.claim name).Renamed f (t'.claim name) :=
  ⟨congrArg (·.insert name) h.identifiers, h.methods, h.structs, h.accessViews, h.resourceViews,
    h.samplers, h.constantBuffers, h.functions, h.operations⟩

end SymbolTable.Renamed

/-! ## Emissions -/

namespace Emission

variable (f : String → String) (t : SymbolTable) (n : Node) (em : Emission)

/-- A cast that cannot be made names no node. -/
theorem castFrom_rename (a b : ValueType) :
    (a.castFrom b).mapError (Cause.rename f) = a.castFrom b := by
  unfold ValueType.castFrom ValueType.castTarget
  split
  · rfl
  · split
    · rfl
    · split <;> rfl

theorem ofOperator_rename (op : String) (left right : Operand) (type : ValueType) :
    (ofOperator op left right type).mapError (Cause.rename f) = ofOperator op left right type := by
  have hleft := castFrom_rename f left.type type
  have hright := castFrom_rename f right.type type
  unfold ofOperator
  split
  · cases hl : left.type.castFrom type with
    | error e => rw [hl] at hleft; exact congrArg Except.error (Except.error.inj hleft)
    | ok l =>
      cases hr : right.type.castFrom type with
      | error e => rw [hr] at hright; exact congrArg Except.error (Except.error.inj hright)
      | ok r => rfl
  · rfl

/-- The names of resources come from the name of a node, not from its id. -/
theorem resources_rename : em.resources t (n.rename f) = em.resources t n := by
  cases em <;> rfl

theorem operation?_rename :
    em.operation? t (n.rename f) = (em.operation? t n).map (Operation.rename f) := by
  cases em <;> rfl

theorem install_identifiers_rename :
    (em.install t (n.rename f)).identifiers = (em.install t n).identifiers := by
  unfold install
  rw [operation?_rename, resources_rename]
  cases em.operation? t n with
  | none => rfl
  | some o =>
    have hname : (o.rename f).name = o.name := rfl
    dsimp only [Option.map_some, SymbolTable.addOperation]
    rw [hname]
    split <;> rfl

end Emission

namespace Compilation

variable {f : String → String} {ids : List String} {g g' : Graph} {n : Node}
  {c c' d d' : Compilation} {em : Emission}

/-- Two compilations differ in the ids of nodes only, and in the record of
    uses. -/
structure Renamed (f : String → String) (ids : List String) (c c' : Compilation) : Prop where
  registry : c'.registry = c.registry
  inline : c'.inline = c.inline
  input : c'.input = c.input
  output : c'.output = c.output
  inputVar : c'.inputVar = c.inputVar
  outputType : c'.outputType = c.outputType
  inputNode : c'.inputNode = c.inputNode.map f
  bindings : c.bindings.Renamed f ids c'.bindings
  textureSlots : c.textureSlots.Renamed f ids c'.textureSlots
  samplerSlots : c.samplerSlots.Renamed f ids c'.samplerSlots
  table : c.table.Renamed f c'.table

/-- Two runs end in compilations that differ in ids only, with results of which
    one is the other renamed. -/
structure Matched {α β : Type} (f : String → String) (ids : List String) (φ : α → β)
    (r : Compilation × α) (r' : Compilation × β) : Prop where
  renamed : r.1.Renamed f ids r'.1
  result : r'.2 = φ r.2

theorem Matched.elim {α β : Type} {φ : α → β} {r : Compilation × α} {r' : Compilation × β}
    (h : Matched f ids φ r r') : ∃ d d' a, r = (d, a) ∧ r' = (d', φ a) ∧ d.Renamed f ids d' :=
  ⟨r.1, r'.1, r.2, rfl, by rw [← h.result], h.renamed⟩

namespace Renamed

section

variable (h : c.Renamed f ids c')
include h

theorem withTable {t t' : SymbolTable} (ht : t.Renamed f t') :
    Renamed f ids { c with table := t } { c' with table := t' } where
  registry := h.registry
  inline := h.inline
  input := h.input
  output := h.output
  inputVar := h.inputVar
  outputType := h.outputType
  inputNode := h.inputNode
  bindings := h.bindings
  textureSlots := h.textureSlots
  samplerSlots := h.samplerSlots
  table := ht

theorem typeOf? (text : Option String) : c'.typeOf? text = c.typeOf? text := by
  simp only [Compilation.typeOf?, h.registry]

theorem struct? (name : String) : c'.struct? name = c.struct? name := by
  simp only [Compilation.struct?, SymbolTable.struct?, h.input, h.output, h.table.structs]

theorem memberAt? {o o' : Operation} (ho : o'.form = o.form) (producer : Node) (type : ValueType)
    (p : Pin) : c'.memberAt? (producer.rename f) o' type p = c.memberAt? producer o type p := by
  simp only [Compilation.memberAt?, Operation.reference, Operation.name, h.struct?, h.typeOf?, ho]
  rfl

theorem wholeValue {o o' : Operation} (ho : o'.form = o.form) (type : ValueType) :
    c'.wholeValue o' type = c.wholeValue o type := by
  obtain ⟨node', form', refs', consumers'⟩ := o'
  obtain rfl : form' = o.form := ho
  unfold Compilation.wholeValue
  rw [h.inline]
  rfl

theorem inputName : c'.inputName = c.inputName := by
  have ho : c'.inputOperation?.map Operation.form = c.inputOperation?.map Operation.form := by
    unfold inputOperation?
    rw [h.inputVar]
    cases c.inputVar with
    | none => rfl
    | some i => exact h.table.getElem? i
  unfold Compilation.inputName
  cases hc : c.inputOperation? with
  | none =>
    rw [hc, Option.map_none, Option.map_eq_none_iff] at ho
    rw [ho]
  | some o =>
    rw [hc, Option.map_some, Option.map_eq_some_iff] at ho
    obtain ⟨o', ho', hform⟩ := ho
    rw [ho']
    simp only [Operation.name, hform]

theorem arity (n : Node) (type : String) :
    c'.arity (n.rename f) type = (c.arity n type).mapError (Cause.rename f) := by
  unfold Compilation.arity
  rw [h.registry]
  cases (c.registry.parse type).components with
  | none => rfl
  | some size => dsimp only; split <;> rfl

theorem planConstant (n : Node) (type : String) :
    c'.planConstant (n.rename f) type = (c.planConstant n type).mapError (Cause.rename f) := by
  have houtputs : (n.rename f).outputs = n.outputs := rfl
  unfold Compilation.planConstant
  dsimp only
  rw [h.registry, h.typeOf?, houtputs]
  split <;> rfl

theorem planInput (n : Node) :
    c'.planInput (n.rename f) = (c.planInput n).mapError (Cause.rename f) := by
  unfold Compilation.planInput
  rw [h.inputNode, h.inputVar, Option.isSome_map]
  split
  · rfl
  · split <;> rfl

end

/-! ## Reading values -/

variable (h : c.Renamed f ids c') (hg : g.Renaming f ids g')
include h hg

theorem operation? {id : String} (hid : id ∈ ids) :
    (c'.operation? (f id)).map Operation.form = (c.operation? id).map Operation.form := by
  unfold Compilation.operation?
  rw [h.bindings.get? hg.injOn hid]
  cases c.bindings.get? id with
  | none => rfl
  | some i => exact h.table.getElem? i

theorem valueOf {producer : Node} (hid : producer.id ∈ ids) (pin : Option Pin) :
    c'.valueOf (producer.rename f) pin = (c.valueOf producer pin).mapError (Cause.rename f) := by
  have ho := h.operation? hg hid
  have hrename : (producer.rename f).id = f producer.id := rfl
  unfold Compilation.valueOf
  rw [hrename]
  cases hc : c.operation? producer.id with
  | none =>
    rw [hc, Option.map_none, Option.map_eq_none_iff] at ho
    rw [ho]
    rfl
  | some o =>
    rw [hc, Option.map_some, Option.map_eq_some_iff] at ho
    obtain ⟨o', ho', hform⟩ := ho
    have htype : o'.type? = o.type? := by simp only [Operation.type?, hform]
    rw [ho']
    dsimp only
    rw [htype]
    cases o.type? with
    | none => rfl
    | some type =>
      cases pin with
      | none => simp only [Option.bind_none, h.wholeValue hform]; rfl
      | some p => simp only [Option.bind_some, h.memberAt? hform, h.wholeValue hform]; rfl

theorem operandAt (hn : n.id ∈ ids) (p : Pin) :
    c'.operandAt g' (n.rename f) p = (c.operandAt g n p).mapError (Cause.rename f) := by
  have hlink := hg.incoming? hn p.id
  have hdefault : c'.defaultOperand (n.rename f) p = c.defaultOperand n p := by
    simp only [defaultOperand, h.typeOf?]
    rfl
  have hrename : (n.rename f).id = f n.id := rfl
  unfold Compilation.operandAt
  rw [hrename]
  cases hl : g.incoming? n.id p.id with
  | none =>
    rw [hl, Option.map_none, Option.map_eq_none_iff] at hlink
    rw [hlink, hdefault]
    rfl
  | some l =>
    rw [hl, Option.map_some, Option.map_eq_some_iff] at hlink
    obtain ⟨l', hl', hsource⟩ := hlink
    have hmem := hg.link_mem l (List.mem_of_find?_eq_some hl)
    rw [hl']
    dsimp only
    unfold linkValue
    rw [hsource, Endpoint.rename, hg.node hmem.1]
    cases hnode : g.node l.source.node with
    | error e => rfl
    | ok producer =>
      have hproducer := (Graph.mem_of_node? (Graph.node_eq_ok_iff.1 hnode)).1
      exact h.valueOf hg (hg.node_mem _ hproducer) _

theorem operandNo (hn : n.id ∈ ids) (i : Nat) :
    c'.operandNo g' (n.rename f) i = (c.operandNo g n i).mapError (Cause.rename f) := by
  have hinputs : (n.rename f).inputs = n.inputs := rfl
  unfold Compilation.operandNo
  rw [hinputs]
  cases n.inputs[i]? with
  | none => rfl
  | some p => exact h.operandAt hg hn p

theorem operands (hn : n.id ∈ ids) :
    c'.operands g' (n.rename f) = (c.operands g n).mapError (Cause.rename f) := by
  unfold Compilation.operands
  change c'.operandsAt g' (n.rename f) n.inputs = _
  induction n.inputs with
  | nil => rfl
  | cons p rest ih =>
    rw [operandsAt, operandsAt, h.operandAt hg hn, ih]
    cases c.operandAt g n p with
    | error e => rfl
    | ok x => exact mapError_map _ _ _

theorem operandsNo (hn : n.id ∈ ids) (is : List Nat) :
    c'.operandsNo g' (n.rename f) is = (c.operandsNo g n is).mapError (Cause.rename f) := by
  induction is with
  | nil => rfl
  | cons i rest ih =>
    rw [Compilation.operandsNo, Compilation.operandsNo, h.operandNo hg hn, ih]
    cases c.operandNo g n i with
    | error e => rfl
    | ok x => exact mapError_map _ _ _

/-! ## Nodes -/

/-- **What to emit does not depend on ids**, but for the nodes that a cause
    names. -/
theorem plan (hn : n.id ∈ ids) :
    c'.plan g' (n.rename f) = (c.plan g n).mapError (Cause.rename f) := by
  have hoperand := fun i => h.operandNo hg hn i
  have hkind : (n.rename f).kind = n.kind := rfl
  unfold Compilation.plan
  rw [hkind]
  cases n.kind with
  | texture => dsimp only; rw [hoperand, mapError_map]
  | operator op type =>
    dsimp only
    rw [hoperand, hoperand, h.registry]
    cases c.operandNo g n 0 with
    | error e => rfl
    | ok left =>
      cases c.operandNo g n 1 with
      | error e => rfl
      | ok right => exact (Emission.ofOperator_rename f op left right _).symm
  | call function type => dsimp only; rw [h.operands hg hn, h.registry, mapError_map]
  | voidCall function => dsimp only; rw [h.operands hg hn, mapError_map]
  | declaredCall function type source =>
    dsimp only
    rw [h.operands hg hn, h.typeOf?, mapError_map]
  | convert last => dsimp only; rw [hoperand, mapError_map]
  | mask components type =>
    dsimp only
    rw [h.arity, hoperand]
    cases c.arity n type with
    | error e => rfl
    | ok size => exact mapError_map _ _ _
  | pack type =>
    dsimp only
    rw [h.arity]
    cases c.arity n type with
    | error e => rfl
    | ok size =>
      dsimp only [Except.mapError]
      rw [h.operandsNo hg hn]
      exact mapError_map _ _ _
  | split type => dsimp only; rw [hoperand, h.registry, mapError_map]
  | constant type => exact h.planConstant n type
  | input => exact h.planInput n
  | output => rfl

omit hg in
theorem index? (em : Emission) : em.index? c'.table = em.index? c.table := by
  cases em with
  | nothing | stageInput => rfl
  | sample | value | effect | synonym => exact congrArg some h.table.length

omit hg in
theorem bind (hf : Set.InjOn f {id | id ∈ ids}) (hn : n.id ∈ ids) (em : Emission) :
    (em.bind c.table n c.bindings).Renamed f ids
      (em.bind c'.table (n.rename f) c'.bindings) := by
  unfold Emission.bind
  rw [h.index?]
  cases em.index? c.table with
  | none => exact h.bindings
  | some i => exact h.bindings.insert hf hn i

omit hg in
/-- Emitting a node in one and the renamed node in the other keeps them apart by
    ids only. -/
theorem step (hf : Set.InjOn f {id | id ∈ ids}) (hn : n.id ∈ ids) (hd : c.Emitted n em d)
    (hd' : c'.Emitted (n.rename f) em d') : d.Renamed f ids d' := by
  have hids := h.table.identifiers
  constructor
  case registry => rw [hd.registry, hd'.registry, h.registry]
  case inline => rw [hd.inline, hd'.inline, h.inline]
  case input => rw [hd.input, hd'.input, h.input]
  case output => rw [hd.output, hd'.output, h.output]
  case inputVar => rw [hd.inputVar, hd'.inputVar, h.inputVar]
  case outputType => rw [hd.outputType, hd'.outputType, h.outputType]
  case inputNode =>
    rw [hd.inputNode, hd'.inputNode, h.inputNode]
    split <;> rfl
  case bindings =>
    rw [hd.bindings, hd'.bindings]
    exact h.bind hf hn em
  case textureSlots =>
    rw [hd.textureSlots, hd'.textureSlots, h.table.resourceViews]
    split
    · exact h.textureSlots.insert hf hn _
    · exact h.textureSlots
  case samplerSlots =>
    rw [hd.samplerSlots, hd'.samplerSlots, h.table.samplers]
    split
    · exact h.samplerSlots.insert hf hn _
    · exact h.samplerSlots
  case table =>
    constructor
    case identifiers =>
      rw [hd.identifiers, hd'.identifiers, Emission.install_identifiers_congr hids,
        Emission.install_identifiers_rename]
    case methods => rw [hd.methods, hd'.methods, h.table.methods]
    case structs => rw [hd.structs, hd'.structs, h.table.structs]
    case accessViews => rw [hd.accessViews, hd'.accessViews, h.table.accessViews]
    case constantBuffers => rw [hd.constantBuffers, hd'.constantBuffers, h.table.constantBuffers]
    case functions => rw [hd.functions, hd'.functions, h.table.functionsWith]
    case resourceViews =>
      rw [hd.resourceViews, hd'.resourceViews, Emission.resources_rename]
      cases em with
      | sample =>
        simp only [Emission.resourceViews_sample, Emission.texture,
          Emission.textureName_congr hids, h.table.resourceViews]
      | nothing | stageInput | value | effect | synonym => exact h.table.resourceViews
    case samplers =>
      rw [hd.samplers, hd'.samplers, Emission.resources_rename]
      cases em with
      | sample =>
        simp only [Emission.samplers_sample, Emission.sampler, Emission.samplerName_congr hids,
          h.table.samplers]
      | nothing | stageInput | value | effect | synonym => exact h.table.samplers
    case operations =>
      rw [hd.operations, hd'.operations, h.table.operations, Emission.operation?_congr hids,
        Emission.operation?_rename, List.map_append, Option.toList_map]

/-- **A node fails in both for the same cause, or is emitted alike.** -/
theorem emit (hn : n.id ∈ ids) (hr : c.table.Reserves n) :
    Matched f ids (Except.mapError (Cause.rename f)) (c.emit g n) (c'.emit g' (n.rename f)) := by
  have hview := c.sameView_withFunctions (c.table.functionsWith n)
  have hview' := c'.sameView_withFunctions (c'.table.functionsWith (n.rename f))
  rw [emit_eq, emit_eq, declare_eq c n hr, declare_eq c' (n.rename f) (h.table.reserves hr)]
  dsimp only
  rw [hview.plan rfl rfl g n, hview'.plan rfl rfl g' (n.rename f), h.plan hg hn]
  cases c.plan g n with
  | error e =>
    rw [h.table.functionsWith]
    exact ⟨h.withTable (h.table.withFunctions _), rfl⟩
  | ok em =>
    refine ⟨h.step hg.injOn hn (emitted_of_bare (bare_apply _ n em))
      (emitted_of_bare (bare_apply _ _ em)), ?_⟩
    simp only [carryOut, apply_index]
    exact congrArg Except.ok (h.index? em)

/-! ## Runs -/

theorem emitAll {ns : List Node} (hns : ∀ n ∈ ns, n.id ∈ ids)
    (hr : ∀ n ∈ ns, c.table.Reserves n) :
    Matched f ids (Option.map (Failure.rename f)) (Compilation.emitAll g c ns)
      (Compilation.emitAll g' c' (ns.map (Node.rename f))) := by
  induction ns generalizing c c' with
  | nil => exact ⟨h, rfl⟩
  | cons n rest ih =>
    obtain ⟨d, d', r, hemit, hemit', hd⟩ := (h.emit hg (hns n (by simp)) (hr n (by simp))).elim
    rw [List.map_cons, Compilation.emitAll, Compilation.emitAll, hemit, hemit']
    cases r with
    | error e => exact ⟨hd, rfl⟩
    | ok i =>
      obtain ⟨em, -, hem⟩ := emit_ok (hr n (by simp)) hemit
      exact ih hd (fun m hm => hns m (List.mem_cons_of_mem _ hm))
        fun m hm => hem.reserves (hr m (List.mem_cons_of_mem _ hm))

theorem emitRoot (hn : n.id ∈ ids) (hr : c.table.Reserves n) :
    Matched f ids (Option.map (Failure.rename f)) (c.emitRoot g n)
      (c'.emitRoot g' (n.rename f)) := by
  have hbound : c'.isBound (n.rename f).id = c.isBound n.id :=
    congrArg Option.isSome (h.bindings.get? hg.injOn hn)
  have hkind : (n.rename f).kind = n.kind := rfl
  obtain ⟨d, d', r, hemit, hemit', hd⟩ := (h.emit hg hn hr).elim
  unfold Compilation.emitRoot
  rw [hbound, hkind, hemit, hemit']
  split
  · exact ⟨h, rfl⟩
  · cases r <;> exact ⟨hd, rfl⟩

theorem emitNodes {ns : List Node} (hns : ∀ n ∈ ns, n.id ∈ ids)
    (hr : ∀ n ∈ ns, c.table.Reserves n) (hn : n.id ∈ ids) (hroot : c.table.Reserves n) :
    Matched f ids
      (fun r : Except Failure Node => (r.map (Node.rename f)).mapError (Failure.rename f))
      (c.emitNodes g ns n) (c'.emitNodes g' (ns.map (Node.rename f)) (n.rename f)) := by
  obtain ⟨d, d', x, hrun, hrun', hd⟩ := (h.emitAll hg hns hr).elim
  unfold Compilation.emitNodes
  rw [hrun, hrun']
  cases x with
  | some x => exact ⟨hd, rfl⟩
  | none =>
    have hreserves := (run_follows hr hrun).reserves hroot
    obtain ⟨b, b', x, hemit, hemit', hb⟩ := (hd.emitRoot hg hn hreserves).elim
    dsimp only [Option.map_none]
    rw [hemit, hemit']
    cases x <;> exact ⟨hb, rfl⟩

/-! ## The body -/

theorem rootValue (hn : n.id ∈ ids) (i : Nat) :
    c'.rootValue g' (n.rename f) i = (c.rootValue g n i).mapError (Cause.rename f) := by
  have hkind : (n.rename f).kind = n.kind := rfl
  unfold Compilation.rootValue
  rw [h.outputType, hkind]
  split
  · exact h.valueOf hg hn none
  · exact h.operandNo hg hn i

theorem assignments (hn : n.id ∈ ids) (name : String) (i : Nat) (fields : List Field) :
    c'.assignments g' (n.rename f) name i fields =
      ((c.assignments g n name i fields).1,
        (c.assignments g n name i fields).2.map (Cause.rename f)) := by
  induction fields generalizing i with
  | nil => rfl
  | cons field rest ih =>
    rw [Compilation.assignments, Compilation.assignments, h.rootValue hg hn, ih]
    cases c.rootValue g n i <;> rfl

omit hg in
theorem outputVariable :
    c.outputVariable.1.Renamed f ids c'.outputVariable.1 ∧
      c'.outputVariable.2 = c.outputVariable.2 := by
  have hsame : c'.outputType.name = c'.input.name ↔ c.outputType.name = c.input.name := by
    rw [h.outputType, h.input]
  have hfresh : c'.table.freshName (Text.baseName c'.outputType.name "output") =
      c.table.freshName (Text.baseName c.outputType.name "output") := by
    rw [h.outputType, SymbolTable.freshName_congr h.table.identifiers]
  unfold Compilation.outputVariable
  by_cases hname : c.outputType.name = c.input.name
  · rw [if_pos hname, if_pos (hsame.2 hname), h.inputName]
    exact ⟨h, rfl⟩
  · rw [if_neg hname, if_neg (mt hsame.1 hname), hfresh]
    refine ⟨h.withTable (h.table.claim _), ?_⟩
    dsimp only
    rw [h.outputType]

theorem returning (hn : n.id ∈ ids) :
    Matched f ids (fun r : List Statement × Option Cause => (r.1, r.2.map (Cause.rename f)))
      (c.returning g n) (c'.returning g' (n.rename f)) := by
  obtain ⟨hvariable, hname⟩ := h.outputVariable
  unfold Compilation.returning
  rw [h.outputType]
  split
  · cases hv : c.outputVariable with
    | mk d v =>
      cases hv' : c'.outputVariable with
      | mk d' v' =>
        rw [hv, hv'] at hvariable hname
        obtain rfl : v' = v := hname
        dsimp only
        rw [hvariable.assignments hg hn, hvariable.output]
        cases d.assignments g n v'.1 0 d.output.fields with
        | mk written failure => cases failure <;> exact ⟨hvariable, rfl⟩
  · rw [h.rootValue hg hn]
    cases c.rootValue g n 0 <;> exact ⟨h, rfl⟩

omit hg in
theorem statements : c'.statements = c.statements := by
  -- whether an operation has a statement, and which, is said by its form
  have hforms : ∀ b : Compilation, b.statements =
      (b.table.operations.map Operation.form).filterMap fun form =>
        if b.isSubstituted ⟨none, form, 0, []⟩ then none
        else Operation.statement? ⟨none, form, 0, []⟩ := by
    intro b
    rw [List.filterMap_map, Compilation.statements, List.filterMap_filter]
    refine List.filterMap_congr fun o _ => ?_
    change (if !b.isSubstituted o then o.statement? else none) =
      if b.isSubstituted o then none else o.statement?
    cases b.isSubstituted o <;> rfl
  have hsubstituted : c'.isSubstituted = c.isSubstituted := by
    funext o
    rw [isSubstituted, isSubstituted, h.inline]
  rw [hforms, hforms, h.table.forms, hsubstituted]

/-- **Bodies are the same**, but for the nodes that a cause names. -/
theorem body (hn : n.id ∈ ids) (entry semantic : String) :
    Matched f ids (fun b : Body => { b with failure := b.failure.map (Cause.rename f) })
      (c.body g n entry semantic) (c'.body g' (n.rename f) entry semantic) := by
  have hsignature : c'.signature entry semantic = c.signature entry semantic := by
    simp only [signature, h.outputType, h.input, h.inputName]
  obtain ⟨hreturning, hresult⟩ := h.returning hg hn
  refine ⟨hreturning, ?_⟩
  unfold Compilation.body
  dsimp only
  rw [hsignature, h.statements, hresult]

end Renamed

/-- A compilation in which nothing belongs to a node. -/
theorem renamed_self (f : String → String) (ids : List String) (hinput : c.inputNode = none)
    (hbindings : c.bindings = .empty) (htexture : c.textureSlots = .empty)
    (hsampler : c.samplerSlots = .empty) (hnodes : ∀ o ∈ c.table.operations, o.node = none) :
    c.Renamed f ids c where
  registry := rfl
  inline := rfl
  input := rfl
  output := rfl
  inputVar := rfl
  outputType := rfl
  inputNode := by rw [hinput]; rfl
  bindings := by rw [hbindings]; exact .empty
  textureSlots := by rw [htexture]; exact .empty
  samplerSlots := by rw [hsampler]; exact .empty
  table := by
    refine ⟨rfl, rfl, rfl, rfl, rfl, rfl, rfl, rfl, ?_⟩
    rw [List.map_map]
    refine List.map_congr_left fun o ho => ?_
    simp only [Function.comp_apply, Operation.rename, Operation.bare, hnodes o ho, Option.map_none]

end Compilation

/-! ## Compilers -/

/-- The names of renamed nodes' functions are taken alike. -/
theorem SymbolTable.reserveMethods_rename (f : String → String) (t : SymbolTable)
    (nodes : List Node) :
    t.reserveMethods (nodes.map (Node.rename f)) =
      ((t.reserveMethods nodes).1, (t.reserveMethods nodes).2.map (Failure.rename f)) := by
  induction nodes generalizing t with
  | nil => rfl
  | cons n rest ih =>
    have hkind : (n.rename f).kind = n.kind := rfl
    rw [List.map_cons, reserveMethods, reserveMethods, hkind]
    cases n.kind with
    | declaredCall function type? source =>
      dsimp only
      cases hu : (reserveMethod function).run t with
      | error cause u =>
        have hcause : cause.rename f = cause := by
          obtain ⟨-, rfl, -⟩ := reserveMethod_eq_error_iff.1 hu
          rfl
        dsimp only [Option.map_some, Failure.rename, Failure.during]
        rw [hcause]
        rfl
      | ok _ u => exact ih u
    | _ => exact ih t

namespace Compiler

variable {ρ : Type} {k : Compiler ρ} {f : String → String} {ids : List String} {g g' : Graph}
  {root : String} (e : EntryPoint)

/-- The compilations of all nodes differ in ids only. -/
theorem matched_build (hbefore : k.before = []) (hg : g.Renaming f ids g') (hroot : root ∈ ids) :
    Compilation.Matched f ids
      (fun r : Except Failure Node => (r.map (Node.rename f)).mapError (Failure.rename f))
      ((k.start e).build g root e) ((k.start e).build g' (f root) e) := by
  have hstart : (k.start e).table.operations = [] := by
    rw [k.start_table e hbefore]
    rfl
  unfold Compilation.build
  rw [hg.nodes, SymbolTable.reserveMethods_rename]
  cases ht : (k.start e).table.reserveMethods g.nodes with
  | mk t failure =>
    cases failure with
    | some x =>
      -- a clash of names is found before there is any operation
      refine ⟨Compilation.renamed_self f ids rfl rfl rfl rfl fun o ho => ?_, rfl⟩
      have hnone := (k.start e).table.operations_reserveMethods g.nodes
      rw [ht, hstart] at hnone
      dsimp only at ho hnone
      rw [hnone] at ho
      cases ho
    | none =>
      have hr := k.stage_reserves g e (k.proper_of_nil hbefore) ⟨t, ht⟩
      have hoperations := stage_operations_of_nil hbefore ⟨t, ht⟩
      have hstage : (k.stage g e).Renamed f ids (k.stage g e) := by
        refine Compilation.renamed_self f ids rfl rfl rfl rfl fun o ho => ?_
        rw [hoperations] at ho
        cases List.mem_singleton.1 ho
        rfl
      unfold stage at hr hstage
      rw [ht] at hr hstage
      dsimp only [Option.map_none] at hr hstage ⊢
      generalize ({ k.start e with table := t } : Compilation).defineStage e = s at hr hstage ⊢
      rw [hg.node hroot, hg.order]
      cases hnode : g.node root with
      | error cause => exact ⟨hstage, rfl⟩
      | ok r =>
        have hmem := (Graph.mem_of_node? (Graph.node_eq_ok_iff.1 hnode)).1
        cases horder : g.order with
        | error cause => exact ⟨hstage, rfl⟩
        | ok ns =>
          have hns : ∀ n ∈ ns, n ∈ g.nodes := fun n hn => Graph.mem_of_order horder hn
          exact hstage.emitNodes hg (fun n hn => hg.node_mem n (hns n hn))
            (fun n hn => hr n (hns n hn)) (hg.node_mem r hmem) (hr r hmem)

/-- The root that is compiled is a node of the graph. -/
theorem id_mem_of_build {c : Compilation} {r : Node} (hg : g.Renaming f ids g')
    (h : (k.start e).build g root e = (c, .ok r)) : r.id ∈ ids := by
  obtain ⟨-, hnode, -⟩ := (build_eq_ok_iff g root e).1 h
  exact hg.node_mem r (Graph.mem_of_node? (Graph.node_eq_ok_iff.1 hnode)).1

theorem sourceText_rename {t t' : SymbolTable} (h : t.Renamed f t') (b : Body) :
    sourceText t' b = sourceText t b := by
  unfold sourceText
  rw [h.header]

end Compiler

/-- **What a graph is compiled to does not depend on ids.**  If its nodes are
    renamed so that no two ids become one, and its links get any ids at all, it
    is refused for the same cause during the same stages, with the nodes that
    these name renamed, or it is compiled to the same text, with slots for the
    renamed nodes.  Either way the tables differ in ids only. -/
theorem renaming_changes_ids_only {ρ : Type} (k : Compiler ρ) (hbefore : k.before = [])
    (hafter : k.after = []) {f : String → String} {g g' : Graph} (h : g.Renamed f g')
    {root : String} (hf : Set.InjOn f {id | id ∈ root :: g.ids}) (e : EntryPoint) :
    (k.generate g' (f root) e).result =
        ((k.generate g root e).result.map (Shader.rename f)).mapError (Failure.rename f) ∧
      (k.generate g root e).compiler.compilation.table.Renamed f
        (k.generate g' (f root) e).compiler.compilation.table := by
  have hg := h.renaming (fun id hid => List.mem_cons_of_mem root hid) hf
  obtain ⟨c, c', r, hbuild, hbuild', hc⟩ :=
    (Compiler.matched_build e hbefore hg (List.mem_cons_self)).elim
  rw [Compiler.generate_result _ _ _ _ hafter, Compiler.generate_result _ _ _ _ hafter,
    Compiler.generate_compilation _ _ _ _ hafter, Compiler.generate_compilation _ _ _ _ hafter]
  unfold Compiler.assemble
  rw [hbuild, hbuild']
  cases r with
  | error x => exact ⟨rfl, hc.table⟩
  | ok r =>
    obtain ⟨d, d', b, hbody, hbody', hd⟩ :=
      (hc.body hg (Compiler.id_mem_of_build e hg hbuild) e.name k.options.semantic).elim
    dsimp only [Except.map, Except.mapError]
    rw [hbody, hbody']
    refine ⟨?_, hd.table⟩
    obtain ⟨signature, statements, failure⟩ := b
    cases failure with
    | some cause => rfl
    | none =>
      dsimp only [Option.map_none, Compiler.shader]
      rw [Compiler.sourceText_rename hd.table, hd.textureSlots.eq, hd.samplerSlots.eq]
      rfl

namespace Sample

/-- A letter for each node of the sample, and nothing for all other texts. -/
def letter (id : String) : String :=
  (([("in", "a"), ("tex", "b"), ("parts", "c"), ("half", "d"), ("mul", "e"), ("out", "f")] :
    List (String × String)).lookup id).getD ""

/-- The sample with letters for ids, and with links that all have the same id. -/
def lettered : Graph :=
  ⟨halfRed.nodes.map (Node.rename letter),
    halfRed.links.map fun l => ⟨"", l.source.rename letter, l.target.rename letter⟩⟩

theorem lettered_renamed : halfRed.Renamed letter lettered :=
  ⟨rfl, List.forall₂_map_right_iff.2 (List.forall₂_same.2 fun _ _ => ⟨rfl, rfl⟩)⟩

theorem letter_injOn : Set.InjOn letter {id | id ∈ "out" :: halfRed.ids} := by
  have hall : ∀ a ∈ "out" :: halfRed.ids, ∀ b ∈ "out" :: halfRed.ids,
      letter a = letter b → a = b := by decide
  exact fun a ha b hb => hall a ha b hb

end Sample

/-- The sample with letters for ids has the same text and the slot of its texture
    under a letter. -/
theorem renaming_changes_ids_only_halfRed :
    Set.InjOn Sample.letter {id | id ∈ "out" :: Sample.halfRed.ids} ∧
    ∃ s,
      ((Sample.compiler false []).generate Sample.halfRed "out" Sample.pixel).result = .ok s ∧
      ((Sample.compiler false []).generate Sample.lettered "f" Sample.pixel).result =
        .ok (s.rename Sample.letter) ∧
      (s.rename Sample.letter).textureSlots.entries = [("b", 0)] := by
  obtain ⟨hresult, -⟩ := renaming_changes_ids_only (Sample.compiler false []) rfl rfl
    Sample.lettered_renamed Sample.letter_injOn Sample.pixel
  have hslots : ((Sample.compiler false []).generate Sample.halfRed "out"
      Sample.pixel).result.map (fun s => (s.rename Sample.letter).textureSlots.entries) =
      .ok [("b", 0)] := by
    decide +kernel
  obtain ⟨s, hs⟩ := Sample.exists_ok (r := ((Sample.compiler false []).generate Sample.halfRed "out"
    Sample.pixel).result) (by decide +kernel)
  rw [hs] at hresult hslots
  exact ⟨Sample.letter_injOn, s, hs, hresult, Except.ok.inj hslots⟩

end Shading
