/-
  What a node may change in a compilation, whatever state that is in.

  * `Operation.Grown`: an operation of which only the consumers are more.
  * `apply_eq`: an emission is put in place, and then the uses of the operands
    that it counts are noted.
  * `Compilation.Frame`: the bounds of what a node may change.
  * `emit_bounded`: a node that is emitted keeps to this, and one that fails
    leaves no trace but the function that it has declared.
-/
import Shading.Proofs.Ledger
import Shading.Proofs.Slots

namespace Shading

/-! ## Operations that grow -/

/-- An operation that is the same but for its consumers, which are more, and are
    counted as they come. -/
structure Operation.Grown (o o' : Operation) : Prop where
  node : o'.node = o.node
  form : o'.form = o.form
  consumers : o.consumers <+: o'.consumers
  refs : o'.refs + o.consumers.length = o.refs + o'.consumers.length

namespace Operation.Grown

variable {o o' o'' : Operation}

theorem refl (o : Operation) : o.Grown o := ⟨rfl, rfl, List.prefix_rfl, rfl⟩

theorem trans (h : o.Grown o') (h' : o'.Grown o'') : o.Grown o'' :=
  ⟨h'.node.trans h.node, h'.form.trans h.form, h.consumers.trans h'.consumers, by
    have hrefs := h.refs
    have hrefs' := h'.refs
    omega⟩

end Operation.Grown

/-- The operations `os` are still there in `os'`, in their places. -/
def Retained (os os' : List Operation) : Prop :=
  ∀ (i : Nat) (o : Operation), os[i]? = some o → ∃ o', os'[i]? = some o' ∧ o.Grown o'

theorem Retained.refl (os : List Operation) : Retained os os :=
  fun _ o ho => ⟨o, ho, .refl o⟩

theorem Retained.trans {os os' os'' : List Operation} (h : Retained os os')
    (h' : Retained os' os'') : Retained os os'' := by
  intro i o ho
  obtain ⟨o', ho', hgrown⟩ := h i o ho
  obtain ⟨o'', ho'', hgrown'⟩ := h' i o' ho'
  exact ⟨o'', ho'', hgrown.trans hgrown'⟩

theorem retained_append (os more : List Operation) : Retained os (os ++ more) := by
  intro i o ho
  have hi := (List.getElem?_eq_some_iff.1 ho).1
  exact ⟨o, by rw [List.getElem?_append_left hi, ho], .refl o⟩

namespace SymbolTable

/-- The operations with one more use, by the same consumer, of the first with
    each of some names. -/
def noteAll (consumer : String) (names : List String) (os : List Operation) : List Operation :=
  names.foldl (fun os name => noteUse name consumer os) os

theorem retained_noteUse (name consumer : String) (os : List Operation) :
    Retained os (noteUse name consumer os) := by
  intro i o ho
  rw [getElem?_noteUse, ho, Option.map_some]
  split
  · refine ⟨_, rfl, rfl, rfl, List.prefix_append _ _, ?_⟩
    simp only [Operation.addConsumer, List.length_append, List.length_singleton]
    omega
  · exact ⟨_, rfl, .refl o⟩

theorem retained_noteAll (consumer : String) (names : List String) (os : List Operation) :
    Retained os (noteAll consumer names os) := by
  induction names generalizing os with
  | nil => exact .refl os
  | cons name rest ih => exact (retained_noteUse name consumer os).trans (ih _)

theorem refs_noteAll {consumer : String} {names : List String} {os : List Operation}
    (h : ∀ o ∈ os, o.refs = o.consumers.length) :
    ∀ o ∈ noteAll consumer names os, o.refs = o.consumers.length := by
  induction names generalizing os with
  | nil => exact h
  | cons name rest ih => exact ih (refs_noteUse h)

theorem length_noteAll (consumer : String) (names : List String) (os : List Operation) :
    (noteAll consumer names os).length = os.length := by
  induction names generalizing os with
  | nil => rfl
  | cons name rest ih =>
    refine (ih _).trans ?_
    simpa using congrArg List.length (map_bare_noteUse name consumer os)

end SymbolTable

/-! ## Emissions -/

namespace Emission

/-- The operands whose uses an emission counts. -/
def counted : Emission → List Operand
  | .sample coords => [coords]
  | .value _ _ _ xs | .effect _ xs => xs
  | .nothing | .stageInput _ | .synonym .. => []

/-- What the operation of an emission is called as a consumer. -/
def consumer (t : SymbolTable) (n : Node) (em : Emission) : String :=
  ((em.operation? t n).map Operation.label).getD ""

end Emission

namespace Compilation

variable {c c' d : Compilation} {g : Graph} {n : Node} {em : Emission}

theorem noteUses_eq (consumer : String) (xs : List Operand) (t : SymbolTable) :
    noteUses consumer xs t = { t with
      operations := SymbolTable.noteAll consumer (xs.filterMap Operand.source) t.operations } := by
  unfold noteUses
  induction xs generalizing t with
  | nil => rfl
  | cons x xs ih =>
    rw [List.foldl_cons, ih]
    cases hx : x.source with
    | none => simp only [List.filterMap_cons, hx]
    | some source => simp only [List.filterMap_cons, hx]; rfl

theorem addUses_last {o : Operation} (xs : List Operand)
    (ho : c.table.operations = d.table.operations ++ [o]) :
    c.addUses xs d.table.operations.length =
      { c with table := noteUses o.label xs c.table } := by
  have hlast : c.table.operations[d.table.operations.length]? = some o := by
    rw [ho]
    simp
  rw [addUses, hlast]

/-- **What is emitted is put in place, and then the uses of what it counts are
    noted.** -/
theorem apply_eq (c : Compilation) (n : Node) (em : Emission) :
    (c.apply n em).1 = { c.place n em with
      table := noteUses (em.consumer c.table n) em.counted (c.place n em).table } := by
  have hadd : ∀ (c : Compilation) (form : Operation.Form) (xs : List Operand),
      (counting xs (c.addOperation n form)).1 = { (c.addOperation n form).1 with
        table := noteUses (Operation.label ⟨some n.id, form, 0, []⟩) xs
          (c.addOperation n form).1.table } := fun c form xs =>
    addUses_last (c := (c.addOperation n form).1) (d := c) xs
      (SymbolTable.operations_addOperation c.table _)
  cases em with
  | nothing => rfl
  | stageInput index =>
    exact congrArg Prod.fst (counting_nil (c.bindInput n index))
  | sample coords => exact hadd _ _ _
  | value fallback type definition xs => exact hadd _ _ _
  | effect call xs => exact hadd _ _ _
  | synonym target type => exact hadd _ _ _

theorem apply_operations (c : Compilation) (n : Node) (em : Emission) :
    (c.apply n em).1.table.operations =
      SymbolTable.noteAll (em.consumer c.table n) (em.counted.filterMap Operand.source)
        (c.table.operations ++ (em.operation? c.table n).toList) := by
  rw [apply_eq, noteUses_eq, place_table, install_eq]

/-! ## Nodes -/

/-- What a node declares: only names are taken, and there is its function if
    there was none of that name. -/
theorem declare_eq_ok (h : c.declare n = .ok d) :
    ∃ identifiers methods fs,
      d = { c with table := { c.table with
        identifiers := identifiers
        methods := methods
        functions := c.table.functions ++ fs } } ∧
      fs.length ≤ 1 ∧ (∀ f ∈ fs, ∃ type?, n.kind = .declaredCall f.name type? f.source) ∧
      d.table.functionsWith n = d.table.functions := by
  rcases declare_eq_ok_iff.1 h with ⟨function, type?, source, new, t, hk, hdefine, rfl⟩ | ⟨hk, rfl⟩
  · unfold SymbolTable.functionsWith
    rw [hk]
    rcases SymbolTable.defineMethod_eq_ok_iff.1 hdefine with ⟨hf, -, rfl⟩ | ⟨-, -, u, hr, rfl⟩
    · refine ⟨c.table.identifiers, c.table.methods, [], ?_, by simp, by simp, if_pos hf⟩
      simp only [List.append_nil]
    · have hnew : ∀ fs : List Function,
          (fs ++ [(⟨function, source⟩ : Function)]).any (·.name == function) = true := by simp
      refine ⟨u.identifiers, u.methods, [⟨function, source⟩], ?_, by simp, by simp,
        if_pos (hnew _)⟩
      rcases SymbolTable.reserveMethod_eq_ok_iff.1 hr with ⟨-, rfl⟩ | ⟨-, -, rfl⟩ <;> rfl
  · refine ⟨d.table.identifiers, d.table.methods, [], ?_, by simp, by simp, ?_⟩
    · simp only [List.append_nil]
    · unfold SymbolTable.functionsWith
      split
      · exact absurd ‹_› (hk _ _ _)
      · rfl

/-- What a node does that has declared its function. -/
theorem emitted_of_declare (h : c.declare n = .ok d) (em : Emission) :
    d.Emitted n em (d.apply n em).1 := by
  obtain ⟨-, -, -, -, -, -, hknown⟩ := declare_eq_ok h
  refine emitted_of_bare ?_
  rw [hknown]
  exact bare_apply d n em

/-- The bounds of what a node may change.  Beyond them only names get taken, and
    which node stands for the stage input may be set. -/
structure Frame (c : Compilation) (n : Node) (c' : Compilation) : Prop where
  /-- Operations stay in their places; they may get more consumers. -/
  retained : Retained c.table.operations c'.table.operations
  appended : c'.table.operations.length ≤ c.table.operations.length + 1
  bindings : ∀ id, id ≠ n.id → c'.bindings.get? id = c.bindings.get? id
  /-- A texture and a sampler come in for a node that samples, with their
      slots. -/
  texture : n.kind = .texture → ∃ v s,
    c'.table.resourceViews = c.table.resourceViews ++ [v] ∧
      c'.table.samplers = c.table.samplers ++ [s] ∧
      v.slot = c.table.resourceViews.length.toUInt32 ∧
      s.slot = c.table.samplers.length.toUInt32 ∧
      c'.textureSlots = c.textureSlots.insert n.id v.slot ∧
      c'.samplerSlots = c.samplerSlots.insert n.id s.slot
  /-- For no other node any do. -/
  noTexture : n.kind ≠ .texture →
    c'.table.resourceViews = c.table.resourceViews ∧ c'.table.samplers = c.table.samplers ∧
      c'.textureSlots = c.textureSlots ∧ c'.samplerSlots = c.samplerSlots
  /-- At most one function comes in, the one that the node declares. -/
  functions : ∃ fs, c'.table.functions = c.table.functions ++ fs ∧ fs.length ≤ 1 ∧
    ∀ f ∈ fs, ∃ type?, n.kind = .declaredCall f.name type? f.source
  structs : c'.table.structs = c.table.structs
  constantBuffers : c'.table.constantBuffers = c.table.constantBuffers
  accessViews : c'.table.accessViews = c.table.accessViews
  input : c'.input = c.input
  output : c'.output = c.output
  inputVar : c'.inputVar = c.inputVar
  outputType : c'.outputType = c.outputType
  registry : c'.registry = c.registry
  inline : c'.inline = c.inline

theorem frame_of_declare (hdeclare : c.declare n = .ok d) (hplan : d.plan g n = .ok em) :
    c.Frame n (d.apply n em).1 := by
  have hem := emitted_of_declare hdeclare em
  obtain ⟨identifiers, methods, fs, rfl, hlength, hfs, hknown⟩ := declare_eq_ok hdeclare
  obtain ⟨xs, -, hmade⟩ := plan_eq_ok_iff.1 hplan
  have hops := apply_operations { c with table := { c.table with
    identifiers := identifiers
    methods := methods
    functions := c.table.functions ++ fs } } n em
  constructor
  case retained =>
    rw [hops]
    exact (retained_append _ _).trans (SymbolTable.retained_noteAll _ _ _)
  case appended =>
    rw [hops, SymbolTable.length_noteAll, List.length_append]
    cases em.operation? _ n <;> simp
  case bindings =>
    intro id hid
    rw [hem.bindings, Emission.get?_bind_ne hid]
  case texture =>
    intro hk
    obtain ⟨x, -, rfl⟩ := hmade.of_texture hk
    exact ⟨_, _, hem.resourceViews, hem.samplers, rfl, rfl, hem.textureSlots, hem.samplerSlots⟩
  case noTexture =>
    intro hk
    have hsample : em.isSample = false := by
      rw [hmade.isSample, Bool.eq_false_iff]
      exact fun h => hk (NodeKind.isTexture_iff.1 h)
    have hresources := em.resources_of_not_sample hsample
    refine ⟨?_, ?_, ?_, ?_⟩
    · rw [hem.resourceViews, hresources]
    · rw [hem.samplers, hresources]
    · rw [hem.textureSlots, hsample]; rfl
    · rw [hem.samplerSlots, hsample]; rfl
  case functions => exact ⟨fs, hem.functions.trans hknown, hlength, hfs⟩
  case structs => exact hem.structs
  case constantBuffers => exact hem.constantBuffers
  case accessViews => exact hem.accessViews
  case input => exact hem.input
  case output => exact hem.output
  case inputVar => exact hem.inputVar
  case outputType => exact hem.outputType
  case registry => exact hem.registry
  case inline => exact hem.inline

/-- **A node keeps to its frame, and leaves no trace if it fails,** whatever the
    compilation is like: but for the function that it has declared before what
    it reads could not be read. -/
theorem emit_bounded (c : Compilation) (g : Graph) (n : Node) :
    (∀ c' i, c.emit g n = (c', .ok i) → c.Frame n c') ∧
    ∀ c' cause, c.emit g n = (c', .error cause) →
      c' = c ∨ ∃ function type? source t new, n.kind = .declaredCall function type? source ∧
        (SymbolTable.defineMethod function source).run c.table = .ok new t ∧
        c' = { c with table := t } := by
  constructor
  · intro c' i h
    obtain ⟨d, em, hdeclare, hplan, happly⟩ := emit_eq_ok_iff.1 h
    obtain rfl : (d.apply n em).1 = c' := congrArg Prod.fst happly
    exact frame_of_declare hdeclare hplan
  · intro c' cause h
    rcases emit_eq_error_iff.1 h with ⟨-, rfl⟩ | ⟨hdeclare, -⟩
    · exact Or.inl rfl
    · rcases declare_eq_ok_iff.1 hdeclare with ⟨function, type?, source, new, t, hk, hdefine, rfl⟩ |
        ⟨-, rfl⟩
      · exact Or.inr ⟨function, type?, source, t, new, hk, hdefine, rfl⟩
      · exact Or.inl rfl

-- a call that reads a node that is not emitted leaves its function
example :
    let n : Node :=
      ⟨"tex", "", .declaredCall "f" none "void f();", [⟨"at", "", .input, none, none⟩]⟩
    let r := (Compilation.fresh ⟨⟨[]⟩⟩).emit Sample.halfRed n
    r.2 = .error (.notEmitted "in") ∧ r.1.table.functions = [⟨"f", "void f();"⟩] ∧
      r.1.table.operations = [] := by decide +kernel

end Compilation

end Shading
