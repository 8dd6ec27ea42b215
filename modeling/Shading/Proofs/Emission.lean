/-
  What emitting a node changes.

  * `Compilation.bare`: a compilation without the record of who uses what.
    Values of nodes are read the same in it.
  * `Compilation.place`: an emission put in place, its uses not counted.  It is
    all that `apply` does to a bare compilation (`bare_apply`).
  * `Emission.form?`: the operation that an emission adds, if any.
  * `emit_ok`: a node that is emitted defines its function, is planned, and is
    put in place.
-/
import Shading.Proofs.Builders

namespace Shading

namespace Dict

variable {α : Type}

theorem lookup_put (key : String) (a : α) (entries : List (String × α)) (k : String) :
    (put key a entries).lookup k = if k = key then some a else entries.lookup k := by
  induction entries with
  | nil =>
    by_cases h : k = key
    · simp [put, h]
    · simp [put, List.lookup_cons, beq_false_of_ne h, h]
  | cons e rest ih =>
    obtain ⟨k', b⟩ := e
    by_cases hk : k = k'
    · subst hk
      by_cases h : k = key <;> simp [put, h]
    · by_cases h : k' = key
      · subst h; simp [put, List.lookup_cons, beq_false_of_ne hk, hk]
      · simp only [put, h, if_false, List.lookup_cons, beq_false_of_ne hk, ih]

@[simp]
theorem get?_insert (d : Dict α) (key : String) (a : α) (k : String) :
    (d.insert key a).get? k = if k = key then some a else d.get? k :=
  lookup_put key a d.entries k

@[simp]
theorem get?_empty (k : String) : (empty : Dict α).get? k = none := rfl

end Dict

/-! ## Without the record of uses -/

/-- The operation without the record of its uses. -/
def Operation.bare (o : Operation) : Operation := { o with refs := 0, consumers := [] }

section
variable (o : Operation)

@[simp]
theorem Operation.bare_name : o.bare.name = o.name := rfl

@[simp]
theorem Operation.bare_reference : o.bare.reference = o.reference := rfl

@[simp]
theorem Operation.bare_expansion : o.bare.expansion = o.expansion := rfl

@[simp]
theorem Operation.bare_type? : o.bare.type? = o.type? := rfl

@[simp]
theorem Operation.bare_definition? : o.bare.definition? = o.definition? := rfl

end

section
variable {o o' : Operation} (h : o'.bare = o.bare)
include h

theorem Operation.name_of_bare : o'.name = o.name := by simpa using congrArg name h

theorem Operation.reference_of_bare : o'.reference = o.reference := by
  simpa using congrArg reference h

theorem Operation.expansion_of_bare : o'.expansion = o.expansion := by
  simpa using congrArg expansion h

theorem Operation.type?_of_bare : o'.type? = o.type? := by simpa using congrArg type? h

theorem Operation.definition?_of_bare : o'.definition? = o.definition? := by
  simpa using congrArg definition? h

end

/-- The table without the record of the uses of its operations. -/
def SymbolTable.bare (t : SymbolTable) : SymbolTable :=
  { t with operations := t.operations.map Operation.bare }

/-- The compilation without the record of the uses of its operations. -/
def Compilation.bare (c : Compilation) : Compilation := { c with table := c.table.bare }

namespace SymbolTable

theorem map_bare_noteUse (name consumer : String) (os : List Operation) :
    (noteUse name consumer os).map Operation.bare = os.map Operation.bare := by
  induction os with
  | nil => rfl
  | cons o rest ih =>
    unfold noteUse
    split
    · simp only [List.map_cons]; rfl
    · simp only [List.map_cons, ih]

@[simp]
theorem bare_addUse (t : SymbolTable) (name consumer : String) :
    (t.addUse name consumer).bare = t.bare := by
  simp only [bare, addUse, map_bare_noteUse]

end SymbolTable

namespace Compilation

theorem bare_noteUses (consumer : String) (xs : List Operand) (t : SymbolTable) :
    (noteUses consumer xs t).bare = t.bare := by
  unfold noteUses
  induction xs generalizing t with
  | nil => rfl
  | cons x rest ih =>
    rw [List.foldl_cons, ih]
    cases x.source with
    | none => rfl
    | some source => exact SymbolTable.bare_addUse t source consumer

@[simp]
theorem bare_addUses (c : Compilation) (xs : List Operand) (i : Nat) :
    (c.addUses xs i).bare = c.bare := by
  unfold addUses
  split
  · simp only [bare, bare_noteUses]
  · rfl

/-! ## Emissions in place -/

/-- The compilation with an emission for a node, whose uses are not counted. -/
def place (c : Compilation) (n : Node) : Emission → Compilation
  | .nothing => c
  | .stageInput index => (c.bindInput n index).1
  | .sample coords =>
    let (c, texture) := c.addTexture n
    let (c, sampler) := c.addSampler n
    (c.addValue n "texture" (.floats 4) (.sample texture sampler coords.expr) true).1
  | .value fallback type definition _ => (c.addValue n fallback type definition true).1
  | .effect call _ => (c.addEffect n call).1
  | .synonym target type => (c.addSynonym n target type).1

theorem bare_apply (c : Compilation) (n : Node) (em : Emission) :
    (c.apply n em).1.bare = (c.place n em).bare := by
  cases em with
  | nothing => rfl
  | stageInput | sample | value | effect | synonym => exact bare_addUses _ _ _

end Compilation

namespace Emission

open Compilation (resourceName)

/-- The name of the texture that is added for a node. -/
def textureName (t : SymbolTable) (n : Node) : String :=
  t.freshName ("Srv" ++ resourceName n)

/-- The table with the texture that is added for a node. -/
def withTexture (t : SymbolTable) (n : Node) : SymbolTable :=
  t.addResourceView (textureName t n) (.resource .texture2D) (some (.floats 4))

/-- The name of the sampler that is added for a node, after its texture. -/
def samplerName (t : SymbolTable) (n : Node) : String :=
  (withTexture t n).freshName ("Sampler" ++ resourceName n)

/-- The table with the resources that an emission brings along. -/
def resources (t : SymbolTable) (n : Node) : Emission → SymbolTable
  | .sample _ => (withTexture t n).addSampler (samplerName t n) (.resource .samplerState)
  | _ => t

/-- The texture that is added for a node. -/
def texture (t : SymbolTable) (n : Node) : View :=
  ⟨textureName t n, .resource .texture2D, some (.floats 4), t.resourceViews.length.toUInt32⟩

/-- The sampler that is added for a node. -/
def sampler (t : SymbolTable) (n : Node) : Sampler :=
  ⟨samplerName t n, .resource .samplerState, t.samplers.length.toUInt32⟩

theorem resourceViews_sample (t : SymbolTable) (n : Node) (x : Operand) :
    ((sample x).resources t n).resourceViews = t.resourceViews ++ [texture t n] := rfl

theorem samplers_sample (t : SymbolTable) (n : Node) (x : Operand) :
    ((sample x).resources t n).samplers = t.samplers ++ [sampler t n] := rfl

theorem resourceViews_resources (em : Emission) (t : SymbolTable) (n : Node) :
    t.resourceViews <+: (em.resources t n).resourceViews := by
  cases em with
  | sample => exact List.prefix_append _ _
  | nothing | stageInput | value | effect | synonym => exact List.prefix_rfl

theorem samplers_resources (em : Emission) (t : SymbolTable) (n : Node) :
    t.samplers <+: (em.resources t n).samplers := by
  cases em with
  | sample => exact List.prefix_append _ _
  | nothing | stageInput | value | effect | synonym => exact List.prefix_rfl

/-- The form of the operation that an emission adds to a table. -/
def form? (t : SymbolTable) (n : Node) : Emission → Option Operation.Form
  | .nothing | .stageInput _ => none
  | em@(.sample coords) =>
    some (.value ((em.resources t n).freshName (Text.baseName n.name "texture")) (.floats 4)
      (.sample (textureName t n) (samplerName t n) coords.expr) true)
  | .value fallback type definition _ =>
    some (.value (t.freshName (Text.baseName n.name fallback)) type definition true)
  | .effect call _ => some (.effect call)
  | .synonym target type => some (.synonym target type)

/-- The operation that an emission adds to a table. -/
def operation? (t : SymbolTable) (n : Node) (em : Emission) : Option Operation :=
  (em.form? t n).map fun form => ⟨some n.id, form, 0, []⟩

/-- The table with an emission: its resources, then its operation. -/
def install (t : SymbolTable) (n : Node) (em : Emission) : SymbolTable :=
  match em.operation? t n with
  | some o => (em.resources t n).addOperation o
  | none => t

/-- The index to which an emission binds its node. -/
def index? (t : SymbolTable) : Emission → Option Nat
  | .nothing => none
  | .stageInput index => some index
  | _ => some t.operations.length

/-- The bindings with that of the node of an emission. -/
def bind (t : SymbolTable) (n : Node) (em : Emission) (bindings : Dict Nat) : Dict Nat :=
  match em.index? t with
  | some i => bindings.insert n.id i
  | none => bindings

theorem get?_bind_ne {t : SymbolTable} {n : Node} {id : String} (h : id ≠ n.id) (em : Emission)
    (bindings : Dict Nat) : (em.bind t n bindings).get? id = bindings.get? id := by
  unfold bind
  cases em.index? t with
  | none => rfl
  | some i => rw [Dict.get?_insert, if_neg h]

theorem get?_bind_self (t : SymbolTable) (n : Node) (em : Emission) (bindings : Dict Nat) :
    (em.bind t n bindings).get? n.id = (em.index? t).or (bindings.get? n.id) := by
  unfold bind
  cases em.index? t with
  | none => rfl
  | some i => rw [Dict.get?_insert, if_pos rfl, Option.some_or]

/-- Whether an emission makes its node stand for the stage input. -/
def isStageInput : Emission → Bool
  | .stageInput _ => true
  | _ => false

/-- Whether an emission samples a texture. -/
def isSample : Emission → Bool
  | .sample _ => true
  | _ => false

end Emission

/-! ## Names do not depend on anything but names -/

namespace SymbolTable

variable {t t' : SymbolTable}

theorem freshName_congr (h : t'.identifiers = t.identifiers) (base : String) :
    t'.freshName base = t.freshName base := by
  have htaken : ∀ name, t'.taken name = t.taken name := fun name => by rw [taken, h, taken]
  have hfree : ∀ fuel k, t'.freeSuffix base fuel k = t.freeSuffix base fuel k := by
    intro fuel
    induction fuel with
    | zero => exact fun k => rfl
    | succ fuel ih => exact fun k => by simp only [freeSuffix, htaken, ih]
  simp only [freshName, htaken, hfree, h]

/-- An operation changes only the operations and the names taken. -/
theorem addOperation_eq (t : SymbolTable) (o : Operation) :
    t.addOperation o = { t with
      operations := t.operations ++ [o]
      identifiers := (t.addOperation o).identifiers } := by
  unfold addOperation
  split <;> rfl

theorem addOperation_identifiers_congr (h : t'.identifiers = t.identifiers) (o : Operation) :
    (t'.addOperation o).identifiers = (t.addOperation o).identifiers := by
  unfold addOperation
  split
  · exact h
  · exact congrArg (·.insert o.name) h

end SymbolTable

namespace Emission

variable {t t' : SymbolTable} (h : t'.identifiers = t.identifiers) (n : Node) (em : Emission)
include h

theorem textureName_congr : textureName t' n = textureName t n :=
  SymbolTable.freshName_congr h _

theorem withTexture_identifiers_congr :
    (withTexture t' n).identifiers = (withTexture t n).identifiers := by
  unfold withTexture
  rw [textureName_congr h]
  exact congrArg (Std.ExtTreeSet.insert · (textureName t n)) h

theorem samplerName_congr : samplerName t' n = samplerName t n :=
  SymbolTable.freshName_congr (withTexture_identifiers_congr h n) _

theorem resources_identifiers_congr :
    (em.resources t' n).identifiers = (em.resources t n).identifiers := by
  cases em with
  | sample coords =>
    simp only [resources]
    rw [samplerName_congr h]
    exact congrArg (Std.ExtTreeSet.insert · (samplerName t n)) (withTexture_identifiers_congr h n)
  | nothing | stageInput | value | effect | synonym => exact h

theorem operation?_congr : em.operation? t' n = em.operation? t n := by
  unfold operation?
  congr 1
  cases em with
  | sample coords =>
    simp only [form?, textureName_congr h, samplerName_congr h,
      SymbolTable.freshName_congr (resources_identifiers_congr h n (.sample coords))]
  | value => simp only [form?, SymbolTable.freshName_congr h]
  | nothing | stageInput | effect | synonym => rfl

theorem install_identifiers_congr :
    (em.install t' n).identifiers = (em.install t n).identifiers := by
  unfold install
  rw [operation?_congr h]
  split
  · exact SymbolTable.addOperation_identifiers_congr (resources_identifiers_congr h n em) _
  · exact h

end Emission

/-! ## Functions of declared calls -/

namespace SymbolTable

/-- The function that a node declares has its name taken for it. -/
def Reserves (t : SymbolTable) (n : Node) : Prop :=
  ∀ function type? source, n.kind = .declaredCall function type? source →
    t.methods.contains function = true

/-- The functions of a table after a node. -/
def functionsWith (t : SymbolTable) (n : Node) : List Function :=
  match n.kind with
  | .declaredCall function _ source =>
    if t.hasFunction function then t.functions else t.functions ++ [⟨function, source⟩]
  | _ => t.functions

end SymbolTable

namespace Compilation

variable (c : Compilation) (n : Node)

/-- The compilation with other functions. -/
def withFunctions (c : Compilation) (functions : List Function) : Compilation :=
  { c with table := { c.table with functions := functions } }

/-- A node whose function has its name taken declares it without fail. -/
theorem declare_eq (h : c.table.Reserves n) :
    c.declare n = .ok (c.withFunctions (c.table.functionsWith n)) := by
  unfold declare SymbolTable.functionsWith
  cases hkind : n.kind with
  | declaredCall function type? source =>
    have hreserve := SymbolTable.reserveMethod_eq_ok_iff.2 (.inl ⟨h _ _ _ hkind, rfl⟩)
    simp only [SymbolTable.run_defineMethod, hreserve]
    by_cases hf : c.table.hasFunction function = true
    · simp only [hf, if_true]; rfl
    · simp only [hf]; rfl
  | _ => rfl

/-! ## Nodes -/

/-- What emitting a node changes, but for the record of uses. -/
structure Emitted (c : Compilation) (n : Node) (em : Emission) (c' : Compilation) : Prop where
  registry : c'.registry = c.registry
  inline : c'.inline = c.inline
  input : c'.input = c.input
  output : c'.output = c.output
  inputVar : c'.inputVar = c.inputVar
  outputType : c'.outputType = c.outputType
  inputNode : c'.inputNode = if em.isStageInput then some n.id else c.inputNode
  bindings : c'.bindings = em.bind c.table n c.bindings
  operations : c'.table.operations.map Operation.bare =
    c.table.operations.map Operation.bare ++ (em.operation? c.table n).toList
  identifiers : c'.table.identifiers = (em.install c.table n).identifiers
  resourceViews : c'.table.resourceViews = (em.resources c.table n).resourceViews
  samplers : c'.table.samplers = (em.resources c.table n).samplers
  accessViews : c'.table.accessViews = c.table.accessViews
  constantBuffers : c'.table.constantBuffers = c.table.constantBuffers
  structs : c'.table.structs = c.table.structs
  methods : c'.table.methods = c.table.methods
  functions : c'.table.functions = c.table.functionsWith n
  textureSlots : c'.textureSlots =
    if em.isSample then c.textureSlots.insert n.id c.table.resourceViews.length.toUInt32
    else c.textureSlots
  samplerSlots : c'.samplerSlots =
    if em.isSample then c.samplerSlots.insert n.id c.table.samplers.length.toUInt32
    else c.samplerSlots

theorem place_table (em : Emission) : (c.place n em).table = em.install c.table n := by
  cases em <;> rfl

theorem apply_index (em : Emission) : (c.apply n em).2 = em.index? c.table := by
  cases em <;> rfl

theorem install_eq (t : SymbolTable) (em : Emission) :
    em.install t n = { em.resources t n with
      operations := t.operations ++ (em.operation? t n).toList
      identifiers := (em.install t n).identifiers } := by
  unfold Emission.install
  cases em with
  | nothing | stageInput => simp [Emission.operation?, Emission.form?, Emission.resources]
  | sample | value | effect | synonym =>
    simp only [Emission.operation?, Emission.form?, Option.map_some]
    rw [SymbolTable.addOperation_eq]
    rfl

/-- A bare emission in place, on a table with other functions. -/
theorem emitted_of_bare {c c' : Compilation} {n : Node} {em : Emission}
    (h : c'.bare = ((c.withFunctions (c.table.functionsWith n)).place n em).bare) :
    c.Emitted n em c' := by
  have field {α : Type} (f : Compilation → α) := congrArg f h
  have htable := (field (·.table)).trans
    (congrArg SymbolTable.bare ((place_table _ n em).trans (install_eq n _ em)))
  have hfield {α : Type} (f : SymbolTable → α) := congrArg f htable
  have hids : (c.withFunctions (c.table.functionsWith n)).table.identifiers =
    c.table.identifiers := rfl
  constructor
  case registry => exact (field (·.registry)).trans (by cases em <;> rfl)
  case inline => exact (field (·.inline)).trans (by cases em <;> rfl)
  case input => exact (field (·.input)).trans (by cases em <;> rfl)
  case output => exact (field (·.output)).trans (by cases em <;> rfl)
  case inputVar => exact (field (·.inputVar)).trans (by cases em <;> rfl)
  case outputType => exact (field (·.outputType)).trans (by cases em <;> rfl)
  case inputNode => exact (field (·.inputNode)).trans (by cases em <;> rfl)
  case bindings => exact (field (·.bindings)).trans (by cases em <;> rfl)
  case textureSlots => exact (field (·.textureSlots)).trans (by cases em <;> rfl)
  case samplerSlots => exact (field (·.samplerSlots)).trans (by cases em <;> rfl)
  case accessViews => exact (hfield (·.accessViews)).trans (by cases em <;> rfl)
  case constantBuffers => exact (hfield (·.constantBuffers)).trans (by cases em <;> rfl)
  case structs => exact (hfield (·.structs)).trans (by cases em <;> rfl)
  case methods => exact (hfield (·.methods)).trans (by cases em <;> rfl)
  case functions => exact (hfield (·.functions)).trans (by cases em <;> rfl)
  case identifiers =>
    exact (hfield (·.identifiers)).trans (Emission.install_identifiers_congr hids n em)
  case operations =>
    refine (hfield (·.operations)).trans ?_
    simp only [SymbolTable.bare, List.map_append, Emission.operation?_congr hids]
    congr 1
    unfold Emission.operation?
    cases em.form? c.table n <;> rfl
  case resourceViews =>
    refine (hfield (·.resourceViews)).trans ?_
    cases em with
    | sample =>
      simp only [Emission.resources, Emission.withTexture, SymbolTable.addResourceView,
        SymbolTable.addSampler]
      rw [Emission.textureName_congr hids]
      rfl
    | nothing | stageInput | value | effect | synonym => rfl
  case samplers =>
    refine (hfield (·.samplers)).trans ?_
    cases em with
    | sample =>
      simp only [Emission.resources, SymbolTable.addSampler]
      rw [Emission.samplerName_congr hids]
      rfl
    | nothing | stageInput | value | effect | synonym => rfl

/-! ## What reading a value depends on -/

/-- Two compilations in which the values of nodes are read the same. -/
structure SameView (c d : Compilation) : Prop where
  registry : d.registry = c.registry
  inline : d.inline = c.inline
  struct? : ∀ name, d.struct? name = c.struct? name
  operation? : ∀ id, (d.operation? id).map Operation.bare = (c.operation? id).map Operation.bare

theorem sameView_withFunctions (fs : List Function) : SameView c (c.withFunctions fs) :=
  ⟨rfl, rfl, fun _ => rfl, fun _ => rfl⟩

namespace SameView

variable {c d : Compilation} (h : SameView c d)
include h

theorem typeOf? (text : Option String) : d.typeOf? text = c.typeOf? text := by
  simp only [Compilation.typeOf?, h.registry]

theorem memberAt? {o o' : Operation} (ho : o'.bare = o.bare) (producer : Node) (type : ValueType)
    (p : Pin) : d.memberAt? producer o' type p = c.memberAt? producer o type p := by
  simp only [Compilation.memberAt?, h.struct?, h.typeOf?, Operation.reference_of_bare ho,
    Operation.name_of_bare ho]

theorem wholeValue {o o' : Operation} (ho : o'.bare = o.bare) (type : ValueType) :
    d.wholeValue o' type = c.wholeValue o type := by
  simp only [Compilation.wholeValue, h.inline, Operation.reference_of_bare ho,
    Operation.expansion_of_bare ho, Operation.name_of_bare ho]

theorem valueOf (producer : Node) (pin : Option Pin) :
    d.valueOf producer pin = c.valueOf producer pin := by
  have ho := h.operation? producer.id
  unfold Compilation.valueOf
  cases hc : c.operation? producer.id with
  | none =>
    rw [hc, Option.map_none, Option.map_eq_none_iff] at ho
    rw [ho]
  | some o =>
    rw [hc, Option.map_some, Option.map_eq_some_iff] at ho
    obtain ⟨o', ho', hbare⟩ := ho
    have ht := Operation.type?_of_bare hbare
    rw [ho']
    simp only [ht]
    cases o.type? with
    | none => rfl
    | some type =>
      cases pin with
      | none => simp only [Option.bind_none, h.wholeValue hbare]
      | some p => simp only [Option.bind_some, h.memberAt? hbare, h.wholeValue hbare]

theorem operandAt (g : Graph) (n : Node) (p : Pin) : d.operandAt g n p = c.operandAt g n p := by
  simp only [Compilation.operandAt, Compilation.linkValue, Compilation.defaultOperand, h.valueOf,
    h.typeOf?]

theorem operandNo (g : Graph) (n : Node) (i : Nat) : d.operandNo g n i = c.operandNo g n i := by
  simp only [Compilation.operandNo, h.operandAt]

theorem operands (g : Graph) (n : Node) : d.operands g n = c.operands g n := by
  have hat : ∀ pins, d.operandsAt g n pins = c.operandsAt g n pins := by
    intro pins
    induction pins with
    | nil => rfl
    | cons p rest ih => simp only [Compilation.operandsAt, h.operandAt, ih]
  exact hat n.inputs

theorem operandsNo (g : Graph) (n : Node) (is : List Nat) :
    d.operandsNo g n is = c.operandsNo g n is := by
  induction is with
  | nil => rfl
  | cons i rest ih => simp only [Compilation.operandsNo, h.operandNo, ih]

/-- What to emit for a node is decided by values, and for the stage input by
    what it is bound to. -/
theorem plan (hvar : d.inputVar = c.inputVar) (hnode : d.inputNode = c.inputNode) (g : Graph)
    (n : Node) : d.plan g n = c.plan g n := by
  unfold Compilation.plan
  simp only [h.operandNo, h.operands, h.operandsNo, h.registry, h.typeOf?, arity, planConstant,
    planInput, hvar, hnode]

end SameView

/-- A node whose function has its name taken is emitted if it can be planned. -/
theorem emit_isOk_iff (g : Graph) (h : c.table.Reserves n) :
    (∃ c' i, c.emit g n = (c', .ok i)) ↔ ∃ em, c.plan g n = .ok em := by
  have hplan := (c.sameView_withFunctions (c.table.functionsWith n)).plan rfl rfl g n
  rw [emit_eq, declare_eq c n h]
  simp only [hplan]
  cases c.plan g n <;> simp [carryOut]

/-- **What emitting a node does.** -/
theorem emit_ok {c c' : Compilation} {g : Graph} {n : Node} {i : Option Nat}
    (hr : c.table.Reserves n) (h : c.emit g n = (c', .ok i)) :
    ∃ em, c.plan g n = .ok em ∧ c.Emitted n em c' := by
  have hplan := (c.sameView_withFunctions (c.table.functionsWith n)).plan rfl rfl g n
  rw [emit_eq, declare_eq c n hr] at h
  simp only [hplan] at h
  cases hem : c.plan g n with
  | error e => rw [hem] at h; cases h
  | ok em =>
    rw [hem] at h
    cases h
    exact ⟨em, rfl, emitted_of_bare (bare_apply _ n em)⟩

end Compilation

end Shading
