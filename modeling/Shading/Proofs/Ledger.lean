/-
  What a symbol table holds after any calls.

  * `SymbolTable.Call`: a call of one of the operations of a table, with what it
    does and answers (`call`).  A ledger lists calls with their answers, and
    `sinceClear` cuts off what a clearing made void.
  * `SymbolTable.Accounts`: a table holds exactly what a ledger says.  Every call
    keeps that (`Accounts.call`), so it holds after all calls (`accounts_run`).
  * `calls_accounted`: from this it is known when a name can be taken for a
    function, and that a call that is refused changes nothing.
-/
import Mathlib.Data.List.Induction
import Shading.Proofs.SymbolTable

namespace Shading

namespace SymbolTable

/-! ## Calls -/

/-- A call of an operation of a table.  An operation that is added has not been
    used yet. -/
inductive Call where
  | claim (name : String)
  | addOperation (node : Option String) (form : Operation.Form)
  | addStruct (s : Struct)
  | addResourceView (name : String) (type : ValueType) (element : Option ValueType)
  | addAccessView (name : String) (type : ValueType) (element : Option ValueType)
  | addSampler (name : String) (type : ValueType)
  | addConstantBuffer (name : String) (fields : List Field)
  | reserveMethod (name : String)
  | defineMethod (name source : String)
  | addUse (name consumer : String)
  | clear

/-- What a call answers: nothing but that it is done, or whether a function is
    new, or why it is refused. -/
inductive Answer where
  | done
  | defined (new : Bool)
  | refused (cause : Cause)

/-- The table as a call that may be refused leaves it, and the answer. -/
def answered {α : Type} (answer : α → Answer) :
    EStateM.Result Cause SymbolTable α → SymbolTable × Answer
  | .ok a t => (t, answer a)
  | .error cause t => (t, .refused cause)

/-- The table after a call, and the answer. -/
def call (t : SymbolTable) : Call → SymbolTable × Answer
  | .claim name => (t.claim name, .done)
  | .addOperation node form => (t.addOperation ⟨node, form, 0, []⟩, .done)
  | .addStruct s => (t.addStruct s, .done)
  | .addResourceView name type element => (t.addResourceView name type element, .done)
  | .addAccessView name type element => (t.addAccessView name type element, .done)
  | .addSampler name type => (t.addSampler name type, .done)
  | .addConstantBuffer name fields => (t.addConstantBuffer name fields, .done)
  | .reserveMethod name => answered (fun _ => .done) ((reserveMethod name).run t)
  | .defineMethod name source => answered .defined ((defineMethod name source).run t)
  | .addUse name consumer => (t.addUse name consumer, .done)
  | .clear => (.empty, .done)

/-- The table after calls, one after the other. -/
def run (t : SymbolTable) (calls : List Call) : SymbolTable :=
  calls.foldl (fun t c => (t.call c).1) t

/-! ## Ledgers -/

/-- A call with its answer. -/
abbrev Entry := Call × Answer

/-- Calls with their answers. -/
def journal (t : SymbolTable) : List Call → List Entry
  | [] => []
  | c :: rest => (c, (t.call c).2) :: journal (t.call c).1 rest

/-- Whether a call makes void what was before it. -/
def Call.isClear : Call → Bool
  | .clear => true
  | _ => false

/-- The entries after the last one that made void what was before it. -/
def sinceClear (es : List Entry) : List Entry :=
  (es.reverse.takeWhile fun e => !e.1.isClear).reverse

/-- The name of an operation of some form. -/
def formName (form : Operation.Form) : String :=
  Operation.name ⟨none, form, 0, []⟩

/-- The name that a call takes, whatever it is answered. -/
def Call.name? : Call → Option String
  | .claim name | .addResourceView name .. | .addAccessView name .. | .addSampler name _
  | .addConstantBuffer name _ => some name
  | .addOperation _ form => if (formName form).isEmpty then none else some (formName form)
  | .addStruct s => some s.name
  | .reserveMethod _ | .defineMethod .. | .addUse .. | .clear => none

/-- The name that was taken for a function. -/
def Entry.method? : Entry → Option String
  | (.reserveMethod name, .done) => some name
  | (.defineMethod name _, .defined true) => some name
  | _ => none

/-- The function that was declared. -/
def Entry.function? : Entry → Option Function
  | (.defineMethod name source, .defined true) => some ⟨name, source⟩
  | _ => none

/-- The node and the form of an operation that a call adds. -/
def Call.operation? : Call → Option (Option String × Operation.Form)
  | .addOperation node form => some (node, form)
  | _ => none

/-- The struct that a call adds. -/
def Call.struct? : Call → Option Struct
  | .addStruct s => some s
  | _ => none

/-- The shader resource view that a call adds, but for its slot. -/
def Call.resourceView? : Call → Option (UInt32 → View)
  | .addResourceView name type element => some (.mk name type element)
  | _ => none

/-- The unordered access view that a call adds, but for its slot. -/
def Call.accessView? : Call → Option (UInt32 → View)
  | .addAccessView name type element => some (.mk name type element)
  | _ => none

/-- The sampler that a call adds, but for its slot. -/
def Call.sampler? : Call → Option (UInt32 → Sampler)
  | .addSampler name type => some (.mk name type)
  | _ => none

/-- The constant buffer that a call adds, but for its slot. -/
def Call.constantBuffer? : Call → Option (UInt32 → ConstantBuffer)
  | .addConstantBuffer name fields => some (.mk name fields)
  | _ => none

/-- The consumer that a call notes for operations with a name. -/
def Call.consumer? (name : String) : Call → Option String
  | .addUse used consumer => if used = name then some consumer else none
  | _ => none

/-- Whether a name was taken for a function. -/
def Claimed (es : List Entry) (name : String) : Prop :=
  name ∈ es.filterMap Entry.method?

/-- The things of one kind, each in the slot of its place among them. -/
def placed {α : Type} (thing? : Call → Option (UInt32 → α)) (es : List Entry) : List α :=
  (es.filterMap fun e => thing? e.1).mapIdx fun slot make => make slot.toUInt32

/-- The names of the operations added. -/
def operationNames (es : List Entry) : List String :=
  es.filterMap fun e => e.1.operation?.map fun o => formName o.2

/-- The consumers noted under a name since the first operation of that name. -/
def uses (name : String) : List Entry → List String
  | [] => []
  | e :: rest =>
    if e.1.operation?.map (fun o => formName o.2) = some name then
      rest.filterMap fun e => e.1.consumer? name
    else uses name rest

/-! ## Accounts -/

/-- A table holds what a ledger says. -/
structure Accounts (es : List Entry) (t : SymbolTable) : Prop where
  /-- Names are taken by keywords, operations that have a name, structs,
      resources and functions. -/
  taken : ∀ name, t.taken name = true ↔
    name ∈ es.filterMap (fun e => e.1.name?) ∨ Claimed es name
  methods : ∀ name, t.methods.contains name = true ↔ Claimed es name
  structs : t.structs = es.filterMap fun e => e.1.struct?
  resourceViews : t.resourceViews = placed Call.resourceView? es
  accessViews : t.accessViews = placed Call.accessView? es
  samplers : t.samplers = placed Call.sampler? es
  constantBuffers : t.constantBuffers = placed Call.constantBuffer? es
  functions : t.functions = es.filterMap Entry.function?
  /-- No two functions have the same name. -/
  functionsNodup : (t.functions.map Function.name).Nodup
  /-- The names of functions are taken for functions. -/
  functionsClaimed : ∀ f ∈ t.functions, Claimed es f.name
  operations : t.operations.map (fun o => (o.node, o.form)) = es.filterMap fun e => e.1.operation?
  /-- Uses go to the first operation of a name. -/
  consumers : ∀ i o, t.operations[i]? = some o →
    o.consumers = if o.name ∈ (operationNames es).take i then [] else uses o.name es
  /-- The uses of operations are counted. -/
  refs : ∀ o ∈ t.operations, o.refs = o.consumers.length

/-! ## What a call does -/

/-- The operations after a call. -/
def Call.operationsAfter (c : Call) (os : List Operation) : List Operation :=
  match c with
  | .addOperation node form => os ++ [⟨node, form, 0, []⟩]
  | .addUse name consumer => noteUse name consumer os
  | _ => os

/-- A list with one more element, if there is one. -/
def extend {α : Type} (as : List α) : Option α → List α
  | none => as
  | some a => as ++ [a]

/-- What a call that clears nothing does to a table, by its entry. -/
structure Entered (e : Entry) (t t' : SymbolTable) : Prop where
  taken : ∀ name, t'.taken name = true ↔
    t.taken name = true ∨ e.1.name? = some name ∨ e.method? = some name
  methods : ∀ name, t'.methods.contains name = true ↔
    t.methods.contains name = true ∨ e.method? = some name
  structs : t'.structs = extend t.structs e.1.struct?
  resourceViews : t'.resourceViews =
    extend t.resourceViews (e.1.resourceView?.map (· t.resourceViews.length.toUInt32))
  accessViews : t'.accessViews =
    extend t.accessViews (e.1.accessView?.map (· t.accessViews.length.toUInt32))
  samplers : t'.samplers = extend t.samplers (e.1.sampler?.map (· t.samplers.length.toUInt32))
  constantBuffers : t'.constantBuffers =
    extend t.constantBuffers (e.1.constantBuffer?.map (· t.constantBuffers.length.toUInt32))
  functions : t'.functions = extend t.functions e.function?
  functionNew : ∀ f, e.function? = some f → t.hasFunction f.name = false ∧ e.method? = some f.name
  operations : t'.operations = e.1.operationsAfter t.operations

/-- A call that takes a name for something else than a function. -/
theorem Entered.methods_none {e : Entry} {t t' : SymbolTable} (he : e.method? = none)
    (hm : t'.methods = t.methods) (name : String) :
    t'.methods.contains name = true ↔
      t.methods.contains name = true ∨ e.method? = some name := by
  rw [he, hm]
  simp

theorem taken_claim_iff (t : SymbolTable) (a b : String) :
    (t.claim a).taken b = true ↔ t.taken b = true ∨ some a = some b ∨ none = some b := by
  simp [or_comm]

theorem taken_addOperation_iff (t : SymbolTable) (node : Option String) (form : Operation.Form)
    (b : String) :
    (t.addOperation ⟨node, form, 0, []⟩).taken b = true ↔
      t.taken b = true ∨ (Call.addOperation node form).name? = some b ∨ none = some b := by
  have hname : Operation.name ⟨node, form, 0, []⟩ = formName form := rfl
  rw [taken_addOperation, hname, Call.name?]
  cases (formName form).isEmpty <;> simp [or_comm]

/-- A call that says nothing new. -/
theorem Entered.refl {e : Entry} (t : SymbolTable) (hname : e.1.name? = none)
    (hmethod : e.method? = none) (hstruct : e.1.struct? = none)
    (hresource : e.1.resourceView? = none) (haccess : e.1.accessView? = none)
    (hsampler : e.1.sampler? = none) (hbuffer : e.1.constantBuffer? = none)
    (hfunction : e.function? = none) (hoperations : ∀ os, e.1.operationsAfter os = os) :
    Entered e t t := by
  constructor <;> simp [*, extend]

theorem Entered.reserved {t u : SymbolTable} {name : String} (h : Reserved t [name] u) :
    Entered (.reserveMethod name, .done) t u := by
  obtain ⟨heq, htaken, hmethods⟩ := h
  obtain ⟨identifiers, methods, rfl⟩ :
      ∃ identifiers methods, u = { t with identifiers := identifiers, methods := methods } :=
    ⟨_, _, heq⟩
  refine ⟨fun x => ?_, fun x => ?_, rfl, rfl, rfl, rfl, rfl, rfl, ?_, rfl⟩
  · simp [htaken, Call.name?, Entry.method?, @eq_comm _ x]
  · rw [hmethods]
    simp [Entry.method?, @eq_comm _ x]
  · intro f hf
    cases hf

theorem Entered.defined {t u : SymbolTable} {name source : String} (h : Reserved t [name] u)
    (hnew : t.hasFunction name = false) :
    Entered (.defineMethod name source, .defined true) t
      { u with functions := u.functions ++ [⟨name, source⟩] } := by
  have hu := Entered.reserved h
  refine ⟨hu.taken, hu.methods, hu.structs, hu.resourceViews, hu.accessViews, hu.samplers,
    hu.constantBuffers, ?_, fun f hf => ?_, hu.operations⟩
  · rw [hu.functions]
    rfl
  · cases hf
    exact ⟨hnew, rfl⟩

/-- **What every call does.** -/
theorem call_entered {t : SymbolTable} (h : t.Lawful) {c : Call} (hc : c.isClear = false) :
    Entered (c, (t.call c).2) t (t.call c).1 := by
  cases c with
  | claim name | addStruct s | addResourceView name type element | addAccessView name type element
  | addSampler name type | addConstantBuffer name fields =>
    refine
      ⟨taken_claim_iff t _, Entered.methods_none rfl rfl, rfl, rfl, rfl, rfl, rfl, rfl, ?_, rfl⟩
    intro f hf
    cases hf
  | addOperation node form =>
    obtain ⟨identifiers, hadd⟩ : ∃ identifiers, t.addOperation ⟨node, form, 0, []⟩ =
        { t with
          operations := t.operations ++ [⟨node, form, 0, []⟩]
          identifiers := identifiers } := by
      unfold addOperation
      split
      · exact ⟨_, rfl⟩
      · exact ⟨_, rfl⟩
    have htaken := taken_addOperation_iff t node form
    rw [call]
    rw [hadd] at htaken ⊢
    refine ⟨htaken, Entered.methods_none rfl rfl, rfl, rfl, rfl, rfl, rfl, rfl, ?_, rfl⟩
    intro f hf
    cases hf
  | reserveMethod name =>
    rw [call]
    cases hr : (reserveMethod name).run t with
    | error cause u =>
      obtain ⟨-, -, rfl⟩ := reserveMethod_eq_error_iff.1 hr
      exact .refl t rfl rfl rfl rfl rfl rfl rfl rfl fun _ => rfl
    | ok _ u => exact .reserved (reserveMethod_spec h hr)
  | defineMethod name source =>
    rw [call]
    cases hd : (defineMethod name source).run t with
    | error cause u =>
      obtain rfl := eq_of_defineMethod_error hd
      exact .refl t rfl rfl rfl rfl rfl rfl rfl rfl fun _ => rfl
    | ok new u =>
      rcases defineMethod_eq_ok_iff.1 hd with ⟨-, rfl, rfl⟩ | ⟨hf, rfl, v, hr, rfl⟩
      · exact .refl t rfl rfl rfl rfl rfl rfl rfl rfl fun _ => rfl
      · exact .defined (reserveMethod_spec h hr) hf
  | addUse name consumer =>
    refine ⟨fun x => ?_, Entered.methods_none rfl rfl, rfl, rfl, rfl, rfl, rfl, rfl, ?_, rfl⟩
    · have hsame : (t.addUse name consumer).taken x = t.taken x := rfl
      simp [call, hsame, Call.name?, Entry.method?]
    · intro f hf
      cases hf
  | clear => cases hc

/-! ## Keeping accounts -/

section
variable {es : List Entry} {e : Entry} {t t' : SymbolTable}

theorem filterMap_concat {α β : Type} (f : α → Option β) (as : List α) (a : α) :
    (as ++ [a]).filterMap f = extend (as.filterMap f) (f a) := by
  rw [List.filterMap_append, List.filterMap_cons, List.filterMap_nil]
  cases f a with
  | none => exact List.append_nil _
  | some b => rfl

theorem mem_extend {α : Type} {as : List α} {o : Option α} {a : α} :
    a ∈ extend as o ↔ a ∈ as ∨ o = some a := by
  cases o <;> simp [extend, eq_comm]

theorem claimed_concat {name : String} :
    Claimed (es ++ [e]) name ↔ Claimed es name ∨ e.method? = some name := by
  rw [Claimed, filterMap_concat, mem_extend, Claimed]

theorem placed_concat {α : Type} (thing? : Call → Option (UInt32 → α)) :
    placed thing? (es ++ [e]) =
      extend (placed thing? es) ((thing? e.1).map (· (placed thing? es).length.toUInt32)) := by
  unfold placed
  rw [filterMap_concat]
  cases thing? e.1 with
  | none => rfl
  | some make => simp only [extend, List.mapIdx_concat, Option.map_some, List.length_mapIdx]

theorem operationNames_concat :
    operationNames (es ++ [e]) =
      extend (operationNames es) (e.1.operation?.map fun o => formName o.2) :=
  filterMap_concat _ _ _

theorem mem_operationNames_cons {name : String} :
    name ∈ operationNames (e :: es) ↔
      e.1.operation?.map (fun o => formName o.2) = some name ∨ name ∈ operationNames es := by
  rw [operationNames, List.filterMap_cons]
  cases hname : e.1.operation?.map fun o => formName o.2 with
  | none => simp [operationNames]
  | some other => simp [operationNames, eq_comm]

theorem uses_concat_of_not_mem {name : String} (h : name ∉ operationNames es) :
    uses name (es ++ [e]) = [] := by
  induction es with
  | nil =>
    rw [List.nil_append, uses]
    split <;> rfl
  | cons e' rest ih =>
    rw [mem_operationNames_cons, not_or] at h
    rw [List.cons_append, uses, if_neg h.1]
    exact ih h.2

/-- A use counts if there is an operation of its name. -/
theorem uses_concat {name : String} (h : name ∈ operationNames es) :
    uses name (es ++ [e]) = extend (uses name es) (e.1.consumer? name) := by
  induction es with
  | nil => cases h
  | cons e' rest ih =>
    rw [List.cons_append, uses, uses, filterMap_concat]
    by_cases hfirst : e'.1.operation?.map (fun o => formName o.2) = some name
    · rw [if_pos hfirst, if_pos hfirst]
    · rw [if_neg hfirst, if_neg hfirst]
      exact ih ((mem_operationNames_cons.1 h).resolve_left hfirst)

theorem take_extend {α : Type} {as : List α} {i : Nat} (hi : i ≤ as.length) (o : Option α) :
    (extend as o).take i = as.take i := by
  cases o with
  | none => rfl
  | some b => exact List.take_append_of_le_length hi

/-- A use is noted with the first operation of its name. -/
theorem getElem?_noteUse (name consumer : String) (os : List Operation) (i : Nat) :
    (noteUse name consumer os)[i]? = os[i]?.map fun o =>
      if o.name = name ∧ name ∉ (os.map Operation.name).take i then o.addConsumer consumer
      else o := by
  induction os generalizing i with
  | nil => rfl
  | cons o rest ih =>
    rw [noteUse]
    by_cases hname : o.name = name
    · cases i with
      | zero => simp [hname]
      | succ i => simp [hname]
    · cases i with
      | zero => simp [hname]
      | succ i => simp [hname, ih, Ne.symm hname]

/-- A use is counted as it is noted. -/
theorem refs_noteUse {name consumer : String} {os : List Operation}
    (h : ∀ o ∈ os, o.refs = o.consumers.length) :
    ∀ o ∈ noteUse name consumer os, o.refs = o.consumers.length := by
  induction os with
  | nil => exact h
  | cons o rest ih =>
    obtain ⟨ho, hrest⟩ := List.forall_mem_cons.1 h
    rw [noteUse]
    split
    · refine List.forall_mem_cons.2 ⟨?_, hrest⟩
      rw [Operation.addConsumer, List.length_append, ho]
      rfl
    · exact List.forall_mem_cons.2 ⟨ho, ih hrest⟩

theorem Accounts.names (h : Accounts es t) :
    t.operations.map Operation.name = operationNames es := by
  have hnames := congrArg (List.map fun o : Option String × Operation.Form => formName o.2)
    h.operations
  rw [List.map_map, List.map_filterMap] at hnames
  exact hnames

theorem map_name_noteUse (name consumer : String) (os : List Operation) :
    (noteUse name consumer os).map (fun o => (o.node, o.form)) =
      os.map fun o => (o.node, o.form) := by
  induction os with
  | nil => rfl
  | cons o rest ih =>
    rw [noteUse]
    split
    · rfl
    · rw [List.map_cons, List.map_cons, ih]

theorem Accounts.operations_step (h : Accounts es t) :
    (e.1.operationsAfter t.operations).map (fun o => (o.node, o.form)) =
      (es ++ [e]).filterMap fun e => e.1.operation? := by
  rw [filterMap_concat, ← h.operations]
  obtain ⟨c, answer⟩ := e
  cases c with
  | addOperation node form => simp [Call.operationsAfter, Call.operation?, extend]
  | addUse name consumer => exact map_name_noteUse name consumer _
  | _ => rfl

theorem Accounts.consumers_step (h : Accounts es t) (i : Nat) (o : Operation)
    (ho : (e.1.operationsAfter t.operations)[i]? = some o) :
    o.consumers =
      if o.name ∈ (operationNames (es ++ [e])).take i then [] else uses o.name (es ++ [e]) := by
  have hlength : t.operations.length = (operationNames es).length := by
    rw [← h.names, List.length_map]
  rw [operationNames_concat]
  -- an operation that was there before gets the use that the call notes, if it is the first
  have hold : ∀ p, t.operations[i]? = some p →
      (if p.name ∈ (operationNames es).take i then p.consumers
        else extend p.consumers (e.1.consumer? p.name)) =
      if p.name ∈ (extend (operationNames es) (e.1.operation?.map fun o => formName o.2)).take i
        then [] else uses p.name (es ++ [e]) := by
    intro p hp
    have hi : i < (operationNames es).length := by
      rw [← hlength]
      exact (List.getElem?_eq_some_iff.1 hp).1
    have hmem : p.name ∈ operationNames es := by
      rw [← h.names]
      exact List.mem_map_of_mem (List.mem_of_getElem? hp)
    rw [h.consumers i p hp]
    rw [take_extend (Nat.le_of_lt hi), uses_concat hmem]
    split <;> rfl
  obtain ⟨c, answer⟩ := e
  cases c with
  | addOperation node form =>
    rw [Call.operationsAfter] at ho
    rcases Nat.lt_or_ge i t.operations.length with hi | hi
    · rw [List.getElem?_append_left hi] at ho
      rw [← hold o ho]
      exact (ite_self _).symm
    · -- the new operation is the last one, and nothing uses it yet
      rw [List.getElem?_append_right hi] at ho
      have hlast : i - t.operations.length < 1 := (List.getElem?_eq_some_iff.1 ho).1
      obtain rfl : i = (operationNames es).length := by omega
      obtain rfl := List.mem_singleton.1 (List.mem_of_getElem? ho)
      rw [take_extend (Nat.le_refl _), List.take_length]
      split
      · rfl
      · rename_i hnew
        exact (uses_concat_of_not_mem hnew).symm
  | addUse name consumer =>
    rw [Call.operationsAfter, getElem?_noteUse, h.names] at ho
    obtain ⟨p, hp, rfl⟩ := Option.map_eq_some_iff.1 ho
    have hname : (if p.name = name ∧ name ∉ (operationNames es).take i then p.addConsumer consumer
        else p).name = p.name := by
      split <;> rfl
    rw [hname, ← hold p hp, Call.consumer?]
    by_cases hfirst : p.name = name
    · subst hfirst
      by_cases hearlier : p.name ∈ (operationNames es).take i
      · simp [hearlier]
      · simp [hearlier, extend, Operation.addConsumer]
    · simp [hfirst, Ne.symm hfirst, extend]
  | _ =>
    rw [← hold o ho]
    exact (ite_self _).symm

theorem Accounts.refs_step (h : Accounts es t) :
    ∀ o ∈ e.1.operationsAfter t.operations, o.refs = o.consumers.length := by
  obtain ⟨c, answer⟩ := e
  cases c with
  | addOperation node form =>
    refine List.forall_mem_append.2 ⟨h.refs, fun o ho => ?_⟩
    rw [List.mem_singleton.1 ho]
    rfl
  | addUse name consumer => exact refs_noteUse h.refs
  | _ => exact h.refs

/-- **A call keeps the accounts.** -/
theorem Accounts.step (h : Accounts es t) (he : Entered e t t') : Accounts (es ++ [e]) t' where
  taken name := by
    rw [he.taken, h.taken, filterMap_concat, mem_extend, claimed_concat]
    tauto
  methods name := by rw [he.methods, h.methods, claimed_concat]
  structs := by rw [he.structs, h.structs, filterMap_concat]
  resourceViews := by rw [he.resourceViews, h.resourceViews, placed_concat]
  accessViews := by rw [he.accessViews, h.accessViews, placed_concat]
  samplers := by rw [he.samplers, h.samplers, placed_concat]
  constantBuffers := by rw [he.constantBuffers, h.constantBuffers, placed_concat]
  functions := by rw [he.functions, h.functions, filterMap_concat]
  functionsNodup := by
    rw [he.functions]
    cases hf : e.function? with
    | none => exact h.functionsNodup
    | some f =>
      have hnew : ∀ g ∈ t.functions, g.name ≠ f.name := by
        simpa [hasFunction] using (he.functionNew f hf).1
      rw [extend, List.map_append, List.nodup_append]
      refine ⟨h.functionsNodup, by simp, ?_⟩
      simpa using hnew
  functionsClaimed f hf := by
    rw [he.functions, mem_extend] at hf
    rw [claimed_concat]
    exact hf.imp (h.functionsClaimed f) fun hnew => (he.functionNew f hnew).2
  operations := by rw [he.operations, h.operations_step]
  consumers i o ho := h.consumers_step i o (he.operations ▸ ho)
  refs o ho := h.refs_step o (he.operations ▸ ho)

end

theorem accounts_empty : Accounts [] .empty := by
  constructor <;> simp [empty, taken, Claimed, placed]

theorem Accounts.lawful {es : List Entry} {t : SymbolTable} (h : Accounts es t) : t.Lawful :=
  fun name hname => (h.taken name).2 (Or.inr ((h.methods name).1 hname))

/-! ## Runs -/

theorem run_concat (t : SymbolTable) (calls : List Call) (c : Call) :
    t.run (calls ++ [c]) = ((t.run calls).call c).1 := by
  rw [run, List.foldl_append]
  rfl

theorem journal_concat (t : SymbolTable) (calls : List Call) (c : Call) :
    t.journal (calls ++ [c]) = t.journal calls ++ [(c, ((t.run calls).call c).2)] := by
  induction calls generalizing t with
  | nil => rfl
  | cons d rest ih =>
    rw [List.cons_append, journal, ih, journal]
    rfl

theorem sinceClear_concat (es : List Entry) (e : Entry) :
    sinceClear (es ++ [e]) = if e.1.isClear then [] else sinceClear es ++ [e] := by
  unfold sinceClear
  rw [List.reverse_append, List.reverse_singleton, List.singleton_append, List.takeWhile_cons]
  cases e.1.isClear <;> simp

/-- **After any calls a table holds what they say**, as far as they come after
    the last clearing. -/
theorem accounts_run (calls : List Call) :
    Accounts (sinceClear (empty.journal calls)) (empty.run calls) := by
  induction calls using List.reverseRecOn with
  | nil => exact accounts_empty
  | append_singleton calls c ih =>
    rw [journal_concat, sinceClear_concat, run_concat]
    cases hc : c.isClear with
    | true =>
      rw [if_pos rfl]
      cases c with
      | clear => exact accounts_empty
      | _ => cases hc
    | false =>
      rw [if_neg (by simp)]
      exact ih.step (call_entered ih.lawful hc)

/-- Things are in the slots of their places, as far as slots go. -/
theorem slot_placed {α : Type} {thing? : Call → Option (UInt32 → α)} (slot : α → UInt32)
    (h : ∀ c make, thing? c = some make → ∀ i, slot (make i) = i) {es : List Entry} {i : Nat}
    {a : α} {as : List α} (has : as = placed thing? es) (ha : as[i]? = some a)
    (hi : i < UInt32.size) : (slot a).toNat = i := by
  rw [has, placed, List.getElem?_mapIdx] at ha
  obtain ⟨make, hmake, rfl⟩ := Option.map_eq_some_iff.1 ha
  obtain ⟨e, -, he⟩ := List.mem_filterMap.1 (List.mem_of_getElem? hmake)
  rw [h e.1 make he]
  exact UInt32.toNat_ofNat_of_lt' hi

/-! ## Answers -/

section
variable {t : SymbolTable} {c : Call} {name source : String} {cause : Cause}

theorem reserveMethod_refused_iff :
    (t.call (.reserveMethod name)).2 = .refused cause ↔
      cause = .nameTaken name ∧ t.taken name = true ∧ t.methods.contains name = false := by
  rw [call, run_reserveMethod]
  by_cases hm : t.methods.contains name = true
  · simp [hm, answered]
  · by_cases ht : t.taken name = true
    · simp [hm, ht, answered, eq_comm]
    · simp [hm, ht, answered]

theorem defineMethod_refused_iff :
    (t.call (.defineMethod name source)).2 = .refused cause ↔
      t.hasFunction name = false ∧ (t.call (.reserveMethod name)).2 = .refused cause := by
  rw [call, call, run_defineMethod]
  by_cases hf : t.hasFunction name = true
  · simp [hf, answered]
  · rw [if_neg hf]
    cases (reserveMethod name).run t <;> simp [hf, answered]

theorem defineMethod_known_iff :
    (t.call (.defineMethod name source)).2 = .defined false ↔ t.hasFunction name = true := by
  rw [call, run_defineMethod]
  by_cases hf : t.hasFunction name = true
  · simp [hf, answered]
  · rw [if_neg hf]
    cases (reserveMethod name).run t <;> simp [hf, answered]

theorem call_defineMethod_of_hasFunction (h : t.hasFunction name = true) :
    (t.call (.defineMethod name source)).1 = t := by
  rw [call, run_defineMethod, if_pos h, answered]

/-- A call is refused before it changes anything. -/
theorem call_of_refused (h : (t.call c).2 = .refused cause) : (t.call c).1 = t := by
  cases c with
  | reserveMethod name =>
    rw [call] at h ⊢
    cases hr : (reserveMethod name).run t with
    | error _ u =>
      obtain ⟨-, -, rfl⟩ := reserveMethod_eq_error_iff.1 hr
      rfl
    | ok _ u => rw [hr] at h; cases h
  | defineMethod name source =>
    rw [call] at h ⊢
    cases hd : (defineMethod name source).run t with
    | error _ u =>
      obtain rfl := eq_of_defineMethod_error hd
      rfl
    | ok new u => rw [hd] at h; cases h
  | _ => cases h

end

/-- **A table is what its calls since the last clearing make of it**, whatever
    they are and in whatever order they come.  The ledger of these calls says
    which names are taken, and by what; things are in the slots of their places,
    as far as slots go; an operation counts as many uses as it has consumers.  A
    name is refused to a function exactly if it is taken and not for a function;
    a function that is there is not declared again; and what is refused changes
    nothing. -/
theorem calls_accounted (calls : List Call) :
    let es := sinceClear (empty.journal calls)
    let t := empty.run calls
    Accounts es t ∧
    (∀ i (v : View), t.resourceViews[i]? = some v → i < UInt32.size → v.slot.toNat = i) ∧
    (∀ i (v : View), t.accessViews[i]? = some v → i < UInt32.size → v.slot.toNat = i) ∧
    (∀ i (s : Sampler), t.samplers[i]? = some s → i < UInt32.size → s.slot.toNat = i) ∧
    (∀ i (b : ConstantBuffer), t.constantBuffers[i]? = some b → i < UInt32.size →
      b.slot.toNat = i) ∧
    (∀ o ∈ t.operations, o.refs = o.consumers.length) ∧
    (∀ name cause, (t.call (.reserveMethod name)).2 = .refused cause ↔
      cause = .nameTaken name ∧ t.taken name = true ∧ ¬ Claimed es name) ∧
    (∀ name source cause, (t.call (.defineMethod name source)).2 = .refused cause ↔
      (∀ f ∈ t.functions, f.name ≠ name) ∧
        cause = .nameTaken name ∧ t.taken name = true ∧ ¬ Claimed es name) ∧
    (∀ name source, (t.call (.defineMethod name source)).2 = .defined false ↔
      ∃ f ∈ t.functions, f.name = name) ∧
    (∀ name source, (∃ f ∈ t.functions, f.name = name) →
      (t.call (.defineMethod name source)).1 = t) ∧
    ∀ c cause, (t.call c).2 = .refused cause → (t.call c).1 = t := by
  intro es t
  have h : Accounts es t := accounts_run calls
  have hunclaimed : ∀ name, t.methods.contains name = false ↔ ¬ Claimed es name := by
    intro name
    rw [← h.methods name, Bool.not_eq_true]
  have hhas : ∀ name, t.hasFunction name = true ↔ ∃ f ∈ t.functions, f.name = name := by
    intro name
    simp [hasFunction]
  have hreserve : ∀ name cause, (t.call (.reserveMethod name)).2 = .refused cause ↔
      cause = .nameTaken name ∧ t.taken name = true ∧ ¬ Claimed es name := by
    intro name cause
    rw [reserveMethod_refused_iff, hunclaimed]
  refine ⟨h, fun i v => slot_placed View.slot ?_ h.resourceViews,
    fun i v => slot_placed View.slot ?_ h.accessViews,
    fun i s => slot_placed Sampler.slot ?_ h.samplers,
    fun i b => slot_placed ConstantBuffer.slot ?_ h.constantBuffers,
    h.refs, hreserve, fun name source cause => ?_, fun name source => ?_,
    fun name source hf => ?_, fun c cause => call_of_refused⟩
  iterate 4
    · intro c make hmake i
      cases c <;> cases hmake
      rfl
  · rw [defineMethod_refused_iff, hreserve, ← Bool.not_eq_true, hhas]
    simp only [not_exists, not_and, ne_eq]
  · rw [defineMethod_known_iff, hhas]
  · exact call_defineMethod_of_hasFunction ((hhas name).2 hf)

end SymbolTable

end Shading
