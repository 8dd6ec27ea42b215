/-
  The compilation when its stage is set up and no node is emitted yet.

  * `stageVariable`: the variable of the stage input.  Its operation is the last
    of the stage (`stage_operations`).
  * `taken_stage`: the names that mean something before any node is emitted are
    taken.
  * `stage_operations_of_nil`, `mem_stage_structs`: without hooks the stage has
    one operation and no structs but those of the entry point.
  * `reserve_isOk_iff`: without hooks functions may have all names but keywords
    and that of the entry point.
-/
import Shading.Proofs.Run

namespace Shading

namespace SymbolTable

theorem claimAll_eq (t : SymbolTable) (names : List String) :
    t.claimAll names = { t with identifiers := (t.claimAll names).identifiers } := by
  unfold claimAll
  induction names generalizing t with
  | nil => rfl
  | cons a rest ih => rw [List.foldl_cons, ih]; rfl

/-- A table in which more names are taken, but no more for functions. -/
theorem Lawful.claim {t : SymbolTable} (h : t.Lawful) (name : String) : (t.claim name).Lawful :=
  (Change.claim t name).lawful h

theorem Lawful.claimAll {t : SymbolTable} (h : t.Lawful) (names : List String) :
    (t.claimAll names).Lawful := by
  unfold SymbolTable.claimAll
  induction names generalizing t with
  | nil => exact h
  | cons a rest ih => exact ih (h.claim a)

@[simp]
theorem taken_addStageStruct (t : SymbolTable) (s : Struct) (defines : Bool) (name : String) :
    (t.addStageStruct s defines).taken name = (s.name == name || t.taken name) := by
  cases defines <;> exact taken_claim t s.name name

@[simp]
theorem operations_addStageStruct (t : SymbolTable) (s : Struct) (defines : Bool) :
    (t.addStageStruct s defines).operations = t.operations := by
  cases defines <;> rfl

@[simp]
theorem methods_addStageStruct (t : SymbolTable) (s : Struct) (defines : Bool) :
    (t.addStageStruct s defines).methods = t.methods := by
  cases defines <;> rfl

@[simp]
theorem structs_addStageStruct (t : SymbolTable) (s : Struct) (defines : Bool) :
    (t.addStageStruct s defines).structs = t.structs ++ if defines then [s] else [] := by
  cases defines
  · exact (List.append_nil t.structs).symm
  · rfl

@[simp]
theorem operations_addOperation (t : SymbolTable) (o : Operation) :
    (t.addOperation o).operations = t.operations ++ [o] := by
  rw [addOperation_eq]

@[simp]
theorem methods_addOperation (t : SymbolTable) (o : Operation) :
    (t.addOperation o).methods = t.methods := by
  rw [addOperation_eq]

@[simp]
theorem structs_addOperation (t : SymbolTable) (o : Operation) :
    (t.addOperation o).structs = t.structs := by
  rw [addOperation_eq]

end SymbolTable

theorem Compilation.methods_defineStage (c : Compilation) (e : EntryPoint) :
    (c.defineStage e).table.methods = c.table.methods := by
  change (if e.outputType.isStruct && e.output.name != (c.defineInput e).input.name then
    (c.defineInput e).table.addStageStruct e.output e.definesOutput
    else (c.defineInput e).table).methods = _
  split <;> simp [defineInput]

namespace Compiler

variable {ρ : Type} (k : Compiler ρ) (g : Graph) (e : EntryPoint)

/-- The table in which the stage input finds its variable. -/
def inputTable : SymbolTable :=
  ((k.start e).table.reserveMethods g.nodes).1.addStageStruct e.input e.definesInput

/-- The variable of the stage input. -/
def stageVariable : String :=
  (k.inputTable g e).freshName (Text.baseName e.input.name "input")

/-- The operation through which the stage input is read. -/
def stageOperation : Operation :=
  ⟨none, .synonym (.name (k.stageVariable g e)) (.struct e.input.name), 0, []⟩

theorem isIdent_stageVariable : Text.isIdent (k.stageVariable g e) :=
  SymbolTable.isIdent_freshName _ (Text.isIdent_baseName _ _)

@[simp]
theorem stageOperation_name : (k.stageOperation g e).name = k.stageVariable g e := rfl

@[simp]
theorem stage_inline : (k.stage g e).inline = k.options.inline := rfl

@[simp]
theorem stage_input : (k.stage g e).input = e.input := rfl

@[simp]
theorem stage_output : (k.stage g e).output = e.output := rfl

@[simp]
theorem stage_outputType : (k.stage g e).outputType = e.outputType := rfl

@[simp]
theorem stage_bindings : (k.stage g e).bindings = .empty := rfl

@[simp]
theorem stage_inputNode : (k.stage g e).inputNode = none := rfl

/-- The table of the stage, with the struct of the stage output if that is to be
    named. -/
theorem stage_table :
    (k.stage g e).table =
      if e.outputType.isStruct && e.output.name != e.input.name then
        ((k.inputTable g e).addOperation (k.stageOperation g e)).addStageStruct e.output
          e.definesOutput
      else (k.inputTable g e).addOperation (k.stageOperation g e) := rfl

theorem stage_operations :
    (k.stage g e).table.operations =
      (k.inputTable g e).operations ++ [k.stageOperation g e] := by
  rw [stage_table]
  split <;> simp

theorem stage_inputVar : (k.stage g e).inputVar = some (k.inputTable g e).operations.length := rfl

theorem stage_inputOperation? : (k.stage g e).inputOperation? = some (k.stageOperation g e) := by
  rw [Compilation.inputOperation?, stage_inputVar, Option.bind_some, stage_operations]
  simp

theorem stage_methods :
    (k.stage g e).table.methods = ((k.start e).table.reserveMethods g.nodes).1.methods :=
  Compilation.methods_defineStage _ e

/-! ## Names -/

theorem lawful_start (h : ∀ hook ∈ k.before, hook.Proper) : (k.start e).table.Lawful :=
  ((lawful_runHooks h SymbolTable.lawful_empty).claimAll k.keywords).claim e.name

theorem taken_start (name : String) :
    (k.start e).table.taken name =
      (e.name == name ||
        (k.keywords.contains name || (runHooks k.before .empty).1.taken name)) := by
  rw [← SymbolTable.taken_claimAll]
  exact SymbolTable.taken_claim _ _ name

/-- Functions that nodes declare have their names taken for them. -/
theorem stage_reserves (h : ∀ hook ∈ k.before, hook.Proper)
    (hr : ∃ t, (k.start e).table.reserveMethods g.nodes = (t, none)) :
    ∀ n ∈ g.nodes, (k.stage g e).table.Reserves n := by
  intro n hn function type? source hk
  obtain ⟨t, ht⟩ := hr
  have hspec := SymbolTable.reserveMethods_spec (k.lawful_start e h) ht
  have hmem := SymbolTable.mem_declaredNames.2 ⟨n, hn, type?, source, hk⟩
  rw [stage_methods, ht, hspec.methods, List.contains_iff_mem.2 hmem, Bool.or_true]

theorem taken_inputTable (h : ∀ hook ∈ k.before, hook.Proper) {t : SymbolTable}
    (ht : (k.start e).table.reserveMethods g.nodes = (t, none)) (name : String) :
    (k.inputTable g e).taken name =
      (e.input.name == name || ((k.start e).table.taken name ||
        (SymbolTable.declaredNames g.nodes).contains name)) := by
  have hspec := SymbolTable.reserveMethods_spec (k.lawful_start e h) ht
  rw [inputTable, SymbolTable.taken_addStageStruct, ht, hspec.taken]

theorem taken_stage_of_inputTable {name : String}
    (h : (k.inputTable g e).taken name = true ∨ name = k.stageVariable g e) :
    (k.stage g e).table.taken name = true := by
  have hadd : ((k.inputTable g e).addOperation (k.stageOperation g e)).taken name = true := by
    rw [SymbolTable.taken_addOperation, stageOperation_name]
    rcases h with h | rfl
    · rw [h, Bool.or_true]
    · have hne := Text.ne_empty_of_isIdent (k.isIdent_stageVariable g e)
      simp [hne]
  rw [stage_table]
  split
  · rw [SymbolTable.taken_addStageStruct, hadd, Bool.or_true]
  · exact hadd

/-- **The names that mean something before any node is emitted are taken.** -/
theorem taken_stage (h : ∀ hook ∈ k.before, hook.Proper)
    (hr : ∃ t, (k.start e).table.reserveMethods g.nodes = (t, none)) (name : String)
    (hname : name ∈ k.keywords ∨ name = e.name ∨ name = k.stageVariable g e ∨
      name = e.input.name ∨ (e.outputType.isStruct = true ∧ name = e.output.name) ∨
      name ∈ SymbolTable.declaredNames g.nodes ∨ (runHooks k.before .empty).1.taken name = true) :
    (k.stage g e).table.taken name = true := by
  obtain ⟨t, ht⟩ := hr
  have hinput := k.taken_inputTable g e h ht name
  rw [taken_start] at hinput
  have hleft : (k.inputTable g e).taken name = true → (k.stage g e).table.taken name = true :=
    fun h => k.taken_stage_of_inputTable g e (Or.inl h)
  rcases hname with hn | rfl | hn | rfl | ⟨hstruct, rfl⟩ | hn | hn
  · exact hleft (by rw [hinput, List.contains_iff_mem.2 hn]; simp)
  · exact hleft (by rw [hinput]; simp)
  · exact k.taken_stage_of_inputTable g e (Or.inr hn)
  · exact hleft (by rw [hinput]; simp)
  · by_cases hsame : e.output.name = e.input.name
    · exact hleft (by rw [hinput, hsame]; simp)
    · rw [stage_table, hstruct]
      simp [hsame]
  · exact hleft (by rw [hinput, List.contains_iff_mem.2 hn]; simp)
  · exact hleft (by rw [hinput, hn]; simp)

/-! ## Without hooks -/

/-- Without hooks nothing but names is in the table at the start. -/
theorem start_table (h : k.before = []) :
    (k.start e).table =
      { SymbolTable.empty with identifiers := (k.start e).table.identifiers } := by
  have hstart : (k.start e).table = (SymbolTable.empty.claimAll k.keywords).claim e.name := by
    unfold start Compilation.start
    rw [h]
    rfl
  rw [hstart, SymbolTable.claim, SymbolTable.claimAll_eq]

theorem proper_of_nil (h : k.before = []) : ∀ hook ∈ k.before, hook.Proper := by
  simp [h]

theorem taken_start_of_nil (h : k.before = []) (name : String) :
    (k.start e).table.taken name = true ↔ name ∈ k.keywords ∨ name = e.name := by
  have hhooks : (runHooks k.before .empty).1.taken name = false := by
    rw [h]
    simp [runHooks, SymbolTable.taken, SymbolTable.empty]
  rw [taken_start, hhooks, Bool.or_false, Bool.or_eq_true, beq_iff_eq, List.contains_iff_mem,
    or_comm, eq_comm]

theorem methods_start_of_nil (h : k.before = []) (name : String) :
    (k.start e).table.methods.contains name = false := by
  rw [start_table k e h]
  simp [SymbolTable.empty]

/-- Without hooks the names of functions can be taken exactly if none of them is
    a keyword or the entry point. -/
theorem reserve_isOk_iff (h : k.before = []) :
    (∃ t, (k.start e).table.reserveMethods g.nodes = (t, none)) ↔
      ∀ f ∈ SymbolTable.declaredNames g.nodes, f ∉ k.keywords ∧ f ≠ e.name := by
  rw [SymbolTable.reserveMethods_isOk_iff (k.lawful_start e (k.proper_of_nil h))]
  refine forall₂_congr fun f _ => ?_
  rw [k.methods_start_of_nil e h, ← Bool.not_eq_true ((k.start e).table.taken f),
    k.taken_start_of_nil e h, not_or]
  simp

variable {k g e} (h : k.before = [])
  (hr : ∃ t, (k.start e).table.reserveMethods g.nodes = (t, none))
include h hr

theorem reserved_table :
    ∃ identifiers methods, ((k.start e).table.reserveMethods g.nodes).1 =
      { SymbolTable.empty with identifiers := identifiers, methods := methods } := by
  obtain ⟨t, ht⟩ := hr
  have hspec := SymbolTable.reserveMethods_spec (k.lawful_start e (k.proper_of_nil h)) ht
  refine ⟨t.identifiers, t.methods, ?_⟩
  rw [ht, hspec.eq, start_table k e h]

theorem stage_operations_of_nil : (k.stage g e).table.operations = [k.stageOperation g e] := by
  obtain ⟨_, _, ht⟩ := reserved_table h hr
  rw [stage_operations, inputTable, SymbolTable.operations_addStageStruct, ht]
  rfl

theorem stage_resources_of_nil :
    (k.stage g e).table.accessViews = [] ∧ (k.stage g e).table.resourceViews = [] ∧
      (k.stage g e).table.samplers = [] := by
  obtain ⟨_, _, ht⟩ := reserved_table h hr
  rw [stage_table, inputTable, ht]
  split <;> cases e.definesInput <;> cases e.definesOutput <;>
    rw [SymbolTable.addOperation_eq] <;> exact ⟨rfl, rfl, rfl⟩

theorem stage_declarations_of_nil :
    (k.stage g e).table.constantBuffers = [] ∧ (k.stage g e).table.functions = [] := by
  obtain ⟨_, _, ht⟩ := reserved_table h hr
  rw [stage_table, inputTable, ht]
  split <;> cases e.definesInput <;> cases e.definesOutput <;>
    rw [SymbolTable.addOperation_eq] <;> exact ⟨rfl, rfl⟩

/-- Without hooks the only structs are those of the stage. -/
theorem mem_stage_structs {s : Struct} (hs : s ∈ (k.stage g e).table.structs) :
    s = e.input ∨ s = e.output := by
  have hinput : ∀ s ∈ (k.inputTable g e).structs, s = e.input := by
    intro s hs
    obtain ⟨_, _, ht⟩ := reserved_table h hr
    rw [inputTable, SymbolTable.structs_addStageStruct, ht] at hs
    change s ∈ [] ++ _ at hs
    rw [List.nil_append] at hs
    split at hs
    · exact List.mem_singleton.1 hs
    · cases hs
  rw [stage_table] at hs
  split at hs
  · rw [SymbolTable.structs_addStageStruct, SymbolTable.structs_addOperation,
      List.mem_append] at hs
    rcases hs with hs | hs
    · exact Or.inl (hinput s hs)
    · split at hs
      · exact Or.inr (List.mem_singleton.1 hs)
      · cases hs
  · rw [SymbolTable.structs_addOperation] at hs
    exact Or.inl (hinput s hs)

end Compiler

end Shading
