/-
  The body of an entry point that is written to its end.

  * `resultCount`: how many values of the root are read.
  * `closing`: the statements that return the stage output, made of these
    values, and `Closing` what these are.
  * `body_failure_eq_none_iff`: a body is written to its end exactly if all
    these values can be read.
  * `body_ok`: the body is then the statements of operations and the closing
    ones.
-/
import Mathlib.Data.List.Basic
import Shading.Compiler

namespace Shading

/-- Whether a statement only returns what is there. -/
def Statement.isClosing : Statement → Bool
  | introduce .. | assign .. | result .. => true
  | define .. | perform .. => false

namespace Compilation

variable (c : Compilation) (g : Graph) (root : Node)

/-! ## Reading the root -/

/-- The number of values of the root that are read for the stage output. -/
def resultCount : Nat :=
  if c.outputType.isStruct then c.output.fields.length else 1

/-- Values that the root has at the indices from `i` on. -/
def RootValues (i : Nat) (xs : List Operand) : Prop :=
  ∀ j x, xs[j]? = some x → c.rootValue g root (i + j) = .ok x

theorem rootValues_cons {i : Nat} {x : Operand} {xs : List Operand} :
    c.RootValues g root i (x :: xs) ↔
      c.rootValue g root i = .ok x ∧ c.RootValues g root (i + 1) xs := by
  constructor
  · intro h
    refine ⟨h 0 x rfl, fun j y hy => ?_⟩
    rw [Nat.add_assoc, Nat.add_comm 1 j]
    exact h (j + 1) y hy
  · rintro ⟨hx, h⟩ j y hy
    cases j with
    | zero => cases hy; exact hx
    | succ j =>
      rw [Nat.add_comm j 1, ← Nat.add_assoc]
      exact h j y hy

/-- Values that can each be read make a list. -/
theorem exists_rootValues {i m : Nat} (h : ∀ j < m, ∃ x, c.rootValue g root (i + j) = .ok x) :
    ∃ xs, xs.length = m ∧ c.RootValues g root i xs := by
  induction m generalizing i with
  | zero => exact ⟨[], rfl, by simp [RootValues]⟩
  | succ m ih =>
    obtain ⟨x, hx⟩ := h 0 (Nat.succ_pos m)
    obtain ⟨xs, hlen, hxs⟩ := ih (i := i + 1) fun j hj => by
      obtain ⟨y, hy⟩ := h (j + 1) (Nat.succ_lt_succ hj)
      exact ⟨y, by rw [Nat.add_assoc, Nat.add_comm 1 j]; exact hy⟩
    exact ⟨x :: xs, by simp [hlen], (c.rootValues_cons g root).2 ⟨hx, hxs⟩⟩

/-! ## Writing the result -/

/-- Values of fields, assigned to the fields of a variable. -/
def assigned (name : String) : List Field → List Operand → List Statement :=
  List.zipWith fun f x => .assign name f.name x.expr

theorem mem_assigned {name : String} {fields : List Field} {xs : List Operand} {s : Statement}
    (h : s ∈ assigned name fields xs) : ∃ f ∈ fields, ∃ x ∈ xs, s = .assign name f.name x.expr := by
  obtain ⟨i, hi⟩ := List.getElem?_of_mem h
  obtain ⟨f, x, hf, hx, rfl⟩ := List.getElem?_zipWith_eq_some.1 hi
  exact ⟨f, List.mem_of_getElem? hf, x, List.mem_of_getElem? hx, rfl⟩

theorem assignments_eq_none_iff {name : String} {i : Nat} {fields : List Field}
    {written : List Statement} :
    c.assignments g root name i fields = (written, none) ↔
      ∃ xs, xs.length = fields.length ∧ c.RootValues g root i xs ∧
        written = assigned name fields xs := by
  induction fields generalizing i written with
  | nil =>
    rw [assignments]
    constructor
    · intro h
      cases h
      exact ⟨[], rfl, by simp [RootValues], rfl⟩
    · rintro ⟨xs, hlen, -, rfl⟩
      rfl
  | cons f rest ih =>
    rw [assignments]
    constructor
    · intro h
      cases hx : c.rootValue g root i with
      | error cause => rw [hx] at h; cases h
      | ok x =>
        rw [hx] at h
        obtain ⟨hw, hn⟩ := Prod.mk.inj h
        obtain ⟨xs, hlen, hxs, hwritten⟩ := ih.1 (Prod.ext rfl hn)
        refine ⟨x :: xs, by simp [hlen], (c.rootValues_cons g root).2 ⟨hx, hxs⟩, ?_⟩
        rw [← hw]
        exact congrArg (_ :: ·) hwritten
    · rintro ⟨xs, hlen, hxs, rfl⟩
      cases xs with
      | nil => cases hlen
      | cons x xs =>
        obtain ⟨hx, hxs⟩ := (c.rootValues_cons g root).1 hxs
        have hrest := ih.2 ⟨xs, Nat.succ.inj hlen, hxs, rfl⟩
        rw [hx]
        simp only [hrest]
        rfl

/-- The variable in which a struct is returned. -/
def outputName : String := c.outputVariable.2.1

theorem outputName_eq :
    c.outputName = if c.outputType.name = c.input.name then c.inputName
      else c.table.freshName (Text.baseName c.outputType.name "output") := by
  unfold outputName outputVariable
  split <;> rfl

/-- A struct with the name of the stage input's needs no variable of its own. -/
theorem introduction_eq :
    c.outputVariable.2.2 = if c.outputType.name = c.input.name then []
      else [.introduce c.outputType c.outputName] := by
  unfold outputName outputVariable
  split <;> rfl

/-- The statements that return the stage output, made of the values of the
    root. -/
def closing (xs : List Operand) : List Statement :=
  if c.outputType.isStruct then
    c.outputVariable.2.2 ++ assigned c.outputName c.output.fields xs ++
      [.result (.name c.outputName)]
  else xs.map fun x => .result x.expr

/-- What the statements are that return the stage output: a struct gets a
    variable if it needs one, has its fields assigned and is returned, and a
    single value is returned as it is. -/
inductive Closing (c : Compilation) (xs : List Operand) : Statement → Prop
  | introduce : c.outputType.name ≠ c.input.name →
      Closing c xs (.introduce c.outputType c.outputName)
  | assign {f x} : c.outputType.isStruct = true → f ∈ c.output.fields → x ∈ xs →
      Closing c xs (.assign c.outputName f.name x.expr)
  | struct : c.outputType.isStruct = true → Closing c xs (.result (.name c.outputName))
  | value {x} : x ∈ xs → Closing c xs (.result x.expr)

section
variable {c}

theorem mem_closing_cases {xs : List Operand} {st : Statement} (h : st ∈ c.closing xs) :
    c.Closing xs st := by
  unfold closing at h
  split at h
  · rename_i hstruct
    rw [introduction_eq, List.mem_append, List.mem_append, List.mem_singleton] at h
    rcases h with (h | h) | rfl
    · split at h
      · cases h
      · rename_i hname
        rw [List.mem_singleton.1 h]
        exact .introduce hname
    · obtain ⟨f, hf, x, hx, rfl⟩ := mem_assigned h
      exact .assign hstruct hf hx
    · exact .struct hstruct
  · obtain ⟨x, hx, rfl⟩ := List.mem_map.1 h
    exact .value hx

theorem isClosing_of_mem_closing {xs : List Operand} {st : Statement} (h : st ∈ c.closing xs) :
    st.isClosing = true := by
  cases mem_closing_cases h <;> rfl

end

/-- The compilation in which the variable for the stage output is taken. -/
def closed : Compilation :=
  if c.outputType.isStruct then c.outputVariable.1 else c

/-- Only a name is taken. -/
theorem closed_eq :
    ∃ identifiers, c.closed = { c with table := { c.table with identifiers := identifiers } } := by
  unfold closed outputVariable
  split
  · split
    · exact ⟨_, rfl⟩
    · exact ⟨_, rfl⟩
  · exact ⟨_, rfl⟩

@[simp]
theorem operations_closed : c.closed.table.operations = c.table.operations := by
  unfold closed outputVariable
  split
  · split <;> rfl
  · rfl

@[simp]
theorem isSubstituted_closed (o : Operation) : c.closed.isSubstituted o = c.isSubstituted o := by
  unfold closed outputVariable
  split
  · split <;> rfl
  · rfl

theorem inputName_closed : c.closed.inputName = c.inputName := by
  unfold closed outputVariable
  split
  · split <;> rfl
  · rfl

/-- Taking a name does not change what is read. -/
theorem rootValues_outputVariable {i : Nat} {xs : List Operand} :
    c.outputVariable.1.RootValues g root i xs ↔ c.RootValues g root i xs := by
  unfold outputVariable
  split <;> rfl

theorem output_outputVariable : c.outputVariable.1.output = c.output := by
  unfold outputVariable
  split <;> rfl

theorem returning_eq_none_iff {c' : Compilation} {written : List Statement} :
    c.returning g root = (c', written, none) ↔
      ∃ xs, xs.length = c.resultCount ∧ c.RootValues g root 0 xs ∧ written = c.closing xs ∧
        c' = c.closed := by
  unfold returning resultCount closing closed
  by_cases hs : c.outputType.isStruct = true
  · simp only [hs, if_true]
    constructor
    · intro h
      split at h
      · cases h
      · rename_i assigns hassigns
        cases h
        obtain ⟨xs, hlen, hxs, rfl⟩ := (assignments_eq_none_iff _ g root).1 hassigns
        rw [output_outputVariable] at hlen
        refine ⟨xs, hlen, (c.rootValues_outputVariable g root).1 hxs, ?_, rfl⟩
        rw [output_outputVariable]
        rfl
    · rintro ⟨xs, hlen, hxs, rfl, rfl⟩
      have hassigns : c.outputVariable.1.assignments g root c.outputName 0 c.output.fields = _ :=
        (assignments_eq_none_iff _ g root).2
          ⟨xs, hlen, (c.rootValues_outputVariable g root).2 hxs, rfl⟩
      rw [outputName] at hassigns
      simp only [output_outputVariable, hassigns]
      rfl
  · simp only [hs, if_false, Bool.false_eq_true]
    constructor
    · intro h
      cases hx : c.rootValue g root 0 with
      | error cause => rw [hx] at h; cases h
      | ok x =>
        rw [hx] at h
        cases h
        exact ⟨[x], rfl, (c.rootValues_cons g root).2 ⟨hx, by simp [RootValues]⟩, rfl, rfl⟩
    · rintro ⟨xs, hlen, hxs, rfl, hc⟩
      obtain ⟨x, rfl⟩ := List.length_eq_one_iff.1 hlen
      rw [((c.rootValues_cons g root).1 hxs).1, hc]
      rfl

/-- **A body is written to its end exactly if all values of the root that it
    returns can be read.** -/
theorem body_failure_eq_none_iff (entry semantic : String) :
    (c.body g root entry semantic).2.failure = none ↔
      ∀ i < c.resultCount, ∃ x, c.rootValue g root i = .ok x := by
  have hbody : (c.body g root entry semantic).2.failure = (c.returning g root).2.2 := rfl
  rw [hbody]
  constructor
  · intro h i hi
    obtain ⟨xs, hlen, hxs, -⟩ := (c.returning_eq_none_iff g root).1
      (Prod.ext rfl (Prod.ext rfl h) : c.returning g root = (_, _, none))
    obtain ⟨x, hx⟩ : ∃ x, xs[i]? = some x := ⟨xs[i], List.getElem?_eq_getElem (hlen ▸ hi)⟩
    have := hxs i x hx
    rw [Nat.zero_add] at this
    exact ⟨x, this⟩
  · intro h
    obtain ⟨xs, hlen, hxs⟩ := c.exists_rootValues g root (i := 0) (m := c.resultCount)
      fun j hj => by simpa using h j hj
    rw [(c.returning_eq_none_iff g root).2 ⟨xs, hlen, hxs, rfl, rfl⟩]

/-- The statements of a body that is written to its end. -/
theorem body_ok {c d : Compilation} {g : Graph} {root : Node} {entry semantic : String} {b : Body}
    (h : d.body g root entry semantic = (c, b)) (hb : b.failure = none) :
    ∃ xs, xs.length = d.resultCount ∧ d.RootValues g root 0 xs ∧
      b.statements = d.statements ++ d.closing xs ∧ c = d.closed := by
  cases h
  obtain ⟨xs, hlen, hxs, hwritten, hclosed⟩ := (d.returning_eq_none_iff g root).1
    (Prod.ext rfl (Prod.ext rfl hb) : d.returning g root = (_, _, none))
  exact ⟨xs, hlen, hxs, congrArg (d.statements ++ ·) hwritten, hclosed⟩

end Compilation

end Shading
