/-
  What expressions and assignments mean.

  * `Meaning`: values with fields, and what the parts of an expression make of
    values.  A text that the author wrote is taken for a constant.
  * `Expr.reads`: the parts of a variable that an expression reads.  Its value
    depends on nothing else of the variable (`eval_congr`), and where all terms
    differ it depends on all of them (`eval_free_inj`).
  * `undisturbed`: no assignment reads what one before it has changed.  Exactly
    then assignments one after the other do what they would do at once
    (`faithful_iff`).
-/
import Mathlib.Logic.Function.Basic
import Shading.Operation
import Shading.Proofs.Expressions

namespace Shading

/-- Values, and what the parts of an expression make of them. -/
structure Meaning (V : Type) where
  literal : String → V
  select : V → String → V
  update : V → String → V → V
  cast : String → V → V
  binary : String → V → V → V
  call : String → List V → V
  sample : String → String → V → V
  select_update : ∀ u f a, select (update u f a) f = a
  select_update_ne : ∀ u f a f', f' ≠ f → select (update u f a) f' = select u f'
  update_select : ∀ u f, update u f (select u f) = u

namespace Meaning

variable {V : Type} (M : Meaning V) (σ : String → V)

mutual

/-- The value of an expression where variables have values. -/
def eval (M : Meaning V) (σ : String → V) : Expr → V
  | .literal text => M.literal text
  | .name n => σ n
  | .member e field => M.select (M.eval σ e) field
  | .group e => M.eval σ e
  | .cast type e => M.cast type (M.eval σ e)
  | .binary op left right => M.binary op (M.eval σ left) (M.eval σ right)
  | .call function args => M.call function (M.evalAll σ args)
  | .sample texture sampler coords => M.sample texture sampler (M.eval σ coords)

/-- The values of expressions. -/
def evalAll (M : Meaning V) (σ : String → V) : List Expr → List V
  | [] => []
  | e :: rest => M.eval σ e :: M.evalAll σ rest

end

theorem evalAll_eq (es : List Expr) : M.evalAll σ es = es.map (M.eval σ) := by
  induction es with
  | nil => rfl
  | cons e rest ih => rw [evalAll, ih, List.map_cons]

/-- The values of variables after a statement. -/
def exec (M : Meaning V) (σ : String → V) : Statement → String → V
  | .define _ n e => Function.update σ n (M.eval σ e)
  | .assign n field e => Function.update σ n (M.update (σ n) field (M.eval σ e))
  | .perform _ | .introduce .. | .result _ => σ

/-- The values of variables after statements. -/
def run (sts : List Statement) : String → V :=
  sts.foldl M.exec σ

end Meaning

/-! ## What an expression reads -/

namespace Expr

/-- The part of a variable that an expression selects, by the names of the
    fields from the outside in. -/
def path? (v : String) : Expr → Option (List String)
  | name n => if n = v then some [] else none
  | member e field => (e.path? v).map (· ++ [field])
  | group e => e.path? v
  | literal _ | cast .. | binary .. | call .. | sample .. => none

mutual

/-- The parts of a variable that an expression reads. -/
def reads (v : String) : Expr → List (List String)
  | literal _ => []
  | name n => if n = v then [[]] else []
  | member e field =>
    match e.path? v with
    | some p => [p ++ [field]]
    | none => e.reads v
  | group e | cast _ e | sample _ _ e => e.reads v
  | binary _ left right => left.reads v ++ right.reads v
  | call _ args => readsAll v args

/-- The parts of a variable that expressions read. -/
def readsAll (v : String) : List Expr → List (List String)
  | [] => []
  | e :: rest => e.reads v ++ readsAll v rest

end

theorem mem_readsAll {v : String} {p : List String} {es : List Expr} :
    p ∈ readsAll v es ↔ ∃ e ∈ es, p ∈ e.reads v := by
  induction es with
  | nil => simp [readsAll]
  | cons e rest ih => simp [readsAll, ih]

theorem path?_eq_none {v : String} {e : Expr} (h : .name v ∉ e.leaves) : e.path? v = none := by
  induction e using Expr.induction with
  | literal | cast | binary | call | sample => rfl
  | name n =>
    rw [path?, if_neg]
    rintro rfl
    exact h (by simp [leaves])
  | member e field ih =>
    rw [leaves] at h
    rw [path?, ih h, Option.map_none]
  | group e ih =>
    rw [leaves] at h
    rw [path?, ih h]

/-- Nothing is read of a variable that is not named. -/
theorem reads_eq_nil {v : String} {e : Expr} (h : .name v ∉ e.leaves) : e.reads v = [] := by
  induction e using Expr.induction with
  | literal => rfl
  | name n =>
    rw [reads, if_neg]
    rintro rfl
    exact h (by simp [leaves])
  | member e field ih =>
    rw [leaves] at h
    rw [reads, path?_eq_none h]
    exact ih h
  | group e ih | cast _ e ih | sample _ _ e ih =>
    rw [leaves] at h
    rw [reads, ih h]
  | binary op left right ihl ihr =>
    rw [leaves, List.mem_append, not_or] at h
    rw [reads, ihl h.1, ihr h.2, List.append_nil]
  | call function args ih =>
    rw [leaves] at h
    rw [reads, List.eq_nil_iff_forall_not_mem]
    intro p hp
    obtain ⟨e, he, hp⟩ := mem_readsAll.1 hp
    rw [ih e he fun hleaf => h (mem_leavesAll.2 ⟨e, he, hleaf⟩)] at hp
    cases hp

end Expr

namespace Meaning

variable {V : Type} (M : Meaning V) {σ σ' : String → V} {v : String}

theorem eval_path {e : Expr} {p : List String} (h : e.path? v = some p) :
    M.eval σ e = p.foldl M.select (σ v) := by
  induction e using Expr.induction generalizing p with
  | name n =>
    rw [Expr.path?, Option.ite_none_right_eq_some] at h
    obtain ⟨rfl, ⟨⟩⟩ := h
    rfl
  | member e field ih =>
    rw [Expr.path?, Option.map_eq_some_iff] at h
    obtain ⟨q, hq, rfl⟩ := h
    rw [eval, ih hq, List.foldl_append]
    rfl
  | group e ih =>
    rw [eval]
    exact ih h
  | literal | cast | binary | call | sample => cases h

/-- A field that is assigned to itself leaves all variables as they are. -/
theorem exec_assign_self {f : String} {e : Expr} (h : e.path? v = some [f]) :
    M.exec σ (.assign v f e) = σ := by
  rw [exec, M.eval_path h, List.foldl_cons, List.foldl_nil, M.update_select,
    Function.update_eq_self]

/-- **The value of an expression depends on nothing of a variable but what it
    reads.** -/
theorem eval_congr (hne : ∀ n, n ≠ v → σ' n = σ n) (e : Expr)
    (hv : ∀ p ∈ e.reads v, p.foldl M.select (σ' v) = p.foldl M.select (σ v)) :
    M.eval σ' e = M.eval σ e := by
  induction e using Expr.induction with
  | literal => rfl
  | name n =>
    by_cases hn : n = v
    · subst hn
      exact hv [] (by simp [Expr.reads])
    · exact hne n hn
  | member e field ih =>
    rw [Expr.reads] at hv
    rw [eval, eval]
    cases hp : e.path? v with
    | none =>
      rw [hp] at hv
      rw [ih hv]
    | some p =>
      rw [hp] at hv
      have := hv (p ++ [field]) (by simp)
      rw [List.foldl_append, List.foldl_append] at this
      rw [M.eval_path hp, M.eval_path hp]
      exact this
  | group e ih | cast _ e ih | sample _ _ e ih =>
    rw [Expr.reads] at hv
    rw [eval, eval, ih hv]
  | binary op left right ihl ihr =>
    rw [Expr.reads] at hv
    rw [eval, eval, ihl fun p hp => hv p (List.mem_append_left _ hp),
      ihr fun p hp => hv p (List.mem_append_right _ hp)]
  | call function args ih =>
    rw [Expr.reads] at hv
    rw [eval, eval, evalAll_eq, evalAll_eq]
    congr 1
    exact List.map_congr_left fun e he =>
      ih e he fun p hp => hv p (Expr.mem_readsAll.2 ⟨e, he, hp⟩)

/-! ## Terms -/

/-- Values of which all are told apart: parts of variables, constants, and what
    is made of other values, each with the fields that are selected of it. -/
inductive Term where
  | part (v : String) (path : List String)
  | constant (text : String) (path : List String)
  | made (args : List (List String → Term)) (path : List String)

/-- The meaning in which every expression means itself.  A value is a term for
    each way to select fields of it. -/
def free : Meaning (List String → Term) where
  literal text := .constant text
  select u f := fun p => u (f :: p)
  update u f a
    | [] => u []
    | f' :: p => if f' = f then a p else u (f' :: p)
  cast _ a := .made [a]
  binary _ a b := .made [a, b]
  call _ args := .made args
  sample _ _ a := .made [a]
  select_update := by
    intro u f a
    funext p
    exact if_pos rfl
  select_update_ne := by
    intro u f a f' hf
    funext p
    exact if_neg hf
  update_select := by
    intro u f
    funext p
    cases p with
    | nil => rfl
    | cons f' p =>
      by_cases hf : f' = f
      · subst hf
        exact if_pos rfl
      · exact if_neg hf

theorem foldl_select_free (p : List String) (u : List String → Term) :
    p.foldl free.select u = fun q => u (p ++ q) := by
  induction p generalizing u with
  | nil => rfl
  | cons f p ih => rw [List.foldl_cons, ih]; rfl

variable {τ : String → List String → Term}

/-- Where a term is part of a variable, so was the expression. -/
theorem path?_of_eval_free {e : Expr} {s r : List String}
    (h : free.eval Term.part e s = .part v r) : ∃ p, e.path? v = some p ∧ p ++ s = r := by
  induction e using Expr.induction generalizing s with
  | name n =>
    cases h
    exact ⟨[], by simp [Expr.path?], rfl⟩
  | member e field ih =>
    obtain ⟨p, hp, hr⟩ := ih (s := field :: s) h
    exact ⟨p ++ [field], by rw [Expr.path?, hp, Option.map_some], by simpa using hr⟩
  | group e ih => exact ih h
  | literal | cast | binary | call | sample => cases h

/-- Where an expression that is not a part of a variable keeps a term, it keeps
    all that it reads. -/
theorem eval_free_inj (hne : ∀ n, n ≠ v → τ n = Term.part n) (e : Expr) :
    (free.eval τ e = free.eval Term.part e →
      ∀ p ∈ e.reads v, ∀ q, τ v (p ++ q) = .part v (p ++ q)) ∧
    (e.path? v = none → ∀ s, free.eval τ e s = free.eval Term.part e s →
      ∀ p ∈ e.reads v, ∀ q, τ v (p ++ q) = .part v (p ++ q)) := by
  induction e using Expr.induction with
  | literal => simp [Expr.reads]
  | name n =>
    by_cases hn : n = v
    · subst hn
      constructor
      · intro h p hp q
        obtain rfl : p = [] := by simpa [Expr.reads] using hp
        exact congrFun h q
      · intro h
        simp [Expr.path?] at h
    · simp [Expr.reads, hn]
  | member e field ih =>
    constructor
    · intro h p hp q
      rw [Expr.reads] at hp
      cases hpath : e.path? v with
      | none =>
        rw [hpath] at hp
        exact ih.2 hpath [field] (congrFun h []) p hp q
      | some p' =>
        rw [hpath, List.mem_singleton] at hp
        subst hp
        have hq := congrFun h q
        simp only [eval, free.eval_path hpath, foldl_select_free] at hq
        simpa [free] using hq
    · intro hpath s h p hp q
      rw [Expr.path?, Option.map_eq_none_iff] at hpath
      rw [Expr.reads, hpath] at hp
      exact ih.2 hpath (field :: s) h p hp q
  | group e ih =>
    constructor
    · intro h p hp
      exact ih.1 h p (by simpa only [Expr.reads] using hp)
    · intro hpath s h p hp
      exact ih.2 hpath s h p (by simpa only [Expr.reads] using hp)
  | cast _ e ih | sample _ _ e ih =>
    have hmade : ∀ s, (Term.made [free.eval τ e] s = .made [free.eval Term.part e] s) →
        ∀ p ∈ e.reads v, ∀ q, τ v (p ++ q) = .part v (p ++ q) :=
      fun s h => ih.1 (List.singleton_inj.1 (Term.made.inj h).1)
    simp only [Expr.reads]
    exact ⟨fun h => hmade [] (congrFun h []), fun _ => hmade⟩
  | binary op left right ihl ihr =>
    have hmade : ∀ s, (Term.made [free.eval τ left, free.eval τ right] s =
          .made [free.eval Term.part left, free.eval Term.part right] s) →
        ∀ p ∈ left.reads v ++ right.reads v, ∀ q, τ v (p ++ q) = .part v (p ++ q) := by
      intro s h p hp
      obtain ⟨hl, hrest⟩ := List.cons.inj (Term.made.inj h).1
      rcases List.mem_append.1 hp with hp | hp
      · exact ihl.1 hl p hp
      · exact ihr.1 (List.singleton_inj.1 hrest) p hp
    simp only [Expr.reads]
    exact ⟨fun h => hmade [] (congrFun h []), fun _ => hmade⟩
  | call function args ih =>
    have hmade : ∀ s, (Term.made (free.evalAll τ args) s =
          .made (free.evalAll Term.part args) s) →
        ∀ p ∈ Expr.readsAll v args, ∀ q, τ v (p ++ q) = .part v (p ++ q) := by
      intro s h p hp
      obtain ⟨e, he, hp⟩ := Expr.mem_readsAll.1 hp
      have hargs := (Term.made.inj h).1
      rw [evalAll_eq, evalAll_eq] at hargs
      exact (ih e he).1 (List.map_inj_left.1 hargs e he) p hp
    simp only [Expr.reads]
    exact ⟨fun h => hmade [] (congrFun h []), fun _ => hmade⟩

end Meaning

/-! ## Assignments -/

/-- Whether a part of a variable is free of the fields in a list. -/
def avoids (changed : List String) : List String → Bool
  | [] => changed.isEmpty
  | f :: _ => !changed.contains f

/-- Whether no assignment to a field of a variable reads what one before it has
    changed.  A field that is assigned to itself does not change. -/
def undisturbed (v : String) : (changed : List String) → List (String × Expr) → Bool
  | _, [] => true
  | changed, (f, e) :: rest =>
    (e.reads v).all (avoids changed) &&
      undisturbed v (if e.path? v = some [f] then changed else f :: changed) rest

/-- Assignments to the fields of a variable. -/
def writes (v : String) (ws : List (String × Expr)) : List Statement :=
  ws.map fun w => .assign v w.1 w.2

theorem undisturbed_of_reads_nil {v : String} {ws : List (String × Expr)} (changed : List String)
    (h : ∀ w ∈ ws, w.2.reads v = []) : undisturbed v changed ws = true := by
  induction ws generalizing changed with
  | nil => rfl
  | cons w rest ih =>
    rw [undisturbed, h w (by simp), ih _ fun w hw => h w (List.mem_cons_of_mem _ hw)]
    rfl

namespace Meaning

variable {V : Type} (M : Meaning V) {σ σ' : String → V} {v : String} {changed : List String}

/-- Only some fields of a variable have changed. -/
structure Kept (M : Meaning V) (v : String) (changed : List String) (σ σ' : String → V) :
    Prop where
  others : ∀ n, n ≠ v → σ' n = σ n
  fields : ∀ f, f ∉ changed → M.select (σ' v) f = M.select (σ v) f
  whole : changed = [] → σ' v = σ v

namespace Kept

variable {M}

theorem refl (σ : String → V) : Kept M v [] σ σ :=
  ⟨fun _ _ => rfl, fun _ _ => rfl, fun _ => rfl⟩

theorem eval (h : Kept M v changed σ σ') {e : Expr} (he : (e.reads v).all (avoids changed) = true) :
    M.eval σ' e = M.eval σ e := by
  refine M.eval_congr h.others e fun p hp => ?_
  have havoids := List.all_eq_true.1 he p hp
  cases p with
  | nil => exact h.whole (List.isEmpty_iff.1 havoids)
  | cons f p =>
    rw [List.foldl_cons, List.foldl_cons, h.fields f (by simpa [avoids] using havoids)]

theorem step (h : Kept M v changed σ σ') (f : String) (e : Expr) :
    Kept M v (if e.path? v = some [f] then changed else f :: changed) σ
      (M.exec σ' (.assign v f e)) := by
  by_cases hp : e.path? v = some [f]
  · rw [if_pos hp, M.exec_assign_self hp]
    exact h
  · rw [if_neg hp]
    constructor
    case others =>
      intro n hn
      rw [exec, Function.update_of_ne hn, h.others n hn]
    case fields =>
      intro f' hf'
      rw [List.mem_cons, not_or] at hf'
      rw [exec, Function.update_self, M.select_update_ne _ _ _ _ hf'.1, h.fields f' hf'.2]
    case whole => intro hnil; cases hnil

end Kept

/-- What is assigned by undisturbed assignments has its value from before all of
    them. -/
theorem eval_run_writes (h : Kept M v changed σ σ') {ws : List (String × Expr)}
    (hws : undisturbed v changed ws = true) {i : Nat} {w : String × Expr} (hw : ws[i]? = some w) :
    M.eval (M.run σ' (writes v (ws.take i))) w.2 = M.eval σ w.2 := by
  induction ws generalizing changed σ' i with
  | nil => cases hw
  | cons w' rest ih =>
    rw [undisturbed, Bool.and_eq_true] at hws
    cases i with
    | zero =>
      cases hw
      exact h.eval hws.1
    | succ i => exact ih (h.step w'.1 w'.2) hws.2 hw

theorem select_run_writes (σ : String → V) {f : String} {ws : List (String × Expr)}
    (hf : f ∉ ws.map Prod.fst) : M.select (M.run σ (writes v ws) v) f = M.select (σ v) f := by
  induction ws generalizing σ with
  | nil => rfl
  | cons w rest ih =>
    rw [List.map_cons, List.mem_cons, not_or] at hf
    refine (ih (M.exec σ (.assign v w.1 w.2)) hf.2).trans ?_
    rw [exec, Function.update_self, M.select_update_ne _ _ _ _ hf.1]

/-- A field that is assigned once has what is assigned to it. -/
theorem select_run_writes_self (σ : String → V) {ws : List (String × Expr)}
    (hnodup : (ws.map Prod.fst).Nodup) {i : Nat} {w : String × Expr} (hw : ws[i]? = some w) :
    M.select (M.run σ (writes v ws) v) w.1 = M.eval (M.run σ (writes v (ws.take i))) w.2 := by
  induction ws generalizing σ i with
  | nil => cases hw
  | cons w' rest ih =>
    rw [List.map_cons, List.nodup_cons] at hnodup
    cases i with
    | zero =>
      cases hw
      refine (M.select_run_writes (M.exec σ (.assign v w.1 w.2)) hnodup.1).trans ?_
      rw [exec, Function.update_self, M.select_update]
      rfl
    | succ i => exact ih (M.exec σ (.assign v w'.1 w'.2)) hnodup.2 hw

/-! ## Disturbed assignments -/

/-- Fields that have changed hold the terms of other expressions. -/
def Spoiled (v : String) (changed : List String) (τ : String → List String → Term) : Prop :=
  ∀ f ∈ changed, ∃ e : Expr, e.path? v ≠ some [f] ∧
    free.select (τ v) f = free.eval Term.part e

theorem Spoiled.step {τ : String → List String → Term} (h : Spoiled v changed τ) (f : String)
    {e : Expr} (he : free.eval τ e = free.eval Term.part e) :
    Spoiled v (if e.path? v = some [f] then changed else f :: changed)
      (free.exec τ (.assign v f e)) := by
  by_cases hp : e.path? v = some [f]
  · rw [if_pos hp, free.exec_assign_self hp]
    exact h
  · rw [if_neg hp]
    intro f' hf'
    rw [exec, Function.update_self, he]
    by_cases hff : f' = f
    · subst hff
      exact ⟨e, hp, free.select_update _ _ _⟩
    · obtain ⟨e', hp', he'⟩ := h f' ((List.mem_cons.1 hf').resolve_left hff)
      exact ⟨e', hp', (free.select_update_ne _ _ _ _ hff).trans he'⟩

/-- An expression that reads what has changed has another term. -/
theorem eval_free_ne {τ : String → List String → Term} (h : Kept free v changed Term.part τ)
    (hs : Spoiled v changed τ) {e : Expr} (he : (e.reads v).all (avoids changed) = false) :
    free.eval τ e ≠ free.eval Term.part e := by
  intro heq
  obtain ⟨p, hp, havoids⟩ := List.all_eq_false.1 he
  have hkept := (eval_free_inj h.others e).1 heq p hp
  -- a part with a field that has changed would be what that field was
  have hfield : ∀ f ∈ changed, ∀ s, τ v (f :: s) ≠ .part v (f :: s) := by
    intro f hf s hpart
    obtain ⟨e', hp', he'⟩ := hs f hf
    have hterm : free.eval Term.part e' s = .part v (f :: s) := (congrFun he' s).symm.trans hpart
    obtain ⟨p', hpath, happend⟩ := path?_of_eval_free hterm
    have hfield : p' = [f] := (List.append_left_inj s).1 happend
    exact hp' (hfield ▸ hpath)
  cases p with
  | nil =>
    obtain ⟨f, hf⟩ := List.exists_mem_of_ne_nil changed (by simpa [avoids] using havoids)
    exact hfield f hf [] (hkept [f])
  | cons f p =>
    have hf : f ∈ changed := by simpa [avoids] using havoids
    exact hfield f hf p (by simpa using hkept [])

theorem exists_eval_free_ne {τ : String → List String → Term}
    (h : Kept free v changed Term.part τ) (hs : Spoiled v changed τ) {ws : List (String × Expr)}
    (hws : undisturbed v changed ws = false) :
    ∃ i w, ws[i]? = some w ∧
      free.eval (free.run τ (writes v (ws.take i))) w.2 ≠ free.eval Term.part w.2 := by
  induction ws generalizing changed τ with
  | nil => cases hws
  | cons w rest ih =>
    rw [undisturbed, Bool.and_eq_false_iff] at hws
    cases he : (w.2.reads v).all (avoids changed) with
    | false => exact ⟨0, w, rfl, eval_free_ne h hs he⟩
    | true =>
      have hrest := hws.resolve_left (by rw [he]; simp)
      obtain ⟨i, w', hw', hne⟩ := ih (h.step w.1 w.2) (hs.step w.1 (h.eval he)) hrest
      exact ⟨i + 1, w', hw', hne⟩

end Meaning

/-- Whatever operations and variables mean, what is assigned has its value from
    before all the assignments. -/
def Faithful (v : String) (ws : List (String × Expr)) : Prop :=
  ∀ (V : Type) (M : Meaning V) (σ : String → V) (i : Nat) (w : String × Expr), ws[i]? = some w →
    M.eval (M.run σ (writes v (ws.take i))) w.2 = M.eval σ w.2

/-- **Assignments are faithful exactly if they are undisturbed.** -/
theorem faithful_iff {v : String} {ws : List (String × Expr)} :
    Faithful v ws ↔ undisturbed v [] ws = true := by
  constructor
  · intro h
    by_contra hws
    rw [Bool.not_eq_true] at hws
    obtain ⟨i, w, hw, hne⟩ := Meaning.exists_eval_free_ne (.refl Meaning.Term.part)
      (fun f hf => nomatch hf) hws
    exact hne (h _ Meaning.free Meaning.Term.part i w hw)
  · intro h V M σ i w hw
    exact M.eval_run_writes (.refl σ) h hw

/-- Where each field is assigned once, faithful assignments leave each with what
    its expression meant before all of them. -/
theorem Faithful.select {v : String} {ws : List (String × Expr)} (h : Faithful v ws)
    (hnodup : (ws.map Prod.fst).Nodup) {V : Type} (M : Meaning V) (σ : String → V)
    {w : String × Expr} (hw : w ∈ ws) :
    M.select (M.run σ (writes v ws) v) w.1 = M.eval σ w.2 := by
  obtain ⟨i, hi⟩ := List.getElem?_of_mem hw
  rw [M.select_run_writes_self σ hnodup hi, h V M σ i w hi]

end Shading
