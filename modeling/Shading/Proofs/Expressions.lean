/-
  Expressions as trees.

  * `Expr.leaves`: the names and literals at the leaves of an expression.
  * `Expr.tree`: the expression without its grouping parentheses.
  * `Expr.bind`: expressions in place of names.  Definitions in place of names
    (`Expr.substitute`) and other names (`Expr.rename`) are of this form.
  * `Expr.Expands`: substitution comes to an end.  An expression expands if its
    names do (`Expands.of_names`).
-/
import Mathlib.Logic.Function.Iterate
import Shading.Expr

namespace Shading

/-- What an expression has at a leaf. -/
inductive Leaf where
  | name (n : String)
  | literal (text : String)

namespace Expr

mutual

/-- The leaves of an expression; a texture and its sampler are not among
    them. -/
def leaves : Expr → List Leaf
  | literal text => [.literal text]
  | name n => [.name n]
  | member e _ | group e | cast _ e | sample _ _ e => e.leaves
  | binary _ left right => left.leaves ++ right.leaves
  | call _ args => leavesAll args

/-- The leaves of expressions. -/
def leavesAll : List Expr → List Leaf
  | [] => []
  | e :: rest => e.leaves ++ leavesAll rest

end

attribute [local simp] leaves leavesAll

theorem mem_leavesAll {leaf : Leaf} {es : List Expr} :
    leaf ∈ leavesAll es ↔ ∃ e ∈ es, leaf ∈ e.leaves := by
  induction es with
  | nil => simp
  | cons e rest ih => simp [ih]

@[simp]
theorem leaves_operand (e : Expr) : e.operand.leaves = e.leaves := by
  unfold operand
  split
  · rfl
  · rfl

@[simp]
theorem leaves_castTo (type? : Option String) (e : Expr) :
    (e.castTo type?).leaves = e.leaves := by
  cases type? with
  | none => rfl
  | some type => rfl

/-! ## Induction -/

/-- **Induction on expressions**, where a call has what all its arguments
    have. -/
@[elab_as_elim]
theorem induction {motive : Expr → Prop} (literal : ∀ text, motive (literal text))
    (name : ∀ n, motive (name n)) (member : ∀ e field, motive e → motive (member e field))
    (group : ∀ e, motive e → motive (group e)) (cast : ∀ type e, motive e → motive (cast type e))
    (binary : ∀ op left right, motive left → motive right → motive (binary op left right))
    (call : ∀ function args, (∀ e ∈ args, motive e) → motive (call function args))
    (sample : ∀ texture sampler coords, motive coords → motive (sample texture sampler coords))
    (e : Expr) : motive e :=
  @Expr.rec motive (fun es => ∀ e ∈ es, motive e) literal name (fun e field => member e field)
    (fun e => group e) (fun type e => cast type e) (fun op l r => binary op l r)
    (fun function args => call function args) (fun t s e => sample t s e)
    (fun _ h => nomatch h) (fun _ _ he hes => List.forall_mem_cons.2 ⟨he, hes⟩) e

/-! ## Trees -/

mutual

/-- The expression without its grouping parentheses. -/
def tree : Expr → Expr
  | literal text => literal text
  | name n => name n
  | member e field => member e.tree field
  | group e => e.tree
  | cast type e => cast type e.tree
  | binary op left right => binary op left.tree right.tree
  | call function args => call function (trees args)
  | sample texture sampler coords => sample texture sampler coords.tree

/-- The expressions without their grouping parentheses. -/
def trees : List Expr → List Expr
  | [] => []
  | e :: rest => e.tree :: trees rest

end

attribute [local simp] tree trees

theorem trees_eq (es : List Expr) : trees es = es.map tree := by
  induction es with
  | nil => rfl
  | cons e rest ih =>
    show e.tree :: trees rest = _
    rw [ih, List.map_cons]

@[simp]
theorem tree_operand (e : Expr) : e.operand.tree = e.tree := by
  unfold operand
  split
  · rfl
  · rfl

@[simp]
theorem tree_castTo (type? : Option String) (e : Expr) :
    (e.castTo type?).tree = e.tree.castTo type? := by
  cases type? with
  | none => rfl
  | some type => rfl

@[simp]
theorem leaves_tree (e : Expr) : e.tree.leaves = e.leaves := by
  induction e using Expr.induction with
  | literal | name => rfl
  | member _ _ ih | group _ ih | cast _ _ ih | sample _ _ _ ih => simp only [tree, leaves, ih]
  | binary _ _ _ ihl ihr => simp only [tree, leaves, ihl, ihr]
  | call _ args ih =>
    simp only [tree, leaves, trees_eq]
    induction args with
    | nil => rfl
    | cons e rest ihrest =>
      rw [List.map_cons, leavesAll, leavesAll, ih e (by simp),
        ihrest fun e he => ih e (List.mem_cons_of_mem _ he)]

/-! ## Expressions in place of names -/

mutual

/-- The expression with others in place of names, and with other textures and
    samplers. -/
def bind (f : String → Expr) (ρ : String → String) : Expr → Expr
  | literal text => literal text
  | name n => f n
  | member e field => member (e.bind f ρ) field
  | group e => group (e.bind f ρ)
  | cast type e => cast type (e.bind f ρ)
  | binary op left right => binary op (left.bind f ρ) (right.bind f ρ)
  | call function args => call function (bindAll f ρ args)
  | sample texture sampler coords => sample (ρ texture) (ρ sampler) (coords.bind f ρ)

/-- Expressions with others in place of names. -/
def bindAll (f : String → Expr) (ρ : String → String) : List Expr → List Expr
  | [] => []
  | e :: rest => e.bind f ρ :: bindAll f ρ rest

end

attribute [local simp] bind bindAll

section
variable (f f' : String → Expr) (ρ ρ' : String → String)

theorem bindAll_eq (es : List Expr) : bindAll f ρ es = es.map (bind f ρ) := by
  induction es with
  | nil => rfl
  | cons e rest ih =>
    show e.bind f ρ :: bindAll f ρ rest = _
    rw [ih, List.map_cons]

theorem bind_castTo (type? : Option String) (e : Expr) :
    (e.castTo type?).bind f ρ = (e.bind f ρ).castTo type? := by
  cases type? with
  | none => rfl
  | some type => rfl

theorem bind_name (e : Expr) : e.bind name id = e := by
  induction e using Expr.induction with
  | literal | name => rfl
  | member _ _ ih | group _ ih | cast _ _ ih | sample _ _ _ ih => simp only [bind, ih, id]
  | binary _ _ _ ihl ihr => simp only [bind, ihl, ihr]
  | call function args ih => rw [bind, bindAll_eq, List.map_congr_left ih, List.map_id']

theorem bind_bind (e : Expr) :
    (e.bind f ρ).bind f' ρ' = e.bind (fun n => (f n).bind f' ρ') (ρ' ∘ ρ) := by
  induction e using Expr.induction with
  | literal | name => rfl
  | member _ _ ih | group _ ih | cast _ _ ih | sample _ _ _ ih =>
    simp only [bind, ih, Function.comp_apply]
  | binary _ _ _ ihl ihr => simp only [bind, ihl, ihr]
  | call function args ih =>
    simp only [bind, bindAll_eq, List.map_map]
    exact congrArg _ (List.map_congr_left ih)

variable {f f'}

/-- Only what stands in place of its own names matters to an expression. -/
theorem bind_congr {e : Expr} (h : ∀ n, .name n ∈ e.leaves → f n = f' n) :
    e.bind f ρ = e.bind f' ρ := by
  induction e using Expr.induction with
  | literal => rfl
  | name n => exact h n (by simp [leaves])
  | member _ _ ih | group _ ih | cast _ _ ih | sample _ _ _ ih =>
    simp only [leaves] at h
    simp only [bind, ih h]
  | binary _ _ _ ihl ihr =>
    simp only [leaves, List.mem_append] at h
    simp only [bind, ihl fun n hn => h n (Or.inl hn), ihr fun n hn => h n (Or.inr hn)]
  | call function args ih =>
    simp only [leaves, mem_leavesAll] at h
    rw [bind, bind, bindAll_eq, bindAll_eq]
    exact congrArg _ (List.map_congr_left fun e he => ih e he fun n hn => h n ⟨e, he, hn⟩)

/-- The names in an expression come from what stands in place of its own. -/
theorem mem_leaves_bind {e : Expr} {m : String} (h : .name m ∈ (e.bind f ρ).leaves) :
    ∃ n, .name n ∈ e.leaves ∧ .name m ∈ (f n).leaves := by
  induction e using Expr.induction with
  | literal => simp [bind, leaves] at h
  | name n => exact ⟨n, by simp [leaves], h⟩
  | member _ _ ih | group _ ih | cast _ _ ih | sample _ _ _ ih =>
    simp only [bind, leaves] at h ⊢
    exact ih h
  | binary _ _ _ ihl ihr =>
    simp only [bind, leaves, List.mem_append] at h ⊢
    rcases h with h | h
    · obtain ⟨n, hn, hm⟩ := ihl h
      exact ⟨n, Or.inl hn, hm⟩
    · obtain ⟨n, hn, hm⟩ := ihr h
      exact ⟨n, Or.inr hn, hm⟩
  | call function args ih =>
    simp only [bind, leaves, bindAll_eq, mem_leavesAll, List.mem_map] at h ⊢
    obtain ⟨_, ⟨e, he, rfl⟩, h⟩ := h
    obtain ⟨n, hn, hm⟩ := ih e he h
    exact ⟨n, ⟨e, he, hn⟩, hm⟩

end

/-! ## Definitions in place of names -/

/-- The expression with definitions in place of the names that have one. -/
def substitute (defs : String → Option Expr) (e : Expr) : Expr :=
  e.bind (fun n => (defs n).getD (name n)) id

/-- The expression with other names for variables, textures and samplers. -/
def rename (ρ : String → String) (e : Expr) : Expr :=
  e.bind (fun n => name (ρ n)) ρ

section
variable (defs : String → Option Expr) (ρ : String → String)

/-- Substituting again and again is done name by name. -/
theorem iterate_substitute (k : Nat) (e : Expr) :
    (substitute defs)^[k] e = e.bind (fun n => (substitute defs)^[k] (name n)) id := by
  induction k generalizing e with
  | zero => exact (bind_name e).symm
  | succ k ih =>
    rw [Function.iterate_succ_apply, ih, substitute, bind_bind]
    refine bind_congr _ fun n _ => ?_
    rw [Function.iterate_succ_apply, ih (substitute defs (name n))]
    rfl

theorem rename_iterate_substitute (k : Nat) (e : Expr) :
    ((substitute defs)^[k] e).rename ρ =
      e.bind (fun n => ((substitute defs)^[k] (name n)).rename ρ) ρ := by
  rw [iterate_substitute, rename, bind_bind]
  rfl

variable {defs}

/-- A name without a definition stays. -/
theorem iterate_substitute_name {n : String} (h : defs n = none) (k : Nat) :
    (substitute defs)^[k] (name n) = name n :=
  Function.iterate_fixed (by simp [substitute, bind, h]) k

theorem iterate_succ_substitute_name {n : String} {e : Expr} (h : defs n = some e) (k : Nat) :
    (substitute defs)^[k + 1] (name n) = (substitute defs)^[k] e := by
  rw [Function.iterate_succ_apply, substitute, bind, h, Option.getD_some]

end

/-- After `k` substitutions no definition is left to be put in place, and up to
    names this is what `f` makes of the expression. -/
structure Expands (defs : String → Option Expr) (f : String → Expr) (ρ : String → String) (k : Nat)
    (e : Expr) : Prop where
  eq : ((substitute defs)^[k] e).rename ρ = e.bind f ρ
  rest : ∀ n, .name n ∈ ((substitute defs)^[k] e).leaves → defs n = none

namespace Expands

variable {defs : String → Option Expr} {f : String → Expr} {ρ : String → String} {k : Nat}

/-- An expression expands if its names do. -/
theorem of_names {e : Expr} (h : ∀ n, .name n ∈ e.leaves → Expands defs f ρ k (name n)) :
    Expands defs f ρ k e := by
  constructor
  · rw [rename_iterate_substitute]
    exact bind_congr _ fun n hn => (h n hn).eq
  · intro m hm
    rw [iterate_substitute] at hm
    obtain ⟨n, hn, hm⟩ := mem_leaves_bind _ hm
    exact (h n hn).rest m hm

theorem of_none {n : String} (h : defs n = none) (hf : f n = name (ρ n)) :
    Expands defs f ρ k (name n) := by
  constructor
  · rw [iterate_substitute_name h, bind, hf, rename, bind]
  · intro m hm
    rw [iterate_substitute_name h, leaves, List.mem_singleton] at hm
    exact Leaf.name.inj hm ▸ h

theorem of_some {n : String} {e : Expr} (h : defs n = some e) (he : Expands defs f ρ k e)
    (hf : f n = e.bind f ρ) : Expands defs f ρ (k + 1) (name n) := by
  constructor
  · rw [iterate_succ_substitute_name h, he.eq, bind, hf]
  · rw [iterate_succ_substitute_name h]
    exact he.rest

end Expands

end Expr

end Shading
