/-
  The depth first search behind the order of nodes.

  * `Search.Inv`: what holds of a search at every step.  Closed positions come
    after all that feed them, and open positions feed each other from the
    innermost outwards.
  * `Search.weight`: the number of steps still to go, which every step lowers by
    one (`Moves.weight`); so as many steps as `Graph.searchSteps` says suffice.
  * `run_spec`: a search that ends well has closed every position once, after
    all that feed it, and one that fails has found a cycle.
-/
import Mathlib.Algebra.BigOperators.Group.Finset.Basic
import Mathlib.Algebra.GroupWithZero.Nat
import Mathlib.Data.List.Basic
import Mathlib.Logic.Relation
import Shading.Graph.Order

namespace Shading

/-- A place in a list with one more element is the last one or in the list. -/
theorem eq_or_of_concat_eq {α : Type} {l before after : List α} {z a : α}
    (h : l ++ [z] = before ++ a :: after) :
    (before = l ∧ a = z) ∨ ∃ rest, l = before ++ a :: rest := by
  rcases List.eq_nil_or_concat after with rfl | ⟨rest, y, rfl⟩
  · obtain ⟨rfl, ha⟩ := List.append_inj' h rfl
    exact Or.inl ⟨rfl, (List.singleton_inj.1 ha).symm⟩
  · have h' : l ++ [z] = (before ++ a :: rest) ++ [y] := by simpa using h
    exact Or.inr ⟨rest, (List.append_inj' h' rfl).1⟩

/-- Position `a` feeds position `b`. -/
def Feeds (producers : Nat → List Nat) (a b : Nat) : Prop := a ∈ producers b

/-- Every position of a list comes after all that feed it. -/
def Ordered (producers : Nat → List Nat) (l : List Nat) : Prop :=
  ∀ before i after, l = before ++ i :: after → ∀ p ∈ producers i, p ∈ before

theorem Ordered.nil (producers : Nat → List Nat) : Ordered producers [] := by
  intro before i after h
  simp at h

theorem Ordered.snoc {producers : Nat → List Nat} {l : List Nat} {j : Nat}
    (h : Ordered producers l) (hj : ∀ p ∈ producers j, p ∈ l) : Ordered producers (l ++ [j]) := by
  intro before i after he p hp
  rcases eq_or_of_concat_eq he with ⟨rfl, rfl⟩ | ⟨rest, hl⟩
  · exact hj p hp
  · exact h before i rest hl p hp

/-- In an order, whatever leads to a position comes before it. -/
theorem Ordered.mem_before {producers : Nat → List Nat} {l : List Nat} (h : Ordered producers l)
    {a b : Nat} (hab : Relation.TransGen (Feeds producers) a b) :
    ∀ before after, l = before ++ b :: after → a ∈ before := by
  induction hab with
  | single hf => exact fun before after he => h before _ after he a hf
  | @tail b c _ hf ih =>
    intro before after he
    obtain ⟨u, v, rfl⟩ := List.append_of_mem (h before c after he b hf)
    have := ih u (v ++ c :: after) (by simpa using he)
    exact List.mem_append_left _ this

/-- **An order has no cycle.** -/
theorem Ordered.acyclic {producers : Nat → List Nat} {l : List Nat} (h : Ordered producers l)
    (hnd : l.Nodup) {i : Nat} (hi : i ∈ l) : ¬ Relation.TransGen (Feeds producers) i i := by
  intro hcycle
  obtain ⟨before, after, rfl⟩ := List.append_of_mem hi
  have hmem := h.mem_before hcycle before after rfl
  exact (List.nodup_append.1 hnd).2.2 i hmem i (by simp) rfl

namespace Search

variable {producers : Nat → List Nat} {count : Nat}

/-- The open positions, innermost first. -/
def opened (s : Search) : List Nat := s.stack.map (·.1)

/-! ## The invariant -/

/-- What holds of open positions.  Of each, the producers are yet to look at, or
    closed, or the next open position inwards, which is one of them. -/
def Frames (producers : Nat → List Nat) (done : List Nat) :
    (inner : Option Nat) → List (Nat × List Nat) → Prop
  | _, [] => True
  | inner, (i, rest) :: below =>
    (∀ p ∈ producers i, p ∈ rest ∨ p ∈ done ∨ inner = some p) ∧
      (∀ p ∈ rest, p ∈ producers i) ∧ (∀ p, inner = some p → p ∈ producers i) ∧
      Frames producers done (some i) below

/-- The invariant of a search through `count` positions. -/
structure Inv (producers : Nat → List Nat) (count : Nat) (s : Search) : Prop where
  frames : Frames producers s.done none s.stack
  ordered : Ordered producers s.done.reverse
  nodup : (s.opened ++ s.done).Nodup
  bound : ∀ i ∈ s.opened ++ s.done, i < count
  starts : ∀ i ∈ s.starts, i < count
  cover : ∀ i, i < count → i ∈ s.starts ∨ i ∈ s.opened ++ s.done

/-- What holds of open positions holds when one more is closed, also if it was
    the next one inwards. -/
theorem Frames.close {done : List Nat} {j : Nat} :
    ∀ {inner : Option Nat} {stack : List (Nat × List Nat)}, Frames producers done inner stack →
      (∀ p, inner = some p → p = j) → Frames producers (j :: done) none stack
  | _, [], _, _ => trivial
  | inner, (i, rest) :: below, ⟨h1, h2, h3, h4⟩, hj => by
    have hbelow : Frames producers (j :: done) (some i) below := by
      clear h1 h2 h3 hj
      induction below generalizing i with
      | nil => trivial
      | cons f below ih =>
        obtain ⟨k, rest'⟩ := f
        obtain ⟨g1, g2, g3, g4⟩ := h4
        refine ⟨fun p hp => ?_, g2, g3, ih k g4⟩
        rcases g1 p hp with h | h | h
        exacts [Or.inl h, Or.inr (Or.inl (List.mem_cons_of_mem _ h)), Or.inr (Or.inr h)]
    refine ⟨fun p hp => ?_, h2, fun p h => by simp at h, hbelow⟩
    rcases h1 p hp with h | h | h
    · exact Or.inl h
    · exact Or.inr (Or.inl (List.mem_cons_of_mem _ h))
    · exact Or.inr (Or.inl (by simp [hj p h]))

/-- The innermost open position feeds, at some distance, all others. -/
theorem Frames.leads {done : List Nat} {inner : Nat} :
    ∀ {stack : List (Nat × List Nat)}, Frames producers done (some inner) stack →
      ∀ j ∈ stack.map (·.1), Relation.TransGen (Feeds producers) inner j
  | [], _, j, hj => by simp at hj
  | (i, rest) :: below, ⟨_, _, h3, h4⟩, j, hj => by
    have hi : Relation.TransGen (Feeds producers) inner i := .single (h3 inner rfl)
    rcases List.mem_cons.1 hj with rfl | hj
    · exact hi
    · exact hi.trans (Frames.leads h4 j hj)

theorem inv_start : Inv producers count (start count) where
  frames := trivial
  ordered := Ordered.nil producers
  nodup := by simp [start, opened]
  bound := by simp [start, opened]
  starts := by simp [start]
  cover := fun i hi => Or.inl (List.mem_range.2 hi)

/-! ## Steps -/

/-- What a step that does not end the search does. -/
inductive Moves (producers : Nat → List Nat) : Search → Search → Prop
  | skip {starts i p rest below done} : p ∈ done →
      Moves producers ⟨starts, (i, p :: rest) :: below, done⟩ ⟨starts, (i, rest) :: below, done⟩
  | descend {starts i p rest below done} : p ∉ (i :: below.map (·.1)) ++ done →
      Moves producers ⟨starts, (i, p :: rest) :: below, done⟩
        ⟨starts, (p, producers p) :: (i, rest) :: below, done⟩
  | close {starts i below done} :
      Moves producers ⟨starts, (i, []) :: below, done⟩ ⟨starts, below, i :: done⟩
  | pass {i starts done} : i ∈ done → Moves producers ⟨i :: starts, [], done⟩ ⟨starts, [], done⟩
  | launch {i starts done} : i ∉ done →
      Moves producers ⟨i :: starts, [], done⟩ ⟨starts, [(i, producers i)], done⟩

/-- All that a step can come to. -/
theorem step_cases (producers : Nat → List Nat) (s : Search) :
    (∃ s', s.step producers = .further s' ∧ Moves producers s s') ∨
      (∃ starts i p rest below done, s = ⟨starts, (i, p :: rest) :: below, done⟩ ∧
        p ∈ i :: below.map (·.1) ∧ s.step producers = .cycle p) ∨
      (∃ done, s = ⟨[], [], done⟩ ∧ s.step producers = .finished) := by
  obtain ⟨starts, stack, done⟩ := s
  match stack with
  | (i, p :: rest) :: below =>
    by_cases hdone : p ∈ done
    · exact Or.inl ⟨_, by simp [step, hdone], .skip hdone⟩
    · by_cases hopen : p ∈ i :: below.map (·.1)
      · refine Or.inr (Or.inl ⟨_, _, _, _, _, _, rfl, hopen, ?_⟩)
        simp only [step, List.contains_iff_mem, hdone, if_false, List.map_cons, hopen, if_true]
      · refine Or.inl ⟨_, ?_, .descend (List.mem_append.not.2 (not_or.2 ⟨hopen, hdone⟩))⟩
        simp only [step, List.contains_iff_mem, hdone, if_false, List.map_cons, hopen]
  | (i, []) :: below => exact Or.inl ⟨_, rfl, .close⟩
  | [] =>
    match starts with
    | [] => exact Or.inr (Or.inr ⟨done, rfl, rfl⟩)
    | i :: starts =>
      by_cases hdone : i ∈ done
      · exact Or.inl ⟨_, by simp [step, hdone], .pass hdone⟩
      · exact Or.inl ⟨_, by simp [step, hdone], .launch hdone⟩

/-- A step keeps the invariant. -/
theorem Moves.inv (hp : ∀ i p, p ∈ producers i → p < count) {s s' : Search}
    (h : Moves producers s s') (I : Inv producers count s) : Inv producers count s' := by
  obtain ⟨frames, ordered, nodup, bound, startsBound, cover⟩ := I
  cases h with
  | @skip starts i p rest below done hdone =>
    obtain ⟨h1, h2, h3, h4⟩ := frames
    refine ⟨⟨fun q hq => ?_, fun q hq => h2 q (by simp [hq]), h3, h4⟩, ordered, nodup, bound,
      startsBound, cover⟩
    rcases h1 q hq with hm | hm
    · rcases List.mem_cons.1 hm with rfl | hm
      exacts [Or.inr (Or.inl hdone), Or.inl hm]
    · exact Or.inr hm
  | @descend starts i p rest below done hnew =>
    obtain ⟨h1, h2, h3, h4⟩ := frames
    refine ⟨⟨fun q hq => Or.inl hq, fun q hq => hq, fun q hq => by simp at hq,
      ⟨fun q hq => ?_, fun q hq => h2 q (by simp [hq]), fun q hq => ?_, h4⟩⟩, ordered,
      List.nodup_cons.2 ⟨hnew, nodup⟩, fun q hq => ?_, startsBound,
      fun q hq => (cover q hq).imp id fun hm => List.mem_cons_of_mem _ hm⟩
    · rcases h1 q hq with hm | hm | hm
      · rcases List.mem_cons.1 hm with rfl | hm
        exacts [Or.inr (Or.inr rfl), Or.inl hm]
      · exact Or.inr (Or.inl hm)
      · cases hm
    · cases hq; exact h2 _ (by simp)
    · rcases List.mem_cons.1 hq with rfl | hq
      exacts [hp i _ (h2 _ (by simp)), bound q hq]
  | @close starts i below done =>
    obtain ⟨h1, -, -, h4⟩ := frames
    have hperm : ((i :: below.map (·.1)) ++ done).Perm (below.map (·.1) ++ i :: done) := by
      simpa using List.perm_middle.symm
    refine ⟨h4.close fun p hp => (Option.some.inj hp).symm, ?_, hperm.nodup_iff.1 nodup,
      fun q hq => bound q (hperm.mem_iff.2 hq), startsBound,
      fun q hq => (cover q hq).imp id hperm.mem_iff.1⟩
    rw [List.reverse_cons]
    refine ordered.snoc fun p hp => ?_
    rcases h1 p hp with hm | hm | hm
    · cases hm
    · exact List.mem_reverse.2 hm
    · cases hm
  | @pass i starts done hdone =>
    refine ⟨frames, ordered, nodup, bound, fun q hq => startsBound q (by simp [hq]),
      fun q hq => ?_⟩
    rcases cover q hq with hm | hm
    · rcases List.mem_cons.1 hm with rfl | hm
      exacts [Or.inr hdone, Or.inl hm]
    · exact Or.inr hm
  | @launch i starts done hdone =>
    refine ⟨⟨fun q hq => Or.inl hq, fun q hq => hq, fun q hq => by simp at hq, trivial⟩,
      ordered, List.nodup_cons.2 ⟨hdone, nodup⟩, fun q hq => ?_,
      fun q hq => startsBound q (by simp [hq]), fun q hq => ?_⟩
    · rcases List.mem_cons.1 hq with rfl | hq
      exacts [startsBound _ (by simp), bound q hq]
    · rcases cover q hq with hm | hm
      · rcases List.mem_cons.1 hm with rfl | hm
        exacts [Or.inr (by simp [opened]), Or.inl hm]
      · exact Or.inr (List.mem_cons_of_mem _ hm)

/-- A producer of the innermost open position that is itself open lies on a
    cycle. -/
theorem Inv.cycle {starts : List Nat} {i p : Nat} {rest : List Nat} {below : List (Nat × List Nat)}
    {done : List Nat} (I : Inv producers count ⟨starts, (i, p :: rest) :: below, done⟩)
    (hopen : p ∈ i :: below.map (·.1)) :
    p < count ∧ Relation.TransGen (Feeds producers) p p := by
  obtain ⟨-, h2, -, h4⟩ := I.frames
  refine ⟨I.bound p (List.mem_append_left _ hopen), ?_⟩
  have hfeeds : Feeds producers p i := h2 p (by simp)
  rcases List.mem_cons.1 hopen with rfl | hopen
  · exact .single hfeeds
  · exact .head hfeeds (h4.leads p hopen)

/-! ## The number of steps -/

/-- The positions that are neither open nor closed. -/
def unseen (count : Nat) (visited : List Nat) : Finset Nat :=
  Finset.range count \ visited.toFinset

/-- The steps still to go: one for each start, and for each position that is not
    closed one to close it and one for each of its producers not yet looked
    at. -/
def weight (producers : Nat → List Nat) (count : Nat) (s : Search) : Nat :=
  s.starts.length + (s.stack.map fun f => f.2.length + 1).sum +
    ∑ i ∈ unseen count (s.opened ++ s.done), ((producers i).length + 1)

theorem sum_unseen_cons {visited : List Nat} {p : Nat} (f : Nat → Nat) (hp : p < count)
    (hnew : p ∉ visited) :
    f p + ∑ i ∈ unseen count (p :: visited), f i = ∑ i ∈ unseen count visited, f i := by
  have herase : unseen count (p :: visited) = (unseen count visited).erase p := by
    ext i
    simp only [unseen, Finset.mem_sdiff, Finset.mem_erase, List.mem_toFinset, List.mem_cons, not_or]
    tauto
  rw [herase]
  exact Finset.add_sum_erase _ _ (by simpa [unseen] using ⟨hp, hnew⟩)

theorem unseen_middle (xs ys : List Nat) (i : Nat) :
    unseen count (xs ++ i :: ys) = unseen count (i :: xs ++ ys) := by
  unfold unseen
  rw [List.toFinset_eq_of_perm _ _ List.perm_middle, List.cons_append]

/-- **Every step lowers the weight by one.** -/
theorem Moves.weight (hp : ∀ i p, p ∈ producers i → p < count) {s s' : Search}
    (h : Moves producers s s') (I : Inv producers count s) :
    weight producers count s = Search.weight producers count s' + 1 := by
  cases h with
  | skip hdone =>
    simp only [Search.weight, opened, List.map_cons, List.sum_cons, List.length_cons]
    omega
  | @descend starts i p rest below done hnew =>
    have hsum := sum_unseen_cons (fun i => (producers i).length + 1)
      (hp i p (I.frames.2.1 p (by simp))) hnew
    simp only [Search.weight, opened, List.map_cons, List.sum_cons, List.length_cons,
      List.cons_append] at hsum ⊢
    omega
  | @close starts i below done =>
    simp only [Search.weight, opened, List.map_cons, List.sum_cons, List.length_nil, unseen_middle]
    omega
  | pass hdone =>
    simp only [Search.weight, opened, List.length_cons]
    omega
  | @launch i starts done hdone =>
    have hsum := sum_unseen_cons (fun i => (producers i).length + 1) (I.starts i (by simp)) hdone
    simp only [Search.weight, opened, List.map_cons, List.map_nil, List.sum_cons, List.sum_nil,
      List.length_cons, List.nil_append, List.cons_append] at hsum ⊢
    omega

/-! ## Runs -/

/-- **What a run comes to** from a state in which the invariant holds: all
    positions in order, or a position on a cycle. -/
theorem run_spec (hp : ∀ i p, p ∈ producers i → p < count) (fuel : Nat) (s : Search)
    (I : Inv producers count s) (hw : weight producers count s < fuel) :
    match s.run producers fuel with
    | .ok l => l.Nodup ∧ (∀ i, i ∈ l ↔ i < count) ∧ Ordered producers l
    | .error i => i < count ∧ Relation.TransGen (Feeds producers) i i := by
  induction fuel generalizing s with
  | zero => omega
  | succ fuel ih =>
    unfold run
    rcases step_cases producers s with ⟨s', hs, hm⟩ |
      ⟨starts, i, p, rest, below, done, rfl, hopen, hs⟩ | ⟨done, rfl, hs⟩
    · have := hm.weight hp I
      rw [hs]
      exact ih s' (hm.inv hp I) (by omega)
    · rw [hs]
      exact I.cycle hopen
    · rw [hs]
      refine ⟨List.nodup_reverse.2 I.nodup, fun i => ?_, I.ordered⟩
      rw [List.mem_reverse]
      refine ⟨fun hi => I.bound i hi, fun hi => (I.cover i hi).resolve_left (by simp)⟩

end Search

end Shading
