/-
  The search with a list of open positions is the recursive one.

  * `Search.Reaches`: what a search gets to, one step after the other.
  * `Search.Orderly`: a search that holds only positions that there are, opens
    none of them twice, and looks at the producers of each from the first to the
    last.  Every search is, also one that ends at a cycle (`orderly`).
  * `visit`: the recursive search.  It comes to an end only because nothing feeds
    itself.
  * `reaches_visited`: the open positions are the calls of `visit` that have not
    returned, and their producers yet to look at are what these still have to do.
  * `search_ends_as_recursion`: so the order of the nodes is the one in which
    `visit` finishes with them.
-/
import Mathlib.Order.WellFoundedSet
import Shading.Proofs.Isolation

namespace Shading

namespace Search

variable {producers : Nat → List Nat} {count : Nat}

/-! ## What a search goes through -/

/-- A search gets from one state to another. -/
def Reaches (producers : Nat → List Nat) : Search → Search → Prop :=
  Relation.ReflTransGen fun s s' => s.step producers = .further s'

/-- A search opens position `i` in one step. -/
def Opens (producers : Nat → List Nat) (i : Nat) (s s' : Search) : Prop :=
  s.step producers = .further s' ∧ s'.opened = i :: s.opened

/-- All positions that a search holds: those to start from, the open ones with
    the producers that they have yet to look at, and the closed ones. -/
def held (s : Search) : List Nat :=
  s.starts ++ s.opened ++ s.stack.flatMap (·.2) ++ s.done

/-- What holds of a search through `count` positions from some state on. -/
structure Orderly (producers : Nat → List Nat) (count : Nat) (s : Search) : Prop where
  inRange : ∀ i ∈ s.held, i < count
  opensOnce : ∀ {i : Nat} {s' t t' : Search},
    Opens producers i s s' → Reaches producers s' t → ¬ Opens producers i t t'
  /-- The producers that an open position has yet to look at get fewer from the
      front. -/
  advances : ∀ {i : Nat} {rest rest' : List Nat} {t : Search}, Reaches producers s t →
    (i, rest) ∈ s.stack → (i, rest') ∈ t.stack → rest' <:+ rest

theorem moves_of_step {s s' : Search} (h : s.step producers = .further s') :
    Moves producers s s' := by
  rcases step_cases producers s with ⟨t, hs, hm⟩ | ⟨_, _, _, _, _, _, _, _, hs⟩ | ⟨_, _, hs⟩
  · rw [hs] at h
    cases h
    exact hm
  · rw [hs] at h
    cases h
  · rw [hs] at h
    cases h

/-- What is open or closed stays so. -/
theorem Moves.mem_visited {s s' : Search} (h : Moves producers s s') {i : Nat}
    (hi : i ∈ s.opened ++ s.done) : i ∈ s'.opened ++ s'.done := by
  cases h with
  | skip | pass => exact hi
  | descend | launch => exact List.mem_cons_of_mem _ hi
  | close =>
    simp only [opened, List.map_cons, List.cons_append, List.mem_cons, List.mem_append] at hi ⊢
    tauto

/-- Only what is neither open nor closed is opened. -/
theorem Opens.not_mem {s s' : Search} {i : Nat} (h : Opens producers i s s') :
    i ∉ s.opened ++ s.done := by
  obtain ⟨hs, hopened⟩ := h
  cases moves_of_step hs with
  | skip | close | pass =>
    have hlength := congrArg List.length hopened
    simp only [opened, List.length_map, List.length_cons] at hlength
    omega
  | descend hnew | launch hnew =>
    cases hopened
    exact hnew

theorem Reaches.mem_visited {s t : Search} (h : Reaches producers s t) {i : Nat}
    (hi : i ∈ s.opened ++ s.done) : i ∈ t.opened ++ t.done := by
  induction h with
  | refl => exact hi
  | tail _ hs ih => exact (moves_of_step hs).mem_visited ih

theorem Reaches.inv (hp : ∀ i p, p ∈ producers i → p < count) {s t : Search}
    (h : Reaches producers s t) (I : Inv producers count s) : Inv producers count t := by
  induction h with
  | refl => exact I
  | tail _ hs ih => exact (moves_of_step hs).inv hp ih

/-- A position that is open after a step was open before and has moved on at
    most, or is new. -/
theorem Moves.frame {s s' : Search} (h : Moves producers s s') {i : Nat} {rest : List Nat}
    (hi : (i, rest) ∈ s'.stack) :
    (∃ rest', (i, rest') ∈ s.stack ∧ rest <:+ rest') ∨ i ∉ s.opened ++ s.done := by
  cases h with
  | skip =>
    rcases List.mem_cons.1 hi with hi | hi
    · cases hi
      exact Or.inl ⟨_, List.mem_cons_self .., List.suffix_cons _ _⟩
    · exact Or.inl ⟨_, List.mem_cons_of_mem _ hi, List.suffix_rfl⟩
  | descend hnew =>
    rcases List.mem_cons.1 hi with hi | hi
    · cases hi
      exact Or.inr hnew
    · rcases List.mem_cons.1 hi with hi | hi
      · cases hi
        exact Or.inl ⟨_, List.mem_cons_self .., List.suffix_cons _ _⟩
      · exact Or.inl ⟨_, List.mem_cons_of_mem _ hi, List.suffix_rfl⟩
  | close => exact Or.inl ⟨_, List.mem_cons_of_mem _ hi, List.suffix_rfl⟩
  | pass => cases hi
  | launch hnew =>
    cases List.mem_singleton.1 hi
    exact Or.inr hnew

/-- An open position only moves on along its producers. -/
theorem Reaches.suffix {s t : Search} (h : Reaches producers s t) (I : Inv producers count s)
    {i : Nat} {rest : List Nat} (hi : (i, rest) ∈ s.stack) :
    ∀ {rest' : List Nat}, (i, rest') ∈ t.stack → rest' <:+ rest := by
  have hvisited : i ∈ s.opened ++ s.done :=
    List.mem_append_left _ (List.mem_map_of_mem (f := (·.1)) hi)
  induction h with
  | refl =>
    intro rest' hi'
    have hnodup : (s.stack.map (·.1)).Nodup := (List.nodup_append.1 I.nodup).1
    cases List.inj_on_of_nodup_map hnodup hi hi' rfl
    exact List.suffix_rfl
  | tail hreach hs ih =>
    intro rest' hi'
    rcases (moves_of_step hs).frame hi' with ⟨rest'', hi'', hsuffix⟩ | hnew
    · exact hsuffix.trans (ih hi'')
    · exact absurd (Reaches.mem_visited hreach hvisited) hnew

theorem Frames.mem_producers {done : List Nat} :
    ∀ {inner : Option Nat} {stack : List (Nat × List Nat)}, Frames producers done inner stack →
      ∀ f ∈ stack, ∀ p ∈ f.2, p ∈ producers f.1
  | _, [], _, f, hf => by cases hf
  | _, (i, rest) :: below, ⟨_, hrest, _, hbelow⟩, f, hf => by
    rcases List.mem_cons.1 hf with rfl | hf
    · exact hrest
    · exact hbelow.mem_producers f hf

theorem Inv.held_lt (hp : ∀ i p, p ∈ producers i → p < count) {s : Search}
    (I : Inv producers count s) : ∀ i ∈ s.held, i < count := by
  intro i hi
  simp only [held, List.mem_append, List.mem_flatMap] at hi
  rcases hi with ((hi | hi) | ⟨f, hf, hi⟩) | hi
  · exact I.starts i hi
  · exact I.bound i (List.mem_append_left _ hi)
  · exact hp f.1 i (I.frames.mem_producers f hf i hi)
  · exact I.bound i (List.mem_append_right _ hi)

/-- **Every search is orderly,** whether it ends well or at a cycle. -/
theorem orderly (hp : ∀ i p, p ∈ producers i → p < count) {s : Search}
    (h : Reaches producers (start count) s) : Orderly producers count s := by
  have I : Inv producers count s := h.inv hp inv_start
  refine ⟨I.held_lt hp, ?_, fun hreach hi => hreach.suffix I hi⟩
  intro i s' t t' hopens hreach hagain
  have hopen : i ∈ s'.opened ++ s'.done := by simp [hopens.2]
  exact hagain.not_mem (hreach.mem_visited hopen)

end Search

/-! ## The recursive search -/

/-- The positions visited after `i` is: before `i` itself all that feed it are
    visited, one after the other, and nothing is visited twice. -/
def visit (producers : Nat → List Nat) (wf : WellFounded (Feeds producers)) (visited : List Nat)
    (i : Nat) : List Nat :=
  if i ∈ visited then visited
  else (producers i).attach.foldl (fun visited p => visit producers wf visited p.1) visited ++ [i]
termination_by wf.wrap i
decreasing_by exact p.2

section
variable {producers : Nat → List Nat} (wf : WellFounded (Feeds producers))

theorem visit_of_mem {visited : List Nat} {i : Nat} (h : i ∈ visited) :
    visit producers wf visited i = visited := by
  rw [visit, if_pos h]

theorem visit_of_not_mem {visited : List Nat} {i : Nat} (h : i ∉ visited) :
    visit producers wf visited i =
      (producers i).foldl (visit producers wf) visited ++ [i] := by
  rw [visit, if_neg h, List.foldl_attach]

/-- Listed from the latest on, as a search does, a new position comes in front of
    all that feeds it. -/
theorem reverse_visit_of_not_mem {done : List Nat} {i : Nat} (h : i ∉ done) :
    (visit producers wf done.reverse i).reverse =
      i :: ((producers i).foldl (visit producers wf) done.reverse).reverse := by
  rw [visit_of_not_mem wf (mt List.mem_reverse.1 h), List.reverse_concat]

end

namespace Search

variable {producers : Nat → List Nat} {count : Nat}

/-- Where nothing feeds itself, a producer to look at is not open. -/
theorem Inv.not_open (wf : WellFounded (Feeds producers)) {starts : List Nat} {i p : Nat}
    {rest : List Nat} {below : List (Nat × List Nat)} {done : List Nat}
    (I : Inv producers count ⟨starts, (i, p :: rest) :: below, done⟩) :
    p ∉ i :: below.map (·.1) := fun hopen =>
  wf.transGen.irrefl.irrefl p (I.cycle hopen).2

/-- **An open position is closed when its producers are visited.**  The
    positions below it wait meanwhile, as the callers of a function do. -/
theorem reaches_visited (hp : ∀ i p, p ∈ producers i → p < count)
    (wf : WellFounded (Feeds producers)) {starts : List Nat} (i : Nat) :
    ∀ {rest : List Nat} {below : List (Nat × List Nat)} {done : List Nat},
      Inv producers count ⟨starts, (i, rest) :: below, done⟩ →
      Reaches producers ⟨starts, (i, rest) :: below, done⟩
        ⟨starts, below, i :: (rest.foldl (visit producers wf) done.reverse).reverse⟩ := by
  induction i using wf.induction with
  | _ i ih =>
    intro rest
    induction rest with
    | nil =>
      intro below done I
      refine Relation.ReflTransGen.single ?_
      simp [step]
    | cons p rest ihrest =>
      intro below done I
      have hfeeds : Feeds producers p i := I.frames.2.1 p (List.mem_cons_self ..)
      by_cases hdone : p ∈ done
      · -- a closed producer is passed over
        have hstep : step producers ⟨starts, (i, p :: rest) :: below, done⟩ =
            .further ⟨starts, (i, rest) :: below, done⟩ := by
          simp [step, hdone]
        rw [List.foldl_cons, visit_of_mem wf (List.mem_reverse.2 hdone)]
        exact .head hstep (ihrest (Reaches.inv hp (.single hstep) I))
      · -- any other is opened, and closed before the next one is looked at
        have hopen := I.not_open wf
        have hstep : step producers ⟨starts, (i, p :: rest) :: below, done⟩ =
            .further ⟨starts, (p, producers p) :: (i, rest) :: below, done⟩ := by
          simp only [step, List.contains_iff_mem, hdone, if_false, List.map_cons, hopen]
        have I' := Reaches.inv hp (.single hstep) I
        have hclose := ih p hfeeds I'
        rw [← reverse_visit_of_not_mem wf hdone] at hclose
        have hrest := ihrest (hclose.inv hp I')
        rw [List.reverse_reverse, ← List.foldl_cons] at hrest
        exact .head hstep (hclose.trans hrest)

/-- A search from no open position visits all positions to start from. -/
theorem reaches_starts (hp : ∀ i p, p ∈ producers i → p < count)
    (wf : WellFounded (Feeds producers)) {starts : List Nat} :
    ∀ {done : List Nat}, Inv producers count ⟨starts, [], done⟩ →
      Reaches producers ⟨starts, [], done⟩
        ⟨[], [], (starts.foldl (visit producers wf) done.reverse).reverse⟩ := by
  induction starts with
  | nil =>
    intro done I
    rw [List.foldl_nil, List.reverse_reverse]
    exact .refl
  | cons i starts ih =>
    intro done I
    by_cases hdone : i ∈ done
    · have hstep : step producers ⟨i :: starts, [], done⟩ = .further ⟨starts, [], done⟩ := by
        simp [step, hdone]
      rw [List.foldl_cons, visit_of_mem wf (List.mem_reverse.2 hdone)]
      exact .head hstep (ih (Reaches.inv hp (.single hstep) I))
    · have hstep : step producers ⟨i :: starts, [], done⟩ =
          .further ⟨starts, [(i, producers i)], done⟩ := by
        simp [step, hdone]
      have I' := Reaches.inv hp (.single hstep) I
      have hclose := reaches_visited hp wf i I'
      rw [← reverse_visit_of_not_mem wf hdone] at hclose
      have hrest := ih (hclose.inv hp I')
      rw [List.reverse_reverse, ← List.foldl_cons] at hrest
      exact .head hstep (hclose.trans hrest)

theorem Ends.of_reaches {s t : Search} {r : Except Nat (List Nat)} (h : Reaches producers s t)
    (ht : Ends producers t r) : Ends producers s r := by
  induction h using Relation.ReflTransGen.head_induction_on with
  | refl => exact ht
  | head hs _ ih => exact .further hs ih

/-- **Where nothing feeds itself, a search closes positions in the order in which
    they are visited.** -/
theorem ends_visited (hp : ∀ i p, p ∈ producers i → p < count)
    (wf : WellFounded (Feeds producers)) :
    Ends producers (start count) (.ok ((List.range count).foldl (visit producers wf) [])) := by
  have hreach : Reaches producers (start count) _ := reaches_starts hp wf inv_start
  have hend := Ends.of_reaches hreach (.finished rfl)
  simpa using hend

end Search

/-! ## The order of a graph -/

namespace Graph

variable {g : Graph}

/-- The positions that feed position `i`, in the order of the links. -/
def sources (g : Graph) (i : Nat) : List Nat :=
  g.links.filterMap fun l =>
    if g.position? l.target.node = some i then g.position? l.source.node else none

/-- Whether a link begins or ends at position `i`. -/
def isEnd (g : Graph) (i : Nat) : Bool :=
  g.links.any fun l => g.position? l.source.node == some i || g.position? l.target.node == some i

theorem feeds_sources {a b : Nat} (h : Shading.Feeds g.sources a b) :
    g.Feeds (g.idAt a) (g.idAt b) ∧ a < g.nodes.length ∧ b < g.nodes.length := by
  obtain ⟨l, hl, h⟩ := List.mem_filterMap.1 h
  rw [Option.ite_none_right_eq_some] at h
  exact ⟨⟨l, hl, (idAt_of_position? h.2).symm, (idAt_of_position? h.1).symm⟩, position?_lt h.2,
    position?_lt h.1⟩

/-- Where no node feeds itself, all that feeds a position can be visited before
    it. -/
theorem wellFounded_sources (h : g.Acyclic) : WellFounded (Shading.Feeds g.sources) := by
  have hirrefl : ∀ i, ¬ Relation.TransGen (Shading.Feeds g.sources) i i := fun i hcycle =>
    h (g.idAt i) (hcycle.lift g.idAt fun _ _ hf => (feeds_sources hf).1)
  have : IsStrictOrder Nat (Relation.TransGen (Shading.Feeds g.sources)) :=
    { irrefl := hirrefl, trans := fun _ _ _ => Relation.TransGen.trans }
  have hfinite := (Set.finite_lt_nat g.nodes.length).wellFoundedOn
    (r := Relation.TransGen (Shading.Feeds g.sources))
  refine Subrelation.wf (fun hf => ?_) (Set.wellFoundedOn_iff.1 hfinite)
  exact ⟨.single hf, (feeds_sources hf).2⟩

/-- The nodes at the ends of links, in the order in which a recursive search
    from each node in turn has visited them. -/
def postorder (g : Graph) (h : g.Acyclic) : List Node :=
  (((List.range g.nodes.length).foldl (visit g.sources (wellFounded_sources h)) []).filter
    g.isEnd).filterMap (g.nodes[·]?)

theorem producers_eq_sources {es : List Edge} (h : g.edges = .ok es) :
    producers es = g.sources := by
  funext i
  replace h := edgesOf_eq_ok_iff.1 h
  unfold sources producers
  generalize g.links = ls at h
  induction h with
  | nil => rfl
  | @cons l e ls es hle _ ih =>
    obtain ⟨hs, ht⟩ := edge_eq_ok_iff.1 hle
    by_cases hi : e.target = i
    · simp [hs, ht, hi, ih]
    · simp [ht, hi, ih]

theorem touched_eq_isEnd {es : List Edge} (h : g.edges = .ok es) : touched es = g.isEnd := by
  funext i
  replace h := edgesOf_eq_ok_iff.1 h
  unfold touched isEnd
  generalize g.links = ls at h
  induction h with
  | nil => rfl
  | cons hle _ ih =>
    obtain ⟨hs, ht⟩ := edge_eq_ok_iff.1 hle
    simp [hs, ht, ih]

theorem order_eq_postorder {es : List Edge} (hes : g.edges = .ok es) (h : g.Acyclic) :
    g.order = .ok (g.postorder h) := by
  have hvisited := Search.ends_visited (fun i p hf => (feeds_sources (a := p) (b := i) hf).2.1)
    (wellFounded_sources h)
  have hsearch := ends_closingOrder hes
  rw [producers_eq_sources hes] at hsearch
  unfold order
  rw [hes]
  dsimp only
  rw [hvisited.unique hsearch, touched_eq_isEnd hes]
  rfl

/-- **The search with a list of open positions ends, and it is the recursive
    one.**  It ends whether or not a node feeds itself, for it opens no position
    twice and never goes back along the producers of one.  It holds no positions
    but those of nodes.  Where no node feeds itself, the order of the nodes is
    that in which the recursive search is done with them. -/
theorem search_ends_as_recursion (g : Graph) (hclosed : g.Closed) :
    ∃ es, g.edges = .ok es ∧ Within g.nodes.length es ∧
      Search.Ends (producers es) (.start g.nodes.length) (g.closingOrder es) ∧
      (∀ s, Search.Reaches (producers es) (.start g.nodes.length) s →
        s.Orderly (producers es) g.nodes.length) ∧
      ∀ hacyclic : g.Acyclic, g.order = .ok (g.postorder hacyclic) := by
  obtain ⟨es, hes⟩ := edges_isOk_iff.2 hclosed
  have hw := edges_within hes
  exact ⟨es, hes, hw, ends_closingOrder hes, fun s hreach => Search.orderly hw.producers_lt hreach,
    order_eq_postorder hes⟩

/-- Two nodes feed the last one, and both are fed by a third, whose id a node
    without links has as well. -/
def diamond : Graph where
  nodes :=
    [⟨"out", "out", .output, []⟩, ⟨"p", "first", .texture, []⟩, ⟨"x", "x", .texture, []⟩,
      ⟨"y", "y", .texture, []⟩, ⟨"p", "last", .input, []⟩]
  links :=
    [⟨"1", ⟨"x", "o"⟩, ⟨"out", "a"⟩⟩, ⟨"2", ⟨"y", "o"⟩, ⟨"out", "b"⟩⟩,
      ⟨"3", ⟨"p", "o"⟩, ⟨"y", "i"⟩⟩, ⟨"4", ⟨"p", "o"⟩, ⟨"x", "i"⟩⟩]

theorem search_ends_as_recursion_diamond :
    diamond.Closed ∧ ∃ h : diamond.Acyclic,
      (diamond.postorder h).map Node.name = ["last", "x", "y", "out"] := by
  have hnames : diamond.order.map (List.map Node.name) = .ok ["last", "x", "y", "out"] := by
    decide +kernel
  have hok : ∃ ns, diamond.order = .ok ns := by
    cases horder : diamond.order with
    | ok ns => exact ⟨ns, rfl⟩
    | error c => rw [horder] at hnames; cases hnames
  obtain ⟨hclosed, hacyclic⟩ := (order_isOk_iff diamond).1 hok
  obtain ⟨es, -, -, -, -, hpostorder⟩ := search_ends_as_recursion diamond hclosed
  rw [hpostorder hacyclic] at hnames
  exact ⟨hclosed, hacyclic, Except.ok.inj hnames⟩

end Graph

end Shading
