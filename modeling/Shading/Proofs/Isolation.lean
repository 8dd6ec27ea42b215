/-
  Nodes that no link names.

  * `Search.Ends`: what a search comes to, however many steps it is given.
  * `Search.Shadows`: a search through more positions follows another one, and
    only closes the positions in between that nothing feeds
    (`Ends.shadows`).
  * `Graph.Without`: a graph without one of its nodes, which no link names.  The
    order of the linked nodes is the same in it (`Without.order`).
  * `Graph.SameWires`: two graphs carry the same values along the same links;
    then the same is emitted for a node in both (`SameWires.emit`).
-/
import Shading.Proofs.Run

namespace Shading

namespace Search

/-! ## Searches without a count of steps -/

/-- What a search comes to: the closed positions in their order, or a position
    that feeds itself. -/
inductive Ends (producers : Nat → List Nat) : Search → Except Nat (List Nat) → Prop
  | further {s s' r} : s.step producers = .further s' → Ends producers s' r → Ends producers s r
  | cycle {s i} : s.step producers = .cycle i → Ends producers s (.error i)
  | finished {s} : s.step producers = .finished → Ends producers s (.ok s.done.reverse)

variable {producers : Nat → List Nat} {count : Nat} {s : Search}

/-- A run with enough steps comes to an end. -/
theorem ends_run (hp : ∀ i p, p ∈ producers i → p < count) (fuel : Nat) (s : Search)
    (I : Inv producers count s) (hw : weight producers count s < fuel) :
    Ends producers s (s.run producers fuel) := by
  induction fuel generalizing s with
  | zero => omega
  | succ fuel ih =>
    unfold run
    rcases step_cases producers s with ⟨s', hs, hm⟩ | ⟨_, _, p, _, _, _, _, _, hs⟩ | ⟨_, _, hs⟩
    · have hweight := hm.weight hp I
      rw [hs]
      exact .further hs (ih s' (hm.inv hp I) (by omega))
    · rw [hs]
      exact .cycle hs
    · rw [hs]
      exact .finished hs

theorem Ends.unique {r r' : Except Nat (List Nat)} (h : Ends producers s r)
    (h' : Ends producers s r') : r' = r := by
  induction h with
  | further hs _ ih =>
    cases h' with
    | further hs' hends =>
      rw [hs] at hs'
      cases hs'
      exact ih hends
    | cycle hs' | finished hs' =>
      rw [hs] at hs'
      cases hs'
  | cycle hs =>
    cases h' with
    | cycle hs' =>
      rw [hs] at hs'
      cases hs'
      rfl
    | further hs' _ | finished hs' =>
      rw [hs] at hs'
      cases hs'
  | finished hs =>
    cases h' with
    | finished => rfl
    | further hs' _ | cycle hs' =>
      rw [hs] at hs'
      cases hs'

end Search

/-! ## Positions with one in between -/

/-- The position `p` when another one is put in at `i`. -/
def widen (i p : Nat) : Nat := if p < i then p else p + 1

/-- The position `j` when that at `i` is taken out; there is none for `i`
    itself. -/
def narrow? (i j : Nat) : Option Nat :=
  if j < i then some j else if j = i then none else some (j - 1)

theorem narrow?_eq_some_iff {i j p : Nat} : narrow? i j = some p ↔ j = widen i p := by
  unfold narrow? widen
  split
  · rw [Option.some.injEq]
    split <;> omega
  · split
    · simp only [reduceCtorEq, false_iff]
      split <;> omega
    · rw [Option.some.injEq]
      split <;> omega

theorem narrow?_eq_none_iff {i j : Nat} : narrow? i j = none ↔ j = i := by
  unfold narrow?
  split
  · simp only [reduceCtorEq, false_iff]
    omega
  · split <;> simp [*]

theorem widen_inj {i p q : Nat} (h : widen i p = widen i q) : p = q := by
  unfold widen at h
  split at h <;> split at h <;> omega

theorem widen_ne (i p : Nat) : widen i p ≠ i := by
  unfold widen
  split <;> omega

theorem filterMap_narrow?_range {i count : Nat} (h : i ≤ count) :
    (List.range (count + 1)).filterMap (narrow? i) = List.range count := by
  induction count, h using Nat.le_induction with
  | base =>
    have hkeep : (List.range i).filterMap (narrow? i) = List.range i := by
      have hsome : ∀ j ∈ List.range i, narrow? i j = some j := by
        intro j hj
        simp [narrow?, List.mem_range.1 hj]
      rw [List.filterMap_congr hsome, List.filterMap_some]
    simp [List.range_succ, hkeep, narrow?_eq_none_iff.2]
  | succ count hle ih =>
    have hlast : narrow? i (count + 1) = some count := by
      rw [narrow?_eq_some_iff, widen, if_neg (by omega)]
    rw [List.range_succ, List.filterMap_append, ih, List.filterMap_cons_some hlast,
      List.filterMap_nil, List.range_succ (n := count)]

theorem mem_filterMap_narrow? {i p : Nat} {l : List Nat} :
    p ∈ l.filterMap (narrow? i) ↔ widen i p ∈ l := by
  rw [List.mem_filterMap]
  constructor
  · rintro ⟨j, hj, hp⟩
    exact narrow?_eq_some_iff.1 hp ▸ hj
  · intro hp
    exact ⟨_, hp, narrow?_eq_some_iff.2 rfl⟩

theorem mem_map_widen {i p : Nat} {l : List Nat} : widen i p ∈ l.map (widen i) ↔ p ∈ l := by
  rw [List.mem_map]
  constructor
  · rintro ⟨q, hq, he⟩
    exact widen_inj he ▸ hq
  · intro hp
    exact ⟨p, hp, rfl⟩

namespace Search

/-- An open position with its producers, with one more position put in. -/
def widenFrame (i : Nat) (f : Nat × List Nat) : Nat × List Nat :=
  (widen i f.1, f.2.map (widen i))

/-- The search `s` goes through one more position than `s'`, which is `i`; it may
    have just opened it. -/
structure Shadows (i : Nat) (s' s : Search) : Prop where
  starts : s'.starts = s.starts.filterMap (narrow? i)
  stack : s.stack = s'.stack.map (widenFrame i) ∨ (s'.stack = [] ∧ s.stack = [(i, [])])
  done : s'.done = s.done.filterMap (narrow? i)

/-- Steps of two such searches that keep in step. -/
inductive StepShadows (i : Nat) : Progress → Progress → Prop
  | further {t' t} : Shadows i t' t → StepShadows i (.further t') (.further t)
  | cycle {p} : StepShadows i (.cycle p) (.cycle (widen i p))
  | finished : StepShadows i .finished .finished

/-- Ends of two such searches. -/
inductive EndShadows (i : Nat) : Except Nat (List Nat) → Except Nat (List Nat) → Prop
  | cycle {p} : EndShadows i (.error p) (.error (widen i p))
  | closed {l} : EndShadows i (.ok (l.filterMap (narrow? i))) (.ok l)

/-- What feeds the positions when one is put in that nothing feeds. -/
structure Widened (i : Nat) (producers' producers : Nat → List Nat) : Prop where
  isolated : producers i = []
  widened : ∀ p, producers (widen i p) = (producers' p).map (widen i)

variable {producers producers' : Nat → List Nat} {s s' : Search} {i : Nat}

theorem contains_filterMap_narrow? (i p : Nat) (l : List Nat) :
    (l.filterMap (narrow? i)).contains p = l.contains (widen i p) := by
  rw [Bool.eq_iff_iff, List.contains_iff_mem, List.contains_iff_mem, mem_filterMap_narrow?]

theorem contains_map_widenFrame (i p : Nat) (stack : List (Nat × List Nat)) :
    ((stack.map (widenFrame i)).map (·.1)).contains (widen i p) =
      (stack.map (·.1)).contains p := by
  have hmap : (stack.map (widenFrame i)).map (·.1) = (stack.map (·.1)).map (widen i) := by
    simp [widenFrame]
  rw [Bool.eq_iff_iff, List.contains_iff_mem, List.contains_iff_mem, hmap, mem_map_widen]

/-- The longer search keeps in step with the other one, but for the position in
    between, which it passes by on its own. -/
theorem Shadows.step (hp : Widened i producers' producers) (h : Shadows i s' s) :
    (∃ t, s.step producers = .further t ∧ Shadows i s' t) ∨
      StepShadows i (s'.step producers') (s.step producers) := by
  obtain ⟨starts, stack, done⟩ := s
  obtain ⟨starts', stack', done'⟩ := s'
  obtain ⟨rfl, hstack, rfl⟩ := h
  dsimp only at hstack
  rcases hstack with rfl | ⟨rfl, rfl⟩
  · cases stack' with
    | nil =>
      cases starts with
      | nil => exact .inr .finished
      | cons j rest =>
        cases hj : narrow? i j with
        | none =>
          left
          obtain rfl := narrow?_eq_none_iff.1 hj
          simp only [Search.step, List.map_nil]
          split
          · exact ⟨_, rfl, List.filterMap_cons_none hj, .inl rfl, rfl⟩
          · exact ⟨_, rfl, List.filterMap_cons_none hj, .inr ⟨rfl, by rw [hp.isolated]⟩, rfl⟩
        | some p =>
          right
          obtain rfl := narrow?_eq_some_iff.1 hj
          have hclosed := contains_filterMap_narrow? i p done
          rw [List.filterMap_cons_some hj]
          simp only [Search.step, List.map_nil]
          rw [hclosed]
          split
          · exact .further ⟨rfl, .inl rfl, rfl⟩
          · refine .further ⟨rfl, .inl ?_, rfl⟩
            simp [widenFrame, hp.widened]
    | cons frame below =>
      obtain ⟨p, waiting⟩ := frame
      right
      cases waiting with
      | nil =>
        refine .further ⟨rfl, .inl rfl, ?_⟩
        exact (List.filterMap_cons_some (narrow?_eq_some_iff.2 rfl)).symm
      | cons q rest =>
        have hopen := contains_map_widenFrame i q ((p, q :: rest) :: below)
        have hclosed := contains_filterMap_narrow? i q done
        simp only [Search.step, List.map_cons, widenFrame] at hopen ⊢
        rw [hclosed, hopen]
        split
        · exact .further ⟨rfl, .inl rfl, rfl⟩
        · split
          · exact .cycle
          · refine .further ⟨rfl, .inl ?_, rfl⟩
            simp [widenFrame, hp.widened]
  · -- the position in between is closed again at once
    left
    exact ⟨_, rfl, rfl, .inl rfl, (List.filterMap_cons_none (narrow?_eq_none_iff.2 rfl)).symm⟩

/-- **A position that nothing feeds does not change what a search comes to.** -/
theorem Ends.shadows (hp : Widened i producers' producers) {r : Except Nat (List Nat)}
    (hr : Ends producers s r) (h : Shadows i s' s) :
    ∃ r', Ends producers' s' r' ∧ EndShadows i r' r := by
  induction hr generalizing s' with
  | @further s t r hs _ ih =>
    rcases h.step hp with ⟨u, hu, hshadow⟩ | hstep
    · rw [hs] at hu
      cases hu
      exact ih hshadow
    · rw [hs] at hstep
      generalize hs' : s'.step producers' = r' at hstep
      cases hstep with
      | further hshadow =>
        obtain ⟨r', hends, hr'⟩ := ih hshadow
        exact ⟨r', .further hs' hends, hr'⟩
  | cycle hs =>
    rcases h.step hp with ⟨u, hu, -⟩ | hstep
    · rw [hs] at hu
      cases hu
    · rw [hs] at hstep
      generalize hs' : s'.step producers' = r' at hstep
      cases hstep with
      | cycle => exact ⟨_, .cycle hs', .cycle⟩
  | @finished s hs =>
    rcases h.step hp with ⟨u, hu, -⟩ | hstep
    · rw [hs] at hu
      cases hu
    · rw [hs] at hstep
      generalize hs' : s'.step producers' = r' at hstep
      cases hstep with
      | finished =>
        refine ⟨_, .finished hs', ?_⟩
        rw [h.done, ← List.filterMap_reverse]
        exact .closed

end Search

/-! ## Graphs with one node more -/

/-- An edge when one more position is put in. -/
def Edge.widen (i : Nat) (e : Edge) : Edge :=
  ⟨Shading.widen i e.source, Shading.widen i e.target⟩

theorem widened_producers (i : Nat) (edges : List Edge) :
    Search.Widened i (producers edges) (producers (edges.map (Edge.widen i))) := by
  constructor
  · rw [List.eq_nil_iff_forall_not_mem]
    intro p hp
    obtain ⟨e, he, -, htarget⟩ := mem_producers.1 hp
    obtain ⟨e, -, rfl⟩ := List.mem_map.1 he
    exact widen_ne i e.target htarget
  · intro p
    have htarget : ∀ e : Edge, ((e.widen i).target == widen i p) = (e.target == p) := by
      intro e
      rw [Bool.eq_iff_iff, beq_iff_eq, beq_iff_eq]
      exact ⟨fun h => widen_inj h, fun h => congrArg (widen i) h⟩
    simp only [producers, List.filter_map, List.map_map, Function.comp_def, htarget]
    rfl

theorem touched_widen (i p : Nat) (edges : List Edge) :
    touched (edges.map (Edge.widen i)) (widen i p) = touched edges p := by
  rw [Bool.eq_iff_iff, touched_iff, touched_iff]
  constructor
  · rintro ⟨_, hmem, hor⟩
    obtain ⟨e, he, rfl⟩ := List.mem_map.1 hmem
    exact ⟨e, he, hor.imp widen_inj widen_inj⟩
  · rintro ⟨e, he, hor⟩
    exact ⟨e.widen i, List.mem_map_of_mem he,
      hor.imp (congrArg (widen i)) (congrArg (widen i))⟩

theorem touched_self (i : Nat) (edges : List Edge) :
    touched (edges.map (Edge.widen i)) i = false := by
  rw [Bool.eq_false_iff, ne_eq, touched_iff]
  rintro ⟨e, he, hor⟩
  obtain ⟨e, -, rfl⟩ := List.mem_map.1 he
  exact hor.elim (widen_ne i e.source) (widen_ne i e.target)

theorem getElem?_widen {α : Type} (before after : List α) (a : α) (p : Nat) :
    (before ++ a :: after)[widen before.length p]? = (before ++ after)[p]? := by
  unfold widen
  split
  · rename_i hlt
    rw [List.getElem?_append_left hlt, List.getElem?_append_left hlt]
  · rename_i hge
    rw [List.getElem?_append_right (by omega), List.getElem?_append_right (by omega),
      show p + 1 - before.length = (p - before.length) + 1 by omega, List.getElem?_cons_succ]

/-- Elements with their positions, when one more is put in. -/
theorem zipIdx_insert {α : Type} (before after : List α) (a : α) :
    (before ++ a :: after).zipIdx =
      before.zipIdx.map (fun x => (x.1, widen before.length x.2)) ++ (a, before.length) ::
        (after.zipIdx before.length).map (fun x => (x.1, widen before.length x.2)) := by
  rw [List.zipIdx_append, List.zipIdx_cons, List.zipIdx_succ, Nat.zero_add]
  congr 1
  · refine (List.map_id' _).symm.trans (List.map_congr_left fun x hx => ?_)
    have hlt := List.snd_lt_of_mem_zipIdx hx
    rw [widen, if_pos (by omega)]
  · congr 1
    refine List.map_congr_left fun x hx => ?_
    have hle := List.le_snd_of_mem_zipIdx hx
    rw [widen, if_neg (by omega)]

namespace Graph

/-- The search through a graph comes to its end. -/
theorem ends_closingOrder {g : Graph} {es : List Edge} (h : g.edges = .ok es) :
    Search.Ends (producers es) (.start g.nodes.length) (g.closingOrder es) := by
  have hw := edges_within h
  refine Search.ends_run hw.producers_lt g.searchSteps _ Search.inv_start ?_
  have hweight := hw.weight_start
  rwa [edges_length h] at hweight

/-- The graph `g'` is `g` without the node `n`, which no link names. -/
structure Without (g : Graph) (n : Node) (g' : Graph) : Prop where
  nodes : ∃ before after, g.nodes = before ++ n :: after ∧ g'.nodes = before ++ after
  links : g'.links = g.links
  unlinked : g.isLinked n.id = false

section

variable (before after : List Node) (links : List Link) {n : Node}

/-- Other nodes move up when one is put in. -/
theorem position?_insert {id : String} (hid : n.id ≠ id) :
    (⟨before ++ n :: after, links⟩ : Graph).position? id =
      ((⟨before ++ after, links⟩ : Graph).position? id).map (widen before.length) := by
  have hskip : (n.id == id) = false := by simpa using hid
  rw [position?, position?, zipIdx_insert, List.zipIdx_append, Nat.zero_add, List.reverse_append,
    List.reverse_append, List.reverse_cons, List.append_assoc, List.singleton_append,
    ← List.map_reverse, ← List.map_reverse, List.find?_append, List.find?_append,
    List.find?_cons_of_neg (by simp [hskip]), List.find?_map, List.find?_map, ← Option.map_or,
    Option.map_map, Option.map_map]
  rfl

/-- A link that names other nodes. -/
theorem edge_insert {l : Link} (hsource : n.id ≠ l.source.node) (htarget : n.id ≠ l.target.node) :
    (⟨before ++ n :: after, links⟩ : Graph).edge l =
      ((⟨before ++ after, links⟩ : Graph).edge l).map (Edge.widen before.length) := by
  unfold edge position
  rw [position?_insert before after links hsource, position?_insert before after links htarget]
  cases (⟨before ++ after, links⟩ : Graph).position? l.source.node with
  | none => rfl
  | some i => cases (⟨before ++ after, links⟩ : Graph).position? l.target.node <;> rfl

theorem edgesOf_insert {ls : List Link}
    (h : ∀ l ∈ ls, n.id ≠ l.source.node ∧ n.id ≠ l.target.node) :
    (⟨before ++ n :: after, links⟩ : Graph).edgesOf ls =
      ((⟨before ++ after, links⟩ : Graph).edgesOf ls).map
        (List.map (Edge.widen before.length)) := by
  induction ls with
  | nil => rfl
  | cons l rest ih =>
    obtain ⟨hsource, htarget⟩ := h l (by simp)
    rw [edgesOf, edgesOf, edge_insert before after links hsource htarget,
      ih fun l' hl' => h l' (List.mem_cons_of_mem _ hl')]
    cases (⟨before ++ after, links⟩ : Graph).edge l with
    | error e => rfl
    | ok e => cases (⟨before ++ after, links⟩ : Graph).edgesOf rest <;> rfl

/-- A search through the nodes when one is put in that no link names. -/
theorem closingOrder_insert {es : List Edge}
    (hes : (⟨before ++ after, links⟩ : Graph).edges = .ok es)
    (hes' : (⟨before ++ n :: after, links⟩ : Graph).edges =
      .ok (es.map (Edge.widen before.length))) :
    Search.EndShadows before.length ((⟨before ++ after, links⟩ : Graph).closingOrder es)
      ((⟨before ++ n :: after, links⟩ : Graph).closingOrder
        (es.map (Edge.widen before.length))) := by
  have hends := ends_closingOrder hes
  have hends' := ends_closingOrder hes'
  have hstart : Search.Shadows before.length (.start (before ++ after).length)
      (.start (before ++ n :: after).length) := by
    refine ⟨?_, .inl rfl, rfl⟩
    have hlength : (before ++ n :: after).length = (before ++ after).length + 1 := by
      simp [Nat.add_assoc]
    rw [Search.start, Search.start, hlength, filterMap_narrow?_range (by simp)]
  obtain ⟨r, hr, hshadow⟩ := hends'.shadows (widened_producers before.length es) hstart
  rw [← hends.unique hr]
  exact hshadow

/-- The nodes at linked positions are the same when one is put in that no link
    names. -/
theorem filterMap_nodes_insert (es : List Edge) (l : List Nat) :
    (l.filter (touched (es.map (Edge.widen before.length)))).filterMap
        ((before ++ n :: after)[·]?) =
      ((l.filterMap (narrow? before.length)).filter (touched es)).filterMap
        ((before ++ after)[·]?) := by
  rw [List.filterMap_filter, List.filterMap_filter, List.filterMap_filterMap]
  refine List.filterMap_congr fun j _ => ?_
  cases hj : narrow? before.length j with
  | none =>
    rw [narrow?_eq_none_iff.1 hj, touched_self]
    rfl
  | some p =>
    rw [narrow?_eq_some_iff.1 hj, touched_widen, getElem?_widen, Option.bind_some]

end

namespace Without

variable {g g' : Graph} {n : Node} (h : g.Without n g')
include h

theorem ne_of_mem {l : Link} (hl : l ∈ g.links) : n.id ≠ l.source.node ∧ n.id ≠ l.target.node := by
  have hunlinked := h.unlinked
  rw [Bool.eq_false_iff, ne_eq, isLinked_iff] at hunlinked
  exact ⟨fun he => hunlinked ⟨l, hl, .inl he.symm⟩, fun he => hunlinked ⟨l, hl, .inr he.symm⟩⟩

/-- **The order of the linked nodes does not depend on a node that no link
    names**, nor does the position at which a cycle is found. -/
theorem order : g'.order = g.order := by
  have hne := fun l hl => h.ne_of_mem (l := l) hl
  obtain ⟨nodes, links⟩ := g
  obtain ⟨nodes', links'⟩ := g'
  obtain ⟨⟨before, after, hnodes, hnodes'⟩, hlinks, -⟩ := h
  dsimp only at hnodes hnodes' hlinks hne
  subst hnodes hnodes' hlinks
  have hedges := edgesOf_insert before after links' hne
  unfold Graph.order
  cases hes : (⟨before ++ after, links'⟩ : Graph).edges with
  | error e =>
    have hes' : (⟨before ++ n :: after, links'⟩ : Graph).edges = .error e := by
      rw [edges, hedges]
      exact congrArg (Except.map _) hes
    rw [hes']
  | ok es =>
    have hes' : (⟨before ++ n :: after, links'⟩ : Graph).edges =
        .ok (es.map (Edge.widen before.length)) := by
      rw [edges, hedges]
      exact congrArg (Except.map _) hes
    rw [hes']
    have hclosed := closingOrder_insert before after links' hes hes'
    dsimp only
    generalize (⟨before ++ after, links'⟩ : Graph).closingOrder es = r at hclosed ⊢
    generalize (⟨before ++ n :: after, links'⟩ : Graph).closingOrder _ = r' at hclosed ⊢
    cases hclosed with
    | cycle => dsimp only; rw [getElem?_widen]
    | closed => dsimp only; rw [filterMap_nodes_insert]

theorem node? {id : String} (hid : n.id ≠ id) : g'.node? id = g.node? id := by
  obtain ⟨before, after, hnodes, hnodes'⟩ := h.nodes
  rw [Graph.node?, Graph.node?, hnodes, hnodes', List.find?_append, List.find?_append,
    List.find?_cons_of_neg (by simpa using hid)]

theorem node {id : String} (hid : n.id ≠ id) : g'.node id = g.node id := by
  rw [Graph.node, Graph.node, h.node? hid]

end Without

/-- Two graphs carry values along the same links, from the same nodes. -/
structure SameWires (g g' : Graph) : Prop where
  links : g'.links = g.links
  sources : ∀ l ∈ g.links, g'.node l.source.node = g.node l.source.node

theorem Without.sameWires {g g' : Graph} {n : Node} (h : g.Without n g') : g.SameWires g' :=
  ⟨h.links, fun _ hl => h.node (h.ne_of_mem hl).1⟩

theorem SameWires.symm {g g' : Graph} (h : g.SameWires g') : g'.SameWires g :=
  ⟨h.links.symm, fun l hl => (h.sources l (h.links ▸ hl)).symm⟩

end Graph

/-! ## What is emitted along the same links -/

namespace Graph.SameWires

variable {g g' : Graph} (h : g.SameWires g') (c : Compilation) (n : Node)
include h

theorem operandAt (p : Pin) : c.operandAt g' n p = c.operandAt g n p := by
  unfold Compilation.operandAt Compilation.linkValue Graph.incoming?
  rw [h.links]
  cases hl : g.links.find? fun l => l.target.node == n.id && l.target.pin == p.id with
  | none => rfl
  | some l =>
    dsimp only
    rw [h.sources l (List.mem_of_find?_eq_some hl)]

theorem operandNo (i : Nat) : c.operandNo g' n i = c.operandNo g n i := by
  unfold Compilation.operandNo
  cases n.inputs[i]? with
  | none => rfl
  | some p => exact h.operandAt c n p

theorem operands : c.operands g' n = c.operands g n := by
  unfold Compilation.operands
  induction n.inputs with
  | nil => rfl
  | cons p rest ih => rw [Compilation.operandsAt, Compilation.operandsAt, h.operandAt, ih]

theorem operandsNo (is : List Nat) : c.operandsNo g' n is = c.operandsNo g n is := by
  induction is with
  | nil => rfl
  | cons i rest ih => rw [Compilation.operandsNo, Compilation.operandsNo, h.operandNo, ih]

theorem plan : c.plan g' n = c.plan g n := by
  unfold Compilation.plan
  simp only [h.operandNo, h.operands, h.operandsNo]

/-- **A node is emitted alike in both graphs.** -/
theorem emit : c.emit g' n = c.emit g n := by
  rw [Compilation.emit_eq, Compilation.emit_eq]
  simp only [h.plan]

theorem emitAll (ns : List Node) : Compilation.emitAll g' c ns = Compilation.emitAll g c ns := by
  induction ns generalizing c with
  | nil => rfl
  | cons n rest ih =>
    rw [Compilation.emitAll, Compilation.emitAll, h.emit]
    cases c.emit g n with
    | mk d r =>
      cases r with
      | error e => rfl
      | ok i => exact ih d

theorem emitRoot : c.emitRoot g' n = c.emitRoot g n := by
  unfold Compilation.emitRoot
  rw [h.emit]

theorem emitNodes (ns : List Node) : c.emitNodes g' ns n = c.emitNodes g ns n := by
  unfold Compilation.emitNodes
  simp only [h.emitAll, h.emitRoot]

theorem rootValue (i : Nat) : c.rootValue g' n i = c.rootValue g n i := by
  unfold Compilation.rootValue
  rw [h.operandNo]

theorem assignments (name : String) (i : Nat) (fields : List Field) :
    c.assignments g' n name i fields = c.assignments g n name i fields := by
  induction fields generalizing i with
  | nil => rfl
  | cons f rest ih => rw [Compilation.assignments, Compilation.assignments, h.rootValue, ih]

theorem body (entry semantic : String) :
    c.body g' n entry semantic = c.body g n entry semantic := by
  unfold Compilation.body Compilation.returning
  simp only [h.assignments, h.rootValue]

end Graph.SameWires

end Shading
