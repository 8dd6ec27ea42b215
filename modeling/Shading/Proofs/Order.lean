/-
  The order of the linked nodes of a graph.

  * `Graph.Closed`, `Graph.Acyclic`: all links end at nodes, and no node feeds
    itself.  These are exactly the graphs that have an order
    (`order_isOk_iff`).
  * `Graph.IsOrder`: a list of all linked nodes, each once, in which producers
    come before their consumers.  Where ids are distinct, the order is one
    (`order_isOrder`).
-/
import Mathlib.Algebra.BigOperators.Group.Finset.Piecewise
import Shading.Proofs.Search

namespace Shading

/-- Edges whose ends are positions below `count`. -/
def Within (count : Nat) (edges : List Edge) : Prop :=
  ∀ e ∈ edges, e.source < count ∧ e.target < count

theorem mem_producers {edges : List Edge} {i p : Nat} :
    p ∈ producers edges i ↔ ∃ e ∈ edges, e.source = p ∧ e.target = i := by
  simp only [producers, List.mem_map, List.mem_filter, beq_iff_eq]
  exact ⟨fun ⟨e, ⟨he, ht⟩, hs⟩ => ⟨e, he, hs, ht⟩, fun ⟨e, he, hs, ht⟩ => ⟨e, ⟨he, ht⟩, hs⟩⟩

theorem touched_iff {edges : List Edge} {i : Nat} :
    touched edges i = true ↔ ∃ e ∈ edges, e.source = i ∨ e.target = i := by
  simp [touched]

theorem Within.producers_lt {count : Nat} {edges : List Edge} (h : Within count edges) :
    ∀ i p, p ∈ producers edges i → p < count := by
  intro i p hp
  obtain ⟨e, he, rfl, -⟩ := mem_producers.1 hp
  exact (h e he).1

/-- All positions together have as many producers as there are edges. -/
theorem Within.sum_producers {count : Nat} {edges : List Edge} (h : Within count edges) :
    ∑ i ∈ Finset.range count, (producers edges i).length = edges.length := by
  induction edges with
  | nil => simp [producers]
  | cons e rest ih =>
    have hrest := ih fun e' he' => h e' (List.mem_cons_of_mem _ he')
    have hlen : ∀ i, (producers (e :: rest) i).length =
        (if e.target = i then 1 else 0) + (producers rest i).length := by
      intro i
      by_cases hi : e.target = i
      · simp [producers, hi, Nat.add_comm]
      · simp [producers, hi]
    simp only [hlen, Finset.sum_add_distrib, hrest, Finset.sum_ite_eq, Finset.mem_range,
      (h e (by simp)).2, if_true, List.length_cons]
    omega

/-- The steps that are counted out suffice for a search from the start. -/
theorem Within.weight_start {count : Nat} {edges : List Edge} (h : Within count edges) :
    Search.weight (producers edges) count (.start count) < 2 * count + edges.length + 1 := by
  have hsum := h.sum_producers
  simp only [Search.weight, Search.start, Search.opened, Search.unseen, List.map_nil,
    List.sum_nil, List.length_range, List.append_nil, List.toFinset_nil, Finset.sdiff_empty,
    Finset.sum_add_distrib, hsum, ← Finset.card_eq_sum_ones, Finset.card_range]
  omega

/-- An element of the image of a list, with what stands before it. -/
theorem exists_of_filterMap_eq {α β : Type} {f : α → Option β} {l : List α} {before after : List β}
    {b : β} (h : l.filterMap f = before ++ b :: after) :
    ∃ l₁ a l₂, l = l₁ ++ a :: l₂ ∧ f a = some b ∧ l₁.filterMap f = before := by
  obtain ⟨l₁, l₂, rfl, hbefore, hafter⟩ := List.filterMap_eq_append_iff.1 h
  obtain ⟨l₃, a, l₄, rfl, hnone, hb, -⟩ := List.filterMap_eq_cons_iff.1 hafter
  refine ⟨l₁ ++ l₃, a, l₄, by simp, hb, ?_⟩
  rw [List.filterMap_append, hbefore, List.filterMap_eq_nil_iff.2 hnone, List.append_nil]

namespace Graph

variable {g : Graph}

/-- No two nodes have the same id. -/
def DistinctIds (g : Graph) : Prop := (g.nodes.map Node.id).Nodup

/-- Every link begins and ends at a node. -/
def Closed (g : Graph) : Prop :=
  ∀ l ∈ g.links, (∃ n ∈ g.nodes, n.id = l.source.node) ∧ ∃ n ∈ g.nodes, n.id = l.target.node

/-- There is a link from the node `a` to the node `b`. -/
def Feeds (g : Graph) (a b : String) : Prop :=
  ∃ l ∈ g.links, l.source.node = a ∧ l.target.node = b

/-- No node feeds itself, at whatever distance. -/
def Acyclic (g : Graph) : Prop := ∀ a, ¬ Relation.TransGen g.Feeds a a

/-- All linked nodes, each once, with producers before their consumers. -/
structure IsOrder (g : Graph) (ns : List Node) : Prop where
  nodup : ns.Nodup
  mem_iff : ∀ n, n ∈ ns ↔ n ∈ g.nodes ∧ g.isLinked n.id = true
  sorted : ∀ before n after, ns = before ++ n :: after →
    ∀ l ∈ g.links, l.target.node = n.id → ∃ m ∈ before, m.id = l.source.node

theorem isLinked_iff {id : String} :
    g.isLinked id = true ↔ ∃ l ∈ g.links, l.source.node = id ∨ l.target.node = id := by
  simp [isLinked]

/-! ## Positions -/

theorem mem_zipIdx_reverse {n : Node} {i : Nat} :
    (n, i) ∈ g.nodes.zipIdx.reverse ↔ g.nodes[i]? = some n := by
  rw [List.mem_reverse, List.mem_zipIdx_iff_getElem?]

theorem position?_eq_some {id : String} {i : Nat} (h : g.position? id = some i) :
    ∃ n, g.nodes[i]? = some n ∧ n.id = id := by
  obtain ⟨⟨n, j⟩, hfind, rfl⟩ := Option.map_eq_some_iff.1 h
  exact ⟨n, mem_zipIdx_reverse.1 (List.mem_of_find?_eq_some hfind),
    by simpa using List.find?_some hfind⟩

theorem position?_lt {id : String} {i : Nat} (h : g.position? id = some i) :
    i < g.nodes.length := by
  obtain ⟨n, hn, -⟩ := position?_eq_some h
  exact (List.getElem?_eq_some_iff.1 hn).1

theorem exists_position? {id : String} :
    (∃ i, g.position? id = some i) ↔ ∃ n ∈ g.nodes, n.id = id := by
  constructor
  · rintro ⟨i, hi⟩
    obtain ⟨n, hn, hid⟩ := position?_eq_some hi
    exact ⟨n, List.mem_of_getElem? hn, hid⟩
  · rintro ⟨n, hn, hid⟩
    obtain ⟨i, hi⟩ := List.getElem?_of_mem hn
    rw [← Option.isSome_iff_exists, position?, Option.isSome_map, List.find?_isSome]
    exact ⟨(n, i), mem_zipIdx_reverse.2 hi, by simpa using hid⟩

theorem DistinctIds.getElem?_inj (hids : g.DistinctIds) {i j : Nat} {n m : Node}
    (hi : g.nodes[i]? = some n) (hj : g.nodes[j]? = some m) (h : n.id = m.id) : i = j := by
  obtain ⟨hi', rfl⟩ := List.getElem?_eq_some_iff.1 hi
  obtain ⟨hj', rfl⟩ := List.getElem?_eq_some_iff.1 hj
  have hi'' : i < (g.nodes.map Node.id).length := by simpa using hi'
  have hj'' : j < (g.nodes.map Node.id).length := by simpa using hj'
  have hget : (g.nodes.map Node.id)[i] = (g.nodes.map Node.id)[j] := by simpa using h
  exact (List.Nodup.getElem_inj_iff hids).1 hget

theorem DistinctIds.eq_of_id (hids : g.DistinctIds) {n m : Node} (hn : n ∈ g.nodes)
    (hm : m ∈ g.nodes) (h : n.id = m.id) : n = m :=
  List.inj_on_of_nodup_map hids hn hm h

theorem DistinctIds.position? (hids : g.DistinctIds) {i : Nat} {n : Node}
    (hi : g.nodes[i]? = some n) : g.position? n.id = some i := by
  obtain ⟨j, hj⟩ := exists_position?.2 ⟨n, List.mem_of_getElem? hi, rfl⟩
  obtain ⟨m, hm, hid⟩ := position?_eq_some hj
  rw [hj, hids.getElem?_inj hm hi hid]

/-! ## Looking up nodes -/

theorem mem_of_node? {id : String} {n : Node} (h : g.node? id = some n) :
    n ∈ g.nodes ∧ n.id = id :=
  ⟨List.mem_of_find?_eq_some h, by simpa using List.find?_some h⟩

theorem exists_node? {id : String} : (∃ n, g.node? id = some n) ↔ ∃ n ∈ g.nodes, n.id = id := by
  rw [← Option.isSome_iff_exists, node?, List.find?_isSome]
  simp

theorem DistinctIds.node? (hids : g.DistinctIds) {n : Node} (hn : n ∈ g.nodes) :
    g.node? n.id = some n := by
  obtain ⟨m, hm⟩ := exists_node?.2 ⟨n, hn, rfl⟩
  obtain ⟨hmem, hid⟩ := mem_of_node? hm
  rw [hm, hids.eq_of_id hmem hn hid]

theorem node_eq_ok_iff {id : String} {n : Node} : g.node id = .ok n ↔ g.node? id = some n := by
  unfold node
  cases g.node? id <;> simp

/-! ## Edges -/

theorem edge_eq_ok_iff {l : Link} {e : Edge} :
    g.edge l = .ok e ↔
      g.position? l.source.node = some e.source ∧ g.position? l.target.node = some e.target := by
  obtain ⟨s, t⟩ := e
  unfold edge position
  cases g.position? l.source.node <;> cases g.position? l.target.node <;> simp

theorem edgesOf_eq_ok_iff {ls : List Link} {es : List Edge} :
    g.edgesOf ls = .ok es ↔ List.Forall₂ (fun l e => g.edge l = .ok e) ls es := by
  induction ls generalizing es with
  | nil => cases es <;> simp [edgesOf]
  | cons l ls ih =>
    unfold edgesOf
    cases he : g.edge l with
    | error c =>
      simp only [reduceCtorEq, false_iff]
      intro h
      cases h with
      | cons h _ => rw [he] at h; cases h
    | ok e =>
      dsimp only
      constructor
      · intro h
        obtain ⟨es', hes, rfl⟩ : ∃ es', g.edgesOf ls = .ok es' ∧ e :: es' = es := by
          cases hr : g.edgesOf ls with
          | error c => rw [hr] at h; cases h
          | ok es' => rw [hr] at h; cases h; exact ⟨es', rfl, rfl⟩
        exact .cons he (ih.1 hes)
      · intro h
        cases h with
        | cons h hs =>
          rw [he] at h; cases h
          rw [ih.2 hs]; rfl

/-- What the edges of a graph are. -/
theorem mem_edges {es : List Edge} (h : g.edges = .ok es) {e : Edge} :
    e ∈ es → ∃ l ∈ g.links, g.edge l = .ok e := by
  replace h := edgesOf_eq_ok_iff.1 h
  generalize g.links = ls at h
  intro he
  induction h with
  | nil => cases he
  | cons h _ ih =>
    rcases List.mem_cons.1 he with rfl | he
    · exact ⟨_, by simp, h⟩
    · obtain ⟨l, hl, hle⟩ := ih he
      exact ⟨l, List.mem_cons_of_mem _ hl, hle⟩

theorem edge_mem {es : List Edge} (h : g.edges = .ok es) {l : Link} :
    l ∈ g.links → ∃ e ∈ es, g.edge l = .ok e := by
  replace h := edgesOf_eq_ok_iff.1 h
  generalize g.links = ls at h
  intro hl
  induction h with
  | nil => cases hl
  | cons h _ ih =>
    rcases List.mem_cons.1 hl with rfl | hl
    · exact ⟨_, by simp, h⟩
    · obtain ⟨e, he, hle⟩ := ih hl
      exact ⟨e, List.mem_cons_of_mem _ he, hle⟩

theorem edges_isOk_iff : (∃ es, g.edges = .ok es) ↔ g.Closed := by
  constructor
  · rintro ⟨es, hes⟩ l hl
    obtain ⟨e, -, he⟩ := edge_mem hes hl
    obtain ⟨hs, ht⟩ := edge_eq_ok_iff.1 he
    exact ⟨exists_position?.1 ⟨_, hs⟩, exists_position?.1 ⟨_, ht⟩⟩
  · intro hc
    unfold edges
    have hall : ∀ l ∈ g.links, ∃ e, g.edge l = .ok e := by
      intro l hl
      obtain ⟨hs, ht⟩ := hc l hl
      obtain ⟨i, hi⟩ := exists_position?.2 hs
      obtain ⟨j, hj⟩ := exists_position?.2 ht
      exact ⟨⟨i, j⟩, edge_eq_ok_iff.2 ⟨hi, hj⟩⟩
    generalize g.links = ls at hall
    induction ls with
    | nil => exact ⟨[], rfl⟩
    | cons l ls ih =>
      obtain ⟨e, he⟩ := hall l (by simp)
      obtain ⟨es, hes⟩ := ih fun l' hl' => hall l' (List.mem_cons_of_mem _ hl')
      exact ⟨e :: es, by simp only [edgesOf, he, hes]; rfl⟩

theorem edges_within {es : List Edge} (h : g.edges = .ok es) : Within g.nodes.length es := by
  intro e he
  obtain ⟨l, -, hl⟩ := mem_edges h he
  obtain ⟨hs, ht⟩ := edge_eq_ok_iff.1 hl
  exact ⟨position?_lt hs, position?_lt ht⟩

theorem edges_length {es : List Edge} (h : g.edges = .ok es) : es.length = g.links.length :=
  (edgesOf_eq_ok_iff.1 h).length_eq.symm

/-! ## Cycles of nodes and of positions -/

/-- The id of the node at a position. -/
def idAt (g : Graph) (i : Nat) : String := ((g.nodes[i]?).map Node.id).getD ""

theorem idAt_of_position? {id : String} {i : Nat} (h : g.position? id = some i) :
    g.idAt i = id := by
  obtain ⟨n, hn, rfl⟩ := position?_eq_some h
  simp [idAt, hn]

theorem feeds_idAt {es : List Edge} (h : g.edges = .ok es) {i j : Nat}
    (hf : Shading.Feeds (producers es) i j) : g.Feeds (g.idAt i) (g.idAt j) := by
  obtain ⟨e, he, rfl, rfl⟩ := mem_producers.1 hf
  obtain ⟨l, hl, hle⟩ := mem_edges h he
  obtain ⟨hs, ht⟩ := edge_eq_ok_iff.1 hle
  exact ⟨l, hl, (idAt_of_position? hs).symm, (idAt_of_position? ht).symm⟩

theorem feeds_position {es : List Edge} (h : g.edges = .ok es) {a b : String} (hf : g.Feeds a b) :
    Shading.Feeds (producers es) ((g.position? a).getD 0) ((g.position? b).getD 0) := by
  obtain ⟨l, hl, rfl, rfl⟩ := hf
  obtain ⟨e, he, hle⟩ := edge_mem h hl
  obtain ⟨hs, ht⟩ := edge_eq_ok_iff.1 hle
  rw [hs, ht]
  exact mem_producers.2 ⟨e, he, rfl, rfl⟩

/-! ## The order -/

/-- What the search through a graph comes to. -/
theorem closingOrder_spec {es : List Edge} (h : g.edges = .ok es) :
    match g.closingOrder es with
    | .ok l => l.Nodup ∧ (∀ i, i ∈ l ↔ i < g.nodes.length) ∧ Ordered (producers es) l
    | .error i => i < g.nodes.length ∧ Relation.TransGen (Shading.Feeds (producers es)) i i := by
  have hw := edges_within h
  refine Search.run_spec hw.producers_lt g.searchSteps _ Search.inv_start ?_
  have := hw.weight_start
  rwa [edges_length h] at this

/-- The order is the list of closed positions, as far as they are linked. -/
theorem order_eq_ok {ns : List Node} (h : g.order = .ok ns) :
    ∃ es l, g.edges = .ok es ∧
      ns = l.filterMap (fun i => if touched es i then g.nodes[i]? else none) ∧
      l.Nodup ∧ (∀ i, i ∈ l ↔ i < g.nodes.length) ∧ Ordered (producers es) l := by
  unfold order at h
  cases hes : g.edges with
  | error c => rw [hes] at h; cases h
  | ok es =>
    rw [hes] at h
    have hspec := closingOrder_spec hes
    dsimp only at h
    cases hl : g.closingOrder es with
    | error i => rw [hl] at h; cases h
    | ok l =>
      rw [hl] at h hspec
      cases h
      exact ⟨es, l, rfl, by rw [List.filterMap_filter], hspec⟩

theorem mem_of_order {ns : List Node} (h : g.order = .ok ns) {n : Node} (hn : n ∈ ns) :
    n ∈ g.nodes := by
  obtain ⟨es, l, -, rfl, -⟩ := order_eq_ok h
  obtain ⟨i, -, hi⟩ := List.mem_filterMap.1 hn
  rw [Option.ite_none_right_eq_some] at hi
  exact List.mem_of_getElem? hi.2

/-- **A graph has an order exactly if its links end at nodes and no node feeds
    itself.** -/
theorem order_isOk_iff (g : Graph) : (∃ ns, g.order = .ok ns) ↔ g.Closed ∧ g.Acyclic := by
  constructor
  · rintro ⟨ns, h⟩
    obtain ⟨es, l, hes, -, hnd, hmem, hord⟩ := order_eq_ok h
    refine ⟨edges_isOk_iff.1 ⟨es, hes⟩, fun a hcycle => ?_⟩
    -- the cycle passes through an edge, whose positions are in the list
    obtain ⟨b, hab, -⟩ := Relation.TransGen.head'_iff.1 hcycle
    obtain ⟨e, he, hs, -⟩ := mem_producers.1 (feeds_position hes hab)
    have hlt := (edges_within hes e he).1
    refine hord.acyclic hnd ((hmem _).2 (hs ▸ hlt)) ?_
    exact hcycle.lift (fun id => (g.position? id).getD 0) fun _ _ => feeds_position hes
  · rintro ⟨hc, hacyclic⟩
    obtain ⟨es, hes⟩ := edges_isOk_iff.2 hc
    have hspec := closingOrder_spec hes
    unfold order
    rw [hes]
    dsimp only
    cases hl : g.closingOrder es with
    | error i =>
      rw [hl] at hspec
      exact absurd (hspec.2.lift g.idAt fun _ _ => feeds_idAt hes) (hacyclic _)
    | ok l => exact ⟨_, rfl⟩

/-- A node of the graph is linked if an edge ends at its position. -/
theorem touched_position {es : List Edge} (hids : g.DistinctIds) (hes : g.edges = .ok es) {i : Nat}
    {n : Node} (hi : g.nodes[i]? = some n) : touched es i = true ↔ g.isLinked n.id = true := by
  rw [touched_iff, isLinked_iff]
  constructor
  · rintro ⟨e, he, hor⟩
    obtain ⟨l, hl, hle⟩ := mem_edges hes he
    obtain ⟨hs, ht⟩ := edge_eq_ok_iff.1 hle
    have hid : g.idAt i = n.id := by simp [idAt, hi]
    refine ⟨l, hl, hor.imp (fun h => ?_) fun h => ?_⟩
    · rw [← idAt_of_position? hs, h, hid]
    · rw [← idAt_of_position? ht, h, hid]
  · rintro ⟨l, hl, hor⟩
    obtain ⟨e, he, hle⟩ := edge_mem hes hl
    obtain ⟨hs, ht⟩ := edge_eq_ok_iff.1 hle
    have hpos := hids.position? hi
    refine ⟨e, he, hor.imp (fun h => ?_) fun h => ?_⟩
    · rw [h, hpos] at hs; exact (Option.some.inj hs).symm
    · rw [h, hpos] at ht; exact (Option.some.inj ht).symm

/-- **Where ids are distinct, producers come before their consumers.** -/
theorem order_isOrder {ns : List Node} (hids : g.DistinctIds) (h : g.order = .ok ns) :
    g.IsOrder ns := by
  obtain ⟨es, l, hes, rfl, hnd, hmem, hord⟩ := order_eq_ok h
  refine ⟨?_, fun n => ?_, fun before n after hsplit k hk htarget => ?_⟩
  · refine hnd.filterMap fun i j n hi hj => ?_
    rw [Option.mem_def, Option.ite_none_right_eq_some] at hi hj
    exact hids.getElem?_inj hi.2 hj.2 rfl
  · simp only [List.mem_filterMap, Option.ite_none_right_eq_some]
    constructor
    · rintro ⟨i, -, ht, hi⟩
      exact ⟨List.mem_of_getElem? hi, (touched_position hids hes hi).1 ht⟩
    · rintro ⟨hn, hlinked⟩
      obtain ⟨i, hi⟩ := List.getElem?_of_mem hn
      exact ⟨i, (hmem i).2 (List.getElem?_eq_some_iff.1 hi).1,
        (touched_position hids hes hi).2 hlinked, hi⟩
  · obtain ⟨l₁, i, l₂, rfl, hi, rfl⟩ := exists_of_filterMap_eq hsplit
    rw [Option.ite_none_right_eq_some] at hi
    obtain ⟨e, he, hke⟩ := edge_mem hes hk
    obtain ⟨hs, ht⟩ := edge_eq_ok_iff.1 hke
    rw [htarget, hids.position? hi.2] at ht
    have hsource : e.source ∈ l₁ :=
      hord l₁ i l₂ rfl e.source (mem_producers.2 ⟨e, he, rfl, (Option.some.inj ht).symm⟩)
    obtain ⟨m, hm, hid⟩ := position?_eq_some hs
    refine ⟨m, List.mem_filterMap.2 ⟨e.source, hsource, ?_⟩, hid⟩
    rw [if_pos (touched_iff.2 ⟨e, he, Or.inl rfl⟩), hm]

end Graph

end Shading
