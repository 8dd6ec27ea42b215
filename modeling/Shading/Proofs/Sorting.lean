/-
  The order of the nodes of any graph, also one in which ids repeat, and the
  graphs that have none.

  * `Graph.Means`: at the end of a link an id means the last node that has it.
  * `order_sorts_endpoints`: the order lists the nodes at the ends of links,
    each once, with the source of every link before its target.
  * `Graph.missing?`: the first id at an end of a link that no node has.
  * `order_refuses_exactly`: there is no order exactly if an id is missing,
    which is then reported, or else if some node feeds itself, and then such a
    node is reported.
-/
import Shading.Proofs.Order

namespace Shading

theorem filterMap_between {α β : Type} {f : α → Option β} {before between after : List α}
    {a b : α} {x y : β} (ha : f a = some x) (hb : f b = some y) :
    (before ++ a :: between ++ b :: after).filterMap f =
      before.filterMap f ++ x :: (between.filterMap f ++ y :: after.filterMap f) := by
  simp [ha, hb]

namespace Graph

variable {g : Graph}

/-- The node that an id means at the end of a link: the last one that has it. -/
def Means (g : Graph) (id : String) (n : Node) : Prop :=
  ∃ before after, g.nodes = before ++ n :: after ∧ n.id = id ∧ ∀ m ∈ after, m.id ≠ id

/-- A position is found for an id exactly if the id means the node there. -/
theorem means_iff_position? {id : String} {n : Node} :
    g.Means id n ↔ ∃ i, g.position? id = some i ∧ g.nodes[i]? = some n := by
  constructor
  · rintro ⟨before, after, hnodes, hid, hafter⟩
    have hzip : g.nodes.zipIdx.reverse = (after.zipIdx (before.length + 1)).reverse ++
        (n, before.length) :: before.zipIdx.reverse := by
      rw [hnodes, List.zipIdx_append, List.zipIdx_cons, List.reverse_append, List.reverse_cons]
      simp
    refine ⟨before.length, ?_, by simp [hnodes]⟩
    have hfind : g.nodes.zipIdx.reverse.find? (·.1.id == id) = some (n, before.length) := by
      rw [List.find?_eq_some_iff_append]
      refine ⟨by simpa using hid, _, _, hzip, fun p hp => ?_⟩
      have hmem := List.mem_reverse.1 hp
      simpa using hafter p.1 (List.fst_mem_of_mem_zipIdx hmem)
    rw [position?, hfind]
    rfl
  · rintro ⟨i, hi, hn⟩
    obtain ⟨⟨m, j⟩, hfind, rfl⟩ := Option.map_eq_some_iff.1 hi
    obtain ⟨hid, later, earlier, hzip, hlater⟩ := List.find?_eq_some_iff_append.1 hfind
    have hm : g.nodes[j]? = some m := mem_zipIdx_reverse.1 (List.mem_of_find?_eq_some hfind)
    obtain rfl : m = n := Option.some.inj (hm.symm.trans hn)
    have hnodes :
        g.nodes = (earlier.map Prod.fst).reverse ++ m :: (later.map Prod.fst).reverse := by
      have := congrArg (fun l => (l.map Prod.fst).reverse) hzip
      simpa using this
    refine ⟨_, _, hnodes, by simpa using hid, fun k hk => ?_⟩
    obtain ⟨p, hp, rfl⟩ := List.mem_map.1 (List.mem_reverse.1 hk)
    simpa using hlater p hp

/-- An edge ends at a position exactly if a link ends at the node there. -/
theorem touched_iff_position? {es : List Edge} (hes : g.edges = .ok es) {i : Nat} :
    touched es i = true ↔ ∃ l ∈ g.links,
      g.position? l.source.node = some i ∨ g.position? l.target.node = some i := by
  rw [touched_iff]
  constructor
  · rintro ⟨e, he, hi⟩
    obtain ⟨l, hl, hle⟩ := mem_edges hes he
    obtain ⟨hs, ht⟩ := edge_eq_ok_iff.1 hle
    refine ⟨l, hl, hi.imp (fun h => ?_) fun h => ?_⟩
    · rw [hs, h]
    · rw [ht, h]
  · rintro ⟨l, hl, hi⟩
    obtain ⟨e, he, hle⟩ := edge_mem hes hl
    obtain ⟨hs, ht⟩ := edge_eq_ok_iff.1 hle
    refine ⟨e, he, hi.imp (fun h => ?_) fun h => ?_⟩
    · exact Option.some.inj (hs.symm.trans h)
    · exact Option.some.inj (ht.symm.trans h)

/-- The node at a position where an edge ends is the one that its id means. -/
theorem position?_of_touched {es : List Edge} (hes : g.edges = .ok es) {i : Nat} {n : Node}
    (ht : touched es i = true) (hn : g.nodes[i]? = some n) : g.position? n.id = some i := by
  have hid : ∀ id, g.position? id = some i → n.id = id := by
    intro id hpos
    obtain ⟨m, hm, rfl⟩ := position?_eq_some hpos
    rw [hm] at hn
    rw [Option.some.inj hn]
  obtain ⟨l, -, hpos | hpos⟩ := (touched_iff_position? hes).1 ht
  · rw [hid _ hpos, hpos]
  · rw [hid _ hpos, hpos]

/-- **The nodes at the ends of links are put in an order, each once, in which
    the source of every link stands before its target.**  Ids may repeat; at
    the end of a link they mean the last node that has them. -/
theorem order_sorts_endpoints {ns : List Node} (h : g.order = .ok ns) :
    (∀ n, n ∈ ns ↔ ∃ l ∈ g.links, g.Means l.source.node n ∨ g.Means l.target.node n) ∧
    (ns.map Node.id).Nodup ∧
    ∀ l ∈ g.links, ∃ s t before between after,
      g.Means l.source.node s ∧ g.Means l.target.node t ∧
        ns = before ++ s :: (between ++ t :: after) := by
  obtain ⟨es, is, hes, rfl, hnd, hmem, hord⟩ := order_eq_ok h
  refine ⟨fun n => ?_, ?_, fun l hl => ?_⟩
  · simp only [List.mem_filterMap, Option.ite_none_right_eq_some, means_iff_position?]
    constructor
    · rintro ⟨i, -, ht, hn⟩
      obtain ⟨l, hl, hpos⟩ := (touched_iff_position? hes).1 ht
      exact ⟨l, hl, hpos.imp (⟨i, ·, hn⟩) (⟨i, ·, hn⟩)⟩
    · rintro ⟨l, hl, ⟨i, hpos, hn⟩ | ⟨i, hpos, hn⟩⟩
      · exact ⟨i, (hmem i).2 (position?_lt hpos),
          (touched_iff_position? hes).2 ⟨l, hl, Or.inl hpos⟩, hn⟩
      · exact ⟨i, (hmem i).2 (position?_lt hpos),
          (touched_iff_position? hes).2 ⟨l, hl, Or.inr hpos⟩, hn⟩
  · -- a position is known from the id of its node, so no id comes from two of them
    rw [List.map_filterMap]
    refine hnd.filterMap fun i j id hi hj => ?_
    simp only [Option.mem_def, Option.map_eq_some_iff, Option.ite_none_right_eq_some] at hi hj
    obtain ⟨n, ⟨hti, hni⟩, rfl⟩ := hi
    obtain ⟨m, ⟨htj, hmj⟩, hid⟩ := hj
    have hposi := position?_of_touched hes hti hni
    have hposj := position?_of_touched hes htj hmj
    rw [hid, hposi] at hposj
    exact Option.some.inj hposj
  · obtain ⟨e, he, hle⟩ := edge_mem hes hl
    obtain ⟨hs, ht⟩ := edge_eq_ok_iff.1 hle
    obtain ⟨s, hns, -⟩ := position?_eq_some hs
    obtain ⟨t, hnt, -⟩ := position?_eq_some ht
    obtain ⟨upto, later, rfl⟩ := List.append_of_mem ((hmem e.target).2 (position?_lt ht))
    have hfeeds : e.source ∈ producers es e.target := mem_producers.2 ⟨e, he, rfl, rfl⟩
    obtain ⟨before, between, rfl⟩ := List.append_of_mem (hord _ _ _ rfl _ hfeeds)
    have hsource : touched es e.source = true := touched_iff.2 ⟨e, he, Or.inl rfl⟩
    have htarget : touched es e.target = true := touched_iff.2 ⟨e, he, Or.inr rfl⟩
    exact ⟨s, t, _, _, _, means_iff_position?.2 ⟨_, hs, hns⟩, means_iff_position?.2 ⟨_, ht, hnt⟩,
      filterMap_between ((if_pos hsource).trans hns) ((if_pos htarget).trans hnt)⟩

/-- Two nodes share an id, and the link goes to the second. -/
def repeated : Graph :=
  ⟨[⟨"a", "first", .input, []⟩, ⟨"b", "consumer", .output, []⟩, ⟨"a", "last", .texture, []⟩],
    [⟨"l", ⟨"a", "o"⟩, ⟨"b", "i"⟩⟩]⟩

theorem order_sorts_endpoints_repeated :
    ∃ ns, repeated.order = .ok ns ∧ ns.map Node.name = ["last", "consumer"] ∧
      (∀ n, n ∈ ns ↔
        ∃ l ∈ repeated.links, repeated.Means l.source.node n ∨ repeated.Means l.target.node n) ∧
      (ns.map Node.id).Nodup ∧
      ∀ l ∈ repeated.links, ∃ s t before between after,
        repeated.Means l.source.node s ∧ repeated.Means l.target.node t ∧
          ns = before ++ s :: (between ++ t :: after) := by
  have h : repeated.order =
      .ok [⟨"a", "last", .texture, []⟩, ⟨"b", "consumer", .output, []⟩] := by decide +kernel
  exact ⟨_, h, rfl, order_sorts_endpoints h⟩

/-! ## Graphs without an order -/

/-- Whether a node has an id. -/
def hasNode (g : Graph) (id : String) : Bool :=
  g.nodes.any (·.id == id)

theorem hasNode_iff {id : String} : g.hasNode id = true ↔ ∃ n ∈ g.nodes, n.id = id := by
  simp [hasNode]

/-- The ids at the ends of links, in the order of the links, and of each link
    the source before the target. -/
def ends (ls : List Link) : List String :=
  ls.flatMap fun l => [l.source.node, l.target.node]

/-- The first id at an end of a link that no node has. -/
def missing? (g : Graph) : Option String :=
  (ends g.links).find? fun id => !g.hasNode id

theorem missing?_eq_none_iff : g.missing? = none ↔ g.Closed := by
  simp only [missing?, ends, List.find?_eq_none, List.mem_flatMap, Bool.not_eq_true',
    Bool.not_eq_false, hasNode_iff]
  constructor
  · intro h l hl
    exact ⟨h _ ⟨l, hl, by simp⟩, h _ ⟨l, hl, by simp⟩⟩
  · rintro h id ⟨l, hl, hid⟩
    rcases List.mem_cons.1 hid with rfl | hid
    · exact (h l hl).1
    · rw [List.mem_singleton.1 hid]
      exact (h l hl).2

/-- A position is found for an id exactly if a node has it. -/
theorem position_cases (g : Graph) (id : String) :
    (g.hasNode id = true ∧ ∃ i, g.position id = .ok i) ∨
      (g.hasNode id = false ∧ g.position id = .error (.missingNode id)) := by
  unfold position
  cases hpos : g.position? id with
  | some i => exact Or.inl ⟨hasNode_iff.2 (exists_position?.1 ⟨i, hpos⟩), i, rfl⟩
  | none =>
    refine Or.inr ⟨?_, rfl⟩
    rw [← Bool.not_eq_true, hasNode_iff, ← exists_position?, hpos]
    simp

/-- A link is refused for its source if that is missing, and else for its
    target. -/
theorem edge_eq_error_iff {l : Link} {c : Cause} :
    g.edge l = .error c ↔
      ((ends [l]).find? fun id => !g.hasNode id).map Cause.missingNode = some c := by
  unfold edge ends
  rcases g.position_cases l.source.node with ⟨hs, i, hi⟩ | ⟨hs, hi⟩
  · rcases g.position_cases l.target.node with ⟨ht, j, hj⟩ | ⟨ht, hj⟩
    · simp [hi, hj, hs, ht]
    · simp [hi, hj, hs, ht]
  · simp [hi, hs]

/-- Links are refused for the first id that is missing at their ends. -/
theorem edgesOf_eq_error_iff {ls : List Link} {c : Cause} :
    g.edgesOf ls = .error c ↔
      ((ends ls).find? fun id => !g.hasNode id).map Cause.missingNode = some c := by
  induction ls with
  | nil => simp [edgesOf, ends]
  | cons l rest ih =>
    have hends : ends (l :: rest) = ends [l] ++ ends rest := by simp [ends]
    rw [edgesOf, hends, List.find?_append]
    cases he : g.edge l with
    | error e =>
      obtain ⟨id, hid, rfl⟩ := Option.map_eq_some_iff.1 (edge_eq_error_iff.1 he)
      simp [hid]
    | ok e =>
      have hnone : (ends [l]).find? (fun id => !g.hasNode id) = none := by
        rw [← Option.map_eq_none_iff (f := Cause.missingNode), Option.eq_none_iff_forall_ne_some]
        intro c hc
        rw [edge_eq_error_iff.2 hc] at he
        cases he
      rw [hnone, Option.none_or, ← ih]
      cases g.edgesOf rest <;> simp [Except.map]

theorem order_of_edges_eq_error {c : Cause} (h : g.edges = .error c) : g.order = .error c := by
  rw [order, h]

/-- A search that fails has found a node that feeds itself. -/
theorem order_eq_cycle {es : List Edge} (hes : g.edges = .ok es) {c : Cause}
    (h : g.order = .error c) : ∃ id, c = .cycle id ∧ Relation.TransGen g.Feeds id id := by
  have hspec := closingOrder_spec hes
  unfold order at h
  rw [hes] at h
  dsimp only at h
  cases hl : g.closingOrder es with
  | ok l => rw [hl] at h; cases h
  | error i =>
    rw [hl] at h hspec
    cases h
    exact ⟨g.idAt i, rfl, hspec.2.lift g.idAt fun _ _ => feeds_idAt hes⟩

theorem order_eq_missingNode_iff {id : String} :
    g.order = .error (.missingNode id) ↔ g.missing? = some id := by
  have hedges : g.edges = .error (.missingNode id) ↔ g.missing? = some id := by
    rw [edges, edgesOf_eq_error_iff, Option.map_eq_some_iff, missing?]
    simp
  rw [← hedges]
  constructor
  · intro h
    cases hes : g.edges with
    | error c =>
      rw [order_of_edges_eq_error hes] at h
      cases h
      rfl
    | ok es =>
      obtain ⟨_, hcycle, -⟩ := order_eq_cycle hes h
      cases hcycle
  · exact order_of_edges_eq_error

/-- **There is no order exactly if a link misses a node or a node feeds itself.**
    In the first case the first id that is missing is reported, of each link
    the source before the target; otherwise the node that is reported feeds
    itself, wherever in the graph that is. -/
theorem order_refuses_exactly (g : Graph) :
    (∀ id, g.order = .error (.missingNode id) ↔ g.missing? = some id) ∧
    ((∃ id, g.order = .error (.missingNode id)) ↔ ¬ g.Closed) ∧
    ((∃ id, g.order = .error (.cycle id)) ↔ g.Closed ∧ ∃ id, Relation.TransGen g.Feeds id id) ∧
    (∀ id, g.order = .error (.cycle id) → Relation.TransGen g.Feeds id id) ∧
    ((∃ ns, g.order = .ok ns) ↔ g.Closed ∧ ∀ id, ¬ Relation.TransGen g.Feeds id id) := by
  have hcycle : ∀ id, g.order = .error (.cycle id) →
      g.Closed ∧ Relation.TransGen g.Feeds id id := by
    intro id h
    cases hes : g.edges with
    | error c =>
      obtain ⟨_, -, rfl⟩ := Option.map_eq_some_iff.1 (edgesOf_eq_error_iff.1 hes)
      rw [order_of_edges_eq_error hes] at h
      cases h
    | ok es =>
      obtain ⟨_, hid, htrans⟩ := order_eq_cycle hes h
      cases hid
      exact ⟨edges_isOk_iff.1 ⟨es, hes⟩, htrans⟩
  refine ⟨fun id => order_eq_missingNode_iff, ?_, ⟨?_, ?_⟩, fun id h => (hcycle id h).2,
    order_isOk_iff g⟩
  · simp only [order_eq_missingNode_iff, ← missing?_eq_none_iff, Option.eq_none_iff_forall_ne_some,
      not_forall, not_not]
  · rintro ⟨id, h⟩
    exact ⟨(hcycle id h).1, id, (hcycle id h).2⟩
  · rintro ⟨hclosed, id, htrans⟩
    obtain ⟨es, hes⟩ := edges_isOk_iff.2 hclosed
    cases horder : g.order with
    | ok ns => exact absurd htrans (((order_isOk_iff g).1 ⟨ns, horder⟩).2 id)
    | error c =>
      obtain ⟨id, rfl, -⟩ := order_eq_cycle hes horder
      exact ⟨id, rfl⟩

/-- A node that feeds itself, and a link that misses both of its nodes. -/
example : (Graph.mk [⟨"a", "", .texture, []⟩]
    [⟨"1", ⟨"a", "o"⟩, ⟨"a", "i"⟩⟩, ⟨"2", ⟨"x", "o"⟩, ⟨"y", "i"⟩⟩]).order =
      .error (.missingNode "x") := by decide +kernel

end Graph

end Shading
