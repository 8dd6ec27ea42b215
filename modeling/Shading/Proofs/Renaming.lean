/-
  Other ids for the nodes of a graph.

  * `Graph.Renamed`: the same graph with a function applied to the ids of its
    nodes, wherever they stand, and with any ids for its links.
  * `Graph.Renaming`: the function takes no two ids to one, of a list that has
    all ids of the graph.  Then nodes and links are found as before
    (`node`, `incoming?`), and come in the same order (`order`).
  * `Cause.rename`, `Failure.rename`, `Shader.rename`: the ids that a failure
    names and for which a shader has slots.  A renamed dictionary is read and
    written like the old one (`Dict.Renamed`).
-/
import Mathlib.Data.List.Forall2
import Mathlib.Data.Set.Function
import Shading.Compiler
import Shading.Proofs.Order

namespace Shading

/-! ## Ids -/

/-- The end of a link at the renamed node. -/
def Endpoint.rename (f : String → String) (p : Endpoint) : Endpoint :=
  { p with node := f p.node }

/-- The node under its new id. -/
def Node.rename (f : String → String) (n : Node) : Node :=
  { n with id := f n.id }

/-- The link between renamed nodes, under any id. -/
structure Link.Renamed (f : String → String) (l l' : Link) : Prop where
  source : l'.source = l.source.rename f
  target : l'.target = l.target.rename f

/-- The graph `g'` is `g` with its nodes renamed and any ids for its links. -/
structure Graph.Renamed (f : String → String) (g g' : Graph) : Prop where
  nodes : g'.nodes = g.nodes.map (Node.rename f)
  links : List.Forall₂ (Link.Renamed f) g.links g'.links

/-- The ids of nodes that a graph mentions. -/
def Graph.ids (g : Graph) : List String :=
  g.nodes.map (·.id) ++ g.links.flatMap fun l => [l.source.node, l.target.node]

/-- The dictionary with renamed keys. -/
def Dict.rename {α : Type} (f : String → String) (d : Dict α) : Dict α :=
  ⟨d.entries.map fun e => (f e.1, e.2)⟩

/-- The operation for the renamed node. -/
def Operation.rename (f : String → String) (o : Operation) : Operation :=
  { o with node := o.node.map f }

/-- The shader with slots for renamed nodes. -/
def Shader.rename (f : String → String) (s : Shader) : Shader :=
  ⟨s.source, s.textureSlots.rename f, s.samplerSlots.rename f⟩

/-- The cause with the nodes that it names renamed. -/
def Cause.rename (f : String → String) : Cause → Cause
  | unresolvedLink pin => .unresolvedLink pin
  | missingSourceLink pin producer => .missingSourceLink pin (f producer)
  | notEmitted node => .notEmitted (f node)
  | invalidCast type => .invalidCast type
  | cycle node => .cycle (f node)
  | missingNode node => .missingNode (f node)
  | nameTaken name => .nameTaken name
  | duplicateInput node => .duplicateInput (f node)
  | voidValue node => .voidValue (f node)
  | unsupportedType node type => .unsupportedType (f node) type

/-- The stage with the node that it names renamed. -/
def Stage.rename (f : String → String) : Stage → Stage
  | declaring node => .declaring (f node)
  | findingRoot => .findingRoot
  | compiling node => .compiling (f node)
  | compilingRoot node => .compilingRoot (f node)

/-- The failure with the nodes that it names renamed. -/
def Failure.rename (f : String → String) (x : Failure) : Failure :=
  ⟨x.stages.map (Stage.rename f), x.cause.rename f⟩

/-- The values of a result are mapped apart from its failures. -/
theorem mapError_map {ε ε' α β : Type} (r : Except ε α) (φ : ε → ε') (ψ : α → β) :
    (r.mapError φ).map ψ = (r.map ψ).mapError φ := by
  cases r <;> rfl

/-! ## Dictionaries -/

section

variable {f : String → String} {ids : List String} (hf : Set.InjOn f {id | id ∈ ids})
include hf

theorem beq_rename {a b : String} (ha : a ∈ ids) (hb : b ∈ ids) : (f a == f b) = (a == b) := by
  rw [Bool.eq_iff_iff, beq_iff_eq, beq_iff_eq]
  exact ⟨fun h => hf ha hb h, congrArg f⟩

namespace Dict

variable {α : Type} {d : Dict α} (hd : ∀ key ∈ d.keys, key ∈ ids) {key : String} (hkey : key ∈ ids)
include hd hkey

theorem get?_rename : (d.rename f).get? (f key) = d.get? key := by
  obtain ⟨entries⟩ := d
  unfold get? rename
  dsimp only
  induction entries with
  | nil => rfl
  | cons e rest ih =>
    have he : e.1 ∈ ids := hd e.1 (by simp [keys])
    rw [List.map_cons, List.lookup_cons, List.lookup_cons, beq_rename hf hkey he,
      ih fun k hk => hd k (List.mem_cons_of_mem _ hk)]

theorem insert_rename (a : α) : (d.rename f).insert (f key) a = (d.insert key a).rename f := by
  obtain ⟨entries⟩ := d
  unfold insert rename
  dsimp only
  congr 1
  induction entries with
  | nil => rfl
  | cons e rest ih =>
    have hrest := ih fun k hk => hd k (List.mem_cons_of_mem _ hk)
    have hiff : f e.1 = f key ↔ e.1 = key :=
      ⟨fun h => hf (hd e.1 (by simp [keys])) hkey h, congrArg f⟩
    rw [List.map_cons, put, put]
    by_cases he : e.1 = key
    · rw [if_pos he, if_pos (hiff.2 he)]
      rfl
    · rw [if_neg he, if_neg (mt hiff.1 he), hrest]
      rfl

omit hf in
theorem mem_keys_insert (a : α) : ∀ k ∈ (d.insert key a).keys, k ∈ ids := by
  obtain ⟨entries⟩ := d
  unfold insert keys
  dsimp only
  induction entries with
  | nil => simpa [put] using hkey
  | cons e rest ih =>
    have hold : ∀ k ∈ rest.map (·.1), k ∈ ids := fun k hk => hd k (List.mem_cons_of_mem _ hk)
    have he : e.1 ∈ ids := hd e.1 (by simp [keys])
    rw [put]
    split
    · exact List.forall_mem_cons.2 ⟨he, hold⟩
    · exact List.forall_mem_cons.2 ⟨he, ih hold⟩

end Dict

end

/-- The dictionary `d'` is `d` with its keys renamed, which are among `ids`. -/
structure Dict.Renamed {α : Type} (f : String → String) (ids : List String) (d d' : Dict α) :
    Prop where
  eq : d' = d.rename f
  keys : ∀ key ∈ d.keys, key ∈ ids

namespace Dict.Renamed

variable {α : Type} {f : String → String} {ids : List String} {d d' : Dict α}

theorem empty : Dict.Renamed f ids (.empty : Dict α) .empty :=
  ⟨rfl, fun _ hkey => nomatch hkey⟩

theorem get? (h : d.Renamed f ids d') (hf : Set.InjOn f {id | id ∈ ids}) {key : String}
    (hkey : key ∈ ids) : d'.get? (f key) = d.get? key := by
  rw [h.eq, get?_rename hf h.keys hkey]

theorem insert (h : d.Renamed f ids d') (hf : Set.InjOn f {id | id ∈ ids}) {key : String}
    (hkey : key ∈ ids) (a : α) : (d.insert key a).Renamed f ids (d'.insert (f key) a) :=
  ⟨by rw [h.eq, insert_rename hf h.keys hkey], mem_keys_insert h.keys hkey a⟩

end Dict.Renamed

/-! ## Graphs -/

/-- A renaming that takes no two of the ids `ids` to one, of a graph that
    mentions no others. -/
structure Graph.Renaming (f : String → String) (ids : List String) (g g' : Graph) : Prop
    extends Graph.Renamed f g g' where
  injOn : Set.InjOn f {id | id ∈ ids}
  node_mem : ∀ n ∈ g.nodes, n.id ∈ ids
  link_mem : ∀ l ∈ g.links, l.source.node ∈ ids ∧ l.target.node ∈ ids

theorem Graph.Renamed.renaming {f : String → String} {ids : List String} {g g' : Graph}
    (h : g.Renamed f g') (hids : ∀ id ∈ g.ids, id ∈ ids) (hf : Set.InjOn f {id | id ∈ ids}) :
    g.Renaming f ids g' where
  toRenamed := h
  injOn := hf
  node_mem n hn := hids _ (List.mem_append_left _ (List.mem_map_of_mem hn))
  link_mem l hl := by
    have hmem : ∀ id ∈ [l.source.node, l.target.node], id ∈ ids := fun id hid =>
      hids _ (List.mem_append_right _ (List.mem_flatMap.2 ⟨l, hl, hid⟩))
    exact ⟨hmem _ (by simp), hmem _ (by simp)⟩

namespace Graph.Renaming

variable {f : String → String} {ids : List String} {g g' : Graph} (h : g.Renaming f ids g')
include h

theorem length : g'.nodes.length = g.nodes.length := by
  rw [h.nodes, List.length_map]

theorem getElem? (i : Nat) : g'.nodes[i]? = (g.nodes[i]?).map (Node.rename f) := by
  rw [h.nodes, List.getElem?_map]

theorem node? {id : String} (hid : id ∈ ids) :
    g'.node? (f id) = (g.node? id).map (Node.rename f) := by
  have hsame : ∀ n ∈ g.nodes, ((·.id == f id) ∘ Node.rename f) n = (n.id == id) :=
    fun n hn => beq_rename h.injOn (h.node_mem n hn) hid
  rw [Graph.node?, Graph.node?, h.nodes, List.find?_map, ← List.head?_filter, ← List.head?_filter,
    List.filter_congr hsame]

/-- **A renamed node is found under its new id.** -/
theorem node {id : String} (hid : id ∈ ids) :
    g'.node (f id) = ((g.node id).map (Node.rename f)).mapError (Cause.rename f) := by
  rw [Graph.node, Graph.node, h.node? hid]
  cases g.node? id <;> rfl

/-- **A renamed node has the links it had.** -/
theorem incoming? {id : String} (hid : id ∈ ids) (pin : String) :
    (g'.incoming? (f id) pin).map (·.source) =
      (g.incoming? id pin).map fun l => l.source.rename f := by
  have hlinks := h.links
  have hmem := h.link_mem
  unfold Graph.incoming?
  generalize g.links = ls at hlinks hmem
  generalize g'.links = ls' at hlinks
  induction hlinks with
  | nil => rfl
  | @cons l l' rest rest' hl hrest ih =>
    have htarget : (l'.target.node == f id && l'.target.pin == pin) =
        (l.target.node == id && l.target.pin == pin) := by
      rw [hl.target]
      exact congrArg (· && _) (beq_rename h.injOn (hmem l (by simp)).2 hid)
    rw [List.find?_cons, List.find?_cons, htarget]
    cases l.target.node == id && l.target.pin == pin with
    | true => exact congrArg some hl.source
    | false => exact ih fun l hl => hmem l (List.mem_cons_of_mem _ hl)

/-! ## The order -/

theorem position {a : String} (ha : a ∈ ids) :
    g'.position (f a) = (g.position a).mapError (Cause.rename f) := by
  have hsame : ∀ e ∈ g.nodes.zipIdx.reverse,
      ((fun e : Node × Nat => e.1.id == f a) ∘ Prod.map (Node.rename f) id) e =
        (e.1.id == a) := by
    intro e he
    have hmem : e.1 ∈ g.nodes :=
      (List.mem_zipIdx' (List.mem_reverse.1 he)).2 ▸ List.getElem_mem _
    exact beq_rename h.injOn (h.node_mem _ hmem) ha
  have hposition : g'.position? (f a) = g.position? a := by
    rw [position?, position?, h.nodes, List.zipIdx_map, ← List.map_reverse, List.find?_map,
      ← List.head?_filter, ← List.head?_filter, List.filter_congr hsame, Option.map_map]
    rfl
  rw [Graph.position, Graph.position, hposition]
  cases g.position? a <;> rfl

theorem edges : g'.edges = g.edges.mapError (Cause.rename f) := by
  have hlinks := h.links
  have hmem := h.link_mem
  unfold Graph.edges
  generalize g.links = ls at hlinks hmem
  generalize g'.links = ls' at hlinks
  induction hlinks with
  | nil => rfl
  | @cons l l' rest rest' hl hrest ih =>
    obtain ⟨hsource, htarget⟩ := hmem l (by simp)
    have hedge : g'.edge l' = (g.edge l).mapError (Cause.rename f) := by
      rw [edge, edge, hl.source, hl.target, Endpoint.rename, Endpoint.rename,
        h.position hsource, h.position htarget]
      cases g.position l.source.node with
      | error e => rfl
      | ok i => cases g.position l.target.node <;> rfl
    rw [edgesOf, edgesOf, hedge, ih fun l hl => hmem l (List.mem_cons_of_mem _ hl)]
    cases g.edge l with
    | error e => rfl
    | ok e => exact mapError_map _ _ _

/-- **Renamed nodes come in the same order**, and if there is none, the same node
    is found to feed itself. -/
theorem order :
    g'.order = (g.order.map (List.map (Node.rename f))).mapError (Cause.rename f) := by
  unfold Graph.order
  rw [h.edges]
  cases hes : g.edges with
  | error e => rfl
  | ok es =>
    have hclosing : g'.closingOrder es = g.closingOrder es := by
      unfold closingOrder searchSteps
      rw [h.length, h.links.length_eq]
    have hspec := closingOrder_spec hes
    dsimp only [Except.mapError]
    rw [hclosing]
    cases hclosed : g.closingOrder es with
    | error i =>
      -- the position is that of a node, or its id would not be a renamed one
      rw [hclosed] at hspec
      dsimp only [Except.map]
      rw [h.getElem?, List.getElem?_eq_getElem hspec.1]
      rfl
    | ok closed =>
      have hnodes : (fun i => g'.nodes[i]?) = fun i => (g.nodes[i]?).map (Node.rename f) :=
        funext h.getElem?
      dsimp only [Except.map]
      rw [List.map_filterMap, hnodes]

end Graph.Renaming

end Shading
