/-
  An order of the linked nodes in which producers come before their consumers.

  Links are read as edges between positions in the list of nodes; where several
  nodes have the same id, an endpoint means the last of them.  The order is the
  one in which a depth first search closes the nodes that starts from each node
  in turn and looks at the producers of a node in the order of its links.  The
  search keeps the open nodes in a list and so works one step at a time.
-/
import Shading.Graph.Basic

namespace Shading

/-- A link between positions of nodes. -/
structure Edge where
  source : Nat
  target : Nat
  deriving DecidableEq, Repr

namespace Graph

/-- The position of the last node with an id. -/
def position? (g : Graph) (id : String) : Option Nat :=
  (g.nodes.zipIdx.reverse.find? (·.1.id == id)).map (·.2)

/-- The position of the last node with an id; there has to be one. -/
def position (g : Graph) (id : String) : Except Cause Nat :=
  match g.position? id with
  | some i => .ok i
  | none => .error (.missingNode id)

/-- A link as an edge. -/
def edge (g : Graph) (l : Link) : Except Cause Edge :=
  match g.position l.source.node with
  | .error e => .error e
  | .ok source =>
    match g.position l.target.node with
    | .error e => .error e
    | .ok target => .ok ⟨source, target⟩

/-- Links as edges, up to the first that misses a node. -/
def edgesOf (g : Graph) : List Link → Except Cause (List Edge)
  | [] => .ok []
  | l :: rest =>
    match g.edge l with
    | .error e => .error e
    | .ok e => (edgesOf g rest).map (e :: ·)

/-- All links as edges. -/
def edges (g : Graph) : Except Cause (List Edge) :=
  g.edgesOf g.links

end Graph

/-- The positions that feed position `i`, in the order of the edges. -/
def producers (edges : List Edge) (i : Nat) : List Nat :=
  (edges.filter (·.target == i)).map (·.source)

/-- Whether an edge begins or ends at position `i`. -/
def touched (edges : List Edge) (i : Nat) : Bool :=
  edges.any fun e => e.source == i || e.target == i

/-- A depth first search on its way. -/
structure Search where
  /-- Positions from which the search has yet to start. -/
  starts : List Nat
  /-- Open positions, innermost first, each with the producers that it has yet
      to look at. -/
  stack : List (Nat × List Nat)
  /-- Closed positions, last closed first. -/
  done : List Nat
  deriving DecidableEq, Repr

namespace Search

/-- A search that starts from each of `count` positions in turn. -/
def start (count : Nat) : Search :=
  ⟨List.range count, [], []⟩

/-- What a step of a search comes to. -/
inductive Progress where
  | further (s : Search)
  /-- The open position `i` feeds itself. -/
  | cycle (i : Nat)
  | finished
  deriving DecidableEq, Repr

/-- One step: look at the next producer of the innermost open position, or
    close that position, or start anew. -/
def step (producers : Nat → List Nat) (s : Search) : Progress :=
  match s.stack with
  | (i, p :: rest) :: below =>
    if s.done.contains p then .further { s with stack := (i, rest) :: below }
    else if (s.stack.map (·.1)).contains p then .cycle p
    else .further { s with stack := (p, producers p) :: (i, rest) :: below }
  | (i, []) :: below => .further { s with stack := below, done := i :: s.done }
  | [] =>
    match s.starts with
    | [] => .finished
    | i :: rest =>
      if s.done.contains i then .further { s with starts := rest }
      else .further { s with starts := rest, stack := [(i, producers i)] }

/-- The closed positions in the order in which they were closed after at most
    `fuel` steps, or a position that feeds itself. -/
def run (producers : Nat → List Nat) : (fuel : Nat) → Search → Except Nat (List Nat)
  | 0, s => .ok s.done.reverse
  | fuel + 1, s =>
    match s.step producers with
    | .further s => run producers fuel s
    | .cycle i => .error i
    | .finished => .ok s.done.reverse

end Search

namespace Graph

/-- A search over the nodes takes at most this many steps: each node is started
    from and closed at most once, and each edge is looked at at most once. -/
def searchSteps (g : Graph) : Nat :=
  2 * g.nodes.length + g.links.length + 1

/-- All positions in the order of the search, or a position that feeds
    itself. -/
def closingOrder (g : Graph) (edges : List Edge) : Except Nat (List Nat) :=
  (Search.start g.nodes.length).run (producers edges) g.searchSteps

/-- The linked nodes, producers before their consumers. -/
def order (g : Graph) : Except Cause (List Node) :=
  match g.edges with
  | .error e => .error e
  | .ok edges =>
    match g.closingOrder edges with
    | .error i => .error (.cycle ((g.nodes[i]?.map (·.id)).getD ""))
    | .ok closed => .ok ((closed.filter (touched edges)).filterMap (g.nodes[·]?))

end Graph

end Shading
