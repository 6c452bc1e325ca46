import DagSelect.Error
import DagSelect.OrderedSet
import DagSelect.Text.KeyOrder
import DagSelect.Text.ReservedKey

/-!
# Dependency graphs

A directed graph on identifiers, with an edge from every parent to its children. Nodes and edges
keep the order in which they were first added, adding one twice changes nothing, and both ends of
an edge are nodes. Cycles and self loops are allowed. Neighbours are enumerated with index-like
identifiers first and the others in the order in which their edges were added.

Identifiers with a reserved name are the exception. An edge to one of them is only recorded where
it introduces its parent, so a part of a graph, whose nodes come before its edges, has no such
edge. The one that holds nothing is never listed as a neighbour, and an edge to it lends its parent
further names to which no edge is recorded. Among identifiers with other names the neighbours are
exactly the ends of the edges.
-/

namespace DagSelect

/-- A directed graph whose edges are pairs of a parent and a child. -/
structure Graph where
  nodes : IdSet
  edges : OrderedSet (Text × Text)
  ends_mem : ∀ e ∈ edges, e.1 ∈ nodes ∧ e.2 ∈ nodes

/-- The two ways along the edges: to the parents, or to the children. -/
inductive Direction where
  | upstream
  | downstream
  deriving DecidableEq, Repr

namespace Graph

/-- The graph without nodes. -/
def empty : Graph := ⟨.empty, .empty, fun _ h => absurd h (OrderedSet.not_mem_empty _)⟩

instance : Inhabited Graph := ⟨empty⟩

/-- The number of nodes. -/
def size (g : Graph) : Nat := g.nodes.size

/-- Whether an identifier is a node. -/
def contains (g : Graph) (id : Text) : Bool := id ∈ g.nodes

/-- Add a node, unless it is there. -/
def addNode (g : Graph) (id : Text) : Graph :=
  ⟨g.nodes.insert id, g.edges, fun e he =>
    ⟨OrderedSet.mem_insert.2 (.inl (g.ends_mem e he).1),
      OrderedSet.mem_insert.2 (.inl (g.ends_mem e he).2)⟩⟩

/-- Whether an edge counts as being there: from a node to an identifier with a reserved name, or
with one of the names that an edge to the identifier that is never listed lends to its parent. -/
def presumes (g : Graph) (e : Text × Text) : Bool :=
  g.contains e.1
    && (Text.isReserved e.2 || (e.2 ∈ Text.lentKeys && (e.1, Text.voidKey) ∈ g.edges))

/-- Add an edge, unless it counts as being there; missing ends are added first, the parent before
the child. -/
def addEdge (g : Graph) (e : Text × Text) : Graph :=
  if g.presumes e then g
  else
    ⟨(g.nodes.insert e.1).insert e.2, g.edges.insert e, fun f hf => by
      rcases OrderedSet.mem_insert.1 hf with hf | rfl
      · have := g.ends_mem f hf
        simp [this]
      · simp⟩

/-- The graph with the given nodes and edges, in order. -/
def ofEdges (nodes : List Text) (edges : List (Text × Text)) : Graph :=
  edges.foldl addEdge (nodes.foldl addNode empty)

/-- The nodes that pass a test, with the edges between them. -/
def induced (g : Graph) (keep : Text → Bool) : Graph :=
  ⟨g.nodes.filter keep, g.edges.filter (fun e => keep e.1 && keep e.2), fun e he => by
    simp only [OrderedSet.mem_filter, Bool.and_eq_true] at he ⊢
    have := g.ends_mem e he.1
    exact ⟨⟨this.1, he.2.1⟩, ⟨this.2, he.2.2⟩⟩⟩

/-- The graph as it is when its nodes are added before its edges: without the edges to identifiers
with a reserved name. -/
def settled (g : Graph) : Graph :=
  ⟨g.nodes, g.edges.filter (fun e => !Text.isReserved e.2), fun e he =>
    g.ends_mem e (OrderedSet.mem_filter.1 he).1⟩

/-- The part of the graph on the given nodes; identifiers that are no nodes do not matter. -/
def subgraph (g : Graph) (ids : List Text) : Graph :=
  let keep := OrderedSet.ofList ids
  (g.induced (fun id => id ∈ keep)).settled

/-- The graph without a node and its edges. -/
def removeNode (g : Graph) (id : Text) : Graph :=
  g.induced (fun x => x ≠ id)

/-- The other ends of the edges of an identifier in one direction, in the order of the edges. -/
def otherEnds (g : Graph) : Direction → Text → List Text
  | .upstream, id => (g.edges.toList.filter (fun e => e.2 = id)).map Prod.fst
  | .downstream, id => (g.edges.toList.filter (fun e => e.1 = id)).map Prod.snd

/-- The other ends of edges as they are listed: index-like identifiers first, and without the one
that is never listed. -/
def listed (ends : List Text) : List Text :=
  Text.indexFirst (fun x => x) (ends.filter (fun x => x ≠ Text.voidKey))

/-- The direct neighbours of an identifier in one direction. -/
def neighbours (g : Graph) (dir : Direction) (id : Text) : List Text :=
  listed (g.otherEnds dir id)

/-- The other ends upstream are those with an edge to the identifier. -/
theorem mem_otherEnds_upstream {g : Graph} {p c : Text} :
    p ∈ g.otherEnds .upstream c ↔ (p, c) ∈ g.edges := by
  simp only [otherEnds, List.mem_map, List.mem_filter, decide_eq_true_eq, OrderedSet.mem_toList]
  constructor
  · rintro ⟨⟨a, b⟩, ⟨he, rfl⟩, rfl⟩; exact he
  · intro h; exact ⟨(p, c), ⟨h, rfl⟩, rfl⟩

/-- The other ends downstream are those with an edge from the identifier. -/
theorem mem_otherEnds_downstream {g : Graph} {p c : Text} :
    c ∈ g.otherEnds .downstream p ↔ (p, c) ∈ g.edges := by
  simp only [otherEnds, List.mem_map, List.mem_filter, decide_eq_true_eq, OrderedSet.mem_toList]
  constructor
  · rintro ⟨⟨a, b⟩, ⟨he, rfl⟩, rfl⟩; exact he
  · intro h; exact ⟨(p, c), ⟨h, rfl⟩, rfl⟩

/-- The parents of an identifier are those with an edge to it, the one that is never listed
apart. -/
theorem mem_neighbours_upstream {g : Graph} {p c : Text} :
    p ∈ g.neighbours .upstream c ↔ (p, c) ∈ g.edges ∧ p ≠ Text.voidKey := by
  simp only [neighbours, listed, Text.mem_indexFirst, List.mem_filter, mem_otherEnds_upstream,
    decide_eq_true_eq]

/-- The children of an identifier are those with an edge from it, the one that is never listed
apart. -/
theorem mem_neighbours_downstream {g : Graph} {p c : Text} :
    c ∈ g.neighbours .downstream p ↔ (p, c) ∈ g.edges ∧ c ≠ Text.voidKey := by
  simp only [neighbours, listed, Text.mem_indexFirst, List.mem_filter, mem_otherEnds_downstream,
    decide_eq_true_eq]

/-- Require identifiers to be nodes; the first that is none is the error. -/
def require (g : Graph) (ids : List Text) : Except InternalError Unit :=
  match ids.find? (fun id => id ∉ g.nodes) with
  | some id => .error (.notInGraph id)
  | none => .ok ()

/-- The direct parents of a node. -/
def parents (g : Graph) (id : Text) : Except InternalError (List Text) := do
  g.require [id]
  return g.neighbours .upstream id

/-- The direct children of a node. -/
def children (g : Graph) (id : Text) : Except InternalError (List Text) := do
  g.require [id]
  return g.neighbours .downstream id

end Graph

end DagSelect
