import DagSelect.Graph.Basic

/-!
# Contraction

The nodes that are not kept are removed one by one. Before a node goes, each of its parents is
connected to each of its children, so that whatever had to come before still does; a parent that
is also a child gets no self loop. The work starts from the graph with its nodes added before its
edges.

A node with an edge from the identifier that is never listed cannot be removed, and the attempt
fails. The edge marks the node for good, also when its other end is removed, and no edge that
connects a parent to a child marks one. So what pins a node is an edge of the graph that the work
starts from.
-/

namespace DagSelect.Graph

/-- The edges that connect the parents of a node to its children, parents first. -/
def shortcuts (g : Graph) (id : Text) : List (Text × Text) :=
  (g.neighbours .upstream id).flatMap fun p =>
    ((g.neighbours .downstream id).filter (fun c => p ≠ c)).map fun c => (p, c)

/-- Connect the parents of a node to its children, and remove the node. -/
def bypass (g : Graph) (id : Text) : Graph :=
  ((g.shortcuts id).foldl addEdge g).removeNode id

/-- Whether a node cannot be removed: there is an edge to it from the identifier that is never
listed. -/
def isPinned (g : Graph) (id : Text) : Bool :=
  (Text.voidKey, id) ∈ g.edges

/-- Bypass a node, unless it is pinned in the graph that the work started from. -/
def drop (start g : Graph) (id : Text) : Except StoreError Graph :=
  if start.isPinned id then .error .unremovable else .ok (g.bypass id)

/-- Drop every node that is not among the kept ones, in the order of the nodes. -/
def contract (g : Graph) (kept : List Text) : Except StoreError Graph :=
  let keep := OrderedSet.ofList kept
  (g.nodes.toList.filter (fun id => id ∉ keep)).foldlM g.settled.drop g.settled

end DagSelect.Graph
