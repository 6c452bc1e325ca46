import DagSelect.Graph.Reach
import DagSelect.Log
import DagSelect.Method.Registry

/-!
# Selectors

A selector resolves specs against a manifest and its graph. Criteria are matched and widened in
the member graph, the part of the graph on the members that take part in selections; the full
graph is kept for the order of execution. A filter decides which kinds of resource remain in the
result.
-/

namespace DagSelect

/-- Which kinds of resource remain in a result. -/
inductive ResourceFilter where
  | all
  | only (kinds : List ResourceKind)

/-- Whether a member remains. -/
def ResourceFilter.accepts : ResourceFilter → Member → Bool
  | all, _ => true
  | only kinds, member => member.resourceKind ∈ kinds

/-- Whether a member is selected along with its parents although no criterion names it: a test
is. -/
def Member.followsParents (m : Member) : Bool := m.isTest

/-- What a selection is resolved against. -/
structure Selector where
  manifest : Manifest
  fullGraph : Graph
  memberGraph : Graph
  registry : Registry
  filter : ResourceFilter
  greedyOption : String

namespace Selector

/-- The option that the notice about excluded tests refers to. -/
def standardGreedyOption : String := "--greedy"

/-- The selector over a graph, all of whose nodes have to be in the manifest. -/
def ofGraph (graph : Graph) (manifest : Manifest) (registry : Registry) (filter : ResourceFilter)
    (greedyOption : String) : Except InternalError Selector := do
  let members ← graph.nodes.toList.filterMapM fun id => do
    return if (← manifest.isSelectable id) then some id else none
  return {
    manifest := manifest
    fullGraph := graph
    memberGraph := graph.subgraph members
    registry := registry
    filter := filter
    greedyOption := greedyOption }

/-- The members whose kind passes the filter; every identifier has to be in the manifest. -/
def accepted (s : Selector) (ids : List Text) : Except InternalError IdSet := do
  let members ← ids.mapM s.manifest.get
  return .ofList ((members.filter s.filter.accepts).map Member.id)

end Selector

end DagSelect
