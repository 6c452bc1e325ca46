import DagSelect.Graph.Basic
import DagSelect.Manifest.Basic

/-!
# The graph of a manifest

All members are nodes, disabled and empty ones included, and every dependency is an edge from the
parent to the member that names it, unless that member's identifier has a reserved name. A parent
that is not a member is an error.
-/

namespace DagSelect.Manifest

/-- The pairs of a parent and the member that depends on it, in order. -/
def dependencies (m : Manifest) : List (Text × Text) :=
  m.members.flatMap fun member => member.dependsOn.map fun parent => (parent, member.id)

/-- The first dependency on something that is not a member. -/
def unresolved? (m : Manifest) : Option (Text × Text) :=
  m.dependencies.find? (fun e => e.1 ∉ m.ids)

/-- The dependency graph of all members. -/
def graph (m : Manifest) : Except ManifestError Graph :=
  match m.unresolved? with
  | some (parent, member) => .error (.unknownParent member parent)
  | none => .ok (Graph.ofEdges m.ids.toList m.dependencies)

end DagSelect.Manifest
