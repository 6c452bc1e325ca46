import DagSelect.Graph.Contraction
import DagSelect.Queue
import DagSelect.Selector.Basic
import DagSelect.Selector.Notice
import DagSelect.Spec.Basic

/-!
# Evaluating specs

Every spec gives two sets: what it selects directly, and the tests that hang on it indirectly
because only some of their parents are selected. A criterion matches members, widens them along
the graph, and expands the result by the tests next to it. A combination applies its operation to
the direct sets and to the sets of everything, and then takes in the indirect tests all of whose
parents are now selected, in one pass. Warnings and notices come out in order of evaluation.

A selector that cannot be understood selects nothing and leaves a notice. An identifier that the
graph or the manifest does not know is an error, and so is a graph that cannot be contracted to what
is selected.
-/

namespace DagSelect

/-- What a spec selects, and the tests that hang on it indirectly. -/
structure Bundle where
  direct : IdSet
  indirect : IdSet

/-- What a spec selects, and the tests that only hang on it. -/
structure Selection where
  direct : IdSet
  indirectOnly : IdSet

/-- A result with the messages logged on the way to it. -/
structure Logged (α : Type) where
  value : α
  log : List LogEntry

namespace Selector

/-- The included members that a criterion matches. -/
def matching (s : Selector) (included : IdSet) (c : Criterion) :
    Except SelectorError IdSet := do
  let method ← s.registry.find c.method
  method.search s.manifest included c.value

/-- The notice about a criterion that cannot be understood. -/
def recover (s : Selector) (c : Criterion) (error : SelectorError) : LogEntry :=
  if c.method ∈ s.registry.names then ⟨.info, error.message⟩
  else Notice.unknownMethod c.method c.text s.registry.names

/-- The members that the modifiers of a criterion add to the ones it matches. -/
def widening (s : Selector) (c : Criterion) (selected : IdSet) :
    Except InternalError IdSet := do
  let ids := selected.toList
  let family ← if c.family then s.memberGraph.familyOf ids else pure .empty
  let upstream ← if c.upstream then s.memberGraph.ancestorsOf ids c.upstreamDepth else pure .empty
  let downstream ←
    if c.downstream then s.memberGraph.descendantsOf ids c.downstreamDepth else pure .empty
  return (family.union upstream).union downstream

/-- The tests next to the selected members. -/
def adjacentTests (s : Selector) (selected : IdSet) : Except InternalError (List Member) := do
  let successors ← s.memberGraph.childrenOf selected.toList
  return (successors.toList.filterMap s.manifest.findNode?).filter Member.followsParents

/-- Expand a selection by the tests next to it: directly if greedy or if all their parents are
selected, else indirectly. -/
def expand (s : Selector) (selected : IdSet) (greedy : Bool) : Except InternalError Bundle := do
  let tests ← s.adjacentTests selected
  let isDirect (t : Member) : Bool := greedy || selected.containsAll t.dependsOn
  return {
    direct := selected.insertAll ((tests.filter isDirect).map Member.id)
    indirect := .ofList ((tests.filter fun t => !isDirect t).map Member.id) }

/-- Take in one indirect node if all its parents are selected. -/
def promote (s : Selector) (selected : IdSet) (id : Text) : IdSet :=
  match s.manifest.findNode? id with
  | some node => if selected.containsAll node.dependsOn then selected.insert id else selected
  | none => selected

/-- Take in the indirect nodes all of whose parents are selected, in one pass. -/
def promoteAll (s : Selector) (direct indirect : IdSet) : IdSet :=
  indirect.toList.foldl s.promote direct

/-- Evaluate a criterion without its warning. -/
def evaluateMatches (s : Selector) (c : Criterion) : Except InternalError (Logged Bundle) := do
  match s.matching s.memberGraph.nodes c with
  | .error error => return ⟨⟨.empty, .empty⟩, [s.recover c error]⟩
  | .ok collected =>
    let neighbors ← s.widening c collected
    let bundle ← s.expand (collected.union neighbors) c.greedy
    return ⟨bundle, []⟩

/-- The warning that is due for a spec with its direct set. -/
def warning (spec : Spec) (direct : IdSet) : List LogEntry :=
  if spec.warnIfEmpty then Notice.ifEmpty spec.text direct.isEmpty else []

/-- Combine what the components of a spec select. -/
def combine (s : Selector) (operation : SetOperation) (bundles : List Bundle) : Bundle :=
  let direct := operation.combine (bundles.map Bundle.direct)
  let indirect := operation.combine (bundles.map fun b => b.direct.union b.indirect)
  ⟨s.promoteAll direct indirect, indirect⟩

mutual

/-- Evaluate a spec. -/
def evaluate (s : Selector) : Spec → Except InternalError (Logged Bundle)
  | .criterion c => do
    let result ← s.evaluateMatches c
    return ⟨result.value, result.log ++ warning (.criterion c) result.value.direct⟩
  | .combination operation components warnIfEmpty text => do
    let results ← s.evaluateAll components
    let bundle := s.combine operation results.value
    return ⟨bundle,
      results.log ++ warning (.combination operation components warnIfEmpty text) bundle.direct⟩

/-- Evaluate specs one after another. -/
def evaluateAll (s : Selector) : List Spec → Except InternalError (Logged (List Bundle))
  | [] => .ok ⟨[], []⟩
  | spec :: specs => do
    let first ← s.evaluate spec
    let rest ← s.evaluateAll specs
    return ⟨first.value :: rest.value, first.log ++ rest.log⟩

end

/-- Evaluate a spec, and leave out of the indirect set what is direct. -/
def resolve (s : Selector) (spec : Spec) : Except InternalError (Logged Selection) := do
  let result ← s.evaluate spec
  return ⟨⟨result.value.direct, result.value.indirect.diff result.value.direct⟩, result.log⟩

/-- The notices about the tests that a selection leaves out, as far as the filter accepts them. -/
def unusedNotices (s : Selector) (indirectOnly : IdSet) : Except InternalError (List LogEntry) := do
  let unused ← s.accepted indirectOnly.toList
  if unused.isEmpty then return []
  let members ← (Text.sortIds unused.toList).mapM s.manifest.get
  return Notice.unusedTests (members.map Member.name) s.greedyOption

/-- The selected members that the filter accepts. -/
def select (s : Selector) (spec : Spec) : Except InternalError (Logged IdSet) := do
  let result ← s.resolve spec
  let selected ← s.accepted result.value.direct.toList
  let notices ← s.unusedNotices result.value.indirectOnly
  return ⟨selected, result.log ++ notices⟩

/-- The queue that runs the selected members in an order that the full graph allows. -/
def queue (s : Selector) (spec : Spec) : Except SelectionError (Logged Queue) := do
  let result ← (s.select spec).mapError .internal
  let graph ← (s.fullGraph.contract result.value.toList).mapError .store
  return ⟨Queue.ofGraph graph result.value, result.log⟩

end Selector

end DagSelect
