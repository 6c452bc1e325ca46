import DagSelect.Graph.OfManifest
import DagSelect.Json.Printer
import DagSelect.Selector.Evaluation
import DagSelect.Spec.Arguments

/-!
# Listings and plans

A listing holds the selected members in the order of their identifiers; a plan holds their
identifiers in the order in which they can be run. Both answer the same request. What can fail
fails in a fixed order: the graph of the manifest, the kinds of resource, the selection arguments.
A plan can also fail after these, where the graph cannot be contracted.
-/

namespace DagSelect

/-- What to list or to run. No kinds of resource stand for all of them. -/
structure SelectionRequest where
  arguments : SelectionArguments
  resourceTypes : List String

namespace SelectionRequest

/-- The kinds of resource with the given written names. -/
def readKinds (names : List String) : Except SelectorError (List ResourceKind) :=
  names.mapM fun name =>
    match ResourceKind.ofName? name with
    | some kind => .ok kind
    | none => .error (.unknownResourceType name)

/-- The filter that the request asks for. -/
def filter (request : SelectionRequest) : Except SelectorError ResourceFilter :=
  if request.resourceTypes.isEmpty then .ok .all
  else (readKinds request.resourceTypes).map .only

/-- The selector and the spec that the request asks for. -/
def prepare (request : SelectionRequest) (manifest : Manifest) :
    Except SelectionError (Selector × Spec) := do
  let graph ← manifest.graph.mapError .manifest
  let filter ← request.filter.mapError .selector
  let selector ←
    (Selector.ofGraph graph manifest .standard filter Selector.standardGreedyOption).mapError
      .internal
  let spec ← request.arguments.parse.mapError .selector
  return (selector, spec)

end SelectionRequest

/-- The selected members in the order of their identifiers. -/
def listing (manifest : Manifest) (request : SelectionRequest) :
    Except SelectionError (Logged (List Member)) := do
  let (selector, spec) ← request.prepare manifest
  let selected ← (selector.select spec).mapError .internal
  let members ← ((Text.sortIds selected.value.toList).mapM manifest.get).mapError .internal
  return ⟨members, selected.log⟩

/-- The identifiers of the selected members in the order in which they can be run. -/
def plan (manifest : Manifest) (request : SelectionRequest) :
    Except SelectionError (Logged (List Text)) := do
  let (selector, spec) ← request.prepare manifest
  let queue ← selector.queue spec
  return ⟨queue.value.schedule, queue.log⟩

/-- How a listing is written. -/
inductive ListingFormat where
  | text
  | json
  deriving DecidableEq, Repr

namespace ListingFormat

/-- The format's written name. -/
def name : ListingFormat → String
  | text => "text"
  | json => "json"

/-- The format with a written name. -/
def ofName? (name : String) : Option ListingFormat :=
  [text, json].find? (fun f => f.name = name)

/-- A format is found by its written name. -/
theorem ofName?_name (f : ListingFormat) : ofName? f.name = some f := by
  cases f <;> decide

end ListingFormat

/-- What a listing tells about a member. -/
def Member.summary (m : Member) : Json :=
  .object [("uniqueId", .string m.id), ("name", .string m.name),
    ("resourceType", .string m.resourceKind.name)]

/-- A listing as text: one identifier per line, or the summaries as JSON. -/
def formatListing (members : List Member) : ListingFormat → Text
  | .text => .join "\n" (members.map Member.id)
  | .json => (Json.array (members.map Member.summary)).pretty

end DagSelect
