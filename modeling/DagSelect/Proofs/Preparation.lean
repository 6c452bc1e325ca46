import DagSelect.Proofs.Plan
import DagSelect.Proofs.Queue.Termination

/-!
# Whether a request can be carried out

A request is prepared step by step: the graph of the manifest, the kinds of resource, the arguments.
It fails with the error of the first step that does, which for kinds is about the first name that no
kind has. A request that has been prepared does not fail any more where no member has the identifier
that is never listed: it is listed, and its plan lists members.
-/

namespace DagSelect

variable {m : Manifest} {g : Graph} {request : SelectionRequest} {filter : ResourceFilter}
variable {spec : Spec}

namespace SelectionRequest

/-- Whether a name is the first of the request that no kind of resource has. -/
def FirstUnknownKind (request : SelectionRequest) (name : String) : Prop :=
  ∃ before after, request.resourceTypes = before ++ name :: after ∧
    (∀ earlier ∈ before, ∃ kind : ResourceKind, kind.name = earlier) ∧
    ∀ kind : ResourceKind, kind.name ≠ name

/-- No kind is found for a name exactly if none has it. -/
theorem ofName?_eq_none_iff {name : String} :
    ResourceKind.ofName? name = none ↔ ∀ kind : ResourceKind, kind.name ≠ name := by
  constructor
  · rintro h kind rfl
    rw [ResourceKind.ofName?_name] at h
    contradiction
  · intro h
    rw [ResourceKind.ofName?, List.find?_eq_none]
    exact fun kind _ => by simpa using h kind

/-- Kinds of resource cannot be read exactly if no kind has one of the names, and the error is about
the first such name. -/
theorem readKinds_eq_error_iff {names : List String} {error : SelectorError} :
    readKinds names = .error error ↔ ∃ before name after, names = before ++ name :: after ∧
      (∀ earlier ∈ before, ∃ kind : ResourceKind, kind.name = earlier) ∧
      (∀ kind : ResourceKind, kind.name ≠ name) ∧ error = .unknownResourceType name := by
  have hknown : ∀ name, (∃ kind : ResourceKind, kind.name = name) ↔
      ResourceKind.ofName? name ≠ none := by
    intro name
    rw [Ne, ofName?_eq_none_iff]
    simp
  rw [← Except.verdict_eq_error_iff, readKinds, Except.verdict_mapM, Except.forM_eq_error_iff]
  simp only [Except.verdict_eq_ok_iff, Except.verdict_eq_error_iff, hknown, ← ofName?_eq_none_iff]
  refine exists_congr fun before => exists_congr fun name => exists_congr fun after =>
    and_congr_right fun _ => and_congr (forall₂_congr fun earlier _ => ?_) ?_
  · cases ResourceKind.ofName? earlier <;> simp
  · cases ResourceKind.ofName? name <;> simp [eq_comm]

/-- The filter of a request cannot be read exactly because of the first unknown kind in it. -/
theorem filter_eq_error_iff {error : SelectorError} : request.filter = .error error ↔
    ∃ name, request.FirstUnknownKind name ∧ error = .unknownResourceType name := by
  have hread : request.filter = .error error ↔ readKinds request.resourceTypes = .error error := by
    rw [filter]
    split
    · rename_i hnil
      rw [List.isEmpty_iff.1 hnil]
      exact iff_of_false nofun nofun
    · cases readKinds request.resourceTypes <;> simp [Except.map]
  rw [hread, readKinds_eq_error_iff]
  constructor
  · rintro ⟨before, name, after, hnames, hbefore, hname, rfl⟩
    exact ⟨name, ⟨before, after, hnames, hbefore, hname⟩, rfl⟩
  · rintro ⟨name, ⟨before, after, hnames, hbefore, hname⟩, rfl⟩
    exact ⟨before, name, after, hnames, hbefore, hname, rfl⟩

/-- A request on a manifest without a graph fails with the error of the graph. -/
theorem prepare_of_graph {error : ManifestError} (hg : m.graph = .error error) :
    request.prepare m = .error (.manifest error) := by
  rw [prepare, hg]
  rfl

/-- A request whose filter cannot be read fails with the error of the filter. -/
theorem prepare_of_filter {error : SelectorError} (hg : m.graph = .ok g)
    (hfilter : request.filter = .error error) : request.prepare m = .error (.selector error) := by
  rw [prepare, hg, Except.ok_mapError, Except.ok_bind, hfilter]
  rfl

/-- A request whose arguments cannot be read fails with their error. -/
theorem prepare_of_parse {error : SelectorError} (hg : m.graph = .ok g)
    (hfilter : request.filter = .ok filter) (hspec : request.arguments.parse = .error error) :
    request.prepare m = .error (.selector error) := by
  rw [prepare, hg, Except.ok_mapError, Except.ok_bind, hfilter, Except.ok_mapError, Except.ok_bind,
    Selector.ofGraph_eq hg, Except.ok_mapError, Except.ok_bind, hspec]
  rfl

end SelectionRequest

/-- A request that can be read has a plan, which lists members, if none of these has the identifier
that is never listed. -/
theorem exists_plan (hg : m.graph = .ok g) (hfilter : request.filter = .ok filter)
    (hspec : request.arguments.parse = .ok spec) (hvoid : Text.voidKey ∉ m.ids) :
    ∃ order, plan m request = .ok order ∧ ∀ id ∈ order.value, id ∈ m.ids := by
  obtain ⟨selected, -, -, hplan, -⟩ := plan_spec hg hfilter hspec rfl
  refine ⟨_, hplan fun id h => absurd h (Manifest.not_pinned hg hvoid), fun id hid => ?_⟩
  have hnode := Queue.mem_nodes_of_mem_schedule hid
  rw [Graph.nodes_contracted, OrderedSet.mem_filter, Manifest.nodes_graph hg] at hnode
  exact hnode.1

end DagSelect
