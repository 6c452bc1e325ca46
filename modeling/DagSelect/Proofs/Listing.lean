import DagSelect.Listing
import DagSelect.Proofs.Selector.Construction

/-!
# What a listing holds

A request whose kinds and arguments can be read is carried out on every manifest that has a graph.
The listing holds the members that are selected and pass the filter, in the order of their
identifiers. Its messages are those for the spec, then the notices about the tests that are left
out, as far as these pass the filter.
-/

namespace DagSelect

variable {m : Manifest} {g : Graph} {request : SelectionRequest} {filter : ResourceFilter}
variable {spec : Spec}

/-- A request that can be read is prepared with the selector over the manifest and the spec of its
arguments. -/
theorem SelectionRequest.prepare_eq (hg : m.graph = .ok g) (hfilter : request.filter = .ok filter)
    (hspec : request.arguments.parse = .ok spec) : request.prepare m =
      .ok (Selector.ofManifest m g .standard filter Selector.standardGreedyOption, spec) := by
  rw [prepare, hg, Except.ok_mapError, Except.ok_bind, hfilter, Except.ok_mapError, Except.ok_bind,
    Selector.ofGraph_eq hg, Except.ok_mapError, Except.ok_bind, hspec]
  rfl

/-- A request that can be read gives a listing of what is selected, with the notices about what is
left out. -/
theorem listing_spec (hg : m.graph = .ok g) (hfilter : request.filter = .ok filter)
    (hspec : request.arguments.parse = .ok spec) {s : Selector}
    (hs : s = Selector.ofManifest m g .standard filter Selector.standardGreedyOption) :
    ∃ listed leftOut,
      m.IsListing (fun x => x.id ∈ (s.bundle spec).direct ∧ filter.accepts x = true) listed ∧
      m.IsListing (fun x => x.id ∈ (s.selection spec).indirectOnly ∧ filter.accepts x = true)
        leftOut ∧
      listing m request = .ok ⟨listed, s.messages spec ++ (if leftOut.isEmpty then []
        else Notice.unusedTests (leftOut.map Member.name) Selector.standardGreedyOption)⟩ := by
  subst hs
  obtain ⟨selected, leftOut, hknown, hselected, hleftOut, hselect⟩ :=
    Selector.known_ofManifest.select_spec spec
  obtain ⟨listed, hlisted, hlisting⟩ := Manifest.mapM_get_sortIds (m := m) hknown
  refine ⟨listed, leftOut, hlisting.congr hselected, hleftOut, ?_⟩
  rw [listing, SelectionRequest.prepare_eq hg hfilter hspec, Except.ok_bind]
  change (do let selected ← (Selector.select _ spec).mapError SelectionError.internal; _) = _
  rw [hselect, Except.ok_mapError, Except.ok_bind, hlisted]
  rfl

/-- A request that can be read lists the members that are selected and pass the filter. -/
theorem listing_mem_iff (hg : m.graph = .ok g) (hfilter : request.filter = .ok filter)
    (hspec : request.arguments.parse = .ok spec) {s : Selector}
    (hs : s = Selector.ofManifest m g .standard filter Selector.standardGreedyOption) :
    ∃ listed, listing m request = .ok listed ∧ ∀ x, x ∈ listed.value ↔
      x ∈ m.members ∧ x.id ∈ (s.bundle spec).direct ∧ filter.accepts x = true := by
  obtain ⟨listed, leftOut, hlisted, -, hlisting⟩ := listing_spec hg hfilter hspec hs
  exact ⟨_, hlisting, hlisted.mem_iff⟩

end DagSelect
