import DagSelect.Proofs.Graph.Contraction
import DagSelect.Proofs.Graph.OfManifest
import DagSelect.Proofs.Selector.Everything

/-!
# The selector over a manifest

There is a selector over every graph whose nodes are members, so there is one over the graph of
every manifest that has one. Its member graph has the nodes of selectable members and, where the
graph lists every dependency, the dependencies between them as edges. All it selects are members, so
it selects by every spec. A queue for what is selected fails only where the contraction does.
-/

namespace DagSelect.Selector

variable {m : Manifest} {g : Graph} {registry : Registry} {filter : ResourceFilter}
variable {greedyOption : String} {s : Selector} {id p c : Text}

/-- The selector over the graph of a manifest. -/
def ofManifest (m : Manifest) (g : Graph) (registry : Registry) (filter : ResourceFilter)
    (greedyOption : String) : Selector :=
  { manifest := m
    fullGraph := g
    memberGraph := g.subgraph ((m.members.filter Member.isSelectable).map Member.id)
    registry := registry
    filter := filter
    greedyOption := greedyOption }

/-- The identifiers of selectable members, among some that have to be known. -/
theorem filterMapM_isSelectable {ids : List Text} (h : ∀ id ∈ ids, id ∈ m.ids) :
    (ids.filterMapM fun id => do
      return if (← m.isSelectable id) then some id else none : Except InternalError _) =
      .ok (ids.filter fun id => (m.find? id).any Member.isSelectable) := by
  rw [← List.filterMap_eq_filter]
  refine Except.filterMapM_eq_ok_filterMap fun id hid => ?_
  obtain ⟨x, hx, rfl⟩ := Manifest.mem_ids.1 (h id hid)
  have hfind : m.find? x.id = some x := Manifest.find?_eq_some_iff.2 ⟨hx, rfl⟩
  have hget : m.get x.id = .ok x := Manifest.get_eq_ok_iff.2 ⟨hx, rfl⟩
  simp only [Manifest.isSelectable, Option.guard, hget, hfind]
  rfl

/-- A selector can be made over every graph whose nodes are members. -/
theorem ofGraph_eq_ok (h : ∀ id ∈ g.nodes, id ∈ m.ids) (registry : Registry)
    (filter : ResourceFilter) (greedyOption : String) :
    ofGraph g m registry filter greedyOption =
      .ok (ofManifest m g registry filter greedyOption) := by
  have hids : g.subgraph (g.nodes.toList.filter fun id => (m.find? id).any Member.isSelectable) =
      g.subgraph ((m.members.filter Member.isSelectable).map Member.id) := by
    refine Graph.subgraph_congr fun id hid => ?_
    obtain ⟨x, hx, rfl⟩ := Manifest.mem_ids.1 (h id hid)
    have hfind : m.find? x.id = some x := Manifest.find?_eq_some_iff.2 ⟨hx, rfl⟩
    simp only [List.mem_filter, List.mem_map, OrderedSet.mem_toList, hid, true_and, hfind,
      Option.any_some]
    constructor
    · exact fun hselectable => ⟨x, ⟨hx, hselectable⟩, rfl⟩
    · rintro ⟨y, ⟨hy, hselectable⟩, heq⟩
      exact Manifest.eq_of_id_eq hy hx heq ▸ hselectable
  rw [ofGraph, filterMapM_isSelectable h, Except.ok_bind, hids]
  rfl

/-- A selector can be made over the graph of a manifest. -/
theorem ofGraph_eq (hg : m.graph = .ok g) (registry : Registry) (filter : ResourceFilter)
    (greedyOption : String) :
    ofGraph g m registry filter greedyOption =
      .ok (ofManifest m g registry filter greedyOption) :=
  ofGraph_eq_ok (fun _ hid => Manifest.nodes_graph hg ▸ hid) registry filter greedyOption

/-- The member graph has the nodes that belong to selectable members. -/
theorem mem_nodes_memberGraph :
    id ∈ (ofManifest m g registry filter greedyOption).memberGraph.nodes ↔
      id ∈ g.nodes ∧ ∃ x ∈ m.members, x.id = id ∧ x.isSelectable = true := by
  rw [ofManifest, Graph.mem_nodes_subgraph, List.mem_map]
  refine and_congr_right fun _ => exists_congr fun x => ?_
  rw [List.mem_filter, and_assoc]
  exact and_congr_right fun _ => and_comm

/-- The member graph of a manifest has the selectable members as nodes. -/
theorem mem_nodes_ofManifest (hg : m.graph = .ok g) :
    id ∈ (ofManifest m g registry filter greedyOption).memberGraph.nodes ↔
      ∃ x ∈ m.members, x.id = id ∧ x.isSelectable = true := by
  rw [mem_nodes_memberGraph, Manifest.nodes_graph hg]
  refine and_iff_right_of_imp ?_
  rintro ⟨x, hx, rfl, -⟩
  exact Manifest.mem_ids.2 ⟨x, hx, rfl⟩

/-- The member graph of a manifest is plain, if the graph lists every dependency. -/
theorem plain_memberGraph (hg : m.graph = .ok g) (hlists : g.Lists m.dependencies) :
    (ofManifest m g registry filter greedyOption).memberGraph.Plain := by
  have hplain : g.Plain := Manifest.plain_of_lists hg hlists
  exact hplain.of_edge fun _ _ h => (hplain.edge_subgraph.1 h).1

/-- In the member graph of a manifest the edges are the dependencies between selectable members, if
the graph lists every dependency. -/
theorem edge_memberGraph (hg : m.graph = .ok g) (hlists : g.Lists m.dependencies) :
    (ofManifest m g registry filter greedyOption).memberGraph.Edge p c ↔
      m.DependsOn c p ∧ p ∈ (ofManifest m g registry filter greedyOption).memberGraph.nodes ∧
        c ∈ (ofManifest m g registry filter greedyOption).memberGraph.nodes := by
  rw [← Manifest.edge_iff_dependsOn hg hlists]
  exact (Manifest.plain_of_lists hg hlists).edge_subgraph

/-- In the member graph of a manifest, the children of a selectable member are the selectable
members that depend on it, if the graph lists every dependency. -/
theorem mem_children_ofManifest (hg : m.graph = .ok g) (hlists : g.Lists m.dependencies) :
    c ∈ (ofManifest m g registry filter greedyOption).memberGraph.neighbours .downstream p ↔
      m.DependsOn c p ∧ p ∈ (ofManifest m g registry filter greedyOption).memberGraph.nodes ∧
        c ∈ (ofManifest m g registry filter greedyOption).memberGraph.nodes := by
  rw [(plain_memberGraph hg hlists).mem_children, edge_memberGraph hg hlists]

/-- Whether all nodes of the member graph are members of the manifest. -/
def Known (s : Selector) : Prop :=
  ∀ id ∈ s.memberGraph.nodes, id ∈ s.manifest.ids

/-- The selector over a manifest knows all nodes of its member graph. -/
theorem known_ofManifest : (ofManifest m g registry filter greedyOption).Known := by
  intro id hid
  obtain ⟨-, x, hx, rfl, -⟩ := mem_nodes_memberGraph.1 hid
  exact Manifest.mem_ids.2 ⟨x, hx, rfl⟩

/-- Everything of a spec is among the members. -/
theorem Known.mem_ids_of_mem_everything (hs : s.Known) {spec : Spec}
    (h : id ∈ (s.bundle spec).everything) : id ∈ s.manifest.ids :=
  hs id (mem_nodes_of_mem_everything h)

/-- Of known identifiers those are accepted whose member passes the filter. -/
theorem accepted_spec {ids : List Text} (h : ∀ id ∈ ids, id ∈ s.manifest.ids) :
    ∃ accepted, s.accepted ids = .ok accepted ∧ (∀ id ∈ accepted, id ∈ s.manifest.ids) ∧
      ∀ x ∈ s.manifest.members, x.id ∈ accepted ↔ x.id ∈ ids ∧ s.filter.accepts x = true := by
  obtain ⟨members, hmembers, -, hmem⟩ := Manifest.mapM_get h
  have haccepted : ∀ id, id ∈ OrderedSet.ofList ((members.filter s.filter.accepts).map Member.id) ↔
      ∃ x, (x ∈ s.manifest.members ∧ x.id ∈ ids) ∧ s.filter.accepts x = true ∧ x.id = id := by
    intro id
    simp only [OrderedSet.mem_ofList, List.mem_map, List.mem_filter, hmem, and_assoc]
  refine ⟨_, by rw [accepted, hmembers]; rfl, fun id hid => ?_, fun x hx => ?_⟩
  · obtain ⟨x, ⟨hx, -⟩, -, rfl⟩ := (haccepted id).1 hid
    exact Manifest.mem_ids.2 ⟨x, hx, rfl⟩
  · rw [haccepted]
    constructor
    · rintro ⟨y, ⟨hy, hid⟩, haccepts, heq⟩
      obtain rfl := Manifest.eq_of_id_eq hy hx heq
      exact ⟨hid, haccepts⟩
    · rintro ⟨hid, haccepts⟩
      exact ⟨x, ⟨hx, hid⟩, haccepts, rfl⟩

/-- The notices about known tests that are left out name those that the filter accepts, in the order
of their identifiers. -/
theorem unusedNotices_spec {ids : IdSet} (h : ∀ id ∈ ids, id ∈ s.manifest.ids) :
    ∃ leftOut,
      s.manifest.IsListing (fun x => x.id ∈ ids ∧ s.filter.accepts x = true) leftOut ∧
      s.unusedNotices ids = .ok (if leftOut.isEmpty then []
        else Notice.unusedTests (leftOut.map Member.name) s.greedyOption) := by
  obtain ⟨accepted, haccepted, hknown, hmem⟩ := accepted_spec h
  obtain ⟨leftOut, hleftOut, hlisting⟩ := Manifest.mapM_get_sortIds hknown
  refine ⟨leftOut, hlisting.congr hmem, ?_⟩
  rw [unusedNotices, haccepted, Except.ok_bind]
  by_cases hempty : accepted.isEmpty = true
  · have hnone : leftOut = [] := by
      refine List.eq_nil_iff_forall_not_mem.2 fun x hx => ?_
      have hid : x.id ∈ accepted.toList := ((hlisting.mem_iff x).1 hx).2
      rw [List.isEmpty_iff.1 hempty] at hid
      contradiction
    rw [if_pos hempty, hnone]
    rfl
  · obtain ⟨id, hid⟩ := List.exists_mem_of_ne_nil _ (mt List.isEmpty_iff.2 hempty)
    obtain ⟨x, hx, rfl⟩ := Manifest.mem_ids.1 (hknown id hid)
    have hsome : leftOut.isEmpty = false := by
      rw [List.isEmpty_eq_false_iff]
      exact List.ne_nil_of_mem ((hlisting.mem_iff x).2 ⟨hx, hid⟩)
    rw [if_neg hempty, hleftOut, hsome]
    rfl

/-- A spec selects what is direct and passes the filter, and the notices about tests that are left
out follow the messages for the spec. -/
theorem Known.select_spec (hs : s.Known) (spec : Spec) :
    ∃ (selected : IdSet) (leftOut : List Member),
      (∀ id ∈ selected, id ∈ s.manifest.ids) ∧
      (∀ x ∈ s.manifest.members,
        (x.id ∈ selected ↔ x.id ∈ (s.bundle spec).direct ∧ s.filter.accepts x = true)) ∧
      s.manifest.IsListing
        (fun x => x.id ∈ (s.selection spec).indirectOnly ∧ s.filter.accepts x = true) leftOut ∧
      s.select spec = .ok ⟨selected, s.messages spec ++ (if leftOut.isEmpty then []
        else Notice.unusedTests (leftOut.map Member.name) s.greedyOption)⟩ := by
  have hdirect : ∀ id ∈ (s.bundle spec).direct.toList, id ∈ s.manifest.ids := fun id hid =>
    hs.mem_ids_of_mem_everything (Bundle.mem_everything_of_mem_direct hid)
  have hindirect : ∀ id ∈ (s.selection spec).indirectOnly, id ∈ s.manifest.ids := by
    intro id hid
    have hmem : id ∈ (s.bundle spec).indirect := (OrderedSet.mem_diff.1 hid).1
    exact hs.mem_ids_of_mem_everything (OrderedSet.mem_union.2 (.inr hmem))
  obtain ⟨selected, hselected, hknown, hmem⟩ := accepted_spec hdirect
  obtain ⟨leftOut, hleftOut, hnotices⟩ := unusedNotices_spec hindirect
  refine ⟨selected, leftOut, hknown, hmem, hleftOut, ?_⟩
  rw [select, resolve_eq, Except.ok_bind]
  change (do let selected ← s.accepted (s.bundle spec).direct.toList; _) = _
  rw [hselected, Except.ok_bind, hnotices]
  rfl

/-- The queue for what is selected is over the full graph contracted to it, if all pinned nodes are
selected. -/
theorem queue_eq_ok {spec : Spec} {selected : Logged IdSet} (h : s.select spec = .ok selected)
    (hkept : ∀ id, s.fullGraph.Pinned id → id ∈ selected.value) :
    s.queue spec =
      .ok ⟨Queue.ofGraph (s.fullGraph.contracted selected.value.toList) selected.value,
        selected.log⟩ := by
  rw [queue, h, Except.ok_mapError, Except.ok_bind, Graph.contract_eq_ok hkept]
  rfl

/-- There is no queue for what is selected if some pinned node is not. -/
theorem queue_eq_error {spec : Spec} {selected : Logged IdSet} (h : s.select spec = .ok selected)
    (hpinned : s.fullGraph.Pinned id) (hid : id ∉ selected.value) :
    s.queue spec = .error (.store .unremovable) := by
  rw [queue, h, Except.ok_mapError, Except.ok_bind, Graph.contract_eq_error hpinned hid]
  rfl

end DagSelect.Selector
