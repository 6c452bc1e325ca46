import DagSelect.Proofs.Graph.OfManifest
import DagSelect.Proofs.Graph.Reach
import Mathlib.Data.List.Induction

/-!
# A graph and what its members depend on

A manifest has a graph unless some member depends on something that is no member, and then the first
such dependency is the error. The graph has the members as nodes and the dependencies as edges, both
in the order of the manifest, and an edge that comes again changes nothing. So the parents of a
member are what it depends on and its children are what depends on it, as long as the graph makes no
exception for their names.
-/

namespace DagSelect

namespace OrderedSet

variable {α : Type} [DecidableEq α] [BEq α] [LawfulBEq α]

/-- Elements that are put into the empty set one after another stand at their first positions. -/
theorem toList_foldl_insert_empty (xs : List α) :
    (xs.foldl insert empty).toList = xs.eraseDups := by
  induction xs using List.reverseRecOn with
  | nil => rfl
  | append_singleton xs a ih =>
    rw [List.foldl_concat, toList_insert, ih, List.eraseDups_append]
    by_cases ha : a ∈ xs
    · have hnone : [a].removeAll xs = [] := by simp [List.removeAll, ha]
      rw [if_pos (List.mem_eraseDups.2 ha), hnone, List.eraseDups_nil, List.append_nil]
    · have hnew : [a].removeAll xs = [a] := by simp [List.removeAll, ha]
      rw [if_neg (mt List.mem_eraseDups.1 ha), hnew]
      rfl

end OrderedSet

namespace Graph

variable {g : Graph}

/-- Edges between nodes that lead to no reserved name join the edges of a settled graph. -/
theorem IsSettled.edges_foldl_addEdge (hg : g.IsSettled) {es : List (Text × Text)}
    (hends : ∀ e ∈ es, e.1 ∈ g.nodes ∧ e.2 ∈ g.nodes)
    (hes : ∀ e ∈ es, Text.isReserved e.2 = false) :
    (es.foldl addEdge g).edges = es.foldl OrderedSet.insert g.edges := by
  induction es generalizing g with
  | nil => rfl
  | cons e es ih =>
    obtain ⟨hend, hends⟩ := List.forall_mem_cons.1 hends
    obtain ⟨hreserved, hes⟩ := List.forall_mem_cons.1 hes
    have hpresumes : g.presumes e = false := by
      rw [hg.presumes_eq, hreserved, Bool.and_false]
    have hedges : (g.addEdge e).edges = g.edges.insert e := by
      rw [addEdge, hpresumes]
      rfl
    have hsettled : (g.addEdge e).IsSettled := by
      intro f hf
      rw [hedges] at hf
      rcases OrderedSet.mem_insert.1 hf with hf | rfl
      · exact hg f hf
      · exact hreserved
    rw [List.foldl_cons, List.foldl_cons, ← hedges]
    refine ih hsettled ?_ hes
    rw [nodes_addEdge hend.1 hend.2]
    exact hends

/-- No other end of an identifier's edges comes twice. -/
theorem nodup_otherEnds (g : Graph) (dir : Direction) (id : Text) : (g.otherEnds dir id).Nodup := by
  cases dir with
  | upstream =>
    refine (g.edges.nodup.filter _).map_on fun e he f hf heq => ?_
    obtain ⟨-, he⟩ := List.mem_filter.1 he
    obtain ⟨-, hf⟩ := List.mem_filter.1 hf
    exact Prod.ext heq ((of_decide_eq_true he).trans (of_decide_eq_true hf).symm)
  | downstream =>
    refine (g.edges.nodup.filter _).map_on fun e he f hf heq => ?_
    obtain ⟨-, he⟩ := List.mem_filter.1 he
    obtain ⟨-, hf⟩ := List.mem_filter.1 hf
    exact Prod.ext ((of_decide_eq_true he).trans (of_decide_eq_true hf).symm) heq

/-- A node has parents. -/
theorem parents_eq {id : Text} (hid : id ∈ g.nodes) :
    g.parents id = .ok (g.neighbours .upstream id) := by
  rw [parents, require_eq_ok_iff.2 (by simpa using hid)]
  rfl

/-- A node has children. -/
theorem children_eq {id : Text} (hid : id ∈ g.nodes) :
    g.children id = .ok (g.neighbours .downstream id) := by
  rw [children, require_eq_ok_iff.2 (by simpa using hid)]
  rfl

/-- No neighbour is listed twice. -/
theorem nodup_neighbours (g : Graph) (dir : Direction) (id : Text) :
    (g.neighbours dir id).Nodup :=
  (Text.indexFirst_perm _ _).nodup_iff.2 ((g.nodup_otherEnds dir id).filter _)

end Graph

namespace Manifest

variable {m : Manifest} {g : Graph} {x : Member} {parent : Text} {error : ManifestError}

/-- Whether a dependency of a member is the first one on something that is no member: those of the
members before and those that stand before it are on members. -/
def FirstUnresolved (m : Manifest) (x : Member) (parent : Text) : Prop :=
  parent ∉ m.ids ∧
  (∃ before after, m.members = before ++ x :: after ∧
    ∀ y ∈ before, ∀ p ∈ y.dependsOn, p ∈ m.ids) ∧
  ∃ earlier later, x.dependsOn = earlier ++ parent :: later ∧ ∀ p ∈ earlier, p ∈ m.ids

/-- The dependency that is found to be unresolved is the first one. -/
theorem unresolved?_eq_some_iff {id : Text} : m.unresolved? = some (parent, id) ↔
    ∃ x, m.FirstUnresolved x parent ∧ x.id = id := by
  have hmember : ∀ x : Member,
      (x.dependsOn.map fun parent => (parent, x.id)).find? (fun e => e.1 ∉ m.ids) =
        (x.dependsOn.find? fun parent => parent ∉ m.ids).map fun parent => (parent, x.id) :=
    fun x => List.find?_map ..
  have hfirst : ∀ (x : Member) (parent : Text),
      (x.dependsOn.find? fun parent => parent ∉ m.ids) = some parent ↔ parent ∉ m.ids ∧
        ∃ earlier later, x.dependsOn = earlier ++ parent :: later ∧ ∀ p ∈ earlier, p ∈ m.ids := by
    intro x parent
    rw [List.find?_eq_some_iff_append]
    simp
  have hnone : ∀ x : Member, (x.dependsOn.find? fun parent => parent ∉ m.ids) = none ↔
      ∀ p ∈ x.dependsOn, p ∈ m.ids := by
    intro x
    rw [List.find?_eq_none]
    simp
  rw [unresolved?, dependencies, List.find?_flatMap, List.findSome?_eq_some_iff]
  simp only [hmember, Option.map_eq_none_iff, hnone, Option.map_eq_some_iff, hfirst, Prod.mk.injEq]
  constructor
  · rintro ⟨before, x, after, hmembers, ⟨_, ⟨hparent, hdepends⟩, rfl, rfl⟩, hbefore⟩
    exact ⟨x, ⟨hparent, ⟨before, after, hmembers, hbefore⟩, hdepends⟩, rfl⟩
  · rintro ⟨x, ⟨hparent, ⟨before, after, hmembers, hbefore⟩, hdepends⟩, rfl⟩
    exact ⟨before, x, after, hmembers, ⟨parent, ⟨hparent, hdepends⟩, rfl, rfl⟩, hbefore⟩

/-- The error is about the first dependency on something that is no member. -/
theorem graph_eq_error_iff : m.graph = .error error ↔
    ∃ x parent, m.FirstUnresolved x parent ∧ error = .unknownParent x.id parent := by
  have hgraph : m.graph = .error error ↔
      ∃ parent id, m.unresolved? = some (parent, id) ∧ error = .unknownParent id parent := by
    rw [graph]
    cases m.unresolved? with
    | none => simp
    | some e => simp [Prod.ext_iff, eq_comm]
  rw [hgraph]
  constructor
  · rintro ⟨parent, id, hunresolved, rfl⟩
    obtain ⟨x, hfirst, rfl⟩ := unresolved?_eq_some_iff.1 hunresolved
    exact ⟨x, parent, hfirst, rfl⟩
  · rintro ⟨x, parent, hfirst, rfl⟩
    exact ⟨parent, x.id, unresolved?_eq_some_iff.2 ⟨x, hfirst, rfl⟩, rfl⟩

/-- There is an error exactly if some member depends on something that is no member. -/
theorem exists_graph_error_iff : (∃ error, m.graph = .error error) ↔
    ∃ x ∈ m.members, ∃ p ∈ x.dependsOn, p ∉ m.ids := by
  constructor
  · rintro ⟨error, herror⟩
    obtain ⟨x, p, ⟨hp, ⟨before, after, hmembers, -⟩, earlier, later, hdepends, -⟩, -⟩ :=
      graph_eq_error_iff.1 herror
    exact ⟨x, by simp [hmembers], p, by simp [hdepends], hp⟩
  · rintro ⟨x, hx, p, hp, hunknown⟩
    cases h : m.graph with
    | error error => exact ⟨error, rfl⟩
    | ok g =>
      obtain ⟨hall, -⟩ := graph_eq_ok_iff.1 h
      exact absurd (hall _ (mem_dependencies.2 ⟨x, hx, rfl, hp⟩)) hunknown

/-- Whether the graph makes no exception for any dependency: none is of a member with a reserved
name, and none on the member under the name that is never listed. -/
def Plain (m : Manifest) : Prop :=
  ∀ e ∈ m.dependencies, Graph.IsPlainEdge e

/-- The edges of the graph are the dependencies, each at its first position. -/
theorem edges_graph (hg : m.graph = .ok g) (hm : m.Plain) :
    g.edges.toList = m.dependencies.eraseDups := by
  obtain ⟨hall, rfl⟩ := graph_eq_ok_iff.1 hg
  rw [Graph.ofEdges, (Graph.isSettled_foldl_addNode _).edges_foldl_addEdge
    (ends_mem_foldl_addNode hall) fun e he => (hm e he).1, Graph.edges_foldl_addNode]
  exact OrderedSet.toList_foldl_insert_empty _

/-- The neighbours of a member are what it depends on and what depends on it. -/
theorem mem_neighbours_graph (hg : m.graph = .ok g) (hm : m.Plain) {parent child : Text} :
    (parent ∈ g.neighbours .upstream child ↔ m.DependsOn child parent) ∧
      (child ∈ g.neighbours .downstream parent ↔ m.DependsOn child parent) := by
  have hedge : m.DependsOn child parent → (parent, child) ∈ g.edges ∧
      parent ≠ Text.voidKey ∧ child ≠ Text.voidKey := by
    intro h
    obtain ⟨hreserved, hparent⟩ := hm _ (mem_dependencies.2 h)
    exact ⟨(edge_graph hg).2 ⟨h, hreserved⟩, hparent, Graph.ne_voidKey_of_not_reserved hreserved⟩
  rw [Graph.mem_neighbours_upstream, Graph.mem_neighbours_downstream]
  exact ⟨⟨fun h => ((edge_graph hg).1 h.1).1, fun h => ⟨(hedge h).1, (hedge h).2.1⟩⟩,
    ⟨fun h => ((edge_graph hg).1 h.1).1, fun h => ⟨(hedge h).1, (hedge h).2.2⟩⟩⟩

/-- A manifest has no graph exactly if some member depends on something that is no member, and the
error is about the first such dependency. Otherwise the nodes are the members in order. The edges
are the dependencies, each at its first position, and the parents and children of a member are what
it depends on and what depends on it, none of them twice, if the graph makes no exception for any
dependency. -/
theorem graph_records_dependencies (m : Manifest) :
    ((∃ error, m.graph = .error error) ↔ ∃ x ∈ m.members, ∃ p ∈ x.dependsOn, p ∉ m.ids) ∧
    (∀ error, m.graph = .error error ↔
      ∃ x p, m.FirstUnresolved x p ∧ error = .unknownParent x.id p) ∧
    ∀ g, m.graph = .ok g →
      g.nodes.toList = m.members.map Member.id ∧
      (m.Plain →
        g.edges.toList = m.dependencies.eraseDups ∧
        (∀ id ∈ m.ids, ∃ parents, g.parents id = .ok parents ∧ parents.Nodup ∧
          ∀ p, p ∈ parents ↔ m.DependsOn id p) ∧
        ∀ id ∈ m.ids, ∃ children, g.children id = .ok children ∧ children.Nodup ∧
          ∀ c, c ∈ children ↔ m.DependsOn c id) := by
  refine ⟨exists_graph_error_iff, fun _ => graph_eq_error_iff, fun g hg => ?_⟩
  have hnodes : g.nodes = m.ids := nodes_graph hg
  refine ⟨by rw [hnodes]; rfl, fun hm => ⟨edges_graph hg hm, fun id hid => ?_, fun id hid => ?_⟩⟩
  · exact ⟨_, Graph.parents_eq (hnodes ▸ hid), g.nodup_neighbours .upstream id, fun p =>
      (mem_neighbours_graph hg hm).1⟩
  · exact ⟨_, Graph.children_eq (hnodes ▸ hid), g.nodup_neighbours .downstream id, fun c =>
      (mem_neighbours_graph hg hm).2⟩

end Manifest

namespace Sample

/-- Models with and without index-like identifiers, one of which names a parent twice and itself,
and two of which depend on each other. -/
def knotted : Manifest where
  members := [node .model "10" ["stock", "2", "stock", "10"], node .model "2" ["10"],
    node .model "stock" []]
  nodup := by decide

/-- Its graph has every dependency once, and the parents of `10` in the order of neighbours. -/
theorem knotted_records_dependencies : ∃ g parents, knotted.graph = .ok g ∧
    g.nodes.toList = ["10", "2", "stock"] ∧
    g.edges.toList =
      ([("stock", "10"), ("2", "10"), ("10", "10"), ("10", "2")] : List (Text × Text)) ∧
    g.parents "10" = .ok parents ∧ parents.Nodup ∧
    (∀ p, p ∈ parents ↔ knotted.DependsOn "10" p) ∧
    parents = (["2", "10", "stock"] : List Text) := by
  obtain ⟨g, hg⟩ := Except.exists_eq_ok (x := knotted.graph) (by decide +kernel)
  have hplain : knotted.Plain := by
    unfold Manifest.Plain Graph.IsPlainEdge
    decide
  obtain ⟨-, -, hgraph⟩ := Manifest.graph_records_dependencies knotted
  obtain ⟨hnodes, hrecords⟩ := hgraph g hg
  obtain ⟨hedges, hparents, -⟩ := hrecords hplain
  obtain ⟨parents, hok, hnodup, hmem⟩ := hparents "10" (by decide)
  have horder : (knotted.graph.toOption.all fun g =>
      (g.parents "10").toOption.all fun parents =>
        parents = (["2", "10", "stock"] : List Text)) = true := by
    decide +kernel
  rw [hg] at horder
  simp only [Except.toOption, Option.all_some, hok, decide_eq_true_eq] at horder
  refine ⟨g, parents, hg, hnodes.trans (by decide), hedges.trans (by decide), hok, hnodup, hmem,
    horder⟩

end Sample

end DagSelect
