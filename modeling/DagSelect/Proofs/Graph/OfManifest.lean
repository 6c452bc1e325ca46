import DagSelect.Graph.OfManifest
import DagSelect.Proofs.Graph.Plain
import DagSelect.Proofs.Manifest.Lookup
import Mathlib.Logic.Relation

/-!
# What the graph of a manifest records

The nodes are the members, and the edges are the dependencies on members other than those that
depend under a reserved name. Where every dependency is recorded and listed at both ends, the graph
is plain and its edges are exactly the dependencies. A member that depends on the identifier that is
never listed is pinned.
-/

namespace DagSelect

namespace Manifest

/-- The relation of a member to the parents that it names. -/
def DependsOn (m : Manifest) (child parent : Text) : Prop :=
  ∃ x ∈ m.members, x.id = child ∧ parent ∈ x.dependsOn

/-- The pairs of a manifest are its dependencies. -/
theorem mem_dependencies {m : Manifest} {parent child : Text} :
    (parent, child) ∈ m.dependencies ↔ m.DependsOn child parent := by
  simp only [dependencies, List.mem_flatMap, List.mem_map, Prod.mk.injEq, DependsOn]
  constructor
  · rintro ⟨x, hx, q, hq, rfl, rfl⟩
    exact ⟨x, hx, rfl, hq⟩
  · rintro ⟨x, hx, rfl, hp⟩
    exact ⟨x, hx, parent, hp, rfl, rfl⟩

/-- The graph exists exactly if every dependency is on a member. -/
theorem graph_eq_ok_iff {m : Manifest} {g : Graph} :
    m.graph = .ok g ↔
      (∀ e ∈ m.dependencies, e.1 ∈ m.ids) ∧ g = Graph.ofEdges m.ids.toList m.dependencies := by
  rw [graph, unresolved?]
  cases h : m.dependencies.find? (fun e => e.1 ∉ m.ids) with
  | some e =>
    have he : e.1 ∉ m.ids := by simpa using List.find?_some h
    simp only [reduceCtorEq, false_iff, not_and]
    exact fun hall => absurd (hall e (List.mem_of_find?_eq_some h)) he
  | none =>
    have hall : ∀ e ∈ m.dependencies, e.1 ∈ m.ids := by simpa using List.find?_eq_none.1 h
    simp only [Except.ok.injEq]
    exact ⟨fun hg => ⟨hall, hg.symm⟩, fun hg => hg.2.symm⟩

end Manifest

namespace Graph

/-- Nodes that are added to a graph join its nodes. -/
theorem nodes_foldl_addNode (g : Graph) (ids : List Text) :
    (ids.foldl addNode g).nodes = g.nodes.insertAll ids := by
  rw [OrderedSet.insertAll_eq_foldl]
  induction ids generalizing g with
  | nil => rfl
  | cons id ids ih => exact ih (g.addNode id)

/-- Nodes that are added to a graph bring no edges. -/
theorem edges_foldl_addNode (g : Graph) (ids : List Text) :
    (ids.foldl addNode g).edges = g.edges := by
  induction ids generalizing g with
  | nil => rfl
  | cons id ids ih => exact ih (g.addNode id)

/-- A graph without edges is settled. -/
theorem isSettled_foldl_addNode (ids : List Text) : (ids.foldl addNode empty).IsSettled := by
  intro e he
  rw [edges_foldl_addNode] at he
  exact absurd he (OrderedSet.not_mem_empty e)

end Graph

namespace Manifest

variable {m : Manifest} {g : Graph}

/-- The members are the nodes before the dependencies are added. -/
theorem nodes_foldl_addNode_ids (m : Manifest) :
    (m.ids.toList.foldl Graph.addNode Graph.empty).nodes = m.ids := by
  rw [Graph.nodes_foldl_addNode, ← OrderedSet.toList_inj]
  exact OrderedSet.toList_ofList_of_nodup m.ids.nodup

/-- If every dependency is on a member, both ends of each are nodes before the dependencies are
added. -/
theorem ends_mem_foldl_addNode (hall : ∀ e ∈ m.dependencies, e.1 ∈ m.ids) :
    ∀ e ∈ m.dependencies,
      e.1 ∈ (m.ids.toList.foldl Graph.addNode Graph.empty).nodes ∧
        e.2 ∈ (m.ids.toList.foldl Graph.addNode Graph.empty).nodes := by
  rintro ⟨parent, child⟩ he
  obtain ⟨x, hx, hchild, -⟩ := mem_dependencies.1 he
  rw [nodes_foldl_addNode_ids]
  exact ⟨hall _ he, mem_ids.2 ⟨x, hx, hchild⟩⟩

/-- The nodes of the graph are the members. -/
theorem nodes_graph (hg : m.graph = .ok g) : g.nodes = m.ids := by
  obtain ⟨hall, rfl⟩ := graph_eq_ok_iff.1 hg
  rw [Graph.ofEdges, Graph.nodes_foldl_addEdge (ends_mem_foldl_addNode hall),
    nodes_foldl_addNode_ids]

/-- The edges of the graph are the dependencies of members without a reserved name. -/
theorem edge_graph (hg : m.graph = .ok g) {parent child : Text} :
    g.Edge parent child ↔ m.DependsOn child parent ∧ Text.isReserved child = false := by
  obtain ⟨hall, rfl⟩ := graph_eq_ok_iff.1 hg
  rw [Graph.Edge, Graph.ofEdges,
    (Graph.isSettled_foldl_addNode _).mem_foldl_addEdge (ends_mem_foldl_addNode hall),
    Graph.edges_foldl_addNode, mem_dependencies]
  exact or_iff_right (OrderedSet.not_mem_empty _)

/-- Whether a member depends on the identifier that is never listed and has no reserved name itself,
so that its node cannot be removed. -/
def Pinned (m : Manifest) (id : Text) : Prop :=
  m.DependsOn id Text.voidKey ∧ Text.isReserved id = false

/-- The graph of a manifest pins the nodes of pinned members. -/
theorem pinned_iff (hg : m.graph = .ok g) {id : Text} : g.Pinned id ↔ m.Pinned id := by
  rw [Graph.Pinned, edge_graph hg, Pinned, and_assoc, and_self]

/-- If the identifier that is never listed is no member, no member is pinned. -/
theorem not_pinned (hg : m.graph = .ok g) (hvoid : Text.voidKey ∉ m.ids) {id : Text} :
    ¬ m.Pinned id :=
  fun h => hvoid ((graph_eq_ok_iff.1 hg).1 _ (mem_dependencies.2 h.1))

/-- A graph that lists every dependency is plain. -/
theorem plain_of_lists (hg : m.graph = .ok g) (hlists : g.Lists m.dependencies) : g.Plain := by
  rintro ⟨parent, child⟩ he
  obtain ⟨hdep, hreserved⟩ := (edge_graph hg).1 he
  have hparent := (hlists _ (mem_dependencies.2 hdep)).1
  exact ⟨hreserved, (Graph.mem_neighbours_upstream.1 hparent).2⟩

/-- The edges of a graph that lists every dependency are the dependencies. -/
theorem edge_iff_dependsOn (hg : m.graph = .ok g) (hlists : g.Lists m.dependencies)
    {parent child : Text} : g.Edge parent child ↔ m.DependsOn child parent := by
  constructor
  · exact fun h => ((edge_graph hg).1 h).1
  · exact fun h => (Graph.mem_neighbours_upstream.1 (hlists _ (mem_dependencies.2 h)).1).1

/-- In a graph that lists every dependency, a member is reached from another exactly if it depends
on it transitively. -/
theorem transGen_edge_iff (hg : m.graph = .ok g) (hlists : g.Lists m.dependencies)
    {parent child : Text} :
    Relation.TransGen g.Edge parent child ↔ Relation.TransGen m.DependsOn child parent := by
  have hedge : g.Edge = Function.swap m.DependsOn := by
    funext parent child
    exact propext (edge_iff_dependsOn hg hlists)
  rw [hedge, Relation.transGen_swap]

end Manifest

namespace Sample

/-- A node of the given kind that is enabled, not empty, and named like its identifier. -/
def node (kind : NodeKind) (id : Text) (dependsOn : List Text) : Member :=
  { id := id
    name := id
    package := "shop"
    qualifiedName := ["shop", id]
    path := ""
    tags := []
    enabled := true
    dependsOn := dependsOn
    role := .node kind false }

/-- Three models, of which one depends on the others and one on itself, with a test of one model, a
test of two models and a test of a test. -/
def manifest : Manifest where
  members := [node .model "orders" [], node .model "stock" ["stock"],
    node .model "report" ["orders", "stock"], node .test "unique" ["orders"],
    node .test "match" ["orders", "stock"], node .test "audit" ["match"]]
  nodup := by decide

/-- The graph of the manifest. -/
def graph : Graph := .ofEdges manifest.ids.toList manifest.dependencies

/-- The manifest has its graph. -/
theorem graph_eq : manifest.graph = .ok graph :=
  Manifest.graph_eq_ok_iff.2 ⟨by decide, rfl⟩

/-- The graph lists every dependency of the manifest. -/
theorem lists : graph.Lists manifest.dependencies := by
  unfold Graph.Lists
  decide +kernel

/-- The graph lists its edges. -/
theorem lists_edges : graph.Lists graph.edges.toList :=
  (Manifest.plain_of_lists graph_eq lists).lists

end Sample

end DagSelect
