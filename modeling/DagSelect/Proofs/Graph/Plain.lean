import DagSelect.Graph.Basic
import Mathlib.Logic.Function.Defs

/-!
# Settled and plain graphs

A graph is settled if no edge leads to an identifier with a reserved name, as it is when its nodes
are added before its edges. Such a graph records every further edge between its nodes of this kind.
It is plain if, besides, no edge leaves the identifier that is never listed. A plain graph lists
both ends of every edge as neighbours, and it pins no node. Removing nodes keeps a graph settled or
plain.
-/

namespace DagSelect.Graph

/-- The relation of a parent to a child. -/
def Edge (g : Graph) (parent child : Text) : Prop :=
  (parent, child) ∈ g.edges

/-- Whether an edge has no end for which the graph makes an exception. -/
def IsPlainEdge (e : Text × Text) : Prop :=
  Text.isReserved e.2 = false ∧ e.1 ≠ Text.voidKey

/-- Whether no edge leads to an identifier with a reserved name. -/
def IsSettled (g : Graph) : Prop :=
  ∀ e ∈ g.edges, Text.isReserved e.2 = false

/-- Whether no edge has an end for which the graph makes an exception. -/
def Plain (g : Graph) : Prop :=
  ∀ e ∈ g.edges, IsPlainEdge e

variable {g : Graph} {p c : Text}

/-- The parent of an edge is a node. -/
theorem Edge.parent_mem (h : g.Edge p c) : p ∈ g.nodes :=
  (g.ends_mem _ h).1

/-- The child of an edge is a node. -/
theorem Edge.child_mem (h : g.Edge p c) : c ∈ g.nodes :=
  (g.ends_mem _ h).2

/-- Upstream, a step goes against an edge, to a parent that is listed. -/
theorem upstream_eq (g : Graph) : (fun a b => b ∈ g.neighbours .upstream a) =
    fun a b => g.Edge b a ∧ b ≠ Text.voidKey := by
  funext a b
  exact propext mem_neighbours_upstream

/-- Downstream, a step goes along an edge, to a child that is listed. -/
theorem downstream_eq (g : Graph) : (fun a b => b ∈ g.neighbours .downstream a) =
    fun a b => g.Edge a b ∧ b ≠ Text.voidKey := by
  funext a b
  exact propext mem_neighbours_downstream

/-- What is not reserved is listed. -/
theorem ne_voidKey_of_not_reserved (h : Text.isReserved c = false) : c ≠ Text.voidKey := by
  rintro rfl
  rw [Text.isReserved_voidKey] at h
  contradiction

/-- Whether a graph lists both ends of the given edges as neighbours of each other. -/
def Lists (g : Graph) (edges : List (Text × Text)) : Prop :=
  ∀ e ∈ edges, e.1 ∈ g.neighbours .upstream e.2 ∧ e.2 ∈ g.neighbours .downstream e.1

/-- In a graph that lists its edges the parents of an identifier are those with an edge to it. -/
theorem Lists.mem_parents (hg : g.Lists g.edges.toList) :
    p ∈ g.neighbours .upstream c ↔ g.Edge p c :=
  ⟨fun h => (mem_neighbours_upstream.1 h).1, fun h => (hg _ h).1⟩

/-- In a graph that lists its edges the children of an identifier are those with an edge from
it. -/
theorem Lists.mem_children (hg : g.Lists g.edges.toList) :
    c ∈ g.neighbours .downstream p ↔ g.Edge p c :=
  ⟨fun h => (mem_neighbours_downstream.1 h).1, fun h => (hg _ h).2⟩

/-- In a graph that lists its edges, a step upstream goes against any edge. -/
theorem Lists.upstream_eq (hg : g.Lists g.edges.toList) :
    (fun a b => b ∈ g.neighbours .upstream a) = Function.swap g.Edge := by
  funext a b
  exact propext hg.mem_parents

/-- In a graph that lists its edges, a step downstream goes along any edge. -/
theorem Lists.downstream_eq (hg : g.Lists g.edges.toList) :
    (fun a b => b ∈ g.neighbours .downstream a) = g.Edge := by
  funext a b
  exact propext hg.mem_children

/-- A graph lists its edges exactly if none of them touches the identifier that is never listed. -/
theorem lists_edges_iff : g.Lists g.edges.toList ↔
    ∀ e ∈ g.edges, e.1 ≠ Text.voidKey ∧ e.2 ≠ Text.voidKey := by
  constructor
  · intro h e he
    obtain ⟨hparent, hchild⟩ := h e he
    exact ⟨(mem_neighbours_upstream.1 hparent).2, (mem_neighbours_downstream.1 hchild).2⟩
  · intro h e he
    obtain ⟨hparent, hchild⟩ := h e he
    exact ⟨mem_neighbours_upstream.2 ⟨he, hparent⟩, mem_neighbours_downstream.2 ⟨he, hchild⟩⟩

/-- A plain graph lists its edges. -/
theorem Plain.lists (hg : g.Plain) : g.Lists g.edges.toList :=
  lists_edges_iff.2 fun e he => ⟨(hg e he).2, ne_voidKey_of_not_reserved (hg e he).1⟩

/-- In a plain graph the children of an identifier are those with an edge from it. -/
theorem Plain.mem_children (hg : g.Plain) : c ∈ g.neighbours .downstream p ↔ g.Edge p c :=
  hg.lists.mem_children

/-- A plain graph is settled. -/
theorem Plain.isSettled (hg : g.Plain) : g.IsSettled :=
  fun e he => (hg e he).1

/-- A graph is settled when its nodes are added before its edges. -/
theorem isSettled_settled (g : Graph) : g.settled.IsSettled := by
  intro e he
  simpa using (OrderedSet.mem_filter.1 he).2

/-- In a graph that lists its edges every identifier is a child of its parents. -/
theorem Lists.mem_children_of_mem_parents (hg : g.Lists g.edges.toList)
    (h : p ∈ g.neighbours .upstream c) : c ∈ g.neighbours .downstream p :=
  hg.mem_children.2 (hg.mem_parents.1 h)

/-- A settled graph counts an edge as being there exactly if it leads from a node to a reserved
name. -/
theorem IsSettled.presumes_eq (hg : g.IsSettled) (e : Text × Text) :
    g.presumes e = (g.contains e.1 && Text.isReserved e.2) := by
  have hlent : (e.1, Text.voidKey) ∉ g.edges := by
    intro h
    have hvoid := hg _ h
    rw [Text.isReserved_voidKey] at hvoid
    contradiction
  simp [presumes, hlent]

/-- An edge between nodes adds no node. -/
theorem nodes_addEdge {e : Text × Text} (h₁ : e.1 ∈ g.nodes) (h₂ : e.2 ∈ g.nodes) :
    (g.addEdge e).nodes = g.nodes := by
  rw [addEdge]
  split
  · rfl
  · have hinsert : g.nodes.insert e.1 = g.nodes := dif_pos h₁
    change (g.nodes.insert e.1).insert e.2 = g.nodes
    rw [hinsert]
    exact dif_pos h₂

/-- Edges between nodes add no node. -/
theorem nodes_foldl_addEdge {es : List (Text × Text)}
    (h : ∀ e ∈ es, e.1 ∈ g.nodes ∧ e.2 ∈ g.nodes) :
    (es.foldl Graph.addEdge g).nodes = g.nodes := by
  induction es generalizing g with
  | nil => rfl
  | cons e es ih =>
    have he := h e List.mem_cons_self
    have hnodes : (g.addEdge e).nodes = g.nodes := nodes_addEdge he.1 he.2
    rw [List.foldl_cons, ih, hnodes]
    intro f hf
    rw [hnodes]
    exact h f (List.mem_cons_of_mem _ hf)

/-- Of edges between nodes, a settled graph records those that lead to no reserved name. -/
theorem IsSettled.mem_foldl_addEdge (hg : g.IsSettled) {es : List (Text × Text)}
    (hes : ∀ e ∈ es, e.1 ∈ g.nodes ∧ e.2 ∈ g.nodes) {f : Text × Text} :
    f ∈ (es.foldl Graph.addEdge g).edges ↔
      f ∈ g.edges ∨ f ∈ es ∧ Text.isReserved f.2 = false := by
  induction es generalizing g with
  | nil => simp
  | cons e es ih =>
    have he := hes e List.mem_cons_self
    have hnodes : (g.addEdge e).nodes = g.nodes := nodes_addEdge he.1 he.2
    have hcontains : g.contains e.1 = true := decide_eq_true he.1
    have hedges : ∀ x, x ∈ (g.addEdge e).edges ↔
        x ∈ g.edges ∨ x = e ∧ Text.isReserved x.2 = false := by
      intro x
      rw [addEdge, hg.presumes_eq, hcontains, Bool.true_and]
      cases hr : Text.isReserved e.2 with
      | true =>
        refine ⟨Or.inl, fun h => h.elim id ?_⟩
        rintro ⟨rfl, hx⟩
        rw [hr] at hx
        contradiction
      | false =>
        refine OrderedSet.mem_insert.trans (or_congr Iff.rfl ?_)
        exact ⟨fun hx => ⟨hx, hx ▸ hr⟩, And.left⟩
    have hsettled : (g.addEdge e).IsSettled := fun x hx =>
      ((hedges x).1 hx).elim (hg x) And.right
    have hrest : ∀ x ∈ es, x.1 ∈ (g.addEdge e).nodes ∧ x.2 ∈ (g.addEdge e).nodes := by
      rw [hnodes]
      exact fun x hx => hes x (List.mem_cons_of_mem _ hx)
    rw [List.foldl_cons, ih hsettled hrest, hedges, List.mem_cons, or_and_right, or_assoc]

/-- The edges of an induced part are those between its nodes. -/
theorem edge_induced {keep : Text → Bool} :
    (g.induced keep).Edge p c ↔ g.Edge p c ∧ keep p = true ∧ keep c = true := by
  simp [Edge, induced]

/-- When the nodes of a graph are added before its edges, the edges to reserved names go. -/
theorem edge_settled : g.settled.Edge p c ↔ g.Edge p c ∧ Text.isReserved c = false := by
  simp only [Edge, settled, OrderedSet.mem_filter, Bool.not_eq_true']

/-- Whether a node cannot be removed: there is an edge to it from the identifier that is never
listed, and it is still there when the nodes are added before the edges. -/
def Pinned (g : Graph) (x : Text) : Prop :=
  g.Edge Text.voidKey x ∧ Text.isReserved x = false

/-- A plain graph pins no node. -/
theorem Plain.not_pinned (hg : g.Plain) : ¬ g.Pinned c :=
  fun h => (hg _ h.1).2 rfl

/-- Adding nodes before edges changes nothing in a plain graph. -/
theorem Plain.edge_settled (hg : g.Plain) : g.settled.Edge p c ↔ g.Edge p c := by
  rw [Graph.edge_settled, and_iff_left_iff_imp]
  exact fun h => (hg _ h).1

/-- The nodes of a part of the graph are the given identifiers that are nodes. -/
theorem mem_nodes_subgraph {ids : List Text} :
    c ∈ (g.subgraph ids).nodes ↔ c ∈ g.nodes ∧ c ∈ ids := by
  simp [subgraph, settled, induced]

/-- The edges of a part of the graph are those between the given identifiers that lead to no
reserved name. -/
theorem edge_subgraph {ids : List Text} : (g.subgraph ids).Edge p c ↔
    g.Edge p c ∧ p ∈ ids ∧ c ∈ ids ∧ Text.isReserved c = false := by
  rw [subgraph, edge_settled, edge_induced]
  simp only [OrderedSet.mem_ofList, decide_eq_true_eq, and_assoc]

/-- Only which nodes are given makes a part of the graph. -/
theorem subgraph_congr {ids ids' : List Text} (h : ∀ id ∈ g.nodes, id ∈ ids ↔ id ∈ ids') :
    g.subgraph ids = g.subgraph ids' := by
  have hkeep : ∀ id ∈ g.nodes,
      decide (id ∈ OrderedSet.ofList ids) = decide (id ∈ OrderedSet.ofList ids') := by
    intro id hid
    simp [h id hid]
  have hnodes : g.nodes.filter (fun id => id ∈ OrderedSet.ofList ids) =
      g.nodes.filter fun id => id ∈ OrderedSet.ofList ids' :=
    OrderedSet.toList_inj.1 (List.filter_congr hkeep)
  have hedges : g.edges.filter
        (fun e => decide (e.1 ∈ OrderedSet.ofList ids) && decide (e.2 ∈ OrderedSet.ofList ids)) =
      g.edges.filter
        fun e => decide (e.1 ∈ OrderedSet.ofList ids') && decide (e.2 ∈ OrderedSet.ofList ids') :=
    OrderedSet.toList_inj.1 (List.filter_congr fun e he => by
      rw [hkeep e.1 (g.ends_mem e he).1, hkeep e.2 (g.ends_mem e he).2])
  simp only [subgraph, induced, settled, hnodes, hedges]

/-- The edges of a part of a plain graph are those between its nodes. -/
theorem Plain.edge_subgraph (hg : g.Plain) {ids : List Text} : (g.subgraph ids).Edge p c ↔
    g.Edge p c ∧ p ∈ (g.subgraph ids).nodes ∧ c ∈ (g.subgraph ids).nodes := by
  rw [Graph.edge_subgraph, mem_nodes_subgraph, mem_nodes_subgraph]
  constructor
  · rintro ⟨h, hp, hc, -⟩
    exact ⟨h, ⟨h.parent_mem, hp⟩, h.child_mem, hc⟩
  · rintro ⟨h, ⟨-, hp⟩, -, hc⟩
    exact ⟨h, hp, hc, (hg _ h).1⟩

/-- A graph whose edges are all in a plain graph is plain. -/
theorem Plain.of_edge (hg : g.Plain) {g' : Graph} (h : ∀ p c, g'.Edge p c → g.Edge p c) :
    g'.Plain :=
  fun e he => hg _ (h e.1 e.2 he)

end DagSelect.Graph
