import DagSelect.Proofs.Graph.Contraction
import DagSelect.Proofs.UpToOrder

/-!
# Graphs that differ in order only

Two graphs with the same nodes and the same edges may keep them in different orders. They have the
same neighbourhoods, the same parts, and the same contractions up to order again: bypassing two
nodes of a settled graph gives the same edges whichever goes first, so any order of the bypassed
nodes does.
-/

namespace DagSelect

/-- What a search finds depends only on what has been seen, what is in the layer, and what is next
to what. -/
theorem mem_search_congr {next next' : Text → List Text} {rounds : Nat}
    {seen seen' : Std.TreeSet Text} {layer layer' : List Text} {x : Text}
    (hnext : ∀ a y, y ∈ next a ↔ y ∈ next' a) (hseen : ∀ y, y ∈ seen ↔ y ∈ seen')
    (hlayer : ∀ y, y ∈ layer ↔ y ∈ layer') :
    x ∈ search next rounds seen layer ↔ x ∈ search next' rounds seen' layer' := by
  induction rounds generalizing seen seen' layer layer' with
  | zero => rfl
  | succ rounds ih =>
    have hfound : ∀ y, y ∈ SearchTree.novel seen (layer.flatMap next) ↔
        y ∈ SearchTree.novel seen' (layer'.flatMap next') := by
      intro y
      simp only [SearchTree.mem_novel, List.mem_flatMap, hnext, hseen, hlayer]
    have hextend : ∀ y,
        y ∈ SearchTree.extend seen (SearchTree.novel seen (layer.flatMap next)) ↔
          y ∈ SearchTree.extend seen' (SearchTree.novel seen' (layer'.flatMap next')) := by
      intro y
      rw [SearchTree.mem_extend, SearchTree.mem_extend, hseen, hfound]
    rw [search, search, List.mem_append, List.mem_append]
    exact or_congr (hfound x) (ih hextend hfound)

namespace Graph

/-- Whether two graphs have the same nodes and the same edges. -/
structure Same (g g' : Graph) : Prop where
  mem_nodes : ∀ x, x ∈ g.nodes ↔ x ∈ g'.nodes
  edge : ∀ p c, g.Edge p c ↔ g'.Edge p c

variable {g g' g'' : Graph} {dir : Direction} {ids ids' : List Text} {id x y : Text}

/-- A graph has the same nodes and edges as itself. -/
theorem Same.refl (g : Graph) : g.Same g :=
  ⟨fun _ => Iff.rfl, fun _ _ => Iff.rfl⟩

/-- Having the same nodes and edges goes both ways. -/
theorem Same.symm (h : g.Same g') : g'.Same g :=
  ⟨fun x => (h.mem_nodes x).symm, fun p c => (h.edge p c).symm⟩

/-- Graphs with the nodes and edges of a third one have the same. -/
theorem Same.trans (h₁ : g.Same g') (h₂ : g'.Same g'') : g.Same g'' :=
  ⟨fun x => (h₁.mem_nodes x).trans (h₂.mem_nodes x), fun p c => (h₁.edge p c).trans (h₂.edge p c)⟩

/-- Graphs with the same nodes have the same number of them. -/
theorem Same.size_eq (h : g.Same g') : g.size = g'.size :=
  OrderedSet.size_eq_of_mem_iff h.mem_nodes

/-- In graphs with the same edges the neighbours are the same. -/
theorem Same.mem_neighbours (h : g.Same g') :
    x ∈ g.neighbours dir id ↔ x ∈ g'.neighbours dir id := by
  cases dir with
  | upstream =>
    rw [mem_neighbours_upstream, mem_neighbours_upstream]
    exact and_congr_left fun _ => h.edge x id
  | downstream =>
    rw [mem_neighbours_downstream, mem_neighbours_downstream]
    exact and_congr_left fun _ => h.edge id x

/-- In graphs with the same nodes and edges the same is reached. -/
theorem Same.mem_reach (h : g.Same g') {depth : Option Depth} :
    x ∈ g.reach dir depth id ↔ x ∈ g'.reach dir depth id := by
  rw [← OrderedSet.mem_toList, ← OrderedSet.mem_toList, toList_reach, toList_reach, h.size_eq]
  exact mem_search_congr (fun _ _ => h.mem_neighbours) (fun _ => Iff.rfl) fun _ => Iff.rfl

/-- In graphs with the same nodes and edges the same is reached from the same identifiers. -/
theorem Same.mem_reachAll (h : g.Same g') (hids : ∀ y, y ∈ ids ↔ y ∈ ids')
    {depth : Option Depth} :
    x ∈ g.reachAll dir depth ids ↔ x ∈ g'.reachAll dir depth ids' := by
  simp only [Graph.mem_reachAll, hids, h.mem_reach]

/-- In graphs with the same nodes and edges the same identifiers have the same family. -/
theorem Same.mem_family (h : g.Same g') (hids : ∀ y, y ∈ ids ↔ y ∈ ids') :
    x ∈ g.family ids ↔ x ∈ g'.family ids' := by
  have hbase : ∀ y, y ∈ ((g.reachAll .downstream none ids).insertAll ids).toList ↔
      y ∈ ((g'.reachAll .downstream none ids').insertAll ids').toList := by
    intro y
    simp only [OrderedSet.mem_toList, OrderedSet.mem_insertAll, h.mem_reachAll hids, hids]
  rw [family, family, OrderedSet.mem_union, OrderedSet.mem_union]
  exact or_congr (h.mem_reachAll hbase) (hbase x)

/-- The parts of graphs on the same nodes are the same if the graphs are. -/
theorem Same.subgraph (h : g.Same g') (hids : ∀ y, y ∈ ids ↔ y ∈ ids') :
    (g.subgraph ids).Same (g'.subgraph ids') := by
  constructor
  case mem_nodes =>
    intro x
    rw [mem_nodes_subgraph, mem_nodes_subgraph, h.mem_nodes, hids]
  case edge =>
    intro p c
    rw [edge_subgraph, edge_subgraph, h.edge, hids, hids]

/-- Adding nodes before edges gives the same if the graphs are the same. -/
theorem Same.settled (h : g.Same g') : g.settled.Same g'.settled := by
  refine ⟨h.mem_nodes, fun p c => ?_⟩
  rw [edge_settled, edge_settled, h.edge]

/-- A graph with the edges of a settled one is settled. -/
theorem Same.isSettled (h : g.Same g') (hg : g.IsSettled) : g'.IsSettled :=
  fun e he => hg e ((h.edge e.1 e.2).2 he)

/-- Bypassing a node gives the same if the graphs are the same and settled. -/
theorem Same.bypass (h : g.Same g') (hg : g.IsSettled) (x : Text) :
    (g.bypass x).Same (g'.bypass x) := by
  constructor
  case mem_nodes =>
    intro y
    rw [nodes_bypass, nodes_bypass, OrderedSet.mem_filter, OrderedSet.mem_filter, h.mem_nodes]
  case edge =>
    intro p c
    simp only [hg.edge_bypass, (h.isSettled hg).edge_bypass, h.edge]

/-- Bypassing nodes one after another gives the same if the graphs are the same and settled. -/
theorem Same.foldl_bypass (h : g.Same g') (hg : g.IsSettled) (ids : List Text) :
    (ids.foldl Graph.bypass g).Same (ids.foldl Graph.bypass g') := by
  induction ids generalizing g g' with
  | nil => exact h
  | cons id ids ih => exact ih (h.bypass hg id) (hg.bypass id)

/-- Two nodes of a settled graph may be bypassed in either order. -/
theorem IsSettled.bypass_comm (hg : g.IsSettled) (x y : Text) :
    ((g.bypass x).bypass y).Same ((g.bypass y).bypass x) := by
  constructor
  case mem_nodes =>
    intro z
    simp only [nodes_bypass, OrderedSet.mem_filter, and_assoc]
    exact and_congr_right fun _ => and_comm
  case edge =>
    intro p c
    have hvoid : ∀ p, ¬ g.Edge p Text.voidKey := fun p h =>
      ne_voidKey_of_not_reserved (hg (p, Text.voidKey) h) rfl
    -- In both orders an edge is an old one, or leads over one of the nodes, or over one and then
    -- the other. A node in the middle of such a path is a child, so it is not the one that is never
    -- listed.
    simp only [(hg.bypass x).edge_bypass, (hg.bypass y).edge_bypass, hg.edge_bypass]
    grind

/-- The nodes of a settled graph may be bypassed in any order. -/
theorem Same.foldl_bypass_perm (h : g.Same g') (hg : g.IsSettled) (hperm : ids.Perm ids') :
    (ids.foldl Graph.bypass g).Same (ids'.foldl Graph.bypass g') := by
  induction hperm generalizing g g' with
  | nil => exact h
  | cons x _ ih => exact ih (h.bypass hg x) (hg.bypass x)
  | swap x y rest =>
    simp only [List.foldl_cons]
    have hswap : ((g.bypass y).bypass x).Same ((g'.bypass x).bypass y) :=
      (hg.bypass_comm y x).trans ((h.bypass hg x).bypass (hg.bypass x) y)
    exact hswap.foldl_bypass ((hg.bypass y).bypass x) rest
  | trans _ _ ih₁ ih₂ => exact (ih₁ (.refl g) hg).trans (ih₂ h hg)

/-- The contractions of graphs to the same nodes are the same if the graphs are. -/
theorem Same.contracted (h : g.Same g') (hids : ∀ y, y ∈ ids ↔ y ∈ ids') :
    (g.contracted ids).Same (g'.contracted ids') := by
  refine h.settled.foldl_bypass_perm (isSettled_settled g) ?_
  refine (List.perm_ext_iff_of_nodup (g.nodes.nodup.filter _) (g'.nodes.nodup.filter _)).2 ?_
  intro y
  simp only [List.mem_filter, OrderedSet.mem_toList, h.mem_nodes, OrderedSet.mem_ofList, hids]

end Graph

end DagSelect
