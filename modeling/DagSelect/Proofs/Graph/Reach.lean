import DagSelect.Graph.Reach

/-!
# Searches stay in the graph

Whatever a search finds is a neighbour of something, hence a node. So widening a set of nodes in
any direction gives nodes, and what asks for nodes succeeds on them.
-/

namespace DagSelect

/-- Everything that a search finds is next to something. -/
theorem exists_next_of_mem_search {next : Text → List Text} {rounds : Nat} {seen : Std.TreeSet Text}
    {layer : List Text} {id : Text} (h : id ∈ search next rounds seen layer) :
    ∃ x, id ∈ next x := by
  induction rounds generalizing seen layer with
  | zero => simp [search] at h
  | succ rounds ih =>
    rcases List.mem_append.1 h with h | h
    · obtain ⟨x, -, hx⟩ := List.mem_flatMap.1 (SearchTree.mem_novel.1 h).1
      exact ⟨x, hx⟩
    · exact ih h

namespace Graph

variable {g : Graph} {dir : Direction} {id x : Text} {ids : List Text}

/-- Neighbours are nodes. -/
theorem mem_nodes_of_mem_neighbours (h : x ∈ g.neighbours dir id) : x ∈ g.nodes := by
  cases dir with
  | upstream => exact (g.ends_mem _ (mem_neighbours_upstream.1 h).1).1
  | downstream => exact (g.ends_mem _ (mem_neighbours_downstream.1 h).1).2

/-- What is reached in a direction is a node. -/
theorem mem_nodes_of_mem_reachAll {depth : Option Depth} (h : x ∈ g.reachAll dir depth ids) :
    x ∈ g.nodes := by
  obtain ⟨id, -, hid⟩ := mem_reachAll.1 h
  rw [← OrderedSet.mem_toList, toList_reach] at hid
  obtain ⟨y, hy⟩ := exists_next_of_mem_search hid
  exact mem_nodes_of_mem_neighbours hy

/-- The family of nodes consists of nodes. -/
theorem mem_nodes_of_mem_family (hids : ∀ id ∈ ids, id ∈ g.nodes) (h : x ∈ g.family ids) :
    x ∈ g.nodes := by
  rw [family, OrderedSet.mem_union, OrderedSet.mem_insertAll] at h
  rcases h with h | h | h
  · exact mem_nodes_of_mem_reachAll h
  · exact mem_nodes_of_mem_reachAll h
  · exact hids x h

/-- Identifiers may be required to be nodes exactly if they are. -/
theorem require_eq_ok_iff : g.require ids = .ok () ↔ ∀ id ∈ ids, id ∈ g.nodes := by
  rw [require]
  cases h : ids.find? (fun id => id ∉ g.nodes) with
  | some id =>
    have hid : id ∉ g.nodes := by simpa using List.find?_some h
    simp only [reduceCtorEq, false_iff]
    exact fun hall => hid (hall id (List.mem_of_find?_eq_some h))
  | none => simpa using List.find?_eq_none.1 h

section Nodes

variable (hids : ∀ id ∈ ids, id ∈ g.nodes)
include hids

/-- Nodes have ancestors. -/
theorem ancestorsOf_eq (depth : Option Depth) :
    g.ancestorsOf ids depth = .ok (g.reachAll .upstream depth ids) := by
  rw [ancestorsOf, require_eq_ok_iff.2 hids]
  rfl

/-- Nodes have descendants. -/
theorem descendantsOf_eq (depth : Option Depth) :
    g.descendantsOf ids depth = .ok (g.reachAll .downstream depth ids) := by
  rw [descendantsOf, require_eq_ok_iff.2 hids]
  rfl

/-- Nodes have a family. -/
theorem familyOf_eq : g.familyOf ids = .ok (g.family ids) := by
  rw [familyOf, require_eq_ok_iff.2 hids]
  rfl

end Nodes

end Graph

end DagSelect
