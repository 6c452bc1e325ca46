import DagSelect.Depth
import DagSelect.Graph.Adjacency

/-!
# Neighbourhoods

A search goes out from a node layer by layer, in one direction along the edges. A round collects
the neighbours of the last layer that have not been seen, in order of discovery. As every round
but the last finds a node, as many rounds as the graph has nodes are enough. The start is not part
of its own neighbourhood, even on a cycle.
-/

namespace DagSelect

/-- What is found in a number of rounds from the last layer, apart from what has been seen. -/
def search (next : Text → List Text) :
    Nat → Std.TreeSet Text → List Text → List Text
  | 0, _, _ => []
  | rounds + 1, seen, layer =>
    let found := SearchTree.novel seen (layer.flatMap next)
    found ++ search next rounds (SearchTree.extend seen found) found

/-- A search finds nothing that has been seen. -/
theorem not_mem_of_mem_search {next : Text → List Text} {rounds : Nat}
    {seen : Std.TreeSet Text} {layer : List Text} {id : Text}
    (h : id ∈ search next rounds seen layer) : id ∉ seen := by
  induction rounds generalizing seen layer with
  | zero => simp [search] at h
  | succ rounds ih =>
    rcases List.mem_append.1 h with h | h
    · exact (SearchTree.mem_novel.1 h).2
    · exact fun hs => ih h (SearchTree.mem_extend.2 (.inl hs))

/-- A search finds nothing twice. -/
theorem search_nodup (next : Text → List Text) (rounds : Nat) (seen : Std.TreeSet Text)
    (layer : List Text) : (search next rounds seen layer).Nodup := by
  induction rounds generalizing seen layer with
  | zero => exact List.nodup_nil
  | succ rounds ih =>
    refine List.nodup_append.2 ⟨SearchTree.novel_nodup _ _, ih _ _, fun x hx y hy e => ?_⟩
    exact not_mem_of_mem_search hy (SearchTree.mem_extend.2 (.inr (e ▸ hx)))

/-- What an identifier reaches in a number of rounds, in order of discovery. -/
def Adjacency.reach (table : Adjacency) (rounds : Nat) (id : Text) : IdSet :=
  ⟨search table.neighbours rounds (SearchTree.ofList [id]) [id], search_nodup _ _ _ _⟩

/-- The search goes along the neighbours in the table. -/
theorem Adjacency.toList_reach (table : Adjacency) (rounds : Nat) (id : Text) :
    (table.reach rounds id).toList =
      search table.neighbours rounds (SearchTree.ofList [id]) [id] := rfl

namespace Graph

/-- The nodes in one direction from an identifier within a depth, in order of discovery. -/
def reach (g : Graph) (dir : Direction) (depth : Option Depth) (id : Text) : IdSet :=
  (g.adjacency dir).reach (Depth.rounds g.size depth) id

/-- The nodes in one direction from any of the given identifiers within a depth. -/
def reachAll (g : Graph) (dir : Direction) (depth : Option Depth) (ids : List Text) : IdSet :=
  let table := g.adjacency dir
  let rounds := Depth.rounds g.size depth
  .ofList (ids.flatMap fun id => (table.reach rounds id).toList)

/-- The search of a neighbourhood goes along the neighbours in the graph. -/
theorem toList_reach (g : Graph) (dir : Direction) (depth : Option Depth) (id : Text) :
    (g.reach dir depth id).toList =
      search (g.neighbours dir) (Depth.rounds g.size depth) (SearchTree.ofList [id]) [id] := by
  have h : (g.adjacency dir).neighbours = g.neighbours dir :=
    funext fun x => g.neighbours_adjacency dir x
  rw [reach, Adjacency.toList_reach, h]

/-- The neighbourhood of several identifiers consists of theirs. -/
theorem mem_reachAll {g : Graph} {dir : Direction} {depth : Option Depth} {ids : List Text}
    {x : Text} : x ∈ g.reachAll dir depth ids ↔ ∃ id ∈ ids, x ∈ g.reach dir depth id := by
  simp only [reachAll, OrderedSet.mem_ofList, List.mem_flatMap, OrderedSet.mem_toList, reach]

/-- The given identifiers, all their descendants, and all ancestors of these. -/
def family (g : Graph) (ids : List Text) : IdSet :=
  let base := (g.reachAll .downstream none ids).insertAll ids
  (g.reachAll .upstream none base.toList).union base

/-- The children of any of the given identifiers. -/
def successors (g : Graph) (ids : List Text) : IdSet :=
  let table := g.adjacency .downstream
  .ofList (ids.flatMap table.neighbours)

/-- The children of several identifiers are those of each. -/
theorem mem_successors {g : Graph} {ids : List Text} {x : Text} :
    x ∈ g.successors ids ↔ ∃ id ∈ ids, x ∈ g.neighbours .downstream id := by
  simp only [successors, OrderedSet.mem_ofList, List.mem_flatMap, neighbours_adjacency]

/-- The ancestors of a node within a depth. -/
def ancestors (g : Graph) (id : Text) (depth : Option Depth) : Except InternalError IdSet := do
  g.require [id]
  return g.reach .upstream depth id

/-- The descendants of a node within a depth. -/
def descendants (g : Graph) (id : Text) (depth : Option Depth) : Except InternalError IdSet := do
  g.require [id]
  return g.reach .downstream depth id

/-- The ancestors of any of the given nodes within a depth. -/
def ancestorsOf (g : Graph) (ids : List Text) (depth : Option Depth) :
    Except InternalError IdSet := do
  g.require ids
  return g.reachAll .upstream depth ids

/-- The descendants of any of the given nodes within a depth. -/
def descendantsOf (g : Graph) (ids : List Text) (depth : Option Depth) :
    Except InternalError IdSet := do
  g.require ids
  return g.reachAll .downstream depth ids

/-- The given nodes, all their descendants, and all ancestors of these. -/
def familyOf (g : Graph) (ids : List Text) : Except InternalError IdSet := do
  g.require ids
  return g.family ids

/-- The children of the given nodes. -/
def childrenOf (g : Graph) (ids : List Text) : Except InternalError IdSet := do
  g.require ids
  return g.successors ids

end Graph

end DagSelect
