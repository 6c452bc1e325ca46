import DagSelect.Graph.Basic
import Std.Data.TreeMap.Lemmas

/-!
# Adjacency

The edges of a graph in one direction, sorted by the identifier at their near end. One pass over
the edges makes the table, and a look-up then finds what a pass over all edges finds. Searches that
ask for the neighbours of many identifiers go through the table.
-/

namespace DagSelect

/-- The other ends of the edges of every identifier, in the order of the edges. -/
abbrev Adjacency := Std.TreeMap Text (List Text)

namespace Adjacency

/-- Put a pair of a near and a far end in front. -/
def link (ends : Text × Text) (table : Adjacency) : Adjacency :=
  table.insert ends.1 (ends.2 :: table.getD ends.1 [])

/-- The table of pairs of a near and a far end. -/
def ofPairs (pairs : List (Text × Text)) : Adjacency :=
  pairs.foldr link ∅

/-- The neighbours of an identifier. -/
def neighbours (table : Adjacency) (id : Text) : List Text :=
  Graph.listed (table.getD id [])

/-- The table finds the far ends of the pairs with the identifier at the near end. -/
theorem getD_ofPairs (pairs : List (Text × Text)) (id : Text) :
    (ofPairs pairs).getD id [] = (pairs.filter (fun e => e.1 = id)).map Prod.snd := by
  induction pairs with
  | nil => simp [ofPairs]
  | cons e pairs ih =>
    show (link e (ofPairs pairs)).getD id [] = _
    rw [link, Std.TreeMap.getD_insert, List.filter_cons]
    by_cases h : e.1 = id
    · subst h
      rw [if_pos (Std.LawfulEqCmp.compare_eq_iff_eq.2 rfl), ih]
      simp
    · rw [if_neg fun hc => h (Std.LawfulEqCmp.compare_eq_iff_eq.1 hc), ih]
      simp [h]

end Adjacency

namespace Graph

/-- The edges with the near end in front, as seen in one direction. -/
def links (g : Graph) : Direction → List (Text × Text)
  | .upstream => g.edges.toList.map Prod.swap
  | .downstream => g.edges.toList

/-- The adjacency table of a graph in one direction. -/
def adjacency (g : Graph) (dir : Direction) : Adjacency :=
  .ofPairs (g.links dir)

/-- The table lists the neighbours of an identifier as the graph does. -/
theorem neighbours_adjacency (g : Graph) (dir : Direction) (id : Text) :
    (g.adjacency dir).neighbours id = g.neighbours dir id := by
  rw [Adjacency.neighbours, adjacency, Adjacency.getD_ofPairs, neighbours]
  cases dir
  · simp [links, otherEnds, List.filter_map, Function.comp_def]
  · simp [links, otherEnds]

end Graph

end DagSelect
