import DagSelect.Proofs.Graph.Contraction
import DagSelect.Proofs.Graph.Distance
import Mathlib.Algebra.Ring.Rat

/-!
# Neighbourhoods by distance

The ancestors and the descendants of a node within a depth are the nodes at the distances that the
depth admits, along the edges to listed identifiers, and they are found in order of distance. The
search for them ends by itself: with as many rounds as there are nodes nothing is left to be found.

In a graph that lists its edges these are all paths. An edge to the identifier that is never listed
ends the paths that go on from there: neither that identifier nor what lies behind it is found.
-/

namespace DagSelect

/-- Whether a bound admits a distance, which it does if it lies above the distance less one. Without
a bound every distance is admitted. -/
def Depth.Admits : Option Depth → Nat → Prop
  | none, _ => True
  | some .unbounded, _ => True
  | some .lowest, _ => False
  | some (.finite q), k => (k : ℚ) - 1 < q

/-- The rounds of a search come to the distances that its bound admits, as far as they are needed at
all. -/
theorem Depth.le_rounds_iff {cap k : Nat} {depth : Option Depth} (hk : 0 < k) :
    k ≤ Depth.rounds cap depth ↔ k ≤ cap ∧ Depth.Admits depth k := by
  match depth with
  | none => exact (and_iff_left trivial).symm
  | some .unbounded => exact (and_iff_left trivial).symm
  | some .lowest => simp [Depth.rounds, Depth.Admits, Nat.ne_of_gt hk]
  | some (.finite q) =>
    have hceil : k ≤ q.ceil.toNat ↔ (k : ℤ) - 1 < q.ceil := by omega
    rw [Depth.rounds, le_min_iff, hceil, Rat.lt_ceil_iff, Depth.Admits, Int.cast_sub,
      Int.cast_natCast, Int.cast_one]

/-- Whether identifiers are what a relation leads to from a start at the distances that a bound
admits, the start apart, in an order in which the distance never decreases. -/
structure IsNeighbourhood (r : Text → Text → Prop) (depth : Option Depth) (start : Text)
    (found : List Text) : Prop where
  mem_iff : ∀ x, x ∈ found ↔ x ≠ start ∧ ∃ k, IsDistance r start x k ∧ Depth.Admits depth k
  ordered : found.Pairwise fun a b =>
    ∀ j k, IsDistance r start a j → IsDistance r start b k → j ≤ k

/-- A graph with a path over the identifier that is never listed. -/
def Sample.interrupted : Graph := .ofEdges [] [("a", Text.voidKey), (Text.voidKey, "b")]

/-- Both steps of that path are edges. -/
theorem Sample.interrupted_edge :
    interrupted.Edge "a" Text.voidKey ∧ interrupted.Edge Text.voidKey "b" := by
  have hedges : ∀ e ∈ ([("a", Text.voidKey), (Text.voidKey, "b")] : List (Text × Text)),
      e ∈ interrupted.edges := by
    decide +kernel
  exact ⟨hedges ("a", Text.voidKey) (by decide), hedges (Text.voidKey, "b") (by decide)⟩

namespace Graph

variable {g : Graph} {dir : Direction} {depth : Option Depth} {id x : Text}

/-- What is reached within a depth is a neighbourhood along the neighbours. -/
theorem isNeighbourhood_reach (g : Graph) (dir : Direction) (depth : Option Depth) (id : Text) :
    IsNeighbourhood (fun a b => b ∈ g.neighbours dir a) depth id (g.reach dir depth id).toList where
  mem_iff x := by
    rw [OrderedSet.mem_toList, mem_reach_iff_distance]
    constructor
    · rintro ⟨k, hdist, hpos, hle⟩
      refine ⟨fun heq => ?_, k, hdist, ((Depth.le_rounds_iff hpos).1 hle).2⟩
      exact Nat.ne_of_gt hpos (hdist.unique (isDistance_zero.2 heq))
    · rintro ⟨hne, k, hdist, hadmits⟩
      have hpos : 0 < k := Nat.pos_of_ne_zero fun hzero =>
        hne (isDistance_zero.1 (hzero ▸ hdist))
      obtain ⟨j, hj, hsteps⟩ := LeadsIn.exists_le_size hdist.1 hne
      have hsize : k ≤ g.size := (hdist.2 hsteps).trans hj
      exact ⟨k, hdist, hpos, (Depth.le_rounds_iff hpos).2 ⟨hsize, hadmits⟩⟩
  ordered := by
    rw [toList_reach]
    exact (Layered.start _ _).search_ordered

/-- A search with more rounds than there are nodes finds nothing more. -/
theorem search_eq_reach_none (g : Graph) (dir : Direction) (id : Text) (more : Nat) :
    search (g.neighbours dir) (g.size + more) (SearchTree.ofList [id]) [id] =
      (g.reach dir none id).toList := by
  obtain ⟨rest, hrest⟩ :=
    exists_search_add (g.neighbours dir) g.size more (SearchTree.ofList [id]) [id]
  have hreach : search (g.neighbours dir) g.size (SearchTree.ofList [id]) [id] =
      (g.reach dir none id).toList := (toList_reach g dir none id).symm
  rw [hreach] at hrest
  have hnodup := search_nodup (g.neighbours dir) (g.size + more) (SearchTree.ofList [id]) [id]
  rw [hrest, List.nodup_append] at hnodup
  -- Whatever the further rounds found would lie at a distance that the first ones come to.
  have hnone : rest = [] := by
    refine List.eq_nil_iff_forall_not_mem.2 fun x hx => ?_
    have hmem : x ∈ search (g.neighbours dir) (g.size + more) (SearchTree.ofList [id]) [id] :=
      hrest ▸ List.mem_append_right _ hx
    obtain ⟨k, hdist, hpos, -⟩ := (Layered.start _ _).mem_search_iff.1 hmem
    have hne : x ≠ id := fun heq => Nat.ne_of_gt hpos (hdist.unique (isDistance_zero.2 heq))
    have hfirst : x ∈ (g.reach dir none id).toList :=
      ((isNeighbourhood_reach g dir none id).mem_iff x).2 ⟨hne, k, hdist, trivial⟩
    exact hnodup.2.2 x hfirst x hx rfl
  rw [hrest, hnone, List.append_nil]

/-- The ancestors and the descendants of a node within any depth exist, and are what paths against
and along the edges to listed identifiers lead to at the distances that the depth admits, in order
of distance; in a graph that lists its edges these are all paths. The searches for them are over
after as many rounds as there are nodes. What is no node has neither. -/
theorem neighbourhoods_by_distance (g : Graph) (depth : Option Depth) (start : Text) :
    (start ∈ g.nodes → ∃ up down,
      g.ancestors start depth = .ok up ∧ g.descendants start depth = .ok down ∧
      IsNeighbourhood (fun a b => g.Edge b a ∧ b ≠ Text.voidKey) depth start up.toList ∧
      IsNeighbourhood (fun a b => g.Edge a b ∧ b ≠ Text.voidKey) depth start down.toList ∧
      (g.Lists g.edges.toList → IsNeighbourhood (Function.swap g.Edge) depth start up.toList ∧
        IsNeighbourhood g.Edge depth start down.toList)) ∧
    (∀ dir more, search (g.neighbours dir) (g.size + more) (SearchTree.ofList [start]) [start] =
      (g.reach dir none start).toList) ∧
    (start ∉ g.nodes → g.ancestors start depth = .error (.notInGraph start) ∧
      g.descendants start depth = .error (.notInGraph start)) := by
  refine ⟨fun hstart => ?_, fun dir => search_eq_reach_none g dir start, fun hstart => ?_⟩
  · have hrequire : g.require [start] = .ok () :=
      require_eq_ok_iff.2 fun id hid => List.mem_singleton.1 hid ▸ hstart
    have hup := isNeighbourhood_reach g .upstream depth start
    have hdown := isNeighbourhood_reach g .downstream depth start
    refine ⟨g.reach .upstream depth start, g.reach .downstream depth start, ?_, ?_,
      g.upstream_eq ▸ hup, g.downstream_eq ▸ hdown,
      fun hg => ⟨hg.upstream_eq ▸ hup, hg.downstream_eq ▸ hdown⟩⟩
    · rw [ancestors, hrequire]
      rfl
    · rw [descendants, hrequire]
      rfl
  · have hrequire : g.require [start] = .error (.notInGraph start) := by
      rw [require, List.find?_singleton, if_pos (decide_eq_true hstart)]
    constructor
    · rw [ancestors, hrequire]
      rfl
    · rw [descendants, hrequire]
      rfl

/-- In a graph with cycles and self loops, what lies within one and a half steps of a node, with the
round begun counted in, is what lies at most two steps from it; and what is no node has no
ancestors. -/
theorem neighbourhoods_by_distance_sample : ∃ down,
    Sample.detour.descendants "a" (some (.finite (3 / 2))) = .ok down ∧
    down.toList = (["x", "y"] : List Text) ∧
    IsNeighbourhood Sample.detour.Edge (some (.finite (3 / 2))) "a" down.toList ∧
    Sample.detour.ancestors "none" none = .error (.notInGraph "none") := by
  have hlists : Sample.detour.Lists Sample.detour.edges.toList := by
    rw [lists_edges_iff]
    have hall : ∀ e ∈ Sample.detour.edges.toList, e.1 ≠ Text.voidKey ∧ e.2 ≠ Text.voidKey := by
      decide +kernel
    exact hall
  obtain ⟨up, down, -, hdown, -, -, hnear⟩ :=
    (neighbourhoods_by_distance Sample.detour (some (.finite (3 / 2))) "a").1 (by decide +kernel)
  have hfound : (Sample.detour.descendants "a" (some (.finite (3 / 2)))).map OrderedSet.toList =
      .ok (["x", "y"] : List Text) := by
    decide +kernel
  rw [hdown] at hfound
  have hnone := (neighbourhoods_by_distance Sample.detour none "none").2.2 (by decide +kernel)
  exact ⟨down, hdown, Except.ok.inj hfound, (hnear hlists).2, hnone.1⟩

/-- Over the identifier that is never listed two edges lead from `a` to `b`, but `a` has no
descendants. -/
theorem descendants_interrupted :
    Sample.interrupted.Edge "a" Text.voidKey ∧ Sample.interrupted.Edge Text.voidKey "b" ∧
    (Sample.interrupted.descendants "a" none).map OrderedSet.toList = .ok [] ∧
    ¬ ∀ (g : Graph) (depth : Option Depth) (start : Text), start ∈ g.nodes →
      ∃ down, g.descendants start depth = .ok down ∧
        IsNeighbourhood g.Edge depth start down.toList := by
  obtain ⟨hfirst, hsecond⟩ := Sample.interrupted_edge
  have hnone : (Sample.interrupted.descendants "a" none).map OrderedSet.toList = .ok [] := by
    decide +kernel
  refine ⟨hfirst, hsecond, hnone, fun hall => ?_⟩
  obtain ⟨down, hdown, hnear⟩ := hall Sample.interrupted none "a" (by decide +kernel)
  rw [hdown] at hnone
  have hempty : down.toList = [] := Except.ok.inj hnone
  have hsteps : Steps Sample.interrupted.Edge 1 "a" Text.voidKey := .head hfirst (.refl _)
  obtain ⟨k, -, hdist⟩ := hsteps.exists_isDistance
  have hmem := (hnear.mem_iff Text.voidKey).2 ⟨by decide, k, hdist, trivial⟩
  exact absurd hmem (hempty ▸ List.not_mem_nil)

end Graph

end DagSelect
