import DagSelect.Proofs.Depth
import DagSelect.Proofs.Graph.Contraction
import DagSelect.Proofs.Graph.Distance
import Mathlib.Data.ENat.Basic

/-!
# Widening in stages

A set of nodes is widened in a direction by what paths of so many steps lead to from any of them,
the nodes themselves counted in. A path of the steps of two bounds together falls into two paths
within one bound each, so widening by one bound and then by another is widening by their sum, and
without a bound it is a closure. A family is what two closures, one downstream and one upstream of
it, lead to, and whatever is in either direction from a set within any depth is in its family.
-/

namespace DagSelect

open Relation

/-- How many steps a bound allows, where it is a natural number or no bound at all. -/
inductive Depth.Counts : Option Depth → ℕ∞ → Prop where
  | absent : Counts none ⊤
  | endless : Counts (some .unbounded) ⊤
  | natural (n : ℕ) : Counts (some (.ofNat n)) n

/-- As many steps as two bounds allow together are some that the first allows and some that the
second does. -/
theorem exists_add_eq_of_le_add {k : ℕ} {m n : ℕ∞} (h : (k : ℕ∞) ≤ m + n) :
    ∃ i j : ℕ, i + j = k ∧ (i : ℕ∞) ≤ m ∧ (j : ℕ∞) ≤ n := by
  induction m using ENat.recTopCoe with
  | top => exact ⟨k, 0, rfl, le_top, zero_le⟩
  | coe m =>
    induction n using ENat.recTopCoe with
    | top => exact ⟨0, k, Nat.zero_add k, zero_le, le_top⟩
    | coe n =>
      have hle : k ≤ m + n := by exact_mod_cast h
      exact ⟨min k m, k - min k m, by omega, Nat.cast_le.2 (by omega), Nat.cast_le.2 (by omega)⟩

namespace Graph

variable {g : Graph} {dir : Direction} {depth a b c : Option Depth} {id x : Text}
variable {ids : List Text} {given : IdSet} {m n : ℕ∞}

/-- The nodes in a direction from any of the given nodes within a depth. -/
def reachedFrom (g : Graph) : Direction → List Text → Option Depth → Except InternalError IdSet
  | .upstream => g.ancestorsOf
  | .downstream => g.descendantsOf

/-- The given nodes, and the nodes in a direction from any of them within a depth. -/
def widen (g : Graph) (dir : Direction) (given : IdSet) (depth : Option Depth) :
    Except InternalError IdSet := do
  let found ← g.reachedFrom dir given.toList depth
  return given.union found

/-- Nodes are widened by what is reached from them. -/
theorem widen_eq (hgiven : ∀ id ∈ given, id ∈ g.nodes) (depth : Option Depth) :
    g.widen dir given depth = .ok (given.union (g.reachAll dir depth given.toList)) := by
  cases dir with
  | upstream =>
    rw [widen, reachedFrom, ancestorsOf_eq hgiven]
    rfl
  | downstream =>
    rw [widen, reachedFrom, descendantsOf_eq hgiven]
    rfl

/-- Within a bound that counts steps, all that a path of at most so many steps leads to is
reached. -/
theorem mem_reach_of_counts (h : Depth.Counts depth n) : x ∈ g.reach dir depth id ↔
    x ≠ id ∧ ∃ k : ℕ, (k : ℕ∞) ≤ n ∧ g.LeadsIn dir k id x := by
  cases h with
  | absent =>
    simp only [le_top, true_and]
    exact mem_reach_unbounded rfl
  | endless =>
    simp only [le_top, true_and]
    exact mem_reach_unbounded rfl
  | natural n =>
    simp only [Nat.cast_le]
    exact mem_reach_bounded (Depth.rounds_ofNat _ _)

/-- What is widened within a bound that counts steps is what at most so many steps lead to. -/
theorem mem_widened_iff (h : Depth.Counts depth n) :
    x ∈ given.union (g.reachAll dir depth given.toList) ↔
      ∃ id ∈ given, ∃ k : ℕ, (k : ℕ∞) ≤ n ∧ g.LeadsIn dir k id x := by
  have hzero : ((0 : ℕ) : ℕ∞) ≤ n := zero_le
  rw [OrderedSet.mem_union]
  exact mem_or_mem_reachAll_iff hzero fun _ _ => mem_reach_of_counts h

/-- What nodes are widened to are nodes. -/
theorem mem_nodes_of_mem_widened (hgiven : ∀ id ∈ given, id ∈ g.nodes)
    (h : x ∈ given.union (g.reachAll dir depth given.toList)) : x ∈ g.nodes := by
  rcases OrderedSet.mem_union.1 h with h | h
  · exact hgiven x h
  · exact mem_nodes_of_mem_reachAll h

/-- Widening nodes in a direction by one bound and then by another gives the nodes that widening
them once by the sum of the bounds does. After an unbounded widening another one changes nothing. -/
theorem widen_in_stages (g : Graph) (dir : Direction) (hgiven : ∀ id ∈ given, id ∈ g.nodes)
    (ha : Depth.Counts a m) (hb : Depth.Counts b n) (hc : Depth.Counts c (m + n)) :
    ∃ once twice whole, g.widen dir given a = .ok once ∧ g.widen dir once b = .ok twice ∧
      g.widen dir given c = .ok whole ∧ (∀ x, x ∈ twice ↔ x ∈ whole) ∧
      (m = ⊤ → twice = once) := by
  let once := given.union (g.reachAll dir a given.toList)
  have honce : ∀ id ∈ once, id ∈ g.nodes := fun _ => mem_nodes_of_mem_widened hgiven
  have hstages : ∀ x, x ∈ once.union (g.reachAll dir b once.toList) ↔
      x ∈ given.union (g.reachAll dir c given.toList) := by
    intro x
    simp only [mem_widened_iff hb, mem_widened_iff hc, once, mem_widened_iff ha]
    constructor
    · rintro ⟨y, ⟨id, hid, i, hi, hfirst⟩, j, hj, hsecond⟩
      exact ⟨id, hid, i + j, by exact_mod_cast add_le_add hi hj, hfirst.trans hsecond⟩
    · rintro ⟨id, hid, k, hk, hsteps⟩
      obtain ⟨i, j, rfl, hi, hj⟩ := exists_add_eq_of_le_add hk
      obtain ⟨y, hfirst, hsecond⟩ := hsteps.exists_of_add
      exact ⟨y, ⟨id, hid, i, hi, hfirst⟩, j, hj, hsecond⟩
  refine ⟨once, _, _, widen_eq hgiven a, widen_eq honce b, widen_eq hgiven c, hstages, ?_⟩
  rintro rfl
  refine OrderedSet.union_eq_self fun x hx => ?_
  -- The sum of the bounds is no bound either, so both widenings have the same members.
  have hwhole := (hstages x).1 (OrderedSet.mem_union.2 (.inr hx))
  rw [mem_widened_iff hc, top_add] at hwhole
  exact (mem_widened_iff ha).2 hwhole

/-- In a graph with cycles and self loops, one step downstream and then another one lead to the
nodes that two steps lead to. -/
theorem widen_in_stages_sample : ∃ once twice whole,
    Sample.detour.widen .downstream (.ofList ["a"]) (some (.ofNat 1)) = .ok once ∧
    Sample.detour.widen .downstream once (some (.ofNat 1)) = .ok twice ∧
    Sample.detour.widen .downstream (.ofList ["a"]) (some (.ofNat 2)) = .ok whole ∧
    whole.toList = (["a", "x", "y"] : List Text) ∧ ∀ x, x ∈ twice ↔ x ∈ whole := by
  have hgiven : ∀ id ∈ OrderedSet.ofList [("a" : Text)], id ∈ Sample.detour.nodes := by
    decide +kernel
  obtain ⟨once, twice, whole, honce, htwice, hwhole, hsame, -⟩ :=
    widen_in_stages Sample.detour .downstream hgiven (.natural 1) (.natural 1) (.natural 2)
  have hfound : (Sample.detour.widen .downstream (.ofList ["a"]) (some (.ofNat 2))).map
      OrderedSet.toList = .ok (["a", "x", "y"] : List Text) := by
    decide +kernel
  rw [hwhole] at hfound
  exact ⟨once, twice, whole, honce, htwice, hwhole, Except.ok.inj hfound, hsame⟩

/-- Without a bound, a set and what is reached from it are what paths lead to from it. -/
theorem mem_or_mem_reachAll_none : x ∈ ids ∨ x ∈ g.reachAll dir none ids ↔
    ∃ id ∈ ids, ReflTransGen (fun a b => b ∈ g.neighbours dir a) id x := by
  have hreach : ∀ id ∈ ids, x ∈ g.reach dir none id ↔
      x ≠ id ∧ ∃ k, True ∧ g.LeadsIn dir k id x := by
    intro id _
    simp only [true_and]
    exact mem_reach_unbounded rfl
  rw [mem_or_mem_reachAll_iff trivial hreach]
  simp only [true_and]
  exact exists_congr fun id => and_congr_right fun _ => Steps.exists_iff

/-- A family is what paths lead to that go first downstream and then upstream. -/
theorem mem_family_iff : x ∈ g.family ids ↔ ∃ id ∈ ids, ∃ m,
    ReflTransGen (fun a b => b ∈ g.neighbours .downstream a) id m ∧
      ReflTransGen (fun a b => b ∈ g.neighbours .upstream a) m x := by
  let base := (g.reachAll .downstream none ids).insertAll ids
  have hbase : ∀ m, m ∈ base ↔
      ∃ id ∈ ids, ReflTransGen (fun a b => b ∈ g.neighbours .downstream a) id m := by
    intro m
    rw [OrderedSet.mem_insertAll, or_comm, mem_or_mem_reachAll_none]
  have hfamily : x ∈ g.family ids ↔
      x ∈ base.toList ∨ x ∈ g.reachAll .upstream none base.toList := by
    rw [family, OrderedSet.mem_union, or_comm, OrderedSet.mem_toList]
  rw [hfamily, mem_or_mem_reachAll_none]
  simp only [OrderedSet.mem_toList, hbase]
  constructor
  · rintro ⟨m, ⟨id, hid, hdown⟩, hup⟩
    exact ⟨id, hid, m, hdown, hup⟩
  · rintro ⟨id, hid, m, hdown, hup⟩
    exact ⟨m, ⟨id, hid, hdown⟩, hup⟩

/-- What is reached in either direction within any depth is in the family. -/
theorem mem_family_of_mem_reachAll (h : x ∈ g.reachAll dir depth ids) : x ∈ g.family ids := by
  obtain ⟨id, hid, hx⟩ := mem_reachAll.1 h
  obtain ⟨-, k, -, hsteps⟩ := mem_reach_iff.1 hx
  have hpath : ReflTransGen (fun a b => b ∈ g.neighbours dir a) id x :=
    Steps.exists_iff.1 ⟨k, hsteps⟩
  cases dir with
  | upstream => exact mem_family_iff.2 ⟨id, hid, id, .refl, hpath⟩
  | downstream => exact mem_family_iff.2 ⟨id, hid, x, hpath, .refl⟩

end Graph

end DagSelect
