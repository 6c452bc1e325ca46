import DagSelect.Proofs.Graph.Search
import Mathlib.Order.Bounds.Basic

/-!
# Searches with a bound

A path is counted by its steps, and the distance from one to another is the least number of steps
that leads there. The rounds of a search go through the distances: what it has seen lies within the
distance that it has come to, and its layer is what lies at that distance. So a search of some
rounds finds what lies within so many steps of its start, the start apart, and finds it in order of
distance. A bound by the number of nodes keeps nothing from being found, since a search without a
bound makes no more rounds than that.
-/

namespace DagSelect

open Relation

/-- Whether a number of steps of a relation leads from one to another. -/
inductive Steps {α : Type} (r : α → α → Prop) : Nat → α → α → Prop where
  | refl (a : α) : Steps r 0 a a
  | head {k : Nat} {a b c : α} (hab : r a b) (hbc : Steps r k b c) : Steps r (k + 1) a c

namespace Steps

variable {α : Type} {r : α → α → Prop} {j k : Nat} {a b c : α}

/-- A step may be added at the end. -/
theorem tail (hab : Steps r k a b) (hbc : r b c) : Steps r (k + 1) a c := by
  induction hab with
  | refl a => exact .head hbc (.refl c)
  | head hstep _ ih => exact .head hstep (ih hbc)

/-- Steps that follow others add up. -/
theorem trans (hab : Steps r j a b) (hbc : Steps r k b c) : Steps r (j + k) a c := by
  induction hab with
  | refl a => rwa [Nat.zero_add]
  | head hstep _ ih =>
    rw [Nat.succ_add]
    exact .head hstep (ih hbc)

/-- Between the first and the remaining steps there is a place where they meet. -/
theorem exists_of_add (h : Steps r (j + k) a c) : ∃ b, Steps r j a b ∧ Steps r k b c := by
  induction j generalizing a with
  | zero =>
    rw [Nat.zero_add] at h
    exact ⟨a, .refl a, h⟩
  | succ j ih =>
    rw [Nat.succ_add] at h
    cases h with
    | head hstep hrest =>
      obtain ⟨b, hb, hbc⟩ := ih hrest
      exact ⟨b, .head hstep hb, hbc⟩

/-- Steps backwards lead back. -/
theorem swap (h : Steps r k a b) : Steps (Function.swap r) k b a := by
  induction h with
  | refl a => exact .refl a
  | head hstep _ ih => exact ih.tail hstep

/-- Steps backwards lead to where steps lead from. -/
theorem swap_iff : Steps (Function.swap r) k b a ↔ Steps r k a b :=
  ⟨swap, swap⟩

/-- Some number of steps leads wherever a path leads. -/
theorem exists_iff : (∃ k, Steps r k a b) ↔ ReflTransGen r a b := by
  constructor
  · rintro ⟨k, h⟩
    induction h with
    | refl a => exact .refl
    | head hstep _ ih => exact .head hstep ih
  · intro h
    induction h with
    | refl => exact ⟨0, .refl a⟩
    | tail _ hstep ih =>
      obtain ⟨k, hk⟩ := ih
      exact ⟨k + 1, hk.tail hstep⟩

end Steps

/-- Whether a number is the least number of steps of a relation from one to another. -/
def IsDistance {α : Type} (r : α → α → Prop) (a b : α) (k : Nat) : Prop :=
  IsLeast {n | Steps r n a b} k

section Distance

variable {α : Type} {r : α → α → Prop} {d n : Nat} {a x : α}

/-- Where steps lead there is a distance, which they do not fall short of. -/
theorem Steps.exists_isDistance (h : Steps r n a x) : ∃ k ≤ n, IsDistance r a x k := by
  classical
  have hsome : ∃ k, Steps r k a x := ⟨n, h⟩
  exact ⟨Nat.find hsome, Nat.find_min' hsome h, Nat.find_spec hsome,
    fun _ hk => Nat.find_min' hsome hk⟩

/-- At distance zero there is the start alone. -/
theorem isDistance_zero : IsDistance r a x 0 ↔ x = a := by
  constructor
  · rintro ⟨h, -⟩
    cases h
    rfl
  · rintro rfl
    exact ⟨.refl x, fun _ _ => Nat.zero_le _⟩

/-- At the next distance there is what a step leads to from a distance, as far as it is not
nearer. -/
theorem isDistance_succ : IsDistance r a x (d + 1) ↔
    (∃ y, IsDistance r a y d ∧ r y x) ∧ ∀ k ≤ d, ¬ Steps r k a x := by
  constructor
  · rintro ⟨hsteps, hleast⟩
    have hnearer : ∀ k ≤ d, ¬ Steps r k a x := fun k hk h =>
      absurd (hleast h) (Nat.not_le.2 (Nat.lt_succ_of_le hk))
    obtain ⟨y, hy, hyx⟩ := hsteps.exists_of_add
    cases hyx with
    | head hstep hrest =>
      cases hrest
      refine ⟨⟨y, ⟨hy, fun k hk => ?_⟩, hstep⟩, hnearer⟩
      -- A shorter way to the place before the last step would make a shorter way to the end.
      exact Nat.le_of_succ_le_succ (hleast (hk.tail hstep))
  · rintro ⟨⟨y, ⟨hy, -⟩, hstep⟩, hnearer⟩
    refine ⟨hy.tail hstep, fun k hk => ?_⟩
    exact Nat.lt_of_not_le fun hle => hnearer k hle hk

end Distance

section Search

variable {next : Text → List Text} {rounds d : Nat} {seen : Std.TreeSet Text} {layer : List Text}
variable {origin x : Text}

/-- Whether a search has come to a distance from its start: it has seen what lies within it, and its
layer is what lies at it. -/
structure Layered (next : Text → List Text) (origin : Text) (d : Nat) (seen : Std.TreeSet Text)
    (layer : List Text) : Prop where
  mem_seen : ∀ x, x ∈ seen ↔ ∃ k ≤ d, Steps (fun a b => b ∈ next a) k origin x
  mem_layer : ∀ x, x ∈ layer ↔ IsDistance (fun a b => b ∈ next a) origin x d

namespace Layered

/-- A search begins at distance zero. -/
theorem start (next : Text → List Text) (origin : Text) :
    Layered next origin 0 (SearchTree.ofList [origin]) [origin] where
  mem_seen x := by
    rw [SearchTree.mem_ofList, List.mem_singleton]
    constructor
    · rintro rfl
      exact ⟨0, Nat.le_refl 0, .refl x⟩
    · rintro ⟨k, hk, hsteps⟩
      obtain rfl := Nat.le_zero.1 hk
      cases hsteps
      rfl
  mem_layer x := by
    rw [List.mem_singleton, isDistance_zero]

/-- What a round finds is what lies at the next distance. -/
theorem mem_novel (h : Layered next origin d seen layer) :
    x ∈ SearchTree.novel seen (layer.flatMap next) ↔
      IsDistance (fun a b => b ∈ next a) origin x (d + 1) := by
  rw [SearchTree.mem_novel, List.mem_flatMap, isDistance_succ]
  refine and_congr (exists_congr fun y => and_congr_left fun _ => h.mem_layer y) ?_
  rw [h.mem_seen]
  push Not
  rfl

/-- A round brings a search to the next distance. -/
theorem round (h : Layered next origin d seen layer) :
    Layered next origin (d + 1)
      (SearchTree.extend seen (SearchTree.novel seen (layer.flatMap next)))
      (SearchTree.novel seen (layer.flatMap next)) where
  mem_seen x := by
    rw [SearchTree.mem_extend, h.mem_seen, h.mem_novel]
    constructor
    · rintro (⟨k, hk, hsteps⟩ | hdist)
      · exact ⟨k, Nat.le_succ_of_le hk, hsteps⟩
      · exact ⟨d + 1, Nat.le_refl _, hdist.1⟩
    · rintro ⟨k, hk, hsteps⟩
      obtain ⟨j, hj, hdist⟩ := hsteps.exists_isDistance
      rcases Nat.lt_or_ge d j with hlt | hge
      · obtain rfl : j = d + 1 := by omega
        exact .inr hdist
      · exact .inl ⟨j, hge, hdist.1⟩
  mem_layer _ := h.mem_novel

/-- A search finds what lies farther than it has come, as far as its rounds go. -/
theorem mem_search_iff (h : Layered next origin d seen layer) :
    x ∈ search next rounds seen layer ↔
      ∃ k, IsDistance (fun a b => b ∈ next a) origin x k ∧ d < k ∧ k ≤ d + rounds := by
  induction rounds generalizing d seen layer with
  | zero =>
    simp only [search, List.not_mem_nil, false_iff]
    rintro ⟨k, -, hlt, hle⟩
    omega
  | succ rounds ih =>
    rw [search, List.mem_append, ih h.round, h.mem_novel]
    constructor
    · rintro (hdist | ⟨k, hdist, hlt, hle⟩)
      · exact ⟨d + 1, hdist, by omega, by omega⟩
      · exact ⟨k, hdist, by omega, by omega⟩
    · rintro ⟨k, hdist, hlt, hle⟩
      by_cases hk : k = d + 1
      · exact .inl (hk ▸ hdist)
      · exact .inr ⟨k, hdist, by omega, by omega⟩

/-- A search finds what is nearer first: each of its rounds finds what lies at one distance, and the
rounds after it what lies farther. -/
theorem search_ordered (h : Layered next origin d seen layer) :
    (search next rounds seen layer).Pairwise fun a b => ∀ j k,
      IsDistance (fun a b => b ∈ next a) origin a j →
        IsDistance (fun a b => b ∈ next a) origin b k → j ≤ k := by
  induction rounds generalizing d seen layer with
  | zero => exact List.Pairwise.nil
  | succ rounds ih =>
    have hfound : ∀ {a j}, a ∈ SearchTree.novel seen (layer.flatMap next) →
        IsDistance (fun a b => b ∈ next a) origin a j → j = d + 1 := fun ha hj =>
      hj.unique (h.mem_novel.1 ha)
    rw [search, List.pairwise_append]
    refine ⟨List.pairwise_of_forall_mem_list ?_, ih h.round, ?_⟩
    · intro a ha b hb j k hj hk
      rw [hfound ha hj, hfound hb hk]
    · intro a ha b hb j k hj hk
      obtain ⟨i, hi, hlt, -⟩ := h.round.mem_search_iff.1 hb
      rw [hfound ha hj, hk.unique hi]
      exact Nat.le_of_lt hlt

end Layered

/-- With more rounds a search goes on from what it has found. -/
theorem exists_search_add (next : Text → List Text) (rounds more : Nat) (seen : Std.TreeSet Text)
    (layer : List Text) :
    ∃ rest, search next (rounds + more) seen layer = search next rounds seen layer ++ rest := by
  induction rounds generalizing seen layer with
  | zero => exact ⟨_, by rw [Nat.zero_add, search, List.nil_append]⟩
  | succ rounds ih =>
    let found := SearchTree.novel seen (layer.flatMap next)
    obtain ⟨rest, hrest⟩ := ih (SearchTree.extend seen found) found
    refine ⟨rest, ?_⟩
    rw [Nat.succ_add, search, search, hrest, List.append_assoc]

end Search

namespace Graph

variable {g : Graph} {dir : Direction} {depth : Option Depth} {id x : Text} {ids : List Text}
variable {k n : Nat}

/-- Whether so many steps along the neighbours in a direction lead from one to another. -/
def LeadsIn (g : Graph) (dir : Direction) : Nat → Text → Text → Prop :=
  Steps fun a b => b ∈ g.neighbours dir a

/-- What is reached from an identifier within a depth is what lies at a distance from it that the
rounds of the search come to, that identifier apart. -/
theorem mem_reach_iff_distance : x ∈ g.reach dir depth id ↔
    ∃ k, IsDistance (fun a b => b ∈ g.neighbours dir a) id x k ∧
      0 < k ∧ k ≤ Depth.rounds g.size depth := by
  rw [← OrderedSet.mem_toList, toList_reach, (Layered.start _ _).mem_search_iff]
  simp only [Nat.zero_add]

/-- What is reached from an identifier within a depth is what paths of at most so many steps lead
to, that identifier apart. -/
theorem mem_reach_iff : x ∈ g.reach dir depth id ↔
    x ≠ id ∧ ∃ k ≤ Depth.rounds g.size depth, g.LeadsIn dir k id x := by
  rw [mem_reach_iff_distance]
  constructor
  · rintro ⟨k, hdist, hpos, hle⟩
    refine ⟨fun heq => ?_, k, hle, hdist.1⟩
    have hzero := hdist.unique (isDistance_zero.2 heq)
    omega
  · rintro ⟨hne, k, hle, hsteps⟩
    obtain ⟨j, hj, hdist⟩ := hsteps.exists_isDistance
    refine ⟨j, hdist, Nat.pos_of_ne_zero fun hzero => ?_, hj.trans hle⟩
    exact hne (isDistance_zero.1 (hzero ▸ hdist))

/-- A path to another identifier need not have more steps than the graph has nodes. -/
theorem LeadsIn.exists_le_size (h : g.LeadsIn dir k id x) (hne : x ≠ id) :
    ∃ j ≤ g.size, g.LeadsIn dir j id x := by
  have hpath : ReflTransGen (fun a b => b ∈ g.neighbours dir a) id x := Steps.exists_iff.1 ⟨k, h⟩
  have hleads : g.Leads dir id x := (reflTransGen_iff_eq_or_transGen.1 hpath).resolve_left hne
  exact (mem_reach_iff.1 (mem_reach_none.2 ⟨hne, hleads⟩)).2

/-- Without a bound all that a path leads to is reached. -/
theorem mem_reach_unbounded (hrounds : Depth.rounds g.size depth = g.size) :
    x ∈ g.reach dir depth id ↔ x ≠ id ∧ ∃ k, g.LeadsIn dir k id x := by
  rw [mem_reach_iff, hrounds]
  refine and_congr_right fun hne => ⟨?_, ?_⟩
  · rintro ⟨k, -, hk⟩
    exact ⟨k, hk⟩
  · rintro ⟨k, hk⟩
    exact hk.exists_le_size hne

/-- Within a natural number all that a path of at most so many steps leads to is reached. -/
theorem mem_reach_bounded (hrounds : Depth.rounds g.size depth = min g.size n) :
    x ∈ g.reach dir depth id ↔ x ≠ id ∧ ∃ k ≤ n, g.LeadsIn dir k id x := by
  rw [mem_reach_iff, hrounds]
  refine and_congr_right fun hne => ⟨?_, ?_⟩
  · rintro ⟨k, hk, hsteps⟩
    exact ⟨k, hk.trans (Nat.min_le_right _ _), hsteps⟩
  · rintro ⟨k, hk, hsteps⟩
    by_cases hsize : k ≤ g.size
    · exact ⟨k, le_min hsize hk, hsteps⟩
    · -- The bound is above the number of nodes, which is enough.
      obtain ⟨j, hj, hsteps⟩ := hsteps.exists_le_size hne
      exact ⟨j, le_min hj (by omega), hsteps⟩

/-- Where what is reached from each identifier is what paths of certain numbers of steps lead to,
the identifiers and what is reached from them are what such paths lead to, those without a step
counted in. -/
theorem mem_or_mem_reachAll_iff {allowed : Nat → Prop} (hzero : allowed 0)
    (hreach : ∀ id ∈ ids, x ∈ g.reach dir depth id ↔
      x ≠ id ∧ ∃ k, allowed k ∧ g.LeadsIn dir k id x) :
    x ∈ ids ∨ x ∈ g.reachAll dir depth ids ↔
      ∃ id ∈ ids, ∃ k, allowed k ∧ g.LeadsIn dir k id x := by
  rw [mem_reachAll]
  constructor
  · rintro (hx | ⟨id, hid, hx⟩)
    · exact ⟨x, hx, 0, hzero, .refl x⟩
    · exact ⟨id, hid, ((hreach id hid).1 hx).2⟩
  · rintro ⟨id, hid, hleads⟩
    by_cases heq : x = id
    · exact .inl (heq ▸ hid)
    · exact .inr ⟨id, hid, (hreach id hid).2 ⟨heq, hleads⟩⟩

end Graph

end DagSelect
