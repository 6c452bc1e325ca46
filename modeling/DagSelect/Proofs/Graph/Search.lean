import DagSelect.Proofs.Graph.Plain
import DagSelect.Proofs.Graph.Reach
import Mathlib.Data.List.Perm.Subperm
import Mathlib.Data.Set.Card
import Mathlib.Logic.Relation

/-!
# Searches without a bound

A search finds only what its start reaches. It ends with a layer that has no new neighbours, unless
every one of its rounds finds something; with as many rounds as there are nodes, it has then found
all of them. So a search without a bound finds exactly what is reached from its start along the
neighbours, the start apart.
-/

namespace DagSelect

open Relation

variable {next : Text → List Text} {rounds : Nat} {seen : Std.TreeSet Text} {layer : List Text}
variable {x y : Text}

/-- What a search finds is reached from its layer. -/
theorem exists_transGen_of_mem_search (h : x ∈ search next rounds seen layer) :
    ∃ a ∈ layer, TransGen (fun a b => b ∈ next a) a x := by
  induction rounds generalizing seen layer with
  | zero => simp [search] at h
  | succ rounds ih =>
    have hfound : ∀ {b}, b ∈ SearchTree.novel seen (layer.flatMap next) →
        ∃ a ∈ layer, b ∈ next a := fun hb =>
      List.mem_flatMap.1 (SearchTree.mem_novel.1 hb).1
    rcases List.mem_append.1 h with h | h
    · obtain ⟨a, ha, hax⟩ := hfound h
      exact ⟨a, ha, .single hax⟩
    · obtain ⟨b, hb, hbx⟩ := ih h
      obtain ⟨a, ha, hab⟩ := hfound hb
      exact ⟨a, ha, .head hab hbx⟩

/-- Whether a search has found all neighbours of what was seen before or found by it. -/
def SearchComplete (next : Text → List Text) (seen : Std.TreeSet Text) (found : List Text) : Prop :=
  ∀ x, x ∈ seen ∨ x ∈ found → ∀ y ∈ next x, y ∈ seen ∨ y ∈ found

/-- An empty layer has no neighbours. -/
theorem search_nil : search next rounds seen [] = [] := by
  induction rounds generalizing seen with
  | zero => rfl
  | succ rounds ih =>
    rw [search, List.flatMap_nil, SearchTree.novel, List.nil_append]
    exact ih

/-- Whether a layer is where a search goes on: it has been seen, and only its members have
neighbours that have not been. -/
structure Frontier (next : Text → List Text) (seen : Std.TreeSet Text) (layer : List Text) :
    Prop where
  mem_seen : ∀ x ∈ layer, x ∈ seen
  closed : ∀ x ∈ seen, x ∉ layer → ∀ y ∈ next x, y ∈ seen

namespace Frontier

/-- A search starts at a frontier. -/
theorem start (next : Text → List Text) (ids : List Text) :
    Frontier next (SearchTree.ofList ids) ids where
  mem_seen _ hx := SearchTree.mem_ofList.2 hx
  closed _ hx hnot := absurd (SearchTree.mem_ofList.1 hx) hnot

/-- A round finds all neighbours that have not been seen. -/
theorem mem_seen_or_novel (h : Frontier next seen layer) (hx : x ∈ seen) (hy : y ∈ next x) :
    y ∈ seen ∨ y ∈ SearchTree.novel seen (layer.flatMap next) := by
  by_cases hmem : x ∈ layer
  · by_cases hnew : y ∈ seen
    · exact .inl hnew
    · exact .inr (SearchTree.mem_novel.2 ⟨List.mem_flatMap.2 ⟨x, hmem, hy⟩, hnew⟩)
  · exact .inl (h.closed x hx hmem y hy)

/-- What a round finds is the next frontier. -/
theorem round (h : Frontier next seen layer) :
    Frontier next (SearchTree.extend seen (SearchTree.novel seen (layer.flatMap next)))
      (SearchTree.novel seen (layer.flatMap next)) where
  mem_seen _ hx := SearchTree.mem_extend.2 (.inr hx)
  closed _ hx hnot _ hy := by
    have hx' := (SearchTree.mem_extend.1 hx).resolve_right hnot
    exact SearchTree.mem_extend.2 (h.mem_seen_or_novel hx' hy)

end Frontier

/-- A search from a frontier is complete in the end, or finds something in each of its rounds. -/
theorem Frontier.searchComplete_or_le_length (h : Frontier next seen layer) :
    SearchComplete next seen (search next rounds seen layer) ∨
      rounds ≤ (search next rounds seen layer).length := by
  induction rounds generalizing seen layer with
  | zero => exact .inr (Nat.zero_le _)
  | succ rounds ih =>
    rw [search]
    let found := SearchTree.novel seen (layer.flatMap next)
    by_cases hempty : found = []
    · left
      have hnone : found ++ search next rounds (SearchTree.extend seen found) found = [] := by
        rw [hempty, search_nil, List.nil_append]
      intro x hx y hy
      rw [hnone] at hx ⊢
      have hx' : x ∈ seen := hx.resolve_right List.not_mem_nil
      have hy' : y ∈ seen ∨ y ∈ found := h.mem_seen_or_novel hx' hy
      rw [hempty] at hy'
      exact hy'
    · rcases ih h.round with hcomplete | hlength
      · left
        intro x hx y hy
        rw [List.mem_append, ← or_assoc, ← SearchTree.mem_extend] at hx ⊢
        exact hcomplete x hx y hy
      · right
        have hpos : 0 < found.length := List.length_pos_of_ne_nil hempty
        rw [List.length_append, Nat.add_comm]
        exact Nat.add_le_add hpos hlength

namespace Graph

variable {g : Graph} {dir : Direction} {id : Text}

/-- Whether an identifier is reached from another along the neighbours in a direction. -/
def Leads (g : Graph) (dir : Direction) : Text → Text → Prop :=
  TransGen fun a b => b ∈ g.neighbours dir a

/-- A search without a bound finds exactly what its start leads to, the start apart. -/
theorem mem_reach_none : x ∈ g.reach dir none id ↔ x ≠ id ∧ g.Leads dir id x := by
  let found := search (g.neighbours dir) g.size (SearchTree.ofList [id]) [id]
  have hreach : ∀ {z}, z ∈ g.reach dir none id ↔ z ∈ found := by
    intro z
    rw [← OrderedSet.mem_toList, toList_reach]
    rfl
  have hstart : ∀ {z}, z ∈ SearchTree.ofList [id] ↔ z = id := by
    intro z
    rw [SearchTree.mem_ofList, List.mem_singleton]
  rw [hreach]
  constructor
  · intro h
    have hne : x ≠ id := fun heq => not_mem_of_mem_search h (hstart.2 heq)
    obtain ⟨a, ha, hax⟩ := exists_transGen_of_mem_search h
    rw [List.mem_singleton.1 ha] at hax
    exact ⟨hne, hax⟩
  · rintro ⟨hne, hleads⟩
    have hnode : ∀ z ∈ found, z ∈ g.nodes.toList := by
      intro z hz
      obtain ⟨y, hy⟩ := exists_next_of_mem_search hz
      exact mem_nodes_of_mem_neighbours hy
    have hend : SearchComplete (g.neighbours dir) (SearchTree.ofList [id]) found ∨
        g.size ≤ found.length :=
      (Frontier.start _ _).searchComplete_or_le_length
    rcases hend with hcomplete | hlength
    · have hin : x ∈ SearchTree.ofList [id] ∨ x ∈ found := by
        induction hleads with
        | single h => exact hcomplete id (.inl (hstart.2 rfl)) _ h
        | @tail b c _ hbc ih =>
          by_cases heq : b = id
          · exact hcomplete b (.inl (hstart.2 heq)) c hbc
          · exact hcomplete b (ih heq) c hbc
      exact hin.resolve_left fun h => hne (hstart.1 h)
    · -- Every node has been found, and what is led to is a node.
      have hall : found.Perm g.nodes.toList :=
        ((search_nodup _ _ _ _).subperm hnode).perm_of_length_le hlength
      obtain ⟨b, -, hbx⟩ := TransGen.tail'_iff.1 hleads
      exact hall.mem_iff.2 (mem_nodes_of_mem_neighbours hbx)

/-- The identifiers that are reached from one along the edges, that one apart. -/
def below (g : Graph) (id : Text) : Set Text :=
  { x | x ≠ id ∧ TransGen g.Edge id x }

/-- In a graph that lists its edges, a search without a bound counts what is below its start. -/
theorem Lists.size_reach (hg : g.Lists g.edges.toList) :
    (g.reach .downstream none id).size = (g.below id).ncard := by
  have hset : g.below id = (g.reach .downstream none id).toList.toFinset := by
    ext x
    rw [Finset.mem_coe, List.mem_toFinset, OrderedSet.mem_toList, mem_reach_none, Leads,
      hg.downstream_eq]
    rfl
  rw [hset, Set.ncard_coe_finset, List.toFinset_card_of_nodup (OrderedSet.nodup _)]
  rfl

end Graph

end DagSelect
