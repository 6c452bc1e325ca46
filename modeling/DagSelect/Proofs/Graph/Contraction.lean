import DagSelect.Graph.Contraction
import DagSelect.Proofs.Graph.Plain
import DagSelect.Proofs.Graph.Reach
import Mathlib.Data.List.Induction
import Mathlib.Logic.Relation

/-!
# Contraction keeps paths

A contraction fails exactly if it would have to remove a pinned node. Where it succeeds, it bypasses
the nodes that are not kept one after another, which leaves the other nodes. Between two different
ones there is then an edge exactly if the graph had a path from one to the other with removed nodes
only in between, and no node gains or loses a self loop. So contraction keeps, between different
kept nodes, which one is reached from which.

When it fails and which nodes remain is said of every graph. What is said of the edges is about
graphs that keep what a contraction relies on, as plain graphs do, which stay plain under
contraction.
-/

namespace DagSelect.Graph

open Relation

variable {g : Graph} {removed : Text → Prop} {p c x : Text}

/-- A path along the edges with removed identifiers only between its ends. -/
inductive Through (g : Graph) (removed : Text → Prop) : Text → Text → Prop
  | edge {p c : Text} (h : g.Edge p c) : Through g removed p c
  | step {p x c : Text} (h : g.Edge p x) (hx : removed x) (rest : Through g removed x c) :
      Through g removed p c

namespace Through

/-- Two paths that meet in a removed identifier are one path. -/
theorem append (h₁ : Through g removed p x) (hx : removed x) (h₂ : Through g removed x c) :
    Through g removed p c := by
  induction h₁ with
  | edge h => exact .step h hx h₂
  | step h hy _ ih => exact .step h hy (ih hx h₂)

/-- A path remains one with more edges and more removed identifiers. -/
theorem mono {g' : Graph} {removed' : Text → Prop} (h : Through g removed p c)
    (hedge : ∀ a b, g.Edge a b → g'.Edge a b) (himp : ∀ y ∈ g.nodes, removed y → removed' y) :
    Through g' removed' p c := by
  induction h with
  | edge h => exact .edge (hedge _ _ h)
  | step h hy _ ih => exact .step (hedge _ _ h) (himp _ h.child_mem hy) ih

/-- A path along the edges leads from one identifier to the other. -/
theorem transGen (h : Through g removed p c) : TransGen g.Edge p c := by
  induction h with
  | edge h => exact .single h
  | step h _ _ ih => exact .head h ih

/-- Removing one more identifier adds the paths that go through it once. -/
theorem or_iff : Through g (fun y => removed y ∨ y = x) p c ↔
    Through g removed p c ∨ Through g removed p x ∧ Through g removed x c := by
  constructor
  · intro h
    induction h with
    | edge h => exact .inl (.edge h)
    | step h hy _ ih =>
      rcases hy with hy | rfl
      · rcases ih with ih | ⟨ih₁, ih₂⟩
        · exact .inl (.step h hy ih)
        · exact .inr ⟨.step h hy ih₁, ih₂⟩
      · exact .inr ⟨.edge h, ih.elim id And.right⟩
  · have hmono : ∀ {a b}, Through g removed a b → Through g (fun y => removed y ∨ y = x) a b :=
      fun h => h.mono (fun _ _ => id) fun _ _ => .inl
    rintro (h | ⟨h₁, h₂⟩)
    · exact hmono h
    · exact (hmono h₁).append (.inr rfl) (hmono h₂)

end Through

/-- The shortcuts of a node connect nodes. -/
theorem mem_nodes_of_mem_shortcuts {e : Text × Text} (he : e ∈ g.shortcuts x) :
    e.1 ∈ g.nodes ∧ e.2 ∈ g.nodes := by
  obtain ⟨q, hq, he⟩ := List.mem_flatMap.1 he
  obtain ⟨d, hd, rfl⟩ := List.mem_map.1 he
  exact ⟨mem_nodes_of_mem_neighbours hq, mem_nodes_of_mem_neighbours (List.mem_filter.1 hd).1⟩

/-- Bypassing a node removes it and keeps the other nodes in order. -/
theorem nodes_bypass (g : Graph) (x : Text) :
    (g.bypass x).nodes = g.nodes.filter fun y => y ≠ x := by
  have hnodes : ((g.shortcuts x).foldl Graph.addEdge g).nodes = g.nodes :=
    nodes_foldl_addEdge fun e he => mem_nodes_of_mem_shortcuts he
  change ((g.shortcuts x).foldl Graph.addEdge g).nodes.filter (fun y => y ≠ x) = _
  rw [hnodes]

/-- The nodes that are not bypassed remain, in order. -/
theorem nodes_foldl_bypass (g : Graph) (ids : List Text) :
    (ids.foldl Graph.bypass g).nodes = g.nodes.filter fun y => y ∉ ids := by
  induction ids generalizing g with
  | nil =>
    rw [← OrderedSet.toList_inj]
    exact (List.filter_eq_self.2 fun y _ => by simp).symm
  | cons id ids ih =>
    rw [List.foldl_cons, ih, nodes_bypass, ← OrderedSet.toList_inj]
    simp only [OrderedSet.toList_filter, List.filter_filter]
    refine List.filter_congr fun y _ => ?_
    simp [Bool.and_comm]

/-- The graph that a contraction gives where no node to be removed is pinned. -/
def contracted (g : Graph) (kept : List Text) : Graph :=
  (g.nodes.toList.filter fun id => id ∉ OrderedSet.ofList kept).foldl Graph.bypass g.settled

/-- Dropping nodes is bypassing them, unless one of them is pinned in the graph that the work
started from. -/
theorem foldlM_drop (start g : Graph) (ids : List Text) : ids.foldlM start.drop g =
    if ids.any start.isPinned then .error .unremovable else .ok (ids.foldl Graph.bypass g) := by
  induction ids generalizing g with
  | nil => rfl
  | cons id ids ih =>
    rw [List.foldlM_cons, drop, List.any_cons]
    cases start.isPinned id with
    | true => rfl
    | false => exact ih (g.bypass id)

/-- A contraction would have to remove a pinned node exactly if one is not kept. -/
theorem any_isPinned_iff {kept : List Text} :
    (g.nodes.toList.filter fun id => id ∉ OrderedSet.ofList kept).any g.settled.isPinned = true ↔
      ∃ x, g.Pinned x ∧ x ∉ kept := by
  have hpinned : ∀ x, g.settled.isPinned x = true ↔ g.Pinned x := fun x =>
    decide_eq_true_iff.trans edge_settled
  simp only [List.any_eq_true, List.mem_filter, decide_eq_true_eq, OrderedSet.mem_ofList, hpinned]
  constructor
  · rintro ⟨x, ⟨-, hx⟩, h⟩
    exact ⟨x, h, hx⟩
  · rintro ⟨x, h, hx⟩
    exact ⟨x, ⟨h.1.child_mem, hx⟩, h⟩

/-- A contraction that keeps all pinned nodes succeeds. -/
theorem contract_eq_ok {kept : List Text} (h : ∀ x, g.Pinned x → x ∈ kept) :
    g.contract kept = .ok (g.contracted kept) := by
  have hnone : ¬ ∃ x, g.Pinned x ∧ x ∉ kept := fun ⟨x, hpinned, hx⟩ => hx (h x hpinned)
  exact (foldlM_drop _ _ _).trans (if_neg (mt any_isPinned_iff.1 hnone))

/-- A contraction that does not keep some pinned node fails. -/
theorem contract_eq_error {kept : List Text} (hpinned : g.Pinned x) (hx : x ∉ kept) :
    g.contract kept = .error .unremovable :=
  (foldlM_drop _ _ _).trans (if_pos (any_isPinned_iff.2 ⟨x, hpinned, hx⟩))

/-- The nodes of a contraction are the kept ones, in the order of the graph. -/
theorem nodes_contracted (g : Graph) (kept : List Text) :
    (g.contracted kept).nodes = g.nodes.filter fun y => y ∈ kept := by
  rw [contracted, nodes_foldl_bypass, ← OrderedSet.toList_inj]
  refine List.filter_congr fun y hy => ?_
  have hnode : y ∈ g.nodes.toList := hy
  simp [hnode]

/-- In a settled graph the shortcuts of a node connect its parents, the one that is never listed
apart, to its other children. -/
theorem IsSettled.mem_shortcuts (hg : g.IsSettled) :
    (p, c) ∈ g.shortcuts x ↔ (g.Edge p x ∧ p ≠ Text.voidKey) ∧ g.Edge x c ∧ p ≠ c := by
  simp only [shortcuts, List.mem_flatMap, List.mem_map, List.mem_filter, Prod.mk.injEq,
    mem_neighbours_upstream, mem_neighbours_downstream, decide_eq_true_eq]
  constructor
  · rintro ⟨q, hq, d, ⟨⟨hd, -⟩, hne⟩, rfl, rfl⟩
    exact ⟨hq, hd, hne⟩
  · rintro ⟨hp, hc, hne⟩
    exact ⟨p, hp, c, ⟨⟨hc, ne_voidKey_of_not_reserved (hg _ hc)⟩, hne⟩, rfl, rfl⟩

/-- The edges after bypassing a node of a settled graph are the old ones and the shortcuts, as far
as they do not touch it. -/
theorem IsSettled.edge_bypass (hg : g.IsSettled) : (g.bypass x).Edge p c ↔
    (g.Edge p c ∨ (g.Edge p x ∧ p ≠ Text.voidKey) ∧ g.Edge x c ∧ p ≠ c) ∧ p ≠ x ∧ c ≠ x := by
  rw [bypass, removeNode, edge_induced, decide_eq_true_eq, decide_eq_true_eq, Edge,
    hg.mem_foldl_addEdge fun e he => mem_nodes_of_mem_shortcuts he, hg.mem_shortcuts]
  refine and_congr_left fun _ => or_congr Iff.rfl (and_iff_left_of_imp ?_)
  exact fun h => hg (x, c) h.2.1

/-- A settled graph stays settled when a node is bypassed. -/
theorem IsSettled.bypass (hg : g.IsSettled) (x : Text) : (g.bypass x).IsSettled := by
  rintro ⟨p, c⟩ he
  rcases (hg.edge_bypass.1 he).1 with h | ⟨-, h, -⟩
  · exact hg _ h
  · exact hg (x, c) h

/-- A node of a settled graph that is not bypassed keeps its self loop and gains none. -/
theorem IsSettled.loop_foldl_bypass (hg : g.IsSettled) {ids : List Text} (hp : p ∉ ids) :
    (ids.foldl Graph.bypass g).Edge p p ↔ g.Edge p p := by
  induction ids generalizing g with
  | nil => rfl
  | cons id ids ih =>
    have hne : p ≠ id := List.ne_of_not_mem_cons hp
    rw [List.foldl_cons, ih (hg.bypass id) (List.not_mem_of_not_mem_cons hp), hg.edge_bypass]
    simp [hne]

/-- A plain graph stays plain when a node is bypassed. -/
theorem Plain.bypass (hg : g.Plain) : (g.bypass x).Plain := by
  rintro ⟨p, c⟩ he
  rcases (hg.isSettled.edge_bypass.1 he).1 with h | ⟨⟨-, hp⟩, hc, -⟩
  · exact hg _ h
  · exact ⟨(hg _ hc).1, hp⟩

/-- A plain graph stays plain when nodes are bypassed one after another. -/
theorem Plain.foldl_bypass (hg : g.Plain) (ids : List Text) : (ids.foldl Graph.bypass g).Plain := by
  induction ids generalizing g with
  | nil => exact hg
  | cons id ids ih => exact ih hg.bypass

/-- A plain graph stays plain under contraction. -/
theorem Plain.contracted (hg : g.Plain) (kept : List Text) : (g.contracted kept).Plain :=
  (hg.of_edge fun _ _ => hg.edge_settled.1).foldl_bypass _

/-- Whether a graph keeps what its contraction relies on: every edge is still there when the nodes
are added before the edges, and the identifiers to be removed list all their parents. -/
structure Contractible (g : Graph) (removed : Text → Prop) : Prop where
  held : ∀ p c, g.Edge p c → g.settled.Edge p c
  listed : ∀ p x, removed x → g.Edge p x → p ∈ g.neighbours .upstream x

namespace Contractible

/-- A contraction of such a graph removes no pinned node. -/
theorem contract_eq_ok {kept : List Text} (hg : g.Contractible (· ∉ kept)) :
    g.contract kept = .ok (g.contracted kept) := by
  refine Graph.contract_eq_ok fun x hpinned => by_contra fun hx => ?_
  have hlisted := hg.listed _ x hx hpinned.1
  exact (mem_neighbours_upstream.1 hlisted).2 rfl

/-- A graph that keeps all edges when the nodes are added first is settled. -/
theorem isSettled (hg : g.Contractible removed) : g.IsSettled :=
  fun e he => (edge_settled.1 (hg.held e.1 e.2 he)).2

/-- The parents of an identifier to be removed are not the one that is never listed. -/
theorem ne_voidKey (hg : g.Contractible removed) (hx : removed x) (h : g.Edge p x) :
    p ≠ Text.voidKey :=
  (mem_neighbours_upstream.1 (hg.listed p x hx h)).2

/-- A settled graph can be contracted if no identifier to be removed is a child of the one that is
never listed. -/
theorem of_isSettled (hg : g.IsSettled)
    (h : ∀ p x, removed x → g.Edge p x → p ≠ Text.voidKey) : g.Contractible removed where
  held p c he := edge_settled.2 ⟨he, hg (p, c) he⟩
  listed p x hx he := mem_neighbours_upstream.2 ⟨he, h p x hx he⟩

/-- A plain graph can be contracted, whatever is to be removed. -/
theorem of_plain (hg : g.Plain) (removed : Text → Prop) : g.Contractible removed :=
  of_isSettled hg.isSettled fun p x _ he => (hg (p, x) he).2

/-- Adding the nodes before the edges changes no edge. -/
theorem edge_settled (hg : g.Contractible removed) : g.settled.Edge p c ↔ g.Edge p c :=
  ⟨fun h => (Graph.edge_settled.1 h).1, hg.held p c⟩

/-- A graph can still be contracted when its nodes are added before its edges. -/
theorem settled (hg : g.Contractible removed) : g.settled.Contractible removed :=
  of_isSettled (isSettled_settled g) fun _ _ hx he => hg.ne_voidKey hx (hg.edge_settled.1 he)

/-- The edges after bypassing a node that is to be removed are the old ones and those from its
parents to its other children, as far as they do not touch it. -/
theorem edge_bypass (hg : g.Contractible removed) (hx : removed x) : (g.bypass x).Edge p c ↔
    (g.Edge p c ∨ g.Edge p x ∧ g.Edge x c ∧ p ≠ c) ∧ p ≠ x ∧ c ≠ x := by
  have hparent : g.Edge p x ∧ p ≠ Text.voidKey ↔ g.Edge p x :=
    and_iff_left_of_imp fun h => hg.ne_voidKey hx h
  rw [hg.isSettled.edge_bypass, hparent]

/-- A graph can still be contracted when a node is bypassed: its parents that are connected to its
children are listed ones. -/
theorem bypass (hg : g.Contractible removed) (x : Text) : (g.bypass x).Contractible removed := by
  apply of_isSettled (hg.isSettled.bypass x)
  intro p y hy he
  rcases (hg.isSettled.edge_bypass.1 he).1 with h | ⟨⟨-, hp⟩, -⟩
  · exact hg.ne_voidKey hy h
  · exact hp

/-- A graph can still be contracted when nodes are bypassed one after another. -/
theorem foldl_bypass (hg : g.Contractible removed) (ids : List Text) :
    (ids.foldl Graph.bypass g).Contractible removed := by
  induction ids generalizing g with
  | nil => exact hg
  | cons id ids ih => exact ih (hg.bypass id)

/-- Between different nodes that are not bypassed there is an edge where there was a path through
bypassed nodes. The induction takes the last bypassed node off, so that it is a remaining node of
the graph before it and no self loop comes in. -/
theorem edge_foldl_bypass (hg : g.Contractible removed) {ids : List Text} (hids : ids.Nodup)
    (hremoved : ∀ x ∈ ids, removed x) (hp : p ∉ ids) (hc : c ∉ ids) (hne : p ≠ c) :
    (ids.foldl Graph.bypass g).Edge p c ↔ Through g (· ∈ ids) p c := by
  induction ids using List.reverseRecOn generalizing p c with
  | nil =>
    refine ⟨.edge, fun h => ?_⟩
    cases h with
    | edge h => exact h
    | step _ hx _ => exact absurd hx List.not_mem_nil
  | append_singleton ids x ih =>
    have hx : x ∉ ids := fun h => (List.nodup_append.1 hids).2.2 x h x (by simp) rfl
    have hids' : ids.Nodup := (List.nodup_append.1 hids).1
    have hremoved' : ∀ y ∈ ids, removed y := fun y hy => hremoved y (List.mem_append_left _ hy)
    have hlast : removed x := hremoved x (by simp)
    simp only [List.mem_append, List.mem_singleton, not_or] at hp hc ⊢
    rw [List.foldl_append, List.foldl_cons, List.foldl_nil, (hg.foldl_bypass ids).edge_bypass hlast,
      Through.or_iff, ih hids' hremoved' hp.1 hc.1 hne, ih hids' hremoved' hp.1 hx hp.2,
      ih hids' hremoved' hx hc.1 (Ne.symm hc.2)]
    simp [hp.2, hc.2, hne]

variable {kept : List Text}

/-- A kept node has a self loop in the contraction exactly if it had one. -/
theorem loop_contracted (hg : g.Contractible removed) (hp : p ∈ kept) :
    (g.contracted kept).Edge p p ↔ g.Edge p p := by
  rw [contracted, (isSettled_settled g).loop_foldl_bypass (by simp [hp]), hg.edge_settled]

/-- Between different kept nodes there is an edge in the contraction exactly if the graph has a path
from one to the other through nodes that are not kept. -/
theorem edge_contracted (hg : g.Contractible (· ∉ kept)) (hp : p ∈ kept) (hc : c ∈ kept)
    (hne : p ≠ c) : (g.contracted kept).Edge p c ↔ Through g (· ∉ kept) p c := by
  have hremoved : ∀ y, y ∈ g.nodes.toList.filter (fun y => y ∉ OrderedSet.ofList kept) ↔
      y ∈ g.nodes ∧ y ∉ kept := by
    intro y
    simp [OrderedSet.mem_toList]
  rw [contracted, hg.settled.edge_foldl_bypass (g.nodes.nodup.filter _)
    (fun y hy => ((hremoved y).1 hy).2) (fun h => ((hremoved _).1 h).2 hp)
    (fun h => ((hremoved _).1 h).2 hc) hne]
  constructor
  · exact fun h => h.mono (fun _ _ => hg.edge_settled.1) fun y _ hy => ((hremoved y).1 hy).2
  · exact fun h => h.mono (fun _ _ => hg.edge_settled.2) fun y hy hk => (hremoved y).2 ⟨hy, hk⟩

end Contractible

/-- The edges of a contraction are between kept nodes. -/
theorem kept_of_edge_contracted {kept : List Text} (h : (g.contracted kept).Edge p c) :
    p ∈ kept ∧ c ∈ kept := by
  have hp := h.parent_mem
  have hc := h.child_mem
  rw [nodes_contracted, OrderedSet.mem_filter, decide_eq_true_eq] at hp hc
  exact ⟨hp.2, hc.2⟩

namespace Contractible

variable {kept : List Text}

/-- Between different kept nodes, one is reached from the other in the contraction exactly if it is
in the graph. -/
theorem transGen_contracted (hg : g.Contractible (· ∉ kept)) (hp : p ∈ kept) (hc : c ∈ kept)
    (hne : p ≠ c) : TransGen (g.contracted kept).Edge p c ↔ TransGen g.Edge p c := by
  constructor
  · intro h
    refine h.lift' id fun a b hab => ?_
    obtain ⟨ha, hb⟩ := kept_of_edge_contracted hab
    by_cases heq : a = b
    · subst heq
      exact .single ((hg.loop_contracted ha).1 hab)
    · exact ((hg.edge_contracted ha hb heq).1 hab).transGen
  · -- A path in the graph has a last kept node, and what follows it goes through removed nodes.
    have hlast : ∀ {x}, TransGen g.Edge p x →
        ∃ a ∈ kept, ReflTransGen (g.contracted kept).Edge p a ∧ Through g (· ∉ kept) a x := by
      intro x h
      induction h with
      | single h => exact ⟨p, hp, .refl, .edge h⟩
      | @tail x y _ hxy ih =>
        obtain ⟨a, ha, hpa, hax⟩ := ih
        by_cases hx : x ∈ kept
        · refine ⟨x, hx, ?_, .edge hxy⟩
          by_cases heq : a = x
          · exact heq ▸ hpa
          · exact hpa.tail ((hg.edge_contracted ha hx heq).2 hax)
        · exact ⟨a, ha, hpa, hax.append hx (.edge hxy)⟩
    intro h
    obtain ⟨a, ha, hpa, hac⟩ := hlast h
    by_cases heq : a = c
    · subst heq
      exact (reflTransGen_iff_eq_or_transGen.1 hpa).resolve_left (Ne.symm hne)
    · exact .tail' hpa ((hg.edge_contracted ha hc heq).2 hac)

/-- A kept node is on a cycle of the contraction exactly if it has a self loop or is on a cycle with
another kept node. -/
theorem cyclic_contracted (hg : g.Contractible (· ∉ kept)) (hc : c ∈ kept) :
    TransGen (g.contracted kept).Edge c c ↔
      g.Edge c c ∨ ∃ d ∈ kept, d ≠ c ∧ TransGen g.Edge c d ∧ TransGen g.Edge d c := by
  constructor
  · intro h
    obtain ⟨d, hcd, hdc⟩ := TransGen.head'_iff.1 h
    by_cases heq : d = c
    · subst heq
      exact .inl ((hg.loop_contracted hc).1 hcd)
    · have hd : d ∈ kept := (kept_of_edge_contracted hcd).2
      have hback : TransGen (g.contracted kept).Edge d c :=
        (reflTransGen_iff_eq_or_transGen.1 hdc).resolve_left (Ne.symm heq)
      exact .inr ⟨d, hd, heq, (hg.transGen_contracted hc hd (Ne.symm heq)).1 (.single hcd),
        (hg.transGen_contracted hd hc heq).1 hback⟩
  · rintro (h | ⟨d, hd, hne, hcd, hdc⟩)
    · exact .single ((hg.loop_contracted hc).2 h)
    · exact ((hg.transGen_contracted hc hd (Ne.symm hne)).2 hcd).trans
        ((hg.transGen_contracted hd hc hne).2 hdc)

end Contractible

/-- In a plain graph, one of two different kept nodes is reached from the other in the contraction
exactly if it is in the graph. -/
theorem Plain.transGen_contracted (hg : g.Plain) {kept : List Text} (hp : p ∈ kept) (hc : c ∈ kept)
    (hne : p ≠ c) : TransGen (g.contracted kept).Edge p c ↔ TransGen g.Edge p c :=
  (Contractible.of_plain hg _).transGen_contracted hp hc hne

/-- A contraction of a graph that keeps what it relies on succeeds. It has the kept nodes in the
order of the graph. Between two different ones it has an edge exactly if the graph has a path from
one to the other through removed nodes only, and a kept node has a self loop exactly if it had one.
So which of two different kept nodes is reached from which stays as it was. -/
theorem contract_keeps_paths {kept : List Text} (hg : g.Contractible (· ∉ kept)) :
    ∃ subset, g.contract kept = .ok subset ∧
      subset.nodes.toList = g.nodes.toList.filter (fun id => id ∈ kept) ∧
      (∀ u ∈ kept, ∀ v ∈ kept, u ≠ v → (subset.Edge u v ↔ Through g (· ∉ kept) u v)) ∧
      (∀ u ∈ kept, subset.Edge u u ↔ g.Edge u u) ∧
      ∀ u ∈ kept, ∀ v ∈ kept, u ≠ v → (TransGen subset.Edge u v ↔ TransGen g.Edge u v) := by
  refine ⟨_, hg.contract_eq_ok, ?_, ?_, ?_, ?_⟩
  · rw [nodes_contracted, OrderedSet.toList_filter]
  · exact fun u hu v hv hne => hg.edge_contracted hu hv hne
  · exact fun u hu => hg.loop_contracted hu
  · exact fun u hu v hv hne => hg.transGen_contracted hu hv hne

end DagSelect.Graph

namespace DagSelect

/-- Two nodes with edges between them and over two others, of which each leads to the other, one to
itself, and one back to where it is reached from. -/
def Sample.detour : Graph :=
  .ofEdges ["a", "x", "y", "b"]
    [("a", "x"), ("x", "y"), ("y", "x"), ("x", "x"), ("y", "a"), ("y", "b"), ("b", "a"), ("b", "b")]

namespace Graph

/-- In the sample, what leads from one kept node to the other becomes an edge, and what leads back
to a kept node becomes no self loop. -/
theorem contract_keeps_paths_sample : ∃ subset,
    Sample.detour.Contractible (· ∉ (["b", "none", "a"] : List Text)) ∧
    Sample.detour.contract ["b", "none", "a"] = .ok subset ∧
    subset.nodes.toList = (["a", "b"] : List Text) ∧
    subset.Edge "a" "b" ∧ subset.Edge "b" "b" ∧ ¬ subset.Edge "a" "a" := by
  have hplain : ∀ e ∈ Sample.detour.edges.toList,
      Text.isReserved e.2 = false ∧ e.1 ≠ Text.voidKey := by
    decide +kernel
  have hg : Sample.detour.Contractible (· ∉ (["b", "none", "a"] : List Text)) :=
    .of_plain hplain _
  have hedge : ∀ e ∈ ([("a", "x"), ("x", "y"), ("y", "b"), ("b", "b")] : List (Text × Text)),
      e ∈ Sample.detour.edges := by
    decide +kernel
  have hloop : (("a" : Text), ("a" : Text)) ∉ Sample.detour.edges := by
    decide +kernel
  obtain ⟨subset, hsubset, hnodes, hpaths, hloops, -⟩ := contract_keeps_paths hg
  have hpath : Through Sample.detour (· ∉ (["b", "none", "a"] : List Text)) "a" "b" :=
    .step (hedge ("a", "x") (by decide)) (by decide)
      (.step (hedge ("x", "y") (by decide)) (by decide) (.edge (hedge ("y", "b") (by decide))))
  refine ⟨subset, hg, hsubset, ?_, ?_, ?_, ?_⟩
  · rw [hnodes]
    decide +kernel
  · exact (hpaths "a" (by decide) "b" (by decide) (by decide)).2 hpath
  · exact (hloops "b" (by decide)).2 (hedge ("b", "b") (by decide))
  · exact fun h => hloop ((hloops "a" (by decide)).1 h)

end Graph

end DagSelect
