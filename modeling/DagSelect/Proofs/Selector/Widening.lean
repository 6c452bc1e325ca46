import DagSelect.Proofs.Graph.Distance
import DagSelect.Proofs.Selector.Totality
import DagSelect.Proofs.Spec.Grammar

/-!
# From a text to the members around a selection

The plus signs of a criterion ask for the members around what it matches. A numeral at such a sign
bounds the number of steps by its exact value: it may be rounded when it is read, but only where the
value exceeds the number of members anyway, and no path needs more steps than that. The steps go
along dependencies, and both ends of a step take part in selections, so no path leads through a
disabled member or an empty node.
-/

namespace DagSelect

/-- Whether the numeral at a plus sign allows a number of steps; without digits there is no
bound. -/
def Criterion.Allows (digits : List Char) (k : Nat) : Prop :=
  digits ≠ [] → k ≤ Text.decimalValue digits

namespace Manifest

/-- Whether an identifier belongs to a member that is enabled and not an empty node. -/
def TakesPart (m : Manifest) (id : Text) : Prop :=
  ∃ x ∈ m.members, x.id = id ∧ x.enabled = true ∧
    ∀ kind empty, x.role = .node kind empty → empty = false

/-- The relation of a parent to a member that names it, where both take part. -/
def Feeds (m : Manifest) (parent child : Text) : Prop :=
  m.DependsOn child parent ∧ m.TakesPart parent ∧ m.TakesPart child

end Manifest

namespace Graph

variable {g : Graph} {dir : Direction} {digits : List Char} {depth : Option Depth} {id x : Text}

/-- Within the bound that digits denote, all that a path of as many steps as they allow leads to is
reached, if the graph has fewer than 2^53 nodes. -/
theorem mem_reach_of_denotes (hsize : g.size < 2 ^ 53) (hdepth : Criterion.Denotes digits depth) :
    x ∈ g.reach dir depth id ↔
      x ≠ id ∧ ∃ k, Criterion.Allows digits k ∧ g.LeadsIn dir k id x := by
  by_cases hnil : digits = []
  · have hrounds : Depth.rounds g.size depth = g.size := by rw [hdepth.absent hnil]; rfl
    simp only [mem_reach_unbounded hrounds, Criterion.Allows, hnil, ne_eq, not_true_eq_false,
      false_implies, true_and]
  · have hrounds : Depth.rounds g.size depth = min g.size (Text.decimalValue digits) := by
      rw [hdepth.number hnil, Depth.rounds_ofNumber hsize]
    simp only [mem_reach_bounded hrounds, Criterion.Allows, ne_eq, hnil, not_false_eq_true,
      forall_true_left]

/-- Together with the start, what is reached within the bound that digits denote is all that a path
of as many steps as they allow leads to. -/
theorem mem_or_mem_reachAll (hsize : g.size < 2 ^ 53) (hdepth : Criterion.Denotes digits depth)
    {ids : IdSet} : x ∈ ids ∨ x ∈ g.reachAll dir depth ids.toList ↔
      ∃ id ∈ ids, ∃ k, Criterion.Allows digits k ∧ g.LeadsIn dir k id x :=
  mem_or_mem_reachAll_iff (fun _ => Nat.zero_le _) fun _ _ => mem_reach_of_denotes hsize hdepth

end Graph

namespace Selector

variable {m : Manifest} {g : Graph} {registry : Registry} {filter : ResourceFilter}
variable {greedyOption : String} {id a b : Text} {k : Nat}

/-- The nodes of the member graph are those that take part. -/
theorem mem_nodes_iff_takesPart (hg : m.graph = .ok g) :
    id ∈ (ofManifest m g registry filter greedyOption).memberGraph.nodes ↔ m.TakesPart id := by
  simp only [mem_nodes_ofManifest hg, Member.isSelectable_iff, Manifest.TakesPart]

/-- The member graph has no more nodes than there are members. -/
theorem size_memberGraph_le (hg : m.graph = .ok g) :
    (ofManifest m g registry filter greedyOption).memberGraph.size ≤ m.size := by
  have hsub : (ofManifest m g registry filter greedyOption).memberGraph.nodes.toList ⊆
      m.ids.toList := by
    intro id hid
    obtain ⟨x, hx, hxid, -⟩ := (mem_nodes_iff_takesPart hg).1 (OrderedSet.mem_toList.1 hid)
    exact OrderedSet.mem_toList.2 (Manifest.mem_ids.2 ⟨x, hx, hxid⟩)
  have hle := ((OrderedSet.nodup _).subperm hsub).length_le
  rwa [Manifest.ids, List.length_map] at hle

/-- The edges of the member graph are the steps from parents to members that take part. -/
theorem edge_iff_feeds (hg : m.graph = .ok g) (hlists : g.Lists m.dependencies) :
    (ofManifest m g registry filter greedyOption).memberGraph.Edge a b ↔ m.Feeds a b := by
  rw [edge_memberGraph hg hlists, mem_nodes_iff_takesPart hg, mem_nodes_iff_takesPart hg,
    Manifest.Feeds]

/-- Downstream in the member graph, steps go from parents to members. -/
theorem leadsIn_downstream_iff (hg : m.graph = .ok g) (hlists : g.Lists m.dependencies) :
    (ofManifest m g registry filter greedyOption).memberGraph.LeadsIn .downstream k a b ↔
      Steps m.Feeds k a b := by
  have hstep : (fun a b => b ∈
      (ofManifest m g registry filter greedyOption).memberGraph.neighbours .downstream a) =
      m.Feeds := by
    funext a b
    exact propext ((plain_memberGraph hg hlists).mem_children.trans (edge_iff_feeds hg hlists))
  rw [Graph.LeadsIn, hstep]

/-- Upstream in the member graph, steps go from members to parents. -/
theorem leadsIn_upstream_iff (hg : m.graph = .ok g) (hlists : g.Lists m.dependencies) :
    (ofManifest m g registry filter greedyOption).memberGraph.LeadsIn .upstream k a b ↔
      Steps m.Feeds k b a := by
  have hstep : (fun a b => b ∈
      (ofManifest m g registry filter greedyOption).memberGraph.neighbours .upstream a) =
      Function.swap m.Feeds := by
    funext a b
    exact propext
      ((plain_memberGraph hg hlists).lists.mem_parents.trans (edge_iff_feeds hg hlists))
  rw [Graph.LeadsIn, hstep, Steps.swap_iff]

section Directions

variable {digits : List Char} {depth : Option Depth} {selected : IdSet}
variable (hg : m.graph = .ok g) (hlists : g.Lists m.dependencies) (hsize : m.size < 2 ^ 53)
include hg hlists hsize

/-- A selection and what is upstream of it in the member graph are the members from which as many
steps as the digits allow lead to a selected one. -/
theorem mem_or_mem_upstream (hdepth : Criterion.Denotes digits depth) :
    id ∈ selected ∨ id ∈ (ofManifest m g registry filter
      greedyOption).memberGraph.reachAll .upstream depth selected.toList ↔
    ∃ x ∈ selected, ∃ k, Criterion.Allows digits k ∧ Steps m.Feeds k id x := by
  rw [Graph.mem_or_mem_reachAll (Nat.lt_of_le_of_lt (size_memberGraph_le hg) hsize) hdepth]
  simp only [leadsIn_upstream_iff hg hlists]

/-- A selection and what is downstream of it in the member graph are the members to which as many
steps as the digits allow lead from a selected one. -/
theorem mem_or_mem_downstream (hdepth : Criterion.Denotes digits depth) :
    id ∈ selected ∨ id ∈ (ofManifest m g registry filter
      greedyOption).memberGraph.reachAll .downstream depth selected.toList ↔
    ∃ x ∈ selected, ∃ k, Criterion.Allows digits k ∧ Steps m.Feeds k x id := by
  rw [Graph.mem_or_mem_reachAll (Nat.lt_of_le_of_lt (size_memberGraph_le hg) hsize) hdepth]
  simp only [leadsIn_downstream_iff hg hlists]

/-- A selection and what surrounds it by a criterion that asks for no family are the selection and
the members that its upstream and its downstream part ask for. -/
theorem mem_or_mem_surroundings {c : Criterion} {up down : List Char}
    (hfamily : c.family = false) (hup : Criterion.Denotes up c.upstreamDepth)
    (hdown : Criterion.Denotes down c.downstreamDepth) :
    id ∈ selected ∨
      id ∈ (ofManifest m g registry filter greedyOption).surroundings c selected.toList ↔
    id ∈ selected ∨
      (c.upstream = true ∧ ∃ x ∈ selected, ∃ k, Criterion.Allows up k ∧ Steps m.Feeds k id x) ∨
      (c.downstream = true ∧
        ∃ x ∈ selected, ∃ k, Criterion.Allows down k ∧ Steps m.Feeds k x id) := by
  -- What lies in a direction is said with the selection counted in.
  have hcount {p a b u v : Prop} : p ∨ u ∧ a ∨ v ∧ b ↔ p ∨ u ∧ (p ∨ a) ∨ v ∧ (p ∨ b) := by
    tauto
  simp only [mem_surroundings_iff, hfamily, Bool.false_eq_true, false_and, false_or]
  rw [hcount, mem_or_mem_upstream hg hlists hsize hup, mem_or_mem_downstream hg hlists hsize hdown]

end Directions

/-- A text without an `@` in front that is read as a criterion widens a selection by exactly what
its plus signs ask for. With a plus sign in front these are the members from which a path of at most
so many steps as the numeral there says leads to a selected one, and with a plus sign at the end the
members to which such a path leads from a selected one; every member on these paths takes part. -/
theorem widening_of_parse (hg : m.graph = .ok g) (hlists : g.Lists m.dependencies)
    (hsize : m.size < 2 ^ 53) {text : String} {greedy : Bool} {c : Criterion}
    (hparse : Criterion.parse text greedy = .ok c) (hfront : text.toList.head? ≠ some '@')
    (registry : Registry) (filter : ResourceFilter) (greedyOption : String) {selected : IdSet}
    (hselected : ∀ id ∈ selected, m.TakesPart id) :
    ∃ d : Criterion.Division, d.Divides text.toList ∧ ∃ s added,
      ofGraph g m registry filter greedyOption = .ok s ∧ s.widening c selected = .ok added ∧
      ∀ id, id ∈ selected ∨ id ∈ added ↔ id ∈ selected ∨
        (d.upstream ≠ [] ∧ ∃ x ∈ selected, ∃ k,
          Criterion.Allows d.upstream.dropLast k ∧ Steps m.Feeds k id x) ∨
        (d.downstream ≠ [] ∧ ∃ x ∈ selected, ∃ k,
          Criterion.Allows d.downstream.tail k ∧ Steps m.Feeds k x id) := by
  obtain ⟨d, hdivides, -⟩ := Criterion.exists_divides text.toList
  have hyields : d.Yields text greedy c := Criterion.yields_of_parse greedy hdivides hparse
  have hfamily : c.family = false := by
    by_contra h
    have hmark : d.family ≠ [] := hyields.family.1 (by simpa using h)
    rcases hdivides.family with ⟨hfamily, hprefix⟩ | ⟨hnil, -⟩
    · rw [hfamily, List.singleton_prefix_iff_head?_eq_some] at hprefix
      exact hfront hprefix
    · exact hmark hnil
  have hnodes : ∀ id ∈ selected,
      id ∈ (ofManifest m g registry filter greedyOption).memberGraph.nodes :=
    fun id hid => (mem_nodes_iff_takesPart hg).2 (hselected id hid)
  refine ⟨d, hdivides, _, _, ofGraph_eq hg registry filter greedyOption, widening_eq hnodes, ?_⟩
  intro id
  rw [mem_or_mem_surroundings hg hlists hsize hfamily hyields.upstreamDepth hyields.downstreamDepth,
    hyields.upstream, hyields.downstream]

/-- One step up from a test, written with leading zeros, leads to the model that it tests. -/
theorem widening_of_parse_sample : ∃ c s added,
    Criterion.parse "001+match+" false = .ok c ∧
    ofGraph Sample.graph Sample.manifest .standard .all standardGreedyOption = .ok s ∧
    s.widening c (.ofList ["match"]) = .ok added ∧ ("orders" : Text) ∈ added := by
  have hpart : ∀ x ∈ Sample.manifest.members, Sample.manifest.TakesPart x.id := by
    intro x hx
    have hselectable : ∀ x ∈ Sample.manifest.members, x.isSelectable = true := by decide
    exact ⟨x, hx, rfl, Member.isSelectable_iff.1 (hselectable x hx)⟩
  have hselected : ∀ id ∈ OrderedSet.ofList [("match" : Text)], Sample.manifest.TakesPart id := by
    intro id hid
    rw [OrderedSet.mem_ofList, List.mem_singleton] at hid
    exact hid ▸ hpart (Sample.node .test "match" ["orders", "stock"]) (by decide)
  obtain ⟨c, hparse⟩ := Except.exists_eq_ok (x := Criterion.parse "001+match+" false)
    (by decide +kernel)
  obtain ⟨d, hdivides, s, added, hs, hadded, hiff⟩ :=
    widening_of_parse Sample.graph_eq Sample.lists (by decide) hparse (by decide) .standard .all
      standardGreedyOption hselected
  have hupstream : Criterion.kept d.upstream d.upstream.dropLast = some "001".toList :=
    congrArg Criterion.Parts.upstream (Criterion.cut_eq_parts hdivides).symm
  have hne : d.upstream ≠ [] := by
    intro hnil
    rw [Criterion.kept, if_pos hnil] at hupstream
    contradiction
  rw [Criterion.kept, if_neg hne, Option.some_inj] at hupstream
  have hstep : Sample.manifest.Feeds "orders" "match" :=
    ⟨⟨Sample.node .test "match" ["orders", "stock"], by decide, rfl, by decide⟩,
      hpart (Sample.node .model "orders" []) (by decide),
      hpart (Sample.node .test "match" ["orders", "stock"]) (by decide)⟩
  have hallows : Criterion.Allows d.upstream.dropLast 1 := by
    rw [hupstream]
    exact fun _ => by decide
  refine ⟨c, s, added, hparse, hs, hadded, ?_⟩
  have horders := (hiff "orders").2 (.inr (.inl ⟨hne, "match", by decide, 1, hallows,
    .head hstep (.refl _)⟩))
  exact horders.resolve_left (by decide)

end Selector

end DagSelect
