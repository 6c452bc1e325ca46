import DagSelect.Proofs.Graph.Closure
import DagSelect.Proofs.Graph.Discovery
import DagSelect.Proofs.Selector.Construction
import DagSelect.Proofs.Selector.Promotion

/-!
# Families

The family of nodes is what a path downstream and then a path upstream lead to, and either may be
without a step. So it has the nodes themselves and all that lies around them in either direction
within any depth, and a criterion that asks for the family of what it matches selects the same
whether or not it asks for what is upstream and downstream of it besides.

The paths go along the edges to listed identifiers. What is beyond the identifier that is never
listed, and that identifier itself, may be missing from a family.
-/

namespace DagSelect

open Relation

/-- A criterion with other bounds upstream and downstream of what it matches. -/
def Criterion.bounded (c : Criterion) (upstream downstream : Bool)
    (upstreamDepth downstreamDepth : Option Depth) : Criterion :=
  { c with upstream, upstreamDepth, downstream, downstreamDepth }

namespace Selector

variable {s : Selector} {c : Criterion} {up down : Bool} {upDepth downDepth : Option Depth}
variable {ids : List Text} {x : Text}

/-- What surrounds members by a criterion that asks for their family is their family. -/
theorem mem_surroundings_of_family (hfamily : c.family = true) :
    x ∈ s.surroundings c ids ↔ x ∈ s.memberGraph.family ids := by
  rw [mem_surroundings_iff]
  constructor
  · rintro (⟨-, hx⟩ | ⟨-, hx⟩ | ⟨-, hx⟩)
    · exact hx
    · exact Graph.mem_family_of_mem_reachAll hx
    · exact Graph.mem_family_of_mem_reachAll hx
  · exact fun hx => .inl ⟨hfamily, hx⟩

/-- A criterion that asks for a family collects the same with any other bounds. -/
theorem mem_collected_bounded (hfamily : c.family = true) :
    x ∈ s.collected (c.bounded up down upDepth downDepth) ↔ x ∈ s.collected c := by
  have hmatching : s.matching s.memberGraph.nodes (c.bounded up down upDepth downDepth) =
      s.matching s.memberGraph.nodes c := rfl
  have hbounded : (c.bounded up down upDepth downDepth).family = true := hfamily
  rw [collected, collected, hmatching]
  cases s.matching s.memberGraph.nodes c with
  | error e => rfl
  | ok ids =>
    simp only [OrderedSet.mem_union, mem_surroundings_of_family hbounded,
      mem_surroundings_of_family hfamily]

/-- The family of nodes exists, and is what a path along the edges to listed identifiers and then a
path against such edges lead to; in a graph that lists its edges these are all paths. So with a
criterion that asks for the family of what it matches, whatever it asks for upstream and downstream
of it changes neither what it selects nor what hangs on that. -/
theorem family_is_everything_around (g : Graph) (hids : ∀ id ∈ ids, id ∈ g.nodes) (s : Selector)
    (hfamily : c.family = true) (up down : Bool) (upDepth downDepth : Option Depth) :
    (∃ found, g.familyOf ids = .ok found ∧
      (∀ n, n ∈ found ↔ ∃ id ∈ ids, ∃ m,
        ReflTransGen (fun a b => g.Edge a b ∧ b ≠ Text.voidKey) id m ∧
          ReflTransGen (fun a b => g.Edge b a ∧ b ≠ Text.voidKey) m n) ∧
      (g.Lists g.edges.toList → ∀ n, n ∈ found ↔
        ∃ id ∈ ids, ∃ m, ReflTransGen g.Edge id m ∧ ReflTransGen g.Edge n m)) ∧
    ∃ result result', s.evaluateMatches c = .ok result ∧
      s.evaluateMatches (c.bounded up down upDepth downDepth) = .ok result' ∧
      (∀ x, x ∈ result'.value.direct ↔ x ∈ result.value.direct) ∧
      ∀ x, x ∈ result'.value.indirect ↔ x ∈ result.value.indirect := by
  constructor
  · refine ⟨g.family ids, Graph.familyOf_eq hids, fun n => ?_, fun hg n => ?_⟩
    · rw [Graph.mem_family_iff, g.downstream_eq, g.upstream_eq]
    · rw [Graph.mem_family_iff, hg.downstream_eq, hg.upstream_eq]
      simp only [reflTransGen_swap]
  · have hcollected : ∀ y, y ∈ s.collected (c.bounded up down upDepth downDepth) ↔
        y ∈ s.collected c := fun _ => mem_collected_bounded hfamily
    exact ⟨_, _, evaluateMatches_eq c, evaluateMatches_eq _,
      fun _ => (expansion_congr hcollected).1, fun _ => (expansion_congr hcollected).2⟩

/-- The other parent of a test of a model is in the family of that model, and a criterion that asks
for families selects the same with an upstream bound of one step. -/
theorem family_is_everything_around_sample : ∃ found result result',
    Sample.graph.familyOf ["orders"] = .ok found ∧ ("stock" : Text) ∈ found ∧
    (ofManifest Sample.manifest Sample.graph .standard .all standardGreedyOption).evaluateMatches
      { Criterion.plain "fqn" "shop.orders" with family := true } = .ok result ∧
    (ofManifest Sample.manifest Sample.graph .standard .all standardGreedyOption).evaluateMatches
      (({ Criterion.plain "fqn" "shop.orders" with family := true } : Criterion).bounded true false
        (some (.ofNat 1)) none) = .ok result' ∧
    ∀ x, x ∈ result'.value.direct ↔ x ∈ result.value.direct := by
  let c : Criterion := { Criterion.plain "fqn" "shop.orders" with family := true }
  have hfamily : c.family = true := rfl
  have hnodes : ∀ id ∈ [("orders" : Text)], id ∈ Sample.graph.nodes := by decide +kernel
  obtain ⟨⟨found, hfound, -, hlisted⟩, result, result', hresult, hresult', hdirect, -⟩ :=
    family_is_everything_around Sample.graph hnodes
      (ofManifest Sample.manifest Sample.graph .standard .all standardGreedyOption) hfamily true
      false (some (.ofNat 1)) none
  have hdown : Sample.graph.Edge "orders" "match" :=
    (by decide +kernel : (("orders" : Text), ("match" : Text)) ∈ Sample.graph.edges)
  have hup : Sample.graph.Edge "stock" "match" :=
    (by decide +kernel : (("stock" : Text), ("match" : Text)) ∈ Sample.graph.edges)
  have hstock : ("stock" : Text) ∈ found := (hlisted Sample.lists_edges "stock").2
    ⟨"orders", List.mem_singleton_self _, "match", .single hdown, .single hup⟩
  exact ⟨found, result, result', hfound, hstock, hresult, hresult', hdirect⟩

/-- An edge leads from `a` to the identifier that is never listed, but that is not in the family of
`a`. -/
theorem family_interrupted :
    Sample.interrupted.Edge "a" Text.voidKey ∧
    (Sample.interrupted.familyOf ["a"]).map OrderedSet.toList = .ok (["a"] : List Text) ∧
    ¬ ∀ (g : Graph) (ids : List Text), (∀ id ∈ ids, id ∈ g.nodes) →
      ∃ found, g.familyOf ids = .ok found ∧ ∀ n, n ∈ found ↔
        ∃ id ∈ ids, ∃ m, ReflTransGen g.Edge id m ∧ ReflTransGen g.Edge n m := by
  have hedge := Sample.interrupted_edge.1
  have hfamily : (Sample.interrupted.familyOf ["a"]).map OrderedSet.toList =
      .ok (["a"] : List Text) := by
    decide +kernel
  refine ⟨hedge, hfamily, fun hall => ?_⟩
  obtain ⟨found, hfound, hiff⟩ := hall Sample.interrupted ["a"] (by decide +kernel)
  rw [hfound] at hfamily
  have hmem : Text.voidKey ∈ found.toList := (hiff Text.voidKey).2
    ⟨"a", List.mem_singleton_self _, Text.voidKey, .single hedge, .refl⟩
  rw [Except.ok.inj hfamily] at hmem
  exact absurd hmem (by decide)

end Selector

end DagSelect
