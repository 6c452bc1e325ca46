import DagSelect.Proofs.Selector.Parents
import DagSelect.Proofs.Selector.Totality

/-!
# Why tests are left out

What only hangs on a selection is a selectable test, and the notice about it says that a parent is
missing. That holds of every test whose parents are no tests: with all of them selected it would
have been taken in. A parent that is a test may be taken in itself after the test was considered,
by the same promotion or by one further up; the test is then left out although nothing is missing.
-/

namespace DagSelect

/-- A selectable test is enabled, and as a node it is not empty. -/
theorem Member.enabled_role_of_isTest {x : Member} (htest : x.isTest = true)
    (h : x.isSelectable = true) : x.enabled = true ∧ x.role = .node .test false := by
  have hkind : x.resourceKind = .node .test := of_decide_eq_true htest
  obtain ⟨henabled, hempty⟩ := isSelectable_iff.1 h
  refine ⟨henabled, ?_⟩
  rw [resourceKind] at hkind
  split at hkind
  · rename_i kind empty hrole
    obtain rfl := ResourceKind.node.inj hkind
    rw [hrole, hempty .test empty hrole]
  · contradiction
  · contradiction

namespace Sample

/-- A model with four tests, each of which but the last one depends on the test behind it. -/
def chain : Manifest where
  members := [node .model "orders" [], node .test "fourth" ["orders", "third"],
    node .test "third" ["orders", "second"], node .test "second" ["orders", "first"],
    node .test "first" ["orders"]]
  nodup := by decide

/-- The graph of the tests that depend on each other. -/
def chainGraph : Graph := .ofEdges chain.ids.toList chain.dependencies

/-- The tests that depend on each other have their graph. -/
theorem chainGraph_eq : chain.graph = .ok chainGraph :=
  Manifest.graph_eq_ok_iff.2 ⟨by decide, rfl⟩

end Sample

namespace Selector

variable {s : Selector} {spec : Spec} {t : Member}

/-- A test that hangs on a spec has a parent that is not selected, or one that is a test itself. -/
theorem exists_missing_parent (ht : t ∈ s.manifest.members) (htest : t.isTest = true)
    (h : t.id ∈ (s.selection spec).indirectOnly) :
    ∃ p ∈ t.dependsOn,
      p ∉ (s.bundle spec).direct ∨ ∃ x ∈ s.manifest.members, x.id = p ∧ x.isTest = true := by
  obtain ⟨-, hout⟩ := OrderedSet.mem_diff.1 h
  by_contra hno
  have hparents : ∀ p ∈ t.dependsOn, p ∈ (s.bundle spec).direct := by
    intro p hp
    by_contra hmissing
    exact hno ⟨p, hp, .inl hmissing⟩
  have hnotest : ∀ p ∈ t.dependsOn, s.IsNoTest p := by
    intro p hp x hx hid
    by_contra hxtest
    exact hno ⟨p, hp, .inr ⟨x, hx, hid, by simpa using hxtest⟩⟩
  exact hout (mem_direct_of_parents ht htest hnotest (mem_everything_iff.2 (.inr h)) hparents)

/-- A difference takes in what is not included only if it is a test that hung on what is included,
with a test among its parents. -/
theorem test_of_mem_difference {included excluded : Spec} {warnIfEmpty : Bool} {text : String}
    {x : Text} (hnew : x ∉ (s.bundle included).direct)
    (h : x ∈ (s.bundle (.combination .difference [included, excluded] warnIfEmpty text)).direct) :
    x ∈ (s.selection included).indirectOnly ∧ ∃ t ∈ s.manifest.members, t.id = x ∧
      t.isTest = true ∧
      ∃ p ∈ t.dependsOn, ∃ y ∈ s.manifest.members, y.id = p ∧ y.isTest = true := by
  let whole : Spec := .combination .difference [included, excluded] warnIfEmpty text
  have hall : ∀ p, p ∈ (s.bundle whole).direct → p ∈ (s.bundle included).everything := by
    intro p hp
    rcases joins_of_mem_direct hp with hp | ⟨hp, -⟩
    · exact Bundle.mem_everything_of_mem_direct (SetOperation.mem_combine_difference.1 hp).1
    · exact (SetOperation.mem_combine_difference.1 hp).1
  have hjoins : s.Joins (s.bundle whole).direct x := by
    rcases joins_of_mem_direct h with h | ⟨-, hjoins⟩
    · exact absurd (SetOperation.mem_combine_difference.1 h).1 hnew
    · exact hjoins
  obtain ⟨t, ht, rfl, htest⟩ := isTest_of_mem_everything (hall x h) hnew
  have hindirect : t.id ∈ (s.selection included).indirectOnly :=
    (mem_everything_iff.1 (hall t.id h)).resolve_left hnew
  refine ⟨hindirect, t, ht, rfl, htest, ?_⟩
  obtain ⟨p, hp, hmissing | hptest⟩ := exists_missing_parent ht htest hindirect
  · have hparents := (joins_iff ht (Member.isNode_of_isTest htest)).1 hjoins
    exact ⟨p, hp, isTest_of_mem_everything (hall p (hparents p hp)) hmissing⟩
  · exact ⟨p, hp, hptest⟩

/-- What only hangs on a spec is an enabled test that is not empty, and one of its parents is not
selected or is a test itself. -/
theorem left_out_lacks_parent {m : Manifest} {g : Graph} (hg : m.graph = .ok g)
    (registry : Registry) (filter : ResourceFilter) (greedyOption : String) (spec : Spec) :
    ∃ s resolved, ofGraph g m registry filter greedyOption = .ok s ∧
      s.resolve spec = .ok resolved ∧
      ∀ id ∈ resolved.value.indirectOnly, ∃ t ∈ m.members, t.id = id ∧
        t.enabled = true ∧ t.role = .node .test false ∧
        ∃ p ∈ t.dependsOn,
          p ∉ resolved.value.direct ∨ ∃ x ∈ m.members, x.id = p ∧ x.isTest = true := by
  let s := ofManifest m g registry filter greedyOption
  refine ⟨s, _, ofGraph_eq hg .., resolve_eq s spec, fun id hid => ?_⟩
  have hout : id ∉ (s.bundle spec).direct := (OrderedSet.mem_diff.1 hid).2
  obtain ⟨t, ht, rfl, htest⟩ := isTest_of_mem_everything (mem_everything_iff.2 (.inr hid)) hout
  obtain ⟨-, x, hx, hxid, hselectable⟩ := selectable_of_mem_selection (.inr hid)
  obtain rfl := Manifest.eq_of_id_eq hx ht hxid
  obtain ⟨henabled, hrole⟩ := Member.enabled_role_of_isTest htest hselectable
  exact ⟨x, hx, rfl, henabled, hrole, exists_missing_parent hx htest hid⟩

/-- In the sample, the test of two models hangs on one of them, and one of its parents is not
selected or a test. -/
theorem left_out_lacks_parent_sample : ∃ s resolved,
    ofGraph Sample.graph Sample.manifest .standard .all standardGreedyOption = .ok s ∧
    s.resolve (.criterion (.plain "fqn" "orders")) = .ok resolved ∧
    ("match" : Text) ∈ resolved.value.indirectOnly ∧
    ∃ t ∈ Sample.manifest.members, t.id = "match" ∧ t.enabled = true ∧ t.role = .node .test false ∧
      ∃ p ∈ t.dependsOn,
        p ∉ resolved.value.direct ∨ ∃ x ∈ Sample.manifest.members, x.id = p ∧ x.isTest = true := by
  obtain ⟨s, resolved, hs, hresolved, h⟩ := left_out_lacks_parent Sample.graph_eq .standard .all
    standardGreedyOption (.criterion (.plain "fqn" "orders"))
  have hout : ("match" : Text) ∈ resolved.value.indirectOnly := by
    rw [ofGraph_eq Sample.graph_eq] at hs
    obtain rfl := Except.ok.inj hs
    rw [resolve_eq] at hresolved
    obtain rfl := Except.ok.inj hresolved
    decide +kernel
  exact ⟨s, resolved, hs, hresolved, hout, h _ hout⟩

/-- Of the tests that depend on each other, a request for the model leaves the fourth out although
all of its parents are selected: the expansion and two promotions take in one test each. -/
theorem left_out_with_all_parents : ∃ s spec resolved,
    ofGraph Sample.chainGraph Sample.chain .standard .all standardGreedyOption = .ok s ∧
    SelectionArguments.parse ⟨["orders"], [], false⟩ = .ok spec ∧
    s.resolve spec = .ok resolved ∧
    ("fourth" : Text) ∈ resolved.value.indirectOnly ∧
    ∀ t ∈ Sample.chain.members, t.id = "fourth" → ∀ p ∈ t.dependsOn, p ∈ resolved.value.direct := by
  obtain ⟨spec, hspec⟩ := Except.exists_eq_ok
    (x := SelectionArguments.parse ⟨["orders"], [], false⟩) (by decide +kernel)
  let s := ofManifest Sample.chain Sample.chainGraph .standard .all standardGreedyOption
  have hcheck : (SelectionArguments.parse ⟨["orders"], [], false⟩).toOption.all (fun spec =>
      (("fourth" : Text) ∈ (s.selection spec).indirectOnly : Bool) &&
        Sample.chain.members.all fun t => t.id = "fourth" →
          ∀ p ∈ t.dependsOn, p ∈ (s.selection spec).direct) = true := by
    decide +kernel
  rw [hspec] at hcheck
  obtain ⟨hout, hparents⟩ := Bool.and_eq_true_iff.1 hcheck
  refine ⟨s, spec, _, ofGraph_eq Sample.chainGraph_eq .., hspec, resolve_eq s spec,
    of_decide_eq_true hout, fun t ht => ?_⟩
  exact of_decide_eq_true (List.all_eq_true.1 hparents t ht)

end Selector

end DagSelect
