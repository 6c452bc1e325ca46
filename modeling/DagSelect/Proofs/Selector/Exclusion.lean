import DagSelect.Proofs.Selector.Construction
import DagSelect.Proofs.Spec.Arguments

/-!
# What an exclusion leaves

Something is excluded greedily, so all of it goes: nothing of it is selected, nor hangs on the
selection. A test that is a child of a member in everything of a spec is in everything of it too,
as long as that member is no test itself. So with a member all the tests that depend on it go.
-/

namespace DagSelect.Selector

variable {s : Selector} {spec included excluded : Spec} {t : Member} {p x : Text}

section Exclusion

variable (h : Spec.Exclusion included excluded spec)

include h

/-- What is included and not excluded is selected. -/
theorem mem_direct_exclusion (hx : x ∈ (s.bundle included).direct)
    (hout : x ∉ (s.bundle excluded).direct) : x ∈ (s.bundle spec).direct := by
  cases h.without with
  | nothing _ => exact hx
  | difference _ _ =>
    rw [direct_combination]
    refine mem_promoteAll_of_mem (SetOperation.mem_combine_difference.2 ⟨hx, ?_⟩)
    simpa using hout

/-- What is selected is included, or it is a node that is taken in with all its parents. -/
theorem joins_of_mem_direct_exclusion (hx : x ∈ (s.bundle spec).direct) :
    x ∈ (s.bundle included).direct ∨ s.Joins (s.bundle spec).direct x := by
  cases h.without with
  | nothing _ => exact .inl hx
  | difference _ _ =>
    refine (joins_of_mem_direct hx).imp (fun hdiff => ?_) And.right
    exact (SetOperation.mem_combine_difference.1 hdiff).1

/-- Everything of what is excluded is excluded. -/
theorem mem_direct_excluded :
    x ∈ (s.bundle excluded).direct ↔ x ∈ (s.bundle excluded).everything :=
  mem_direct_of_greedy h.excluded_positive h.excluded_greedy

/-- Everything of an exclusion is everything that is included and not excluded. -/
theorem mem_everything_exclusion : x ∈ (s.bundle spec).everything ↔
    x ∈ (s.bundle included).everything ∧ x ∉ (s.bundle excluded).direct := by
  cases h.without with
  | nothing hnil =>
    have hout : x ∉ (s.bundle excluded).direct := fun hx =>
      criteria_ne_nil_of_mem_everything ((mem_direct_excluded h).1 hx) hnil
    exact (and_iff_left hout).symm
  | difference warnIfEmpty text =>
    rw [Bundle.everything, OrderedSet.mem_union, indirect_combination, List.map_cons,
      SetOperation.mem_combine_difference]
    simp only [List.map_cons, List.map_nil, List.forall_mem_singleton, ← mem_direct_excluded h]
    refine ⟨fun hx => hx.elim (fun hx => ?_) id, .inr⟩
    rcases joins_of_mem_direct hx with hx | ⟨hx, -⟩
    · have hdiff := SetOperation.mem_combine_difference.1 hx
      exact ⟨Bundle.mem_everything_of_mem_direct hdiff.1, by simpa using hdiff.2⟩
    · have hdiff := SetOperation.mem_combine_difference.1 hx
      exact ⟨hdiff.1, (mem_direct_excluded h).not.2 (by simpa using hdiff.2)⟩

/-- Nothing that is selected is excluded. -/
theorem not_mem_excluded (hx : x ∈ (s.bundle spec).direct) : x ∉ (s.bundle excluded).direct :=
  ((mem_everything_exclusion h).1 (Bundle.mem_everything_of_mem_direct hx)).2

end Exclusion

/-- Whether an identifier belongs to a member that is no test. -/
def IsNoTest (s : Selector) (id : Text) : Prop :=
  ∀ x ∈ s.manifest.members, x.id = id → x.isTest = false

/-- What is no test is selected if it is in everything of a spec. -/
theorem IsNoTest.mem_direct (hp : s.IsNoTest p) (h : p ∈ (s.bundle spec).everything) :
    p ∈ (s.bundle spec).direct := by
  by_contra hdirect
  obtain ⟨x, hx, hid, htest⟩ := isTest_of_mem_everything h hdirect
  rw [hp x hx hid] at htest
  contradiction

/-- Without a difference, a test is in everything of a spec if a parent is that is no test. -/
theorem mem_everything_of_parent (hspec : spec.Positive) (ht : t ∈ s.manifest.members)
    (htest : t.isTest = true) (hp : s.IsNoTest p)
    (hchild : t.id ∈ s.memberGraph.neighbours .downstream p) (h : p ∈ (s.bundle spec).everything) :
    t.id ∈ (s.bundle spec).everything := by
  induction hspec with
  | criterion c =>
    refine mem_everything_expansion.2 (.inr ⟨t, ?_, rfl⟩)
    rcases mem_everything_expansion.1 h with h | ⟨y, hy, rfl⟩
    · exact mem_neighbouringTests.2 ⟨ht, htest, p, h, hchild⟩
    · obtain ⟨hmem, hytest, -⟩ := mem_neighbouringTests.1 hy
      rw [hp y hmem rfl] at hytest
      contradiction
  | combination hop _ ih =>
    rw [mem_everything_combination hop] at h ⊢
    exact SetOperation.mem_combine_mono hop ih h

/-- Over a manifest, a selectable test is in everything of a spec without a difference if a member
that it depends on is that is no test. -/
theorem mem_everything_of_dependsOn {m : Manifest} {g : Graph} (hg : m.graph = .ok g)
    (hlists : g.Lists m.dependencies) {registry : Registry} {filter : ResourceFilter}
    {greedyOption : String} (hs : s = ofManifest m g registry filter greedyOption)
    (hspec : spec.Positive) (ht : t ∈ m.members) (htest : t.isTest = true)
    (hselectable : t.isSelectable = true) (hdep : p ∈ t.dependsOn) (hp : s.IsNoTest p)
    (h : p ∈ (s.bundle spec).everything) : t.id ∈ (s.bundle spec).everything := by
  subst hs
  refine mem_everything_of_parent hspec ht htest hp ?_ h
  have hnode : t.id ∈ (ofManifest m g registry filter greedyOption).memberGraph.nodes :=
    (mem_nodes_ofManifest hg).2 ⟨t, ht, rfl, hselectable⟩
  exact (mem_children_ofManifest hg hlists).2
    ⟨⟨t, ht, rfl, hdep⟩, mem_nodes_of_mem_everything h, hnode⟩

/-- Nothing that is excluded is selected, and no selected test depends on an excluded member that is
no test itself. -/
theorem excluded_not_selected {m : Manifest} {g : Graph} (hg : m.graph = .ok g)
    (hlists : g.Lists m.dependencies) {args : SelectionArguments} (hspec : args.parse = .ok spec)
    (registry : Registry) (filter : ResourceFilter) (greedyOption : String) :
    ∃ (s : Selector) (excluded : Spec) (whole out : Logged Selection),
      ofGraph g m registry filter greedyOption = .ok s ∧
      args.parseExclude = .ok excluded ∧
      s.resolve spec = .ok whole ∧
      s.resolve excluded = .ok out ∧
      (∀ id ∈ out.value.direct, id ∉ whole.value.direct) ∧
      ∀ t ∈ m.members, t.isTest = true → t.id ∈ whole.value.direct →
        ∀ p ∈ t.dependsOn, p ∈ out.value.direct → ∃ x ∈ m.members, x.id = p ∧ x.isTest = true := by
  obtain ⟨included, excluded, -, hexcluded, hexclusion⟩ := SelectionArguments.parse_spec hspec
  let s := ofManifest m g registry filter greedyOption
  have hout : ∀ id ∈ (s.bundle spec).direct, id ∉ (s.bundle excluded).direct :=
    fun id hid => not_mem_excluded hexclusion hid
  refine ⟨s, excluded, _, _, ofGraph_eq hg .., hexcluded, resolve_eq s spec, resolve_eq s excluded,
    fun id hid hin => hout id hin hid, fun t ht htest hin p hdep hp => ?_⟩
  have hnode : t.id ∈ s.memberGraph.nodes :=
    mem_nodes_of_mem_everything (Bundle.mem_everything_of_mem_direct hin)
  obtain ⟨y, hy, hid, hselectable⟩ := (mem_nodes_ofManifest hg).1 hnode
  obtain rfl := Manifest.eq_of_id_eq hy ht hid
  by_contra hno
  have hnotest : s.IsNoTest p := fun x hx hxp => by
    by_contra hx'
    exact hno ⟨x, hx, hxp, by simpa using hx'⟩
  have hall : y.id ∈ (s.bundle excluded).everything :=
    mem_everything_of_dependsOn hg hlists rfl hexclusion.excluded_positive hy htest hselectable
      hdep hnotest (Bundle.mem_everything_of_mem_direct hp)
  exact hout y.id hin ((mem_direct_excluded hexclusion).2 hall)

/-- In the sample, excluding `orders` keeps out a test that depends on it, although it is named. -/
theorem excluded_not_selected_sample : ∃ spec s excluded whole out,
    SelectionArguments.parse ⟨["unique", "stock"], ["orders"], false⟩ = .ok spec ∧
    ofGraph Sample.graph Sample.manifest .standard .all standardGreedyOption = .ok s ∧
    SelectionArguments.parseExclude ⟨["unique", "stock"], ["orders"], false⟩ = .ok excluded ∧
    s.resolve spec = .ok whole ∧
    s.resolve excluded = .ok out ∧
    (∀ id ∈ out.value.direct, id ∉ whole.value.direct) ∧
    (("unique" : Text) ∈ whole.value.direct → ("orders" : Text) ∉ out.value.direct) := by
  obtain ⟨spec, hspec⟩ := Except.exists_eq_ok
    (x := SelectionArguments.parse ⟨["unique", "stock"], ["orders"], false⟩) (by decide +kernel)
  obtain ⟨s, excluded, whole, out, hs, hexcluded, hwhole, hout, hoff, htests⟩ :=
    excluded_not_selected Sample.graph_eq Sample.lists hspec .standard .all standardGreedyOption
  refine ⟨spec, s, excluded, whole, out, hspec, hs, hexcluded, hwhole, hout, hoff, ?_⟩
  intro hunique horders
  have hno : ¬ ∃ x ∈ Sample.manifest.members, x.id = "orders" ∧ x.isTest = true := by decide
  exact hno (htests (Sample.node .test "unique" ["orders"]) (by decide) (by decide) hunique
    "orders" (by decide) horders)

end DagSelect.Selector
