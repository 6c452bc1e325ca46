import DagSelect.Proofs.Selector.Exclusion

/-!
# Tests follow their parents

A test that no criterion names is selected by what it depends on: if none of its parents is a test,
it is selected exactly if all of them are and it is not excluded. It does not matter which criteria
select the parents, nor where in the spec they stand.
-/

namespace DagSelect.Selector

variable {s : Selector} {spec included excluded : Spec} {t : Member} {p x : Text}

/-- A test in everything of a spec is selected if all its parents are, unless one is a test. -/
theorem mem_direct_of_parents (ht : t ∈ s.manifest.members) (htest : t.isTest = true)
    (hnotest : ∀ p ∈ t.dependsOn, s.IsNoTest p) (h : t.id ∈ (s.bundle spec).everything)
    (hparents : ∀ p ∈ t.dependsOn, p ∈ (s.bundle spec).direct) : t.id ∈ (s.bundle spec).direct := by
  cases spec with
  | criterion c =>
    rcases mem_everything_expansion.1 h with h | ⟨y, hy, hid⟩
    · exact mem_direct_expansion.2 (.inl h)
    · refine mem_direct_expansion.2 (.inr ⟨y, hy, hid, .inr fun p hp => ?_⟩)
      obtain rfl := Manifest.eq_of_id_eq (mem_neighbouringTests.1 hy).1 ht hid
      rcases mem_direct_expansion.1 (hparents p hp) with hp' | ⟨z, hz, rfl, -⟩
      · exact hp'
      · obtain ⟨hmem, hztest, -⟩ := mem_neighbouringTests.1 hz
        rw [hnotest _ hp z hmem rfl] at hztest
        contradiction
  | combination operation components warnIfEmpty text =>
    by_contra hdirect
    have hindirect := (OrderedSet.mem_union.1 h).resolve_left hdirect
    rw [indirect_combination] at hindirect
    rw [direct_combination] at hdirect
    refine hdirect (mem_promoteAll_of_joins hindirect ?_)
    refine (joins_iff ht (Member.isNode_of_isTest htest)).2 fun p hp => ?_
    -- A parent was there before tests were taken in, since it is none.
    have hsame : ∀ spec ∈ components,
        (p ∈ (s.bundle spec).direct ↔ p ∈ (s.bundle spec).everything) := fun spec _ =>
      ⟨Bundle.mem_everything_of_mem_direct, (hnotest p hp).mem_direct⟩
    rcases joins_of_mem_direct (hparents p hp) with hp' | ⟨hp', -⟩
    · exact hp'
    · exact (SetOperation.mem_combine_congr hsame).2 hp'

/-- Without a difference, all parents of a selected test are selected, if no criterion names it and
none is greedy. -/
theorem parents_of_mem_direct (hspec : spec.Positive) (ht : t ∈ s.manifest.members)
    (htest : t.isTest = true) (hgreedy : ∀ c ∈ spec.criteria, c.greedy = false)
    (hunnamed : ∀ c ∈ spec.criteria, t.id ∉ s.collected c) (h : t.id ∈ (s.bundle spec).direct) :
    ∀ p ∈ t.dependsOn, p ∈ (s.bundle spec).direct := by
  induction hspec with
  | criterion c =>
    have hc : c ∈ (Spec.criterion c).criteria := List.mem_singleton_self c
    rcases mem_direct_expansion.1 h with h | ⟨y, hy, hid, hall⟩
    · exact absurd h (hunnamed c hc)
    · obtain rfl := Manifest.eq_of_id_eq (mem_neighbouringTests.1 hy).1 ht hid
      rw [hgreedy c hc] at hall
      exact fun p hp => mem_direct_expansion.2 (.inl (hall.resolve_left Bool.false_ne_true p hp))
  | combination hop _ ih =>
    rcases joins_of_mem_direct h with h | ⟨-, hjoins⟩
    · intro p hp
      rw [direct_combination]
      refine mem_promoteAll_of_mem (SetOperation.mem_combine_mono hop (fun spec hmem hx => ?_) h)
      have hcriteria : ∀ c ∈ spec.criteria, c ∈ Spec.criteriaAll _ := fun c hc =>
        Spec.mem_criteriaAll.2 ⟨spec, hmem, hc⟩
      exact ih spec hmem (fun c hc => hgreedy c (hcriteria c hc))
        (fun c hc => hunnamed c (hcriteria c hc)) hx p hp
    · exact (joins_iff ht (Member.isNode_of_isTest htest)).1 hjoins

/-- A selectable test with parents, none of which is a test, is selected exactly if all its parents
are and it is not excluded, unless a criterion for what is included names it. -/
theorem test_selected_iff_parents_selected {m : Manifest} {g : Graph} (hg : m.graph = .ok g)
    (hlists : g.Lists m.dependencies) {select exclude : List String}
    (hspec : SelectionArguments.parse ⟨select, exclude, false⟩ = .ok spec)
    (registry : Registry) (filter : ResourceFilter) (greedyOption : String) :
    ∃ (s : Selector) (included excluded : Spec) (whole out : Logged Selection),
      ofGraph g m registry filter greedyOption = .ok s ∧
      SelectionArguments.parseSelect ⟨select, exclude, false⟩ = .ok included ∧
      SelectionArguments.parseExclude ⟨select, exclude, false⟩ = .ok excluded ∧
      s.resolve spec = .ok whole ∧
      s.resolve excluded = .ok out ∧
      ∀ t ∈ m.members, t.isTest = true → t.isSelectable = true → t.dependsOn ≠ [] →
        (∀ p ∈ t.dependsOn, ∀ x ∈ m.members, x.id = p → x.isTest = false) →
        (∀ c ∈ included.criteria, ¬ s.Collects c t.id) →
        (t.id ∈ whole.value.direct ↔
          (∀ p ∈ t.dependsOn, p ∈ whole.value.direct) ∧ t.id ∉ out.value.direct) := by
  obtain ⟨included, excluded, hincluded, hexcluded, hexclusion⟩ :=
    SelectionArguments.parse_spec hspec
  obtain ⟨hpositive, hplain⟩ := SelectionArguments.parseSelect_spec hincluded
  let s := ofManifest m g registry filter greedyOption
  refine ⟨s, included, excluded, _, _, ofGraph_eq hg .., hincluded, hexcluded, resolve_eq s spec,
    resolve_eq s excluded, fun t ht htest hselectable hne hnotest hunnamed => ?_⟩
  have hall : ∀ {x}, x ∈ (s.bundle spec).everything ↔
      x ∈ (s.bundle included).everything ∧ x ∉ (s.bundle excluded).direct :=
    mem_everything_exclusion hexclusion
  -- A parent in everything of a positive spec brings the test with it.
  have hbring : ∀ {spec : Spec}, spec.Positive → ∀ p ∈ t.dependsOn,
      p ∈ (s.bundle spec).everything → t.id ∈ (s.bundle spec).everything :=
    fun hspec p hp h =>
      mem_everything_of_dependsOn hg hlists rfl hspec ht htest hselectable hp (hnotest p hp) h
  constructor
  · intro h
    have hout : t.id ∉ (s.bundle excluded).direct := not_mem_excluded hexclusion h
    refine ⟨fun p hp => ?_, hout⟩
    rcases joins_of_mem_direct_exclusion hexclusion h with h | hjoins
    · have hparents := parents_of_mem_direct hpositive ht htest hplain
        (fun c hc hx => hunnamed c hc (collects_iff.2 hx)) h
      refine mem_direct_exclusion hexclusion (hparents p hp) fun hpout => hout ?_
      rw [mem_direct_excluded hexclusion] at hpout ⊢
      exact hbring hexclusion.excluded_positive p hp hpout
    · exact (joins_iff ht (Member.isNode_of_isTest htest)).1 hjoins p hp
  · rintro ⟨hparents, hout⟩
    obtain ⟨p, hp⟩ := List.exists_mem_of_ne_nil _ hne
    have hpall : p ∈ (s.bundle included).everything :=
      (hall.1 (Bundle.mem_everything_of_mem_direct (hparents p hp))).1
    exact mem_direct_of_parents ht htest hnotest (hall.2 ⟨hbring hpositive p hp hpall, hout⟩)
      hparents

/-- In the sample, the test of two models is selected exactly if both are, and not if excluded. -/
theorem test_selected_iff_parents_selected_sample : ∃ spec s excluded whole out,
    SelectionArguments.parse ⟨["orders", "stock"], ["report"], false⟩ = .ok spec ∧
    ofGraph Sample.graph Sample.manifest .standard .all standardGreedyOption = .ok s ∧
    SelectionArguments.parseExclude ⟨["orders", "stock"], ["report"], false⟩ = .ok excluded ∧
    s.resolve spec = .ok whole ∧
    s.resolve excluded = .ok out ∧
    (("match" : Text) ∈ whole.value.direct ↔
      (∀ p ∈ (["orders", "stock"] : List Text), p ∈ whole.value.direct) ∧
        ("match" : Text) ∉ out.value.direct) := by
  obtain ⟨spec, hspec⟩ := Except.exists_eq_ok
    (x := SelectionArguments.parse ⟨["orders", "stock"], ["report"], false⟩) (by decide +kernel)
  obtain ⟨s, included, excluded, whole, out, hs, hincluded, hexcluded, hwhole, hout, h⟩ :=
    test_selected_iff_parents_selected Sample.graph_eq Sample.lists hspec .standard .all
      standardGreedyOption
  refine ⟨spec, s, excluded, whole, out, hspec, hs, hexcluded, hwhole, hout, ?_⟩
  have hunnamed : ∀ c ∈ included.criteria, ¬ s.Collects c "match" := by
    rw [ofGraph_eq Sample.graph_eq] at hs
    obtain rfl := Except.ok.inj hs
    let args : SelectionArguments := ⟨["orders", "stock"], ["report"], false⟩
    have hcheck : args.parseSelect.toOption.all (fun included => included.criteria.all fun c =>
        ("match" : Text) ∉ (ofManifest Sample.manifest Sample.graph .standard .all
          standardGreedyOption).collected c) = true := by
      decide +kernel
    rw [hincluded] at hcheck
    intro c hc hcollects
    simpa [collects_iff.1 hcollects] using List.all_eq_true.1 hcheck c hc
  exact h (Sample.node .test "match" ["orders", "stock"]) (by decide) (by decide) (by decide)
    (by decide) (by decide) hunnamed

end DagSelect.Selector
