import DagSelect.Proofs.Manifest.Reordered
import DagSelect.Proofs.Selector.Construction
import DagSelect.Proofs.Spec.Reordered

/-!
# Selections do not depend on order

Two selectors over manifests that differ in order only match the same members, and widen and expand
them to the same ones. Only the promotion of tests goes through its candidates one by one. If no
test depends on a test, what it takes in has all its parents selected from the start, so it takes
in the same in any order. By induction over the spec, specs that differ in order only then select
the same.
-/

namespace DagSelect

/-- Whether two bundles select the same, with the same hanging on it. -/
structure Bundle.Same (b b' : Bundle) : Prop where
  direct : ∀ x, x ∈ b.direct ↔ x ∈ b'.direct
  everything : ∀ x, x ∈ b.everything ↔ x ∈ b'.everything

/-- A test that does not look at the order of parents gives the same for the member with an
identifier. -/
theorem Manifest.Reordered.any_find? {m m' : Manifest} (h : m.Reordered m')
    {test : Member → Bool} (htest : ∀ x y, x.Reordered y → test y = test x) (id : Text) :
    (m'.find? id).any test = (m.find? id).any test := by
  have hrel := h.find? id
  generalize m.find? id = found at hrel
  generalize m'.find? id = found' at hrel
  cases hrel with
  | some hxy => exact htest _ _ hxy
  | none => rfl

/-- Some member with one of the identifiers passes a test in one order if one does in the other. -/
theorem Manifest.Reordered.any_filterMap_find? {m m' : Manifest} (h : m.Reordered m')
    {test : Member → Bool} (htest : ∀ x y, x.Reordered y → test y = test x) {ids ids' : List Text}
    (hids : ids.Perm ids') :
    (ids'.filterMap m'.find?).any test = (ids.filterMap m.find?).any test := by
  have hany : ∀ (m : Manifest) (ids : List Text),
      (ids.filterMap m.find?).any test = ids.any fun id => (m.find? id).any test := by
    intro m ids
    rw [List.any_filterMap]
    refine congrArg ids.any (funext fun id => ?_)
    cases m.find? id <;> rfl
  rw [hany, hany, funext (h.any_find? htest)]
  exact hids.symm.any_eq

/-- A method selects a member in whatever order it names its parents. -/
theorem Method.selects_reordered {method : Method} {value : Text} {x y : Member}
    (h : x.Reordered y) : method.selects value y = method.selects value x := by
  obtain ⟨parents, -, rfl⟩ := h
  cases method <;> rfl

/-- A method looks at the value for a member in whatever order it names its parents. -/
theorem Method.examines_reordered {method : Method} {x y : Member} (h : x.Reordered y) :
    method.examines y = method.examines x := by
  obtain ⟨parents, -, rfl⟩ := h
  cases method <;> rfl

/-- A search among the same identifiers succeeds in one order if it does in the other, and finds the
same. -/
theorem Method.search_reordered {m m' : Manifest} (h : m.Reordered m') {method : Method}
    {value : String} {included included' ids : IdSet}
    (hincluded : ∀ x, x ∈ included ↔ x ∈ included')
    (hsearch : method.search m included value = .ok ids) :
    ∃ ids', method.search m' included' value = .ok ids' ∧ ∀ x, x ∈ ids ↔ x ∈ ids' := by
  have hmet : (included'.toList.filterMap m'.find?).any method.examines =
      (included.toList.filterMap m.find?).any method.examines :=
    h.any_filterMap_find? (fun _ _ => Method.examines_reordered)
      (OrderedSet.perm_of_mem_iff hincluded)
  rw [Method.search] at hsearch ⊢
  cases hvalue : method.valueError? value with
  | some error =>
    simp only [hvalue] at hsearch ⊢
    rw [hmet]
    split at hsearch
    · contradiction
    · rename_i hnone
      obtain rfl := Except.ok.inj hsearch
      exact ⟨.empty, if_neg hnone, fun _ => Iff.rfl⟩
  | none =>
    simp only [hvalue] at hsearch ⊢
    obtain rfl := Except.ok.inj hsearch
    refine ⟨_, rfl, fun id => ?_⟩
    rw [OrderedSet.mem_filter, OrderedSet.mem_filter, hincluded,
      h.any_find? fun _ _ => Method.selects_reordered]

namespace Selector

/-- Whether a selector is another one over a manifest and a member graph that differ in order
only. -/
structure Reordered (s s' : Selector) : Prop where
  manifest : s.manifest.Reordered s'.manifest
  memberGraph : s.memberGraph.Same s'.memberGraph
  registry_eq : s'.registry = s.registry

variable {s s' : Selector} {c : Criterion} {operation : SetOperation}
variable {components components' : List Spec} {warnIfEmpty warnIfEmpty' : Bool}
variable {text text' : String} {selected selected' : IdSet} {x : Text}

/-- The order can be changed back. -/
theorem Reordered.symm (h : s.Reordered s') : s'.Reordered s :=
  ⟨h.manifest.symm, h.memberGraph.symm, h.registry_eq.symm⟩

/-- A criterion is understood in one order if it is in the other, and matches the same. -/
theorem Reordered.matching (h : s.Reordered s') {ids : IdSet}
    (hids : s.matching s.memberGraph.nodes c = .ok ids) :
    ∃ ids', s'.matching s'.memberGraph.nodes c = .ok ids' ∧ ∀ x, x ∈ ids ↔ x ∈ ids' := by
  obtain ⟨method, hmethod, hsearch⟩ := Except.bind_eq_ok_iff.1 hids
  obtain ⟨ids', hsearch', hsame⟩ :=
    Method.search_reordered h.manifest h.memberGraph.mem_nodes hsearch
  exact ⟨ids', Except.bind_eq_ok_iff.2 ⟨method, h.registry_eq ▸ hmethod, hsearch'⟩, hsame⟩

/-- What surrounds the same members is the same. -/
theorem Reordered.mem_surroundings (h : s.Reordered s') {ids ids' : List Text}
    (hids : ∀ y, y ∈ ids ↔ y ∈ ids') :
    x ∈ s.surroundings c ids ↔ x ∈ s'.surroundings c ids' := by
  simp only [mem_surroundings_iff, h.memberGraph.mem_family hids, h.memberGraph.mem_reachAll hids]

/-- What a criterion collects in one order it collects in the other. -/
theorem Reordered.mem_collected_of (h : s.Reordered s') (hx : x ∈ s.collected c) :
    x ∈ s'.collected c := by
  rw [collected] at hx ⊢
  cases hids : s.matching s.memberGraph.nodes c with
  | error e => simp [hids] at hx
  | ok ids =>
    obtain ⟨ids', hids', hsame⟩ := h.matching hids
    simp only [hids, hids', OrderedSet.mem_union] at hx ⊢
    exact hx.imp (hsame x).1 (h.mem_surroundings hsame).1

/-- A criterion collects the same in both orders. -/
theorem Reordered.mem_collected (h : s.Reordered s') : x ∈ s.collected c ↔ x ∈ s'.collected c :=
  ⟨h.mem_collected_of, h.symm.mem_collected_of⟩

/-- The tests next to the same members are the same up to the order of their parents. -/
theorem Reordered.neighbouringTests (h : s.Reordered s')
    (hselected : ∀ y, y ∈ selected ↔ y ∈ selected') {t : Member}
    (ht : t ∈ s.neighbouringTests selected) :
    ∃ t' ∈ s'.neighbouringTests selected', t.Reordered t' := by
  obtain ⟨hmem, htest, p, hp, hchild⟩ := mem_neighbouringTests.1 ht
  obtain ⟨t', hmem', htt'⟩ := h.manifest.exists_right hmem
  refine ⟨t', mem_neighbouringTests.2 ⟨hmem', htt'.isTest_eq ▸ htest, p, (hselected p).1 hp, ?_⟩,
    htt'⟩
  rw [htt'.id_eq]
  exact h.memberGraph.mem_neighbours.1 hchild

/-- What an expansion of the same members has in one order it has in the other. -/
theorem Reordered.mem_expansion_of (h : s.Reordered s')
    (hselected : ∀ y, y ∈ selected ↔ y ∈ selected') {greedy : Bool} :
    (x ∈ (s.expansion selected greedy).direct → x ∈ (s'.expansion selected' greedy).direct) ∧
      (x ∈ (s.expansion selected greedy).everything →
        x ∈ (s'.expansion selected' greedy).everything) := by
  rw [mem_direct_expansion, mem_direct_expansion, mem_everything_expansion,
    mem_everything_expansion]
  constructor
  · rintro (hx | ⟨t, ht, rfl, hparents⟩)
    · exact .inl ((hselected x).1 hx)
    · obtain ⟨t', ht', htt'⟩ := h.neighbouringTests hselected ht
      refine .inr ⟨t', ht', htt'.id_eq, hparents.imp id fun hall p hp => ?_⟩
      exact (hselected p).1 (hall p (htt'.mem_dependsOn.1 hp))
  · rintro (hx | ⟨t, ht, rfl⟩)
    · exact .inl ((hselected x).1 hx)
    · obtain ⟨t', ht', htt'⟩ := h.neighbouringTests hselected ht
      exact .inr ⟨t', ht', htt'.id_eq⟩

/-- A criterion selects the same in both orders, with the same hanging on it. -/
theorem Reordered.bundle_criterion (h : s.Reordered s') (c : Criterion) :
    (s.bundle (.criterion c)).Same (s'.bundle (.criterion c)) := by
  have hcollected : ∀ y, y ∈ s.collected c ↔ y ∈ s'.collected c := fun _ => h.mem_collected
  have hback : ∀ y, y ∈ s'.collected c ↔ y ∈ s.collected c := fun y => (hcollected y).symm
  exact ⟨fun x => ⟨(h.mem_expansion_of hcollected).1, (h.symm.mem_expansion_of hback).1⟩,
    fun x => ⟨(h.mem_expansion_of hcollected).2, (h.symm.mem_expansion_of hback).2⟩⟩

/-- What joins a selection in one order joins it in the other. -/
theorem Reordered.joins_of (h : s.Reordered s') (hselected : ∀ y, y ∈ selected ↔ y ∈ selected')
    (hx : s.Joins selected x) : s'.Joins selected' x := by
  obtain ⟨node, hnode, hparents⟩ := hx
  obtain ⟨hmem, rfl, hisNode⟩ := Manifest.findNode?_eq_some_iff.1 hnode
  obtain ⟨node', hmem', hnn'⟩ := h.manifest.exists_right hmem
  refine ⟨node', Manifest.findNode?_eq_some_iff.2 ⟨hmem', hnn'.id_eq, ?_⟩, fun p hp => ?_⟩
  · exact hnn'.isNode_eq ▸ hisNode
  · exact (hselected p).1 (hparents p (hnn'.mem_dependsOn.1 hp))

/-- If no test depends on a test, a combination takes in exactly the nodes that hang on it and join
what its components select from the start. What it takes in are tests, so none of them is a parent
of another. -/
theorem mem_direct_combination (htests : s.manifest.TestsApart) :
    x ∈ (s.bundle (.combination operation components warnIfEmpty text)).direct ↔
      x ∈ operation.combine (components.map fun spec => (s.bundle spec).direct) ∨
        x ∈ operation.combine (components.map fun spec => (s.bundle spec).everything) ∧
          s.Joins (operation.combine (components.map fun spec => (s.bundle spec).direct)) x := by
  rw [direct_combination]
  refine ⟨fun hx => ?_, fun hx => hx.elim mem_promoteAll_of_mem fun h =>
    mem_promoteAll_of_joins h.1 h.2⟩
  refine or_iff_not_imp_left.2 fun hnew => ?_
  obtain ⟨hall, node, hnode, hparents⟩ := (joins_of_mem_promoteAll hx).resolve_left hnew
  refine ⟨hall, node, hnode, fun p hp => ?_⟩
  obtain ⟨hmem, rfl, -⟩ := Manifest.findNode?_eq_some_iff.1 hnode
  obtain ⟨t, ht, htid, htest⟩ := isTest_of_mem_combine hall hnew
  obtain rfl := Manifest.eq_of_id_eq ht hmem htid
  by_contra hp'
  obtain ⟨hpall, -⟩ := (joins_of_mem_promoteAll (hparents p hp)).resolve_left hp'
  obtain ⟨u, hu, huid, hutest⟩ := isTest_of_mem_combine hpall hp'
  rw [htests t ht htest p hp u hu huid] at hutest
  contradiction

/-- If no test depends on a test, combinations of the same sets are the same in both orders. -/
theorem Reordered.bundle_combination (h : s.Reordered s') (htests : s.manifest.TestsApart)
    (hdirect : ∀ x, x ∈ operation.combine (components.map fun spec => (s.bundle spec).direct) ↔
      x ∈ operation.combine (components'.map fun spec => (s'.bundle spec).direct))
    (heverything : ∀ x,
      x ∈ operation.combine (components.map fun spec => (s.bundle spec).everything) ↔
        x ∈ operation.combine (components'.map fun spec => (s'.bundle spec).everything)) :
    (s.bundle (.combination operation components warnIfEmpty text)).Same
      (s'.bundle (.combination operation components' warnIfEmpty' text')) := by
  have hdirect' : ∀ x, x ∈ (s.bundle (.combination operation components warnIfEmpty text)).direct ↔
      x ∈ (s'.bundle (.combination operation components' warnIfEmpty' text')).direct := by
    intro x
    rw [mem_direct_combination htests, mem_direct_combination (h.manifest.testsApart htests),
      hdirect, heverything]
    refine or_congr Iff.rfl (and_congr Iff.rfl ⟨h.joins_of hdirect, h.symm.joins_of ?_⟩)
    exact fun y => (hdirect y).symm
  refine ⟨hdirect', fun x => ?_⟩
  rw [Bundle.everything, Bundle.everything, OrderedSet.mem_union, OrderedSet.mem_union, hdirect',
    indirect_combination, indirect_combination, heverything]

/-- If no test depends on a test, specs that differ in order only select the same, with the same
hanging on them. -/
theorem Reordered.bundle (h : s.Reordered s') (htests : s.manifest.TestsApart)
    {spec spec' : Spec} (hspec : spec.Reordered spec') :
    (s.bundle spec).Same (s'.bundle spec') := by
  induction spec generalizing spec' with
  | criterion c =>
    cases hspec
    exact h.bundle_criterion c
  | combination operation components warnIfEmpty text ih =>
    have hsame : ∀ {changed : List Spec}, List.Forall₂ Spec.Reordered components changed →
        List.Forall₂ (fun a b => (s.bundle a).Same (s'.bundle b)) components changed := by
      intro changed hchanged
      have hboth := (List.forall₂_and_left components changed).2 ⟨ih, hchanged⟩
      exact hboth.imp fun a b hab => hab.1 hab.2
    cases hspec with
    | combination hop hchanged hperm =>
      refine h.bundle_combination htests (fun x => ?_) fun x => ?_
      · exact SetOperation.mem_combine_rearranged hop ⟨_, hsame hchanged, hperm⟩
          fun a b hab => hab.direct x
      · exact SetOperation.mem_combine_rearranged hop ⟨_, hsame hchanged, hperm⟩
          fun a b hab => hab.everything x
    | difference hcomponents =>
      refine h.bundle_combination htests (fun x => ?_) fun x => ?_
      · exact SetOperation.mem_combine_difference_forall₂ (hsame hcomponents)
          fun a b hab => hab.direct x
      · exact SetOperation.mem_combine_difference_forall₂ (hsame hcomponents)
          fun a b hab => hab.everything x

end Selector

end DagSelect
