import DagSelect.Proofs.Graph.Contraction
import DagSelect.Proofs.Listing
import DagSelect.Proofs.Queue.Schedule

/-!
# What a plan lists

A plan is the schedule of the graph contracted to what is selected. It fails if that leaves out
a pinned member: one that depends on the identifier that is never listed. Where the graph lists all
dependencies none does. Then a plan lists selected members, none twice, each after all that it
depends on, directly or not. It leaves out those that depend on a cycle of selected members; a cycle
that has only one selected member on it, without a dependency on itself, does not count.
-/

namespace DagSelect

open Relation

variable {m : Manifest} {g : Graph} {request : SelectionRequest} {filter : ResourceFilter}
variable {spec : Spec}

namespace Manifest

/-- Whether a member of a set depends on itself, or depends transitively on another member of the
set that depends transitively on it. -/
def Circular (m : Manifest) (selected : IdSet) (id : Text) : Prop :=
  m.DependsOn id id ∨
    ∃ other ∈ selected, other ≠ id ∧ TransGen m.DependsOn id other ∧ TransGen m.DependsOn other id

variable {selected : IdSet} {a b id : Text}

/-- A selected member is on a cycle of the contraction to what is selected exactly if it is
circular. -/
theorem cyclic_contracted_iff (hg : m.graph = .ok g) (hlists : g.Lists m.dependencies)
    (hid : id ∈ selected) :
    TransGen (g.contracted selected.toList).Edge id id ↔ m.Circular selected id := by
  have hplain : g.Plain := plain_of_lists hg hlists
  rw [(Graph.Contractible.of_plain hplain _).cyclic_contracted hid, edge_iff_dependsOn hg hlists,
    Circular]
  simp only [transGen_edge_iff hg hlists, OrderedSet.mem_toList, and_comm]

/-- A selected member is reached in the contraction from those that it is or depends on. -/
theorem reflTransGen_contracted_iff (hg : m.graph = .ok g) (hlists : g.Lists m.dependencies)
    (ha : a ∈ selected) (hb : b ∈ selected) :
    ReflTransGen (g.contracted selected.toList).Edge a b ↔ b = a ∨ TransGen m.DependsOn b a := by
  have hplain : g.Plain := plain_of_lists hg hlists
  rw [reflTransGen_iff_eq_or_transGen]
  by_cases heq : b = a
  · simp [heq]
  · rw [hplain.transGen_contracted ha hb (Ne.symm heq), transGen_edge_iff hg hlists]

end Manifest

/-- A plan of a prepared request is the schedule of the queue for what its spec selects. -/
theorem plan_of_prepare {s : Selector} (h : request.prepare m = .ok (s, spec)) :
    plan m request = (s.queue spec).map fun queue => ⟨queue.value.schedule, queue.log⟩ := by
  rw [plan, h, Except.ok_bind]
  exact bind_pure_comp _ _

/-- A request that can be read gives the schedule of the graph contracted to what is selected, if
all pinned members are selected, and fails otherwise. -/
theorem plan_spec (hg : m.graph = .ok g) (hfilter : request.filter = .ok filter)
    (hspec : request.arguments.parse = .ok spec) {s : Selector}
    (hs : s = Selector.ofManifest m g .standard filter Selector.standardGreedyOption) :
    ∃ selected, (∀ id ∈ selected.value, id ∈ m.ids) ∧ s.select spec = .ok selected ∧
      ((∀ id, m.Pinned id → id ∈ selected.value) → plan m request =
        .ok ⟨(Queue.ofGraph (g.contracted selected.value.toList) selected.value).schedule,
          selected.log⟩) ∧
      ∀ id, m.Pinned id → id ∉ selected.value → plan m request = .error (.store .unremovable) := by
  subst hs
  obtain ⟨selected, leftOut, hknown, -, -, hselect⟩ :=
    Selector.known_ofManifest.select_spec spec
  have hplan := plan_of_prepare (SelectionRequest.prepare_eq hg hfilter hspec)
  refine ⟨_, hknown, hselect, fun hkept => ?_, fun id hpinned hid => ?_⟩
  · rw [hplan, Selector.queue_eq_ok hselect fun id h => hkept id ((Manifest.pinned_iff hg).1 h)]
    rfl
  · rw [hplan, Selector.queue_eq_error hselect ((Manifest.pinned_iff hg).2 hpinned) hid]
    rfl

/-- A plan lists selected members, none twice, each after all selected members that it depends on.
Of the selected members it leaves out exactly those that are or depend on a circular one. -/
theorem plan_order (hg : m.graph = .ok g) (hlists : g.Lists m.dependencies)
    (hfilter : request.filter = .ok filter) (hspec : request.arguments.parse = .ok spec) :
    ∃ (s : Selector) (selected : Logged IdSet) (order : Logged (List Text)),
      request.prepare m = .ok (s, spec) ∧
      s.select spec = .ok selected ∧
      plan m request = .ok order ∧
      order.value.Nodup ∧
      (∀ id ∈ order.value, id ∈ selected.value) ∧
      (∀ a ∈ order.value, ∀ b ∈ order.value, a ≠ b → TransGen m.DependsOn a b →
        order.value.idxOf b < order.value.idxOf a) ∧
      (∀ id ∈ selected.value, id ∉ order.value ↔
        ∃ c ∈ selected.value, (id = c ∨ TransGen m.DependsOn id c) ∧
          m.Circular selected.value c) ∧
      ((∀ id, ¬ TransGen m.DependsOn id id) →
        ∀ id ∈ selected.value, order.value.count id = 1) := by
  let s := Selector.ofManifest m g .standard filter Selector.standardGreedyOption
  obtain ⟨selected, hknown, hselect, hplan, -⟩ := plan_spec hg hfilter hspec (s := s) rfl
  have hplain : g.Plain := Manifest.plain_of_lists hg hlists
  have hplan := hplan fun id h => absurd ((Manifest.pinned_iff hg).2 h) hplain.not_pinned
  have hnodes : ∀ id, id ∈ (g.contracted selected.value.toList).nodes ↔ id ∈ selected.value := by
    intro id
    rw [Graph.nodes_contracted, OrderedSet.mem_filter, decide_eq_true_eq, OrderedSet.mem_toList,
      Manifest.nodes_graph hg]
    exact and_iff_right_of_imp (hknown id)
  obtain ⟨hnodup, hsub, hfirst, hmissing⟩ :=
    Queue.schedule_ofGraph (hplain.contracted selected.value.toList) selected.value
  have hselected := fun id hid => (hnodes id).1 (hsub id hid)
  have hleft : ∀ id ∈ selected.value,
      id ∉ (Queue.ofGraph (g.contracted selected.value.toList) selected.value).schedule ↔
        ∃ c ∈ selected.value, (id = c ∨ TransGen m.DependsOn id c) ∧
          m.Circular selected.value c := by
    intro id hid
    rw [hmissing id ((hnodes id).2 hid)]
    constructor
    · rintro ⟨c, hreach, hcycle⟩
      obtain ⟨d, hcd, -⟩ := TransGen.head'_iff.1 hcycle
      have hc : c ∈ selected.value := (hnodes c).1 hcd.parent_mem
      exact ⟨c, hc, (Manifest.reflTransGen_contracted_iff hg hlists hc hid).1 hreach,
        (Manifest.cyclic_contracted_iff hg hlists hc).1 hcycle⟩
    · rintro ⟨c, hc, hreach, hcycle⟩
      exact ⟨c, (Manifest.reflTransGen_contracted_iff hg hlists hc hid).2 hreach,
        (Manifest.cyclic_contracted_iff hg hlists hc).2 hcycle⟩
  refine ⟨s, selected, _, SelectionRequest.prepare_eq hg hfilter hspec, hselect, hplan, hnodup,
    hselected, fun a ha b hb hne hdep => ?_, hleft, fun hacyclic id hid => ?_⟩
  · rw [← Manifest.transGen_edge_iff hg hlists, ← hplain.transGen_contracted (hselected b hb)
      (hselected a ha) (Ne.symm hne)] at hdep
    exact hfirst.idxOf_lt hnodup ha hdep
  · refine List.count_eq_one_of_mem hnodup ?_
    by_contra hno
    obtain ⟨c, -, -, hcycle⟩ := (hleft id hid).1 hno
    rcases hcycle with hloop | ⟨d, -, -, hcd, hdc⟩
    · exact hacyclic c (.single hloop)
    · exact hacyclic c (hcd.trans hdc)

/-- In the sample, a plan for everything leaves out exactly what is circular or depends on that. -/
theorem plan_order_sample : ∃ s spec selected order,
    SelectionRequest.prepare ⟨⟨[], [], false⟩, []⟩ Sample.manifest = .ok (s, spec) ∧
    s.select spec = .ok selected ∧
    plan Sample.manifest ⟨⟨[], [], false⟩, []⟩ = .ok order ∧
    order.value.Nodup ∧
    (∀ id ∈ selected.value, id ∉ order.value ↔
      ∃ c ∈ selected.value, (id = c ∨ TransGen Sample.manifest.DependsOn id c) ∧
        Sample.manifest.Circular selected.value c) := by
  obtain ⟨spec, hspec⟩ := Except.exists_eq_ok (x := SelectionArguments.parse ⟨[], [], false⟩)
    (by decide +kernel)
  have hfilter : SelectionRequest.filter ⟨⟨[], [], false⟩, []⟩ = .ok .all := rfl
  obtain ⟨s, selected, order, hprepare, hselect, hplan, hnodup, -, -, hmissing, -⟩ :=
    plan_order Sample.graph_eq Sample.lists hfilter hspec
  exact ⟨s, spec, selected, order, hprepare, hselect, hplan, hnodup, hmissing⟩

example : (plan Sample.manifest ⟨⟨[], [], false⟩, []⟩).toOption.map Logged.value =
    some (["orders", "unique"] : List Text) := by
  decide +kernel

end DagSelect
