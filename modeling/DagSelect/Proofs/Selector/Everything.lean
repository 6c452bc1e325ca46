import DagSelect.Proofs.Selector.Promotion

/-!
# What a spec might select

Everything that a spec selects or that hangs on it are nodes of the member graph, and what only
hangs on it are tests. Without a difference, everything is the same whether the spec is greedy or
not, and a greedy spec selects everything. So greediness adds exactly the tests that hang on a spec.
-/

namespace DagSelect

/-- What is direct is in everything. -/
theorem Bundle.mem_everything_of_mem_direct {b : Bundle} {x : Text} (h : x ∈ b.direct) :
    x ∈ b.everything :=
  OrderedSet.mem_union.2 (.inl h)

namespace Selector

variable {s : Selector} {operation : SetOperation} {components : List Spec} {spec : Spec}
variable {warnIfEmpty : Bool} {text : String} {x : Text}

/-- Everything of a spec is what it selects and what only hangs on it. -/
theorem mem_everything_iff : x ∈ (s.bundle spec).everything ↔
    x ∈ (s.selection spec).direct ∨ x ∈ (s.selection spec).indirectOnly := by
  simp only [selection, Bundle.everything, OrderedSet.mem_union, OrderedSet.mem_diff]
  by_cases h : x ∈ (s.bundle spec).direct <;> simp [h]

/-- A combination takes in what hangs on it, starting from what its components select. -/
theorem direct_combination :
    (s.bundle (.combination operation components warnIfEmpty text)).direct =
      s.promoteAll (operation.combine (components.map fun spec => (s.bundle spec).direct))
        (operation.combine (components.map fun spec => (s.bundle spec).everything)) := by
  rw [bundle, bundleAll_eq_map, combine, List.map_map, List.map_map]
  rfl

/-- What is indirect in a combination combines everything of its components. -/
theorem indirect_combination :
    (s.bundle (.combination operation components warnIfEmpty text)).indirect =
      operation.combine (components.map fun spec => (s.bundle spec).everything) := by
  rw [bundle, bundleAll_eq_map, combine, List.map_map, List.map_map]
  rfl

/-- What a combination selects is combined from what its components select, or it is a node that
is combined from everything of theirs and has all its parents selected. -/
theorem joins_of_mem_direct
    (h : x ∈ (s.bundle (.combination operation components warnIfEmpty text)).direct) :
    x ∈ operation.combine (components.map fun spec => (s.bundle spec).direct) ∨
      x ∈ operation.combine (components.map fun spec => (s.bundle spec).everything) ∧
        s.Joins (s.bundle (.combination operation components warnIfEmpty text)).direct x := by
  rw [direct_combination] at h ⊢
  exact joins_of_mem_promoteAll h

/-- Everything of a combination without difference is combined from everything of its components. -/
theorem mem_everything_combination (hop : operation ≠ .difference) :
    x ∈ (s.bundle (.combination operation components warnIfEmpty text)).everything ↔
      x ∈ operation.combine (components.map fun spec => (s.bundle spec).everything) := by
  rw [Bundle.everything, OrderedSet.mem_union, indirect_combination]
  refine ⟨fun h => h.elim (fun hdirect => ?_) id, .inr⟩
  rcases joins_of_mem_direct hdirect with h | h
  · exact SetOperation.mem_combine_mono hop
      (fun spec _ => Bundle.mem_everything_of_mem_direct) h
  · exact h.1

/-- Everything of a combination is in everything of a component. -/
theorem exists_component_of_mem_everything
    (h : x ∈ (s.bundle (.combination operation components warnIfEmpty text)).everything) :
    ∃ spec ∈ components, x ∈ (s.bundle spec).everything := by
  rcases OrderedSet.mem_union.1 h with h | h
  · rcases joins_of_mem_direct h with h | ⟨h, -⟩
    · obtain ⟨spec, hspec, hx⟩ := SetOperation.exists_of_mem_combine h
      exact ⟨spec, hspec, Bundle.mem_everything_of_mem_direct hx⟩
    · exact SetOperation.exists_of_mem_combine h
  · rw [indirect_combination] at h
    exact SetOperation.exists_of_mem_combine h

/-- Everything of a spec is in the member graph. -/
theorem mem_nodes_of_mem_everything (h : x ∈ (s.bundle spec).everything) :
    x ∈ s.memberGraph.nodes := by
  induction spec with
  | criterion c =>
    rcases mem_everything_expansion.1 h with h | ⟨t, ht, rfl⟩
    · exact mem_nodes_of_mem_collected h
    · obtain ⟨-, -, p, -, hp⟩ := mem_neighbouringTests.1 ht
      exact Graph.mem_nodes_of_mem_neighbours hp
  | combination operation components warnIfEmpty text ih =>
    obtain ⟨spec, hspec, hx⟩ := exists_component_of_mem_everything h
    exact ih spec hspec hx

/-- A spec without criteria selects nothing, and nothing hangs on it. -/
theorem criteria_ne_nil_of_mem_everything (h : x ∈ (s.bundle spec).everything) :
    spec.criteria ≠ [] := by
  induction spec with
  | criterion c => simp [Spec.criteria]
  | combination operation components warnIfEmpty text ih =>
    obtain ⟨spec, hspec, hx⟩ := exists_component_of_mem_everything h
    obtain ⟨c, hc⟩ := List.exists_mem_of_ne_nil _ (ih spec hspec hx)
    exact List.ne_nil_of_mem (Spec.mem_criteriaAll.2 ⟨spec, hspec, hc⟩)

/-- What is combined from everything of the components, but not from what they select, only hangs on
one of them. -/
theorem exists_component_of_mem_combine
    (h : x ∈ operation.combine (components.map fun spec => (s.bundle spec).everything))
    (hdirect : x ∉ operation.combine (components.map fun spec => (s.bundle spec).direct)) :
    ∃ spec ∈ components, x ∈ (s.bundle spec).everything ∧ x ∉ (s.bundle spec).direct := by
  by_contra hno
  have hsame : ∀ spec ∈ components,
      (x ∈ (s.bundle spec).direct ↔ x ∈ (s.bundle spec).everything) := by
    refine fun spec hspec => ⟨Bundle.mem_everything_of_mem_direct, fun hx => ?_⟩
    by_contra hx'
    exact hno ⟨spec, hspec, hx, hx'⟩
  exact hdirect ((SetOperation.mem_combine_congr hsame).2 h)

/-- What only hangs on a spec is a test. -/
theorem isTest_of_mem_everything (h : x ∈ (s.bundle spec).everything)
    (hdirect : x ∉ (s.bundle spec).direct) :
    ∃ t ∈ s.manifest.members, t.id = x ∧ t.isTest = true := by
  induction spec with
  | criterion c =>
    rcases mem_everything_expansion.1 h with h | ⟨t, ht, rfl⟩
    · exact absurd (mem_direct_expansion.2 (.inl h)) hdirect
    · obtain ⟨hmem, htest, -⟩ := mem_neighbouringTests.1 ht
      exact ⟨t, hmem, rfl, htest⟩
  | combination operation components warnIfEmpty text ih =>
    have hindirect := (OrderedSet.mem_union.1 h).resolve_left hdirect
    rw [indirect_combination] at hindirect
    rw [direct_combination] at hdirect
    obtain ⟨spec, hspec, hall, hnew⟩ := exists_component_of_mem_combine hindirect fun hx =>
      hdirect (mem_promoteAll_of_mem hx)
    exact ih spec hspec hall hnew

/-- A member that only hangs on a spec is a test. -/
theorem isTest_of_mem_indirectOnly {t : Member} (ht : t ∈ s.manifest.members)
    (h : t.id ∈ (s.selection spec).indirectOnly) : t.isTest = true := by
  obtain ⟨t', ht', hid, htest⟩ :=
    isTest_of_mem_everything (mem_everything_iff.2 (.inr h)) (OrderedSet.mem_diff.1 h).2
  exact Manifest.eq_of_id_eq ht' ht hid ▸ htest

/-- What is combined from everything of the components, but not from what they select, is a test. -/
theorem isTest_of_mem_combine
    (h : x ∈ operation.combine (components.map fun spec => (s.bundle spec).everything))
    (hdirect : x ∉ operation.combine (components.map fun spec => (s.bundle spec).direct)) :
    ∃ t ∈ s.manifest.members, t.id = x ∧ t.isTest = true := by
  obtain ⟨spec, -, hall, hnew⟩ := exists_component_of_mem_combine h hdirect
  exact isTest_of_mem_everything hall hnew

/-- A criterion collects the same whether it is greedy or not. -/
theorem collected_greedily (c : Criterion) : s.collected c.greedily = s.collected c := rfl

/-- Without a difference, everything is the same when the spec is made greedy. -/
theorem mem_everything_greedily (hspec : spec.Positive) :
    x ∈ (s.bundle spec.greedily).everything ↔ x ∈ (s.bundle spec).everything := by
  induction hspec with
  | criterion c =>
    rw [Spec.greedily, bundle, bundle, collected_greedily, mem_everything_expansion,
      mem_everything_expansion]
  | combination hop _ ih =>
    rw [Spec.greedily, Spec.greedilyAll_eq_map, mem_everything_combination hop,
      mem_everything_combination hop, List.map_map]
    exact SetOperation.mem_combine_congr ih

/-- Without a difference, the spec made greedy selects everything. -/
theorem mem_direct_greedily (hspec : spec.Positive) :
    x ∈ (s.bundle spec.greedily).direct ↔ x ∈ (s.bundle spec).everything := by
  refine ⟨fun h => (mem_everything_greedily hspec).1 (Bundle.mem_everything_of_mem_direct h), ?_⟩
  induction hspec with
  | criterion c =>
    intro h
    rw [Spec.greedily, bundle, mem_direct_expansion, collected_greedily]
    rcases mem_everything_expansion.1 h with h | ⟨t, ht, hx⟩
    · exact .inl h
    · exact .inr ⟨t, ht, hx, .inl rfl⟩
  | combination hop _ ih =>
    intro h
    rw [Spec.greedily, Spec.greedilyAll_eq_map, direct_combination, List.map_map]
    refine mem_promoteAll_of_mem (SetOperation.mem_combine_mono hop ih ?_)
    exact (mem_everything_combination hop).1 h

/-- A greedy spec without a difference selects everything. -/
theorem mem_direct_of_greedy (hspec : spec.Positive)
    (hgreedy : ∀ c ∈ spec.criteria, c.greedy = true) :
    x ∈ (s.bundle spec).direct ↔ x ∈ (s.bundle spec).everything := by
  rw [← mem_direct_greedily hspec, Spec.greedily_eq_self hgreedy]

end Selector

end DagSelect
