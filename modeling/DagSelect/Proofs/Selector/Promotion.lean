import DagSelect.Proofs.Manifest.Lookup
import DagSelect.Proofs.Selector.Evaluation

/-!
# Taking in tests with their parents

A selection is expanded by the tests among the children of its members. Of these, a test is direct
if all its parents are selected, and otherwise it hangs on the selection until a promotion takes it
in. A promotion only adds, and each node that it adds has all its parents in the result. Nothing
but tests is ever added in these ways.
-/

namespace DagSelect

/-- What a bundle selects or might select: its direct set with what hangs on it. -/
def Bundle.everything (b : Bundle) : IdSet := b.direct.union b.indirect

/-- A test is a node that can be built. -/
theorem Member.isNode_of_isTest {x : Member} (h : x.isTest = true) : x.isNode = true := by
  have hkind : x.resourceKind = .node .test := of_decide_eq_true h
  rw [isNode]
  rw [resourceKind] at hkind
  split
  · rfl
  · rename_i hrole
    split at hkind
    · exact absurd ‹x.role = _› (hrole _ _)
    · contradiction
    · contradiction

namespace Selector

variable {s : Selector} {direct indirect selected selected' : IdSet} {ids : List Text} {id x : Text}

/-- Whether an identifier belongs to a node all of whose parents are selected. -/
def Joins (s : Selector) (selected : IdSet) (id : Text) : Prop :=
  ∃ node, s.manifest.findNode? id = some node ∧ ∀ p ∈ node.dependsOn, p ∈ selected

/-- A node that joins a selection joins every larger one. -/
theorem Joins.mono (h : s.Joins selected id) (hsub : ∀ x ∈ selected, x ∈ selected') :
    s.Joins selected' id := by
  obtain ⟨node, hnode, hparents⟩ := h
  exact ⟨node, hnode, fun p hp => hsub p (hparents p hp)⟩

/-- A node joins a selection if all its parents are selected. -/
theorem joins_iff {node : Member} (hmem : node ∈ s.manifest.members) (hnode : node.isNode = true) :
    s.Joins selected node.id ↔ ∀ p ∈ node.dependsOn, p ∈ selected := by
  have hfind : s.manifest.findNode? node.id = some node :=
    Manifest.findNode?_eq_some_iff.2 ⟨hmem, rfl, hnode⟩
  simp [Joins, hfind]

/-- One step of a promotion takes in a node that joins the selection. -/
theorem mem_promote : x ∈ s.promote selected id ↔ x ∈ selected ∨ x = id ∧ s.Joins selected id := by
  rw [promote, Joins]
  cases hnode : s.manifest.findNode? id with
  | none => simp
  | some node =>
    simp only [Option.some.injEq, exists_eq_left', ← OrderedSet.containsAll_iff]
    split
    · rename_i hparents
      rw [OrderedSet.mem_insert, hparents]
      simp
    · rename_i hparents
      simp [hparents]

/-- What is selected stays selected in every step. -/
theorem mem_foldl_promote_of_mem (h : x ∈ selected) : x ∈ ids.foldl s.promote selected := by
  induction ids generalizing selected with
  | nil => exact h
  | cons id ids ih => exact ih (mem_promote.2 (.inl h))

/-- What the steps add is one of their identifiers, with all its parents in the result. -/
theorem joins_of_mem_foldl_promote (h : x ∈ ids.foldl s.promote selected) :
    x ∈ selected ∨ x ∈ ids ∧ s.Joins (ids.foldl s.promote selected) x := by
  induction ids generalizing selected with
  | nil => exact .inl h
  | cons id ids ih =>
    rcases ih h with h | ⟨hmem, hjoins⟩
    · rcases mem_promote.1 h with h | ⟨rfl, hjoins⟩
      · exact .inl h
      · have hstay : ∀ y ∈ selected, y ∈ (x :: ids).foldl s.promote selected :=
          fun y hy => mem_foldl_promote_of_mem hy
        exact .inr ⟨List.mem_cons_self, hjoins.mono hstay⟩
    · exact .inr ⟨List.mem_cons_of_mem _ hmem, hjoins⟩

/-- The steps add each of their identifiers that joins the selection from the start. -/
theorem mem_foldl_promote_of_joins (h : x ∈ ids) (hjoins : s.Joins selected x) :
    x ∈ ids.foldl s.promote selected := by
  induction ids generalizing selected with
  | nil => contradiction
  | cons id ids ih =>
    rw [List.foldl_cons]
    rcases List.mem_cons.1 h with rfl | h
    · exact mem_foldl_promote_of_mem (mem_promote.2 (.inr ⟨rfl, hjoins⟩))
    · exact ih h (hjoins.mono fun y hy => mem_promote.2 (.inl hy))

/-- What is selected stays selected when tests are taken in. -/
theorem mem_promoteAll_of_mem (h : x ∈ direct) : x ∈ s.promoteAll direct indirect :=
  mem_foldl_promote_of_mem h

/-- What is taken in was indirect, and all its parents are in the result. -/
theorem joins_of_mem_promoteAll (h : x ∈ s.promoteAll direct indirect) :
    x ∈ direct ∨ x ∈ indirect ∧ s.Joins (s.promoteAll direct indirect) x :=
  joins_of_mem_foldl_promote h

/-- What is indirect is taken in if all its parents are selected from the start. -/
theorem mem_promoteAll_of_joins (h : x ∈ indirect) (hjoins : s.Joins direct x) :
    x ∈ s.promoteAll direct indirect :=
  mem_foldl_promote_of_joins h hjoins

/-- The tests next to a selection are the tests among the children of its members. -/
theorem mem_neighbouringTests {t : Member} : t ∈ s.neighbouringTests selected ↔
    t ∈ s.manifest.members ∧ t.isTest = true ∧
      ∃ p ∈ selected, t.id ∈ s.memberGraph.neighbours .downstream p := by
  simp only [neighbouringTests, List.mem_filter, List.mem_filterMap, OrderedSet.mem_toList,
    Graph.mem_successors, Manifest.findNode?_eq_some_iff]
  constructor
  · rintro ⟨⟨id, ⟨p, hp, hid⟩, ht, rfl, -⟩, htest⟩
    exact ⟨ht, htest, p, hp, hid⟩
  · rintro ⟨ht, htest, p, hp, hid⟩
    exact ⟨⟨t.id, ⟨p, hp, hid⟩, ht, rfl, Member.isNode_of_isTest htest⟩, htest⟩

/-- An expansion selects the given members, and the tests next to them that are taken greedily or
have all their parents among them. -/
theorem mem_direct_expansion {greedy : Bool} : x ∈ (s.expansion selected greedy).direct ↔
    x ∈ selected ∨ ∃ t ∈ s.neighbouringTests selected, t.id = x ∧
      (greedy = true ∨ ∀ p ∈ t.dependsOn, p ∈ selected) := by
  simp only [expansion, OrderedSet.mem_insertAll, List.mem_map, List.mem_filter, Bool.or_eq_true,
    OrderedSet.containsAll_iff, and_assoc]
  refine or_congr Iff.rfl (exists_congr fun t => and_congr Iff.rfl ?_)
  exact and_comm

/-- On an expansion hang the tests next to the given members that are not taken directly. -/
theorem mem_indirect_expansion {greedy : Bool} : x ∈ (s.expansion selected greedy).indirect ↔
    ∃ t ∈ s.neighbouringTests selected, t.id = x ∧
      ¬ (greedy = true ∨ ∀ p ∈ t.dependsOn, p ∈ selected) := by
  simp only [expansion, OrderedSet.mem_ofList, List.mem_map, List.mem_filter, Bool.not_eq_true',
    ← Bool.not_eq_true, Bool.or_eq_true, OrderedSet.containsAll_iff, and_assoc]
  refine exists_congr fun t => and_congr Iff.rfl ?_
  exact and_comm

/-- The given members and the tests next to them are everything in an expansion, greedy or not. -/
theorem mem_everything_expansion {greedy : Bool} :
    x ∈ (s.expansion selected greedy).everything ↔
      x ∈ selected ∨ ∃ t ∈ s.neighbouringTests selected, t.id = x := by
  rw [Bundle.everything, OrderedSet.mem_union, mem_direct_expansion, mem_indirect_expansion,
    or_assoc, ← exists_or]
  refine or_congr Iff.rfl (exists_congr fun t => ?_)
  rw [← and_or_left, ← and_or_left, or_iff_not_imp_left, imp_self, and_true]

/-- An expansion depends only on which members are given. -/
theorem expansion_congr {greedy : Bool} (h : ∀ y, y ∈ selected ↔ y ∈ selected') :
    (x ∈ (s.expansion selected greedy).direct ↔ x ∈ (s.expansion selected' greedy).direct) ∧
      (x ∈ (s.expansion selected greedy).indirect ↔
        x ∈ (s.expansion selected' greedy).indirect) := by
  simp only [mem_direct_expansion, mem_indirect_expansion, mem_neighbouringTests, h, and_self]

end Selector

end DagSelect
