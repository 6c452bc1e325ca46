import DagSelect.Proofs.Selector.LeftOut

/-!
# Promoting twice

A promotion is one pass over its candidates. It stops changing anything once no candidate joins the
selection any more, but one pass need not get there: a candidate is passed over if one of its
parents is a later candidate that has not been taken in yet, and it is not looked at again when that
happens. Such a candidate is the only reason why a second pass adds something, so where no candidate
depends on a later one, promoting twice is promoting once.
-/

namespace DagSelect.Selector

variable {s : Selector} {direct indirect selected : IdSet} {ids : List Text} {id : Text}

/-- A node that does not join the selection, or is part of it, changes nothing. -/
theorem promote_eq_self (h : s.Joins selected id → id ∈ selected) :
    s.promote selected id = selected := by
  rw [promote]
  split
  · rename_i node hnode
    split
    · rename_i hparents
      have hjoins : s.Joins selected id := ⟨node, hnode, OrderedSet.containsAll_iff.1 hparents⟩
      exact dif_pos (h hjoins)
    · rfl
  · rfl

/-- Where no candidate joins the selection that is not part of it, a pass changes nothing. -/
theorem foldl_promote_eq_self (h : ∀ id ∈ ids, s.Joins selected id → id ∈ selected) :
    ids.foldl s.promote selected = selected := by
  induction ids with
  | nil => rfl
  | cons id ids ih =>
    rw [List.foldl_cons, promote_eq_self (h id List.mem_cons_self)]
    exact ih fun id hid => h id (List.mem_cons_of_mem _ hid)

/-- A candidate that would join the selection after a pass, but is not in it, names a later
candidate that the pass has taken in. -/
theorem exists_later_parent (hid : id ∈ ids) (hout : id ∉ ids.foldl s.promote selected)
    (hjoins : s.Joins (ids.foldl s.promote selected) id) :
    ∃ later, [id, later].Sublist ids ∧ later ∉ selected ∧
      ∃ node, s.manifest.findNode? id = some node ∧ later ∈ node.dependsOn := by
  obtain ⟨before, after, rfl⟩ := List.append_of_mem hid
  obtain ⟨node, hnode, hparents⟩ := hjoins
  rw [List.foldl_append] at hout hparents
  -- When its turn came, some parent was missing; what comes in after that comes later.
  have hturn : ¬ s.Joins (before.foldl s.promote selected) id := by
    intro h
    exact hout (mem_foldl_promote_of_joins List.mem_cons_self h)
  obtain ⟨later, hparent, hmissing⟩ :
      ∃ p ∈ node.dependsOn, p ∉ before.foldl s.promote selected := by
    by_contra hno
    apply hturn
    refine ⟨node, hnode, fun p hp => ?_⟩
    by_contra hmissing
    exact hno ⟨p, hp, hmissing⟩
  have hafter : later ∈ after := by
    rcases joins_of_mem_foldl_promote (hparents later hparent) with h | ⟨h, -⟩
    · exact absurd h hmissing
    · rcases List.mem_cons.1 h with heq | h
      · exact absurd (heq ▸ hparents later hparent) hout
      · exact h
  have hsublist : [id, later].Sublist (before ++ id :: after) :=
    ((List.singleton_sublist.2 hafter).cons_cons id).trans (List.sublist_append_right _ _)
  exact ⟨later, hsublist, fun h => hmissing (mem_foldl_promote_of_mem h), node, hnode, hparent⟩

/-- A candidate that a promotion passes over because of a later one: it names that one as a parent,
and it is left out although all its parents are in the result. -/
structure PassedOver (s : Selector) (direct indirect : IdSet) (id later : Text) : Prop where
  order : [id, later].Sublist indirect.toList
  missing : later ∉ direct
  parent : ∃ node, s.manifest.findNode? id = some node ∧ later ∈ node.dependsOn
  leftOut : id ∉ s.promoteAll direct indirect
  joins : s.Joins (s.promoteAll direct indirect) id

/-- Promoting twice is promoting once exactly if no candidate is passed over because of a later one.
That is so whenever every candidate that another one names as a parent is selected from the start or
comes before it, and in particular when no candidate depends on another. -/
theorem promoteAll_twice_iff (s : Selector) (direct indirect : IdSet) :
    (s.promoteAll (s.promoteAll direct indirect) indirect = s.promoteAll direct indirect ↔
      ∀ id later, ¬ s.PassedOver direct indirect id later) ∧
    ((∀ id later, [id, later].Sublist indirect.toList →
        (∃ node, s.manifest.findNode? id = some node ∧ later ∈ node.dependsOn) → later ∈ direct) →
      s.promoteAll (s.promoteAll direct indirect) indirect = s.promoteAll direct indirect) := by
  have hiff : s.promoteAll (s.promoteAll direct indirect) indirect = s.promoteAll direct indirect ↔
      ∀ id later, ¬ s.PassedOver direct indirect id later := by
    constructor
    · intro heq id later h
      have hcandidate : id ∈ indirect := h.order.subset List.mem_cons_self
      have hagain : id ∈ s.promoteAll (s.promoteAll direct indirect) indirect :=
        mem_promoteAll_of_joins hcandidate h.joins
      rw [heq] at hagain
      exact h.leftOut hagain
    · intro hnone
      apply foldl_promote_eq_self
      intro id hid hjoins
      by_contra hout
      obtain ⟨later, hlater, hmissing, hparent⟩ := exists_later_parent hid hout hjoins
      exact hnone id later ⟨hlater, hmissing, hparent, hout, hjoins⟩
  refine ⟨hiff, fun hordered => hiff.2 fun id later h => ?_⟩
  exact h.missing (hordered id later h.order h.parent)

/-- In the chain of tests, candidates that come after their parents are taken in for good. -/
theorem promoteAll_twice_iff_sample : ∃ s,
    ofGraph Sample.chainGraph Sample.chain .standard .all standardGreedyOption = .ok s ∧
    ∃ direct indirect : IdSet,
      ("second" : Text) ∈ s.promoteAll direct indirect ∧
      s.promoteAll (s.promoteAll direct indirect) indirect = s.promoteAll direct indirect := by
  let s := ofManifest Sample.chain Sample.chainGraph .standard .all standardGreedyOption
  let direct : IdSet := .ofList ["orders"]
  let indirect : IdSet := .ofList ["first", "second"]
  have hlist : indirect.toList = (["first", "second"] : List Text) := by decide +kernel
  have hfirst : ∀ p ∈ ((s.manifest.findNode? "first").map Member.dependsOn).getD [],
      p ∈ direct.toList := by
    decide +kernel
  refine ⟨s, ofGraph_eq Sample.chainGraph_eq .., direct, indirect, by decide +kernel, ?_⟩
  apply (promoteAll_twice_iff s direct indirect).2
  intro id later hlater hparent
  obtain ⟨node, hnode, hmem⟩ := hparent
  have hid : id = "first" := by
    rw [hlist] at hlater
    cases hlater with
    | cons_cons _ _ => rfl
    | cons _ h =>
      have hshort := h.length_le
      contradiction
  subst hid
  apply hfirst
  rw [hnode]
  exact hmem

/-- Of two tests of which one depends on the other, the first pass takes in only the one that comes
last, and a second pass the one that depends on it. -/
theorem promoteAll_twice_more : ∃ s,
    ofGraph Sample.chainGraph Sample.chain .standard .all standardGreedyOption = .ok s ∧
    ∃ direct indirect : IdSet,
      ("second" : Text) ∉ s.promoteAll direct indirect ∧
      ("second" : Text) ∈ s.promoteAll (s.promoteAll direct indirect) indirect := by
  refine ⟨_, ofGraph_eq Sample.chainGraph_eq .., .ofList ["orders"], .ofList ["second", "first"],
    ?_, ?_⟩
  · decide +kernel
  · decide +kernel

end DagSelect.Selector
