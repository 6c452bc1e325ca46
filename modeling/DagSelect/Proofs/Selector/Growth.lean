import DagSelect.Proofs.Selector.Exclusion
import Mathlib.Data.List.Basic

/-!
# Growing selections

A promotion goes through its candidates one by one, so their order decides what it takes in. It
takes in no less when it starts from more and meets the same candidates in the same order, with
further ones in between. A union with components at its end starts from more and meets its
candidates first, so it selects no less, tests of tests included; and this carries over to a
difference from it. Leaving out less from the same selects no less either.
-/

namespace DagSelect

namespace OrderedSet

variable {α : Type} [DecidableEq α]

/-- Insertion of a list without repetition puts its new elements at the end. -/
theorem toList_foldl_insert {s : OrderedSet α} {xs : List α} (hnd : xs.Nodup) :
    (xs.foldl insert s).toList = s.toList ++ xs.filter (· ∉ s) := by
  induction xs generalizing s with
  | nil => simp
  | cons a xs ih =>
    obtain ⟨ha, hnd⟩ := List.nodup_cons.1 hnd
    rw [List.foldl_cons, ih hnd, toList_insert]
    by_cases hmem : a ∈ s
    · have hinsert : ∀ x, x ∈ s.insert a ↔ x ∈ s := fun x =>
        mem_insert.trans (or_iff_left_of_imp fun h => h ▸ hmem)
      rw [if_pos (mem_toList.2 hmem), List.filter_cons_of_neg (by simpa using hmem)]
      simp only [hinsert]
    · have hsame : xs.filter (· ∉ s.insert a) = xs.filter (· ∉ s) := by
        refine List.filter_congr fun x hx => ?_
        have hne : x ≠ a := fun h => ha (h ▸ hx)
        simp [hne]
      rw [if_neg (mt mem_toList.1 hmem), List.filter_cons_of_pos (by simpa using hmem), hsame,
        List.append_assoc, List.singleton_append]

/-- A union lists the first set and then what the second one adds. -/
theorem toList_union [Ord α] [Std.TransOrd α] [Std.LawfulEqOrd α] (s t : OrderedSet α) :
    (s.union t).toList = s.toList ++ t.toList.filter (· ∉ s) := by
  rw [union, insertAll_eq_foldl, toList_foldl_insert t.nodup]

end OrderedSet

namespace SetOperation

variable {α : Type} [DecidableEq α] [Ord α] [Std.TransOrd α] [Std.LawfulEqOrd α]

/-- Further sets in a union come after what it lists. -/
theorem combine_union_append (sets more : List (OrderedSet α)) :
    (union.combine sets).toList <+: (union.combine (sets ++ more)).toList := by
  cases sets with
  | nil => exact List.nil_prefix
  | cons first rest =>
    show (rest.foldl OrderedSet.union first).toList <+:
      ((rest ++ more).foldl OrderedSet.union first).toList
    rw [List.foldl_append]
    generalize rest.foldl OrderedSet.union first = whole
    induction more generalizing whole with
    | nil => exact List.prefix_rfl
    | cons set more ih =>
      refine List.IsPrefix.trans ?_ (ih (whole.union set))
      exact ⟨_, (OrderedSet.toList_union whole set).symm⟩

/-- A difference of two sets lists what the second does not have, in the order of the first. -/
theorem toList_combine_difference (s t : OrderedSet α) :
    (difference.combine [s, t]).toList = s.toList.filter (· ∉ t) := by
  simp [combine]

end SetOperation

namespace Selector

variable {s : Selector} {selected selected' : IdSet} {ids ids' : List Text} {x : Text}

/-- The steps of a promotion take in no less from a larger selection, if they meet in the same order
what is not selected there from the start. -/
theorem mem_foldl_promote_mono (hsub : ∀ y ∈ selected, y ∈ selected')
    (hids : (ids.filter (· ∉ selected')).Sublist ids') (h : x ∈ ids.foldl s.promote selected) :
    x ∈ ids'.foldl s.promote selected' := by
  induction ids generalizing selected selected' ids' with
  | nil => exact mem_foldl_promote_of_mem (hsub x h)
  | cons id ids ih =>
    by_cases hid : id ∈ selected'
    · rw [List.filter_cons_of_neg (by simpa using hid)] at hids
      refine ih (fun y hy => ?_) hids h
      rcases mem_promote.1 hy with hy | ⟨rfl, -⟩
      · exact hsub y hy
      · exact hid
    · rw [List.filter_cons_of_pos (by simpa using hid)] at hids
      obtain ⟨front, back, rfl, hfront, hback⟩ := List.cons_sublist_iff.1 hids
      rw [List.foldl_append]
      have hstay : ∀ y ∈ selected', y ∈ front.foldl s.promote selected' :=
        fun y hy => mem_foldl_promote_of_mem hy
      refine ih (fun y hy => ?_) (List.Sublist.trans ?_ hback) h
      · rcases mem_promote.1 hy with hy | ⟨rfl, hjoins⟩
        · exact hstay y (hsub y hy)
        · exact mem_foldl_promote_of_joins hfront (hjoins.mono hsub)
      · exact List.monotone_filter_right ids fun y hy => by
          simpa using fun hmem => (of_decide_eq_true hy) (hstay y hmem)

end Selector

/-- Whether a bundle grows to another one: that selects no less, and lists what it does not select
of the first in the same order. -/
structure Bundle.GrowsTo (b b' : Bundle) : Prop where
  direct : ∀ x ∈ b.direct, x ∈ b'.direct
  candidates : (b.everything.toList.filter (· ∉ b'.direct)).Sublist b'.everything.toList

/-- A bundle grows if its direct set does and its indirect set keeps its order. -/
theorem Bundle.GrowsTo.of_indirect {b b' : Bundle} (hdirect : ∀ x ∈ b.direct, x ∈ b'.direct)
    (hindirect : b.indirect.toList.Sublist b'.indirect.toList) : b.GrowsTo b' := by
  refine ⟨hdirect, ?_⟩
  have hnone : b.direct.toList.filter (· ∉ b'.direct) = [] :=
    List.filter_eq_nil_iff.2 fun x hx => by simpa using hdirect x hx
  rw [everything, everything, OrderedSet.toList_union, OrderedSet.toList_union, List.filter_append,
    hnone, List.nil_append]
  have hshorter : ((b.indirect.toList.filter (· ∉ b.direct)).filter (· ∉ b'.direct)).Sublist
      (b.indirect.toList.filter (· ∉ b'.direct)) := List.filter_sublist.filter _
  exact (hshorter.trans (hindirect.filter _)).trans (List.sublist_append_right _ _)

/-- A bundle grows to itself. -/
theorem Bundle.GrowsTo.refl (b : Bundle) : b.GrowsTo b :=
  ⟨fun _ hx => hx, List.filter_sublist⟩

namespace Selector

variable {s : Selector} {warnIfEmpty warnIfEmpty' : Bool} {text text' : String} {x : Text}

/-- A union grows when it gets further components at its end. -/
theorem union_growsTo (components more : List Spec) :
    (s.bundle (.combination .union components warnIfEmpty text)).GrowsTo
      (s.bundle (.combination .union (components ++ more) warnIfEmpty' text')) := by
  have hcandidates : (SetOperation.union.combine
        (components.map fun spec => (s.bundle spec).everything)).toList <+:
      (SetOperation.union.combine
        ((components ++ more).map fun spec => (s.bundle spec).everything)).toList := by
    rw [List.map_append]
    exact SetOperation.combine_union_append _ _
  refine .of_indirect (fun x hx => ?_) ?_
  · rw [direct_combination] at hx ⊢
    refine mem_foldl_promote_mono (fun y hy => ?_) (List.filter_sublist.trans hcandidates.sublist)
      hx
    rw [List.map_append]
    exact (SetOperation.combine_union_append _ _).subset hy
  · rw [indirect_combination, indirect_combination]
    exact hcandidates.sublist

/-- Everything of a union is in everything of the union with further components. -/
theorem mem_everything_union_append {components more : List Spec}
    (h : x ∈ (s.bundle (.combination .union components warnIfEmpty text)).everything) :
    x ∈ (s.bundle (.combination .union (components ++ more) warnIfEmpty' text')).everything := by
  rw [mem_everything_combination (by simp)] at h ⊢
  rw [List.map_append]
  exact (SetOperation.combine_union_append _ _).subset h

/-- A difference selects no less if what is included grows, and if what is excluded before has
everything of what is excluded then. -/
theorem mem_direct_difference_mono {included included' excluded excluded' : Spec}
    (hincluded : (s.bundle included).GrowsTo (s.bundle included'))
    (hexcluded : ∀ y ∈ (s.bundle excluded').everything, y ∈ (s.bundle excluded).direct)
    (h : x ∈ (s.bundle (.combination .difference [included, excluded] warnIfEmpty text)).direct) :
    x ∈ (s.bundle (.combination .difference [included', excluded'] warnIfEmpty' text')).direct := by
  rw [direct_combination] at h ⊢
  refine mem_foldl_promote_mono (fun y hy => ?_) ?_ h
  · simp only [List.map_cons, List.map_nil, SetOperation.mem_combine_difference,
      List.forall_mem_singleton] at hy ⊢
    exact ⟨hincluded.direct y hy.1,
      fun hout => hy.2 (hexcluded y (Bundle.mem_everything_of_mem_direct hout))⟩
  · simp only [List.map_cons, List.map_nil]
    rw [SetOperation.toList_combine_difference, SetOperation.toList_combine_difference,
      List.filter_filter]
    refine List.Sublist.trans ?_ (hincluded.candidates.filter _)
    rw [List.filter_filter]
    -- A candidate that is not excluded before is not excluded then, so it is selected if included.
    refine List.monotone_filter_right _ fun y hy => ?_
    simp only [SetOperation.mem_combine_difference, List.forall_mem_singleton, Bool.and_eq_true,
      decide_eq_true_eq] at hy ⊢
    obtain ⟨hnew, hkept⟩ := hy
    have hkept' : y ∉ (s.bundle excluded').everything :=
      fun hout => hkept (Bundle.mem_everything_of_mem_direct (hexcluded y hout))
    exact ⟨hkept', fun hin => hnew ⟨hin, mt Bundle.mem_everything_of_mem_direct hkept'⟩⟩

end Selector

end DagSelect
