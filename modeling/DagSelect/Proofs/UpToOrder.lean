import DagSelect.OrderedSet
import DagSelect.Proofs.Except
import Mathlib.Data.List.Perm.Basic

/-!
# Lists and sets up to order

One list is a rearrangement of another if it arises by changing every item in a given way and then
permuting the items. Steps that respect the change take rearrangements to rearrangements, and
combinations of related sets have the same elements: in any arrangement for a union or an
intersection, place by place for a difference.
-/

namespace DagSelect

/-- Whether a list becomes another one when each item is changed to a related one and the items are
permuted. -/
def Rearranged {α β : Type} (R : α → β → Prop) (xs : List α) (ys : List β) : Prop :=
  ∃ zs, List.Forall₂ R xs zs ∧ zs.Perm ys

namespace Rearranged

variable {α β : Type} {R : α → β → Prop} {xs : List α} {ys : List β}

/-- Items that are related place by place are rearranged. -/
theorem of_forall₂ (h : List.Forall₂ R xs ys) : Rearranged R xs ys :=
  ⟨ys, h, .refl ys⟩

/-- A permutation is a rearrangement if every item is related to itself. -/
theorem of_perm {R : α → α → Prop} {xs ys : List α} (hrefl : ∀ x ∈ xs, R x x)
    (h : xs.Perm ys) : Rearranged R xs ys :=
  ⟨xs, List.forall₂_same.2 hrefl, h⟩

/-- Turning the relation around turns the rearrangement around. -/
theorem symm {R' : β → α → Prop} (h : Rearranged R xs ys) (hR : ∀ x y, R x y → R' y x) :
    Rearranged R' ys xs := by
  obtain ⟨zs, hzs, hperm⟩ := h
  exact List.perm_comp_forall₂ hperm.symm (hzs.imp hR).flip

/-- Every item of the first list is related to one of the second. -/
theorem exists_right (h : Rearranged R xs ys) {x : α} (hx : x ∈ xs) : ∃ y ∈ ys, R x y := by
  obtain ⟨zs, hzs, hperm⟩ := h
  suffices hmem : ∃ y ∈ zs, R x y by
    obtain ⟨y, hy, hxy⟩ := hmem
    exact ⟨y, hperm.mem_iff.1 hy, hxy⟩
  clear hperm
  induction hzs with
  | nil => contradiction
  | cons hhead _ ih =>
    rcases List.mem_cons.1 hx with rfl | hx
    · exact ⟨_, List.mem_cons_self, hhead⟩
    · obtain ⟨y, hy, hxy⟩ := ih hx
      exact ⟨y, List.mem_cons_of_mem _ hy, hxy⟩

/-- Every item of the second list is related to one of the first. -/
theorem exists_left (h : Rearranged R xs ys) {y : β} (hy : y ∈ ys) : ∃ x ∈ xs, R x y := by
  have hback : Rearranged (flip R) ys xs := h.symm fun _ _ => id
  exact hback.exists_right hy

/-- Some item has a property exactly if some item of the other list has the one related to it. -/
theorem exists_iff (h : Rearranged R xs ys) {P : α → Prop} {Q : β → Prop}
    (hiff : ∀ x y, R x y → (P x ↔ Q y)) : (∃ x ∈ xs, P x) ↔ ∃ y ∈ ys, Q y := by
  constructor
  · rintro ⟨x, hx, hp⟩
    obtain ⟨y, hy, hxy⟩ := h.exists_right hx
    exact ⟨y, hy, (hiff x y hxy).1 hp⟩
  · rintro ⟨y, hy, hq⟩
    obtain ⟨x, hx, hxy⟩ := h.exists_left hy
    exact ⟨x, hx, (hiff x y hxy).2 hq⟩

/-- All items have a property exactly if all items of the other list have the one related to it. -/
theorem forall_iff (h : Rearranged R xs ys) {P : α → Prop} {Q : β → Prop}
    (hiff : ∀ x y, R x y → (P x ↔ Q y)) : (∀ x ∈ xs, P x) ↔ ∀ y ∈ ys, Q y := by
  have hexists := h.exists_iff fun x y hxy => not_congr (hiff x y hxy)
  simpa only [not_exists, not_and, not_not] using not_congr hexists

/-- Changing related items to related ones keeps lists rearranged. -/
theorem map {γ δ : Type} {S : γ → δ → Prop} (h : Rearranged R xs ys) {f : α → γ} {k : β → δ}
    (hstep : ∀ x y, R x y → S (f x) (k y)) : Rearranged S (xs.map f) (ys.map k) := by
  obtain ⟨zs, hzs, hperm⟩ := h
  refine ⟨zs.map k, ?_, hperm.map k⟩
  rw [List.forall₂_map_left_iff, List.forall₂_map_right_iff]
  exact hzs.imp hstep

/-- What is picked out of rearranged lists by tests that agree on related items is the same up to
order, if related items are read in the same way. -/
theorem map_filter_perm {γ : Type} (h : Rearranged R xs ys) {p : α → Bool} {q : β → Bool}
    {f : α → γ} {k : β → γ} (htest : ∀ x y, R x y → p x = q y) (hread : ∀ x y, R x y → f x = k y) :
    ((xs.filter p).map f).Perm ((ys.filter q).map k) := by
  obtain ⟨zs, hzs, hperm⟩ := h
  suffices heq : (xs.filter p).map f = (zs.filter q).map k from
    heq ▸ (hperm.filter q).map k
  clear hperm
  induction hzs with
  | nil => rfl
  | @cons x y xs zs hxy _ ih =>
    rw [List.filter_cons, List.filter_cons, htest x y hxy]
    split
    · rw [List.map_cons, List.map_cons, hread x y hxy, ih]
    · exact ih

/-- Neither or both of two rearranged lists are empty. -/
theorem eq_nil_iff (h : Rearranged R xs ys) : xs = [] ↔ ys = [] := by
  obtain ⟨zs, hzs, hperm⟩ := h
  rw [← List.length_eq_zero_iff, hzs.length_eq, hperm.length_eq, List.length_eq_zero_iff]

end Rearranged

/-- A step that relates its results for related items succeeds for a rearranged list, with
rearranged results. -/
theorem Except.mapM_rearranged {ε α α' β β' : Type} {f : α → Except ε β} {k : α' → Except ε β'}
    {R : α → α' → Prop} {S : β → β' → Prop} {xs : List α} {xs' : List α'} {ys : List β}
    (h : Rearranged R xs xs') (hys : xs.mapM f = .ok ys)
    (hstep : ∀ x x' y, R x x' → f x = .ok y → ∃ y', k x' = .ok y' ∧ S y y') :
    ∃ ys', xs'.mapM k = .ok ys' ∧ Rearranged S ys ys' := by
  obtain ⟨zs, hzs, hperm⟩ := h
  obtain ⟨us, hus, hrelated⟩ : ∃ us, zs.mapM k = .ok us ∧ List.Forall₂ S ys us := by
    simp only [mapM_eq_ok_iff] at hys ⊢
    clear hperm
    induction hzs generalizing ys with
    | nil =>
      cases hys
      exact ⟨[], .nil, .nil⟩
    | cons hhead _ ih =>
      cases hys with
      | cons hy hrest =>
        obtain ⟨u, hu, hyu⟩ := hstep _ _ _ hhead hy
        obtain ⟨us, hus, hrelated⟩ := ih hrest
        exact ⟨u :: us, .cons hu hus, .cons hyu hrelated⟩
  obtain ⟨ys', hys', hperm'⟩ := List.perm_comp_forall₂ hperm.symm (mapM_eq_ok_iff.1 hus)
  exact ⟨ys', mapM_eq_ok_iff.2 hys', us, hrelated, hperm'.symm⟩

namespace OrderedSet

variable {α : Type} {s t : OrderedSet α}

/-- Sets with the same elements list them in orders that are permutations of each other. -/
theorem perm_of_mem_iff (h : ∀ x, x ∈ s ↔ x ∈ t) : s.toList.Perm t.toList :=
  (List.perm_ext_iff_of_nodup s.nodup t.nodup).2 h

/-- Sets with the same elements have the same size. -/
theorem size_eq_of_mem_iff (h : ∀ x, x ∈ s ↔ x ∈ t) : s.size = t.size :=
  (perm_of_mem_iff h).length_eq

end OrderedSet

namespace SetOperation

variable {α ι κ : Type} [DecidableEq α] [Ord α] [Std.TransOrd α] [Std.LawfulEqOrd α]
variable {operation : SetOperation} {R : ι → κ → Prop} {items : List ι} {items' : List κ}
variable {f : ι → OrderedSet α} {g : κ → OrderedSet α} {x : α}

/-- Without differences, an element is in the combinations of rearranged sets if related ones have
it both. -/
theorem mem_combine_rearranged (hop : operation ≠ .difference) (h : Rearranged R items items')
    (hiff : ∀ i j, R i j → (x ∈ f i ↔ x ∈ g j)) :
    x ∈ operation.combine (items.map f) ↔ x ∈ operation.combine (items'.map g) := by
  cases operation with
  | union =>
    simp only [mem_combine_union, List.mem_map, exists_exists_and_eq_and]
    exact h.exists_iff hiff
  | intersection =>
    simp only [mem_combine_intersection, List.forall_mem_map, ne_eq, List.map_eq_nil_iff,
      h.eq_nil_iff]
    exact and_congr_right fun _ => h.forall_iff hiff
  | difference => exact absurd rfl hop

/-- An element is in the differences of sets that are related place by place if related ones have it
both. -/
theorem mem_combine_difference_forall₂ (h : List.Forall₂ R items items')
    (hiff : ∀ i j, R i j → (x ∈ f i ↔ x ∈ g j)) :
    x ∈ difference.combine (items.map f) ↔ x ∈ difference.combine (items'.map g) := by
  cases h with
  | nil => rfl
  | @cons i j rest rest' hij hrest =>
    simp only [List.map_cons, mem_combine_difference, List.forall_mem_map]
    exact and_congr (hiff i j hij) (Rearranged.of_forall₂ hrest |>.forall_iff fun i j hij =>
      not_congr (hiff i j hij))

end SetOperation

end DagSelect
