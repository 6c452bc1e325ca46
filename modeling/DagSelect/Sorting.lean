/-!
# Sorting

A list is sorted by inserting its items into each other, the last one first, each in front of the
first item that it may precede. Items of equal rank keep their order. The recursion follows the
list, so sorted lists can be computed inside proofs.
-/

namespace DagSelect.Sorting

variable {α : Type}

/-- Put an item in front of the first one that it may precede. -/
def insert (le : α → α → Bool) (a : α) : List α → List α
  | [] => [a]
  | b :: rest => if le a b then a :: b :: rest else b :: insert le a rest

/-- The items of a list in ascending order. -/
def sort (le : α → α → Bool) : List α → List α
  | [] => []
  | a :: rest => insert le a (sort le rest)

/-- Insertion adds one item. -/
theorem insert_perm (le : α → α → Bool) (a : α) (xs : List α) :
    (insert le a xs).Perm (a :: xs) := by
  induction xs with
  | nil => exact List.Perm.refl _
  | cons b rest ih =>
    rw [insert]
    split
    · exact List.Perm.refl _
    · exact (ih.cons b).trans (List.Perm.swap a b rest)

/-- Sorting loses no item and adds none. -/
theorem sort_perm (le : α → α → Bool) (xs : List α) : (sort le xs).Perm xs := by
  induction xs with
  | nil => exact List.Perm.refl _
  | cons a rest ih => exact (insert_perm le a (sort le rest)).trans (ih.cons a)

/-- Insertion keeps an ascending list ascending. -/
theorem insert_pairwise {le : α → α → Bool}
    (trans : ∀ a b c, le a b = true → le b c = true → le a c = true)
    (total : ∀ a b, (le a b || le b a) = true) (a : α) {xs : List α}
    (h : xs.Pairwise (fun x y => le x y = true)) :
    (insert le a xs).Pairwise (fun x y => le x y = true) := by
  induction xs with
  | nil => exact List.pairwise_singleton _ _
  | cons b rest ih =>
    obtain ⟨hb, hrest⟩ := List.pairwise_cons.1 h
    rw [insert]
    split
    · rename_i hab
      refine List.pairwise_cons.2 ⟨fun x hx => ?_, h⟩
      rcases List.mem_cons.1 hx with rfl | hx
      · exact hab
      · exact trans a b x hab (hb x hx)
    · rename_i hab
      have hba : le b a = true := by
        rcases Bool.or_eq_true_iff.1 (total a b) with h | h
        · exact absurd h hab
        · exact h
      refine List.pairwise_cons.2 ⟨fun x hx => ?_, ih hrest⟩
      rcases List.mem_cons.1 ((insert_perm le a rest).mem_iff.1 hx) with rfl | hx
      · exact hba
      · exact hb x hx

/-- By a total and transitive order the sorted items ascend. -/
theorem sort_pairwise {le : α → α → Bool}
    (trans : ∀ a b c, le a b = true → le b c = true → le a c = true)
    (total : ∀ a b, (le a b || le b a) = true) (xs : List α) :
    (sort le xs).Pairwise (fun x y => le x y = true) := by
  induction xs with
  | nil => exact List.Pairwise.nil
  | cons a rest ih => exact insert_pairwise trans total a ih

end DagSelect.Sorting
