import DagSelect.Sorting
import DagSelect.Text.Basic

/-!
# The order of texts

Texts are ordered by their code units. In strings a character above U+FFFF sorts before the
characters U+E000 to U+FFFF although its code point is larger, because it is a surrogate pair. The
order is linear: it is total and transitive, and two texts that precede each other are equal.
-/

namespace DagSelect.Text

/-- Compare lists of code units by the first difference; a proper beginning comes first. -/
def compareUnits : List UInt16 → List UInt16 → Ordering
  | [], [] => .eq
  | [], _ :: _ => .lt
  | _ :: _, [] => .gt
  | u :: us, v :: vs => if u < v then .lt else if u = v then compareUnits us vs else .gt

instance : Ord Text := ⟨fun a b => compareUnits a.units b.units⟩

/-- Code units compare lexicographically. -/
theorem compareUnits_eq_compare (us vs : List UInt16) : compareUnits us vs = compare us vs := by
  induction us generalizing vs with
  | nil => cases vs <;> rfl
  | cons u us ih =>
    cases vs with
    | nil => rfl
    | cons v vs =>
      rw [compareUnits, List.compare_cons_cons, ih]
      show _ = (compareOfLessAndEq u v).then _
      unfold compareOfLessAndEq
      split
      · rfl
      · split <;> rfl

/-- Texts compare as their code units do. -/
theorem compare_eq (a b : Text) : compare a b = compare a.units b.units :=
  compareUnits_eq_compare a.units b.units

instance : Std.TransOrd Text where
  eq_swap {a b} := by
    rw [compare_eq, compare_eq]
    exact Std.OrientedOrd.eq_swap
  isLE_trans {a b c} := by
    rw [compare_eq, compare_eq, compare_eq]
    exact Std.TransOrd.isLE_trans

instance : Std.LawfulEqOrd Text where
  compare_self {a} := by
    rw [compare_eq]
    exact Std.ReflOrd.compare_self
  eq_of_compare {a b} h := by
    rw [compare_eq] at h
    exact units_inj.1 (Std.LawfulEqOrd.eq_of_compare h)

/-- Whether a text comes before another or is equal to it. -/
def unitLE (a b : Text) : Bool := (compare a b).isLE

/-- Of two texts one precedes the other. -/
theorem unitLE_total (a b : Text) : (unitLE a b || unitLE b a) = true := by
  rw [unitLE, unitLE, Std.OrientedOrd.eq_swap (a := b)]
  cases compare a b <;> rfl

/-- A text precedes whatever its successors precede. -/
theorem unitLE_trans (a b c : Text) (h₁ : unitLE a b = true) (h₂ : unitLE b c = true) :
    unitLE a c = true :=
  Std.TransOrd.isLE_trans h₁ h₂

/-- Two texts that precede each other are equal. -/
theorem unitLE_antisymm {a b : Text} (h₁ : unitLE a b = true) (h₂ : unitLE b a = true) : a = b := by
  rw [unitLE, Std.OrientedOrd.eq_swap (a := b)] at h₂
  rw [unitLE] at h₁
  apply Std.LawfulEqOrd.eq_of_compare
  cases h : compare a b <;> rw [h] at h₁ h₂ <;> first | rfl | contradiction

/-- Identifiers in ascending order, repetitions kept. -/
def sortIds (ids : List Text) : List Text :=
  Sorting.sort unitLE ids

/-- Sorting loses no identifier and adds none. -/
theorem sortIds_perm (ids : List Text) : (sortIds ids).Perm ids :=
  Sorting.sort_perm unitLE ids

/-- The sorted identifiers ascend. -/
theorem sortIds_sorted (ids : List Text) :
    (sortIds ids).Pairwise (fun a b => unitLE a b = true) :=
  Sorting.sort_pairwise unitLE_trans unitLE_total ids

end DagSelect.Text
