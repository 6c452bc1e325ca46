import DagSelect.Sorting
import DagSelect.Text.Basic

/-!
# Order of keys

Keys that are canonical array indices are enumerated first, in ascending numeric order, and all
other keys after them in order of arrival. The fields of a document and the neighbours of a graph
node are enumerated in this order.
-/

namespace DagSelect.Text

/-- The number that a list of decimal digits denotes. -/
def decimalValue (digits : List Char) : Nat :=
  digits.foldl (fun n c => 10 * n + (c.toNat - '0'.toNat)) 0

/-- The array index that a key denotes: decimal digits without a leading zero, up to 4294967294. -/
def arrayIndex? (key : Text) : Option Nat :=
  let digits := key.units.map fun u => Char.ofNat u.toNat
  if digits.isEmpty || !digits.all Char.isDigit then none
  else if digits.length > 10 || (digits.head? == some '0' && digits.length > 1) then none
  else
    let n := decimalValue digits
    if n ≤ 4294967294 then some n else none

/-- Whether the first key is an index no larger than the second. -/
def indexLE (a b : Text) : Bool :=
  (arrayIndex? a).getD 0 ≤ (arrayIndex? b).getD 0

variable {α : Type}

/-- Items with an index as their key first, ascending, then the others as they come. -/
def indexFirst (key : α → Text) (items : List α) : List α :=
  Sorting.sort (fun a b => indexLE (key a) (key b))
      (items.filter (fun a => (arrayIndex? (key a)).isSome))
    ++ items.filter (fun a => (arrayIndex? (key a)).isNone)

/-- Enumeration loses nothing and adds nothing. -/
theorem indexFirst_perm (key : α → Text) (items : List α) :
    (indexFirst key items).Perm items := by
  unfold indexFirst
  have h := List.filter_append_perm (fun a => (arrayIndex? (key a)).isSome) items
  have hnot : (fun a => (arrayIndex? (key a)).isNone) =
      fun a => !(arrayIndex? (key a)).isSome := by
    funext a; cases arrayIndex? (key a) <;> rfl
  rw [hnot]
  exact ((Sorting.sort_perm _ _).append_right _).trans h

/-- Enumeration keeps the items. -/
theorem mem_indexFirst {key : α → Text} {items : List α} {a : α} :
    a ∈ indexFirst key items ↔ a ∈ items :=
  (indexFirst_perm key items).mem_iff

end DagSelect.Text
