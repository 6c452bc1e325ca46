import DagSelect.Text.KeyOrder
import Mathlib.Data.List.Induction

/-!
# Decimal numerals

A number is recovered from its digits, and a numeral without a leading zero has exactly the digits
of the number that it denotes. So a key that is an array index is determined by its index.
-/

namespace DagSelect.Text

/-- The digits of a number denote it. -/
theorem decimalValue_toDigits (n : Nat) : decimalValue (Nat.toDigits 10 n) = n :=
  Nat.ofDigitChars_ten_toDigits

/-- A digit behind a numeral adds itself to ten times its value. -/
theorem decimalValue_concat (digits : List Char) (c : Char) :
    decimalValue (digits ++ [c]) = 10 * decimalValue digits + (c.toNat - '0'.toNat) := by
  rw [decimalValue, List.foldl_append]
  rfl

/-- A digit stands for a number below ten whose only digit it is. -/
theorem toDigits_of_isDigit {c : Char} (h : c.isDigit = true) :
    c.toNat - '0'.toNat < 10 ∧ Nat.toDigits 10 (c.toNat - '0'.toNat) = [c] := by
  have hzero : '0'.toNat = 48 := rfl
  have hbounds : 48 ≤ c.toNat ∧ c.toNat ≤ 57 := by
    simp only [Char.isDigit, Bool.and_eq_true, decide_eq_true_eq, ge_iff_le] at h
    exact ⟨UInt32.le_iff_toNat_le.1 h.1, UInt32.le_iff_toNat_le.1 h.2⟩
  have hlt : c.toNat - '0'.toNat < 10 := by omega
  refine ⟨hlt, ?_⟩
  rw [Nat.toDigits_of_lt_base hlt]
  refine congrArg (fun d => [d]) (Char.toNat_inj.1 ?_)
  rw [Nat.toNat_digitChar_of_lt_ten hlt]
  omega

/-- A numeral without a leading zero has the digits of its value. -/
theorem toDigits_decimalValue {digits : List Char} (hne : digits ≠ [])
    (hdigits : ∀ c ∈ digits, c.isDigit = true)
    (hzero : digits.head? = some '0' → digits.length = 1) :
    Nat.toDigits 10 (decimalValue digits) = digits := by
  induction digits using List.reverseRecOn with
  | nil => contradiction
  | append_singleton digits c ih =>
    obtain ⟨hlt, hc⟩ := toDigits_of_isDigit (hdigits c (by simp))
    by_cases hnil : digits = []
    · subst hnil
      rw [decimalValue_concat]
      simpa [decimalValue] using hc
    · have hhead : digits.head? ≠ some '0' := by
        intro h
        have hone := hzero (by rw [List.head?_append, h]; rfl)
        exact hnil (by simpa using hone)
      have hdigits' := ih hnil (fun d hd => hdigits d (List.mem_append_left _ hd))
        fun h => absurd h hhead
      have hpos : 0 < decimalValue digits := by
        refine Nat.pos_of_ne_zero fun h => hhead ?_
        rw [← hdigits', h]
        rfl
      rw [decimalValue_concat, ← Nat.toDigits_append_toDigits (by decide) hpos hlt, hdigits', hc]

/-- The character of a valid code point has this code point. -/
theorem toNat_ofNat {n : Nat} (h : n.isValidChar) : (Char.ofNat n).toNat = n := by
  rw [Char.ofNat, dif_pos h]
  rfl

/-- A code unit that is a digit is the unit of this digit. -/
theorem unit_ofNat_of_isDigit {u : UInt16} (h : (Char.ofNat u.toNat).isDigit = true) :
    unit (Char.ofNat u.toNat) = u := by
  by_cases hvalid : u.toNat.isValidChar
  · rw [unit, toNat_ofNat hvalid, UInt16.ofNat_toNat]
  · have hnull : Char.ofNat u.toNat = Char.ofNat 0 := by
      rw [Char.ofNat, dif_neg hvalid]
      rfl
    rw [hnull] at h
    contradiction

/-- A key that is an array index consists of the digits of its index. -/
theorem units_of_arrayIndex? {key : Text} {i : Nat} (h : arrayIndex? key = some i) :
    key.units = (Nat.toDigits 10 i).map unit := by
  simp only [arrayIndex?] at h
  split at h
  · contradiction
  · rename_i hdigits
    split at h
    · contradiction
    · rename_i hzero
      split at h
      · obtain rfl := Option.some.inj h
        simp only [Bool.or_eq_true, List.isEmpty_iff, Bool.not_eq_true', not_or,
          Bool.not_eq_false, List.all_eq_true] at hdigits
        simp only [Bool.or_eq_true, decide_eq_true_eq, Bool.and_eq_true, beq_iff_eq, not_or,
          not_and] at hzero
        rw [toDigits_decimalValue hdigits.1 hdigits.2, List.map_map]
        · refine (List.map_id _).symm.trans (List.map_congr_left fun u hu => ?_)
          exact (unit_ofNat_of_isDigit (hdigits.2 _ (List.mem_map_of_mem hu))).symm
        · intro hhead
          have hpos := List.length_pos_iff.2 hdigits.1
          have hone := hzero.2 hhead
          omega
      · contradiction

/-- Keys with the same array index are equal. -/
theorem eq_of_arrayIndex? {a b : Text} {i : Nat} (ha : arrayIndex? a = some i)
    (hb : arrayIndex? b = some i) : a = b :=
  units_inj.1 ((units_of_arrayIndex? ha).trans (units_of_arrayIndex? hb).symm)

end DagSelect.Text
