import DagSelect.Proofs.Text.Numeral
import DagSelect.Text.Symbol

/-!
# The code units of symbols

A text is recovered from its symbols: a pair of halves from its character, and every other code unit
from the symbol that it is read as.
-/

namespace DagSelect.Text

/-- The code units of a symbol. -/
def Symbol.units : Symbol → List UInt16
  | .char c => unitsOf c
  | .half u => [u]

variable {u v : UInt16}

/-- A code unit that belongs to no pair is read as a symbol that consists of it. -/
theorem units_symbolOf (u : UInt16) : (symbolOf u).units = [u] := by
  rw [symbolOf]
  split
  · rfl
  · rename_i h
    simp only [isHighHalf, isLowHalf, Bool.or_eq_true, Bool.and_eq_true, decide_eq_true_eq] at h
    have hlt := u.toNat_lt
    have hvalid : u.toNat.isValidChar := by
      rw [Nat.isValidChar]
      omega
    rw [Symbol.units, unitsOf, toNat_ofNat hvalid, if_pos hlt, UInt16.ofNat_toNat]

/-- The character of a pair of halves consists of them. -/
theorem unitsOf_pairChar (hu : isHighHalf u = true) (hv : isLowHalf v = true) :
    unitsOf (pairChar u v) = [u, v] := by
  simp only [isHighHalf, Bool.and_eq_true, decide_eq_true_eq] at hu
  simp only [isLowHalf, Bool.and_eq_true, decide_eq_true_eq] at hv
  have hvalid : (0x10000 + (u.toNat - 0xD800) * 0x400 + (v.toNat - 0xDC00)).isValidChar := by
    rw [Nat.isValidChar]
    omega
  have hhigh : 0xD800 +
      (0x10000 + (u.toNat - 0xD800) * 0x400 + (v.toNat - 0xDC00) - 0x10000) / 0x400 =
      u.toNat := by omega
  have hlow : 0xDC00 + (0x10000 + (u.toNat - 0xD800) * 0x400 + (v.toNat - 0xDC00) - 0x10000) % 0x400
      = v.toNat := by omega
  rw [unitsOf, pairChar, toNat_ofNat hvalid, if_neg (by omega), hhigh, hlow, UInt16.ofNat_toNat,
    UInt16.ofNat_toNat]

/-- The symbols that code units are read as consist of them. -/
theorem flatMap_units_symbolsOf (us : List UInt16) :
    (symbolsOf us).flatMap Symbol.units = us := by
  fun_induction symbolsOf us with
  | case1 => rfl
  | case2 u => rw [List.flatMap_cons, units_symbolOf]; rfl
  | case3 u v rest hpair ih =>
    obtain ⟨hu, hv⟩ := Bool.and_eq_true_iff.1 hpair
    rw [List.flatMap_cons, ih, Symbol.units, unitsOf_pairChar hu hv]
    rfl
  | case4 u v rest _ ih => rw [List.flatMap_cons, ih, units_symbolOf]; rfl

/-- A text consists of its symbols. -/
theorem flatMap_units_symbols (t : Text) : t.symbols.flatMap Symbol.units = t.units :=
  flatMap_units_symbolsOf t.units

end DagSelect.Text
