import DagSelect.Depth
import Mathlib.Data.Nat.Log
import Mathlib.Data.Nat.Digits.Defs
import Mathlib.Data.Rat.Defs

/-!
# The bound that a numeral denotes

A numeral denotes its number rounded to 53 binary digits, and no bound at all if that is 2^1024 or
more. Numbers below 2^53 have no more than 53 digits, so for them nothing is rounded.
-/

namespace DagSelect

namespace Number

/-- The distance between neighbouring numbers of 53 binary digits in the size of a number. -/
def spacing (n : Nat) : Nat :=
  2 ^ (n.log2 - 52)

/-- A number rounded to 53 binary digits: the nearest multiple of the spacing, and of two that are
equally near the even one. -/
def rounded (n : Nat) : Nat :=
  roundDiv n (spacing n) * spacing n

/-- Division by one rounds nothing. -/
theorem roundDiv_one (n : Nat) : roundDiv n 1 = n := by
  simp [roundDiv, Nat.mod_one]

/-- A rounded quotient lies between bounds that the fraction lies between. -/
theorem roundDiv_mem_Icc {num den low high : Nat} (hlow : low * den ≤ num)
    (hhigh : num < high * den) : low ≤ roundDiv num den ∧ roundDiv num den ≤ high := by
  have hden : 0 < den := by
    rcases Nat.eq_zero_or_pos den with h | h
    · rw [h] at hhigh
      omega
    · exact h
  have hfloor : low ≤ num / den := (Nat.le_div_iff_mul_le hden).2 hlow
  have hceil : num / den < high := (Nat.div_lt_iff_lt_mul hden).2 hhigh
  have hround : roundDiv num den = num / den ∨ roundDiv num den = num / den + 1 := by
    unfold roundDiv
    grind
  omega

/-- From this number on nothing is representable. -/
def limit : Nat :=
  2 ^ 1024

/-- A number below 2^53 has at most 53 binary digits. -/
theorem log2_le_of_lt {n : Nat} (h : n < 2 ^ 53) : n.log2 ≤ 52 := by
  rcases Nat.eq_zero_or_pos n with rfl | hn
  · decide
  · have := (Nat.log2_lt (by omega)).2 h
    omega

/-- A number of at most 1024 binary digits is below the limit. -/
theorem lt_limit_of_log2_lt {n : Nat} (h : n.log2 < 1024) : n < limit := by
  have hpow : 2 ^ (n.log2 + 1) ≤ 2 ^ 1024 := pow_le_pow_right₀ (by decide) h
  exact Nat.lt_of_lt_of_le Nat.lt_log2_self hpow

/-- A number of at most 53 binary digits is not rounded. -/
theorem rounded_of_log2_le {n : Nat} (h : n.log2 ≤ 52) : rounded n = n := by
  rw [rounded, spacing, Nat.sub_eq_zero_of_le h, Nat.pow_zero, roundDiv_one, Nat.mul_one]

/-- The logarithm of a whole number to the base two is found from its binary length. -/
theorem floorLog_two {n : Nat} (h : n ≠ 0) : floorLog 2 n.log2 n 1 = n.log2 := by
  have hle : 2 ^ n.log2 ≤ n := Nat.log2_self_le h
  simp [floorLog, powerParts, hle]

namespace Binary64

/-- The value nearest to a positive whole number, before the bound on its exponent is checked. -/
def ofNat (n : Nat) : Binary64 :=
  let m := roundDiv (n * 2 ^ (52 - n.log2)) (spacing n)
  if m = 2 ^ 53 then ⟨2 ^ 52, n.log2 - 52 + 1⟩ else ⟨m, n.log2 - 52⟩

/-- The nearest value to a positive whole number exists unless its exponent is too large. -/
theorem nearest_one {n : Nat} (h : n ≠ 0) :
    nearest n 1 = if 971 < (ofNat n).exponent then none else some (ofNat n) := by
  have hlog : Nat.log2 1 = 0 := by decide
  have hexponent : max (-1074) ((n.log2 : Int) - 52) = n.log2 - 52 := by omega
  have hup : ((n.log2 : Int) - 52).toNat = n.log2 - 52 := by omega
  have hdown : (-((n.log2 : Int) - 52)).toNat = 52 - n.log2 := by omega
  simp only [nearest, if_neg h, hlog, Int.ofNat_zero, Int.sub_zero, floorLog_two h, hexponent,
    powerParts, hup, hdown, Nat.pow_eq, Nat.one_mul, ofNat, spacing]
  rfl

/-- A number of at most 53 binary digits is kept, with zeros after it. -/
theorem ofNat_of_log2_le {n : Nat} (h : n.log2 ≤ 52) :
    ofNat n = ⟨n * 2 ^ (52 - n.log2), n.log2 - 52⟩ := by
  have hspacing : spacing n = 1 := by
    rw [spacing, Nat.sub_eq_zero_of_le h, Nat.pow_zero]
  have hlt : n * 2 ^ (52 - n.log2) < 2 ^ 53 :=
    calc n * 2 ^ (52 - n.log2)
        < 2 ^ (n.log2 + 1) * 2 ^ (52 - n.log2) :=
          Nat.mul_lt_mul_of_pos_right Nat.lt_log2_self (Nat.two_pow_pos _)
      _ = 2 ^ 53 := by
          rw [← Nat.pow_add]
          congr 1
          omega
  simp only [ofNat, hspacing, roundDiv_one, if_neg (Nat.ne_of_lt hlt)]

/-- A longer number is rounded to 53 binary digits. -/
theorem ofNat_of_lt_log2 {n : Nat} (h : 52 < n.log2) :
    ofNat n = if roundDiv n (spacing n) = 2 ^ 53 then ⟨2 ^ 52, n.log2 - 52 + 1⟩
      else ⟨roundDiv n (spacing n), n.log2 - 52⟩ := by
  have hzero : 52 - n.log2 = 0 := by omega
  simp only [ofNat, hzero, Nat.pow_zero, Nat.mul_one]

/-- The significand of a longer number has 53 binary digits, or is the next power of two. -/
theorem significand_mem_Icc {n : Nat} (h : 52 < n.log2) :
    2 ^ 52 ≤ roundDiv n (spacing n) ∧ roundDiv n (spacing n) ≤ 2 ^ 53 := by
  have hn : n ≠ 0 := by
    rintro rfl
    simp at h
  have hlow : 2 ^ 52 * spacing n ≤ n := by
    rw [spacing, ← Nat.pow_add, Nat.add_sub_cancel' (Nat.le_of_lt h)]
    exact Nat.log2_self_le hn
  have hhigh : n < 2 ^ 53 * spacing n := by
    have hsum : 53 + (n.log2 - 52) = n.log2 + 1 := by omega
    rw [spacing, ← Nat.pow_add, hsum]
    exact Nat.lt_log2_self
  exact roundDiv_mem_Icc hlow hhigh

/-- A whole exponent makes the value a whole number. -/
theorem parts_natCast (m k : Nat) : (⟨m, k⟩ : Binary64).parts = (m * 2 ^ k, 1) := by
  have hdown : (-(k : Int)).toNat = 0 := by omega
  simp only [parts, powerParts, Int.toNat_natCast, hdown, Nat.pow_eq, Nat.pow_zero]

/-- The value nearest to a whole number is that number rounded. -/
theorem parts_ofNat (n : Nat) :
    (ofNat n).parts.1 = rounded n * (ofNat n).parts.2 ∧ 0 < (ofNat n).parts.2 := by
  refine ⟨?_, Nat.two_pow_pos _⟩
  rcases Nat.lt_or_ge 52 n.log2 with hlong | hshort
  · have hexponent : (n.log2 : Int) - 52 = (n.log2 - 52 : Nat) := by omega
    rw [ofNat_of_lt_log2 hlong, hexponent, rounded]
    split
    · rename_i hpower
      have hsum : 52 + (n.log2 - 52).succ = 53 + (n.log2 - 52) := by omega
      rw [← Int.natCast_succ, parts_natCast, hpower, spacing, Nat.mul_one, ← Nat.pow_add,
        ← Nat.pow_add, hsum]
    · rw [parts_natCast, spacing, Nat.mul_one]
  · have hup : ((n.log2 : Int) - 52).toNat = 0 := by omega
    have hdown : (-((n.log2 : Int) - 52)).toNat = 52 - n.log2 := by omega
    simp only [ofNat_of_log2_le hshort, parts, powerParts, hup, hdown, Nat.pow_eq,
      rounded_of_log2_le hshort, Nat.pow_zero, Nat.mul_one]

/-- The exponent is too large exactly if the number rounds to 2^1024 or more. -/
theorem exponent_ofNat (n : Nat) : 971 < (ofNat n).exponent ↔ limit ≤ rounded n := by
  rcases Nat.lt_or_ge 52 n.log2 with hlong | hshort
  · obtain ⟨hlow, hhigh⟩ := significand_mem_Icc hlong
    obtain ⟨k, hk⟩ : ∃ k, n.log2 = 52 + k := Nat.exists_eq_add_of_le (Nat.le_of_lt hlong)
    have hspacing : spacing n = 2 ^ k := by rw [spacing, hk, Nat.add_sub_cancel_left]
    have hexponent : ((52 + k : Nat) : Int) - 52 = k := by omega
    rw [ofNat_of_lt_log2 hlong, rounded, limit, hspacing, hk, hexponent]
    rw [hspacing] at hlow hhigh
    -- Rounding up to a power of two raises the exponent by one.
    split
    · rename_i hpower
      rw [hpower, ← Nat.pow_add, pow_le_pow_iff_right₀ (by decide : 1 < 2)]
      dsimp only
      omega
    · rename_i hpower
      have hlt : roundDiv n (2 ^ k) < 2 ^ 53 := Nat.lt_of_le_of_ne hhigh hpower
      dsimp only
      constructor
      · intro hlarge
        calc 2 ^ 1024 ≤ 2 ^ (52 + k) := pow_le_pow_right₀ (by decide) (by omega)
          _ = 2 ^ 52 * 2 ^ k := Nat.pow_add 2 52 k
          _ ≤ roundDiv n (2 ^ k) * 2 ^ k := Nat.mul_le_mul_right _ hlow
      · intro hlimit
        have hpow : 2 ^ 1024 < 2 ^ (53 + k) :=
          calc 2 ^ 1024 ≤ roundDiv n (2 ^ k) * 2 ^ k := hlimit
            _ < 2 ^ 53 * 2 ^ k := Nat.mul_lt_mul_of_pos_right hlt (Nat.two_pow_pos k)
            _ = 2 ^ (53 + k) := (Nat.pow_add 2 53 k).symm
        have := (pow_lt_pow_iff_right₀ (by decide : 1 < 2)).1 hpow
        omega
  · have hlt : n < limit := lt_limit_of_log2_lt (by omega)
    rw [ofNat_of_log2_le hshort, rounded_of_log2_le hshort]
    dsimp only
    omega

end Binary64

/-- A number with more than 1024 binary digits rounds to no less than the limit. -/
theorem limit_le_rounded {n : Nat} (h : 1024 ≤ n.log2) : limit ≤ rounded n := by
  obtain ⟨hlow, -⟩ := Binary64.significand_mem_Icc (show 52 < n.log2 by omega)
  calc 2 ^ 1024 ≤ 2 ^ (52 + (n.log2 - 52)) := pow_le_pow_right₀ (by decide) (by omega)
    _ = 2 ^ 52 * spacing n := pow_add 2 52 _
    _ ≤ rounded n := Nat.mul_le_mul_right _ hlow

/-- A number of more than 53 binary digits rounds to no less than 2^53. -/
theorem le_rounded {n : Nat} (h : 2 ^ 53 ≤ n) : 2 ^ 53 ≤ rounded n := by
  have hlog : 53 ≤ n.log2 := (Nat.le_log2 (by omega)).2 h
  obtain ⟨hlow, -⟩ := Binary64.significand_mem_Icc (show 52 < n.log2 by omega)
  have hspacing : 2 ^ 1 ≤ spacing n := pow_le_pow_right₀ (by decide) (by omega)
  calc 2 ^ 53 = 2 ^ 52 * 2 ^ 1 := pow_add 2 52 1
    _ ≤ rounded n := Nat.mul_le_mul hlow hspacing

/-- A number with more decimal digits than `k` is at least the `k`-th power of ten. -/
theorem pow_le_of_length {n k : Nat} (hk : 0 < k) (h : k < (Json.natText n).length) :
    10 ^ k ≤ n := by
  by_contra hlt
  have hlength : (Json.natText n).length ≤ k :=
    (Nat.length_toDigits_le_iff (by decide) hk).2 (Nat.lt_of_not_le hlt)
  exact Nat.not_lt.2 hlength h

/-- A number with more than 310 decimal digits has more than 1024 binary ones. -/
theorem le_log2_of_length {n : Nat} (h : 310 < (Json.natText n).length) : 1024 ≤ n.log2 := by
  have hlimit : limit ≤ n :=
    calc 2 ^ 1024 = (2 ^ 93) ^ 11 * 2 := by rw [← pow_mul, ← pow_succ]
      _ ≤ (10 ^ 28) ^ 11 * 10 ^ 2 :=
          Nat.mul_le_mul (Nat.pow_le_pow_left (by norm_num) 11) (by norm_num)
      _ = 10 ^ 310 := by rw [← pow_mul, ← pow_add]
      _ ≤ n := pow_le_of_length (by decide) h
  by_contra hlog
  exact Nat.not_lt.2 hlimit (lt_limit_of_log2_lt (Nat.lt_of_not_le hlog))

end Number

namespace Depth

open Number

/-- The bound that a number denotes: the number rounded, or none if that is too large. -/
def ofNumber (n : Nat) : Depth :=
  if rounded n < limit then ofNat (rounded n) else unbounded

/-- A number of at most 53 binary digits denotes itself. -/
theorem ofNumber_of_lt {n : Nat} (h : n < 2 ^ 53) : ofNumber n = ofNat n := by
  have hlog : n.log2 ≤ 52 := log2_le_of_lt h
  have hlt : n < limit := lt_limit_of_log2_lt (by omega)
  rw [ofNumber, rounded_of_log2_le hlog, if_pos hlt]

/-- A numeral denotes the bound of its number. -/
theorem ofNumeral_eq (digits : List Char) :
    ofNumeral digits = ofNumber (Text.decimalValue digits) := by
  generalize hn : Text.decimalValue digits = n
  have hpos : ¬ (n : Int) < 0 := by omega
  have hlength : ¬ ((Json.natText n).length : Int) + 0 < -330 := by omega
  simp only [ofNumeral, hn, ofDecimal, Int.natAbs_natCast, if_neg hpos, if_neg hlength]
  by_cases hzero : n = 0
  · rw [if_pos hzero, hzero]
    exact (ofNumber_of_lt (by decide)).symm
  rw [if_neg hzero]
  -- More digits than these are known to be too many without any rounding.
  by_cases hlong : (310 : Int) < (Json.natText n).length + 0
  · have hlog : 1024 ≤ n.log2 := le_log2_of_length (by omega)
    rw [if_pos hlong, ofNumber, if_neg (Nat.not_lt.2 (limit_le_rounded hlog))]
  rw [if_neg hlong]
  obtain ⟨hparts, hden⟩ := Binary64.parts_ofNat n
  have hexponent := Binary64.exponent_ofNat n
  simp only [powerParts, Int.toNat_zero, Int.neg_zero, Nat.pow_eq, Nat.pow_zero, Nat.mul_one,
    Binary64.nearest_one hzero, ofNumber]
  by_cases hlarge : 971 < (Binary64.ofNat n).exponent
  · rw [if_pos hlarge, if_neg (Nat.not_lt.2 (hexponent.1 hlarge))]
  · have hlt : rounded n < limit := Nat.lt_of_not_le (mt hexponent.2 hlarge)
    rw [if_neg hlarge, if_pos hlt]
    have hcancel : mkRat (rounded n * (Binary64.ofNat n).parts.2 : Nat)
        (1 * (Binary64.ofNat n).parts.2) = mkRat (rounded n) 1 := by
      rw [Nat.cast_mul, Rat.mkRat_mul_right (Nat.ne_of_gt hden)]
    simp only [hparts, ofNat, ← hcancel, Nat.one_mul]

/-- A natural number bounds the rounds of a search as it is. -/
theorem rounds_ofNat (cap n : Nat) : rounds cap (some (ofNat n)) = min cap n := by
  have hceil : (mkRat n 1).ceil = n := by
    rw [Rat.mkRat_one]
    exact Rat.ceil_intCast n
  rw [ofNat, rounds, hceil, Int.toNat_natCast]

/-- A number bounds the rounds of a search as if it was not rounded, where no search needs 2^53
rounds. -/
theorem rounds_ofNumber {cap : Nat} (hcap : cap < 2 ^ 53) (n : Nat) :
    rounds cap (some (ofNumber n)) = min cap n := by
  rcases Nat.lt_or_ge n (2 ^ 53) with hlt | hge
  · rw [ofNumber_of_lt hlt, rounds_ofNat]
  · have hround := le_rounded hge
    rw [Nat.min_eq_left (by omega), ofNumber]
    split
    · rw [rounds_ofNat, Nat.min_eq_left (by omega)]
    · rfl

end Depth

end DagSelect
