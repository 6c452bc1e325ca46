import DagSelect.Json.Escape
import DagSelect.Proofs.Text.Symbol
import Mathlib.Tactic.SplitIfs

/-!
# Reading quoted text

What is written for one symbol is read back as its code units, and the reader stops at the closing
quote, so a text in quotes is read back as it was.
-/

namespace DagSelect.Json

open Text

variable {c d : Char} {rest : List Char}

/-- What is read before the rest of a text, in front of what is read of the rest. -/
def precede (us : List UInt16) (rest : List Char) : Option (List UInt16 × List Char) :=
  (readUnits rest).map fun (more, s) => (us ++ more, s)

/-- A hexadecimal digit has its value. -/
theorem hexValue?_hexDigit {n : Nat} (h : n < 16) : hexValue? (hexDigit n) = some n := by
  have hall : ∀ n < 16, hexValue? (hexDigit n) = some n := by decide
  exact hall n h

/-- Four hexadecimal digits denote their number. -/
theorem hexQuad?_hexDigit {n : Nat} (h : n < 65536) :
    hexQuad? (hexDigit (n / 4096)) (hexDigit (n / 256 % 16)) (hexDigit (n / 16 % 16))
      (hexDigit (n % 16)) = some (.ofNat n) := by
  have hsum : ((n / 4096 * 16 + n / 256 % 16) * 16 + n / 16 % 16) * 16 + n % 16 = n := by omega
  simp only [hexQuad?, hexValue?_hexDigit (show n / 4096 < 16 by omega),
    hexValue?_hexDigit (show n / 256 % 16 < 16 by omega),
    hexValue?_hexDigit (show n / 16 % 16 < 16 by omega),
    hexValue?_hexDigit (show n % 16 < 16 by omega), Option.bind_eq_bind, Option.bind_some, hsum]
  rfl

/-- A short escape is read as its character. -/
theorem readUnits_short (hu : c ≠ 'u') (h : shortEscape? c = some d) :
    readUnits ('\\' :: c :: rest) = precede (unitsOf d) rest := by
  rw [readUnits.eq_4 _ _ fun _ _ _ _ _ hc _ => hu hc, h]
  cases hrest : readUnits rest <;> simp [precede, hrest]

/-- A long escape is read as its code unit. -/
theorem readUnits_long {n : Nat} (h : n < 65536) (rest : List Char) :
    readUnits ('\\' :: 'u' :: hexDigit (n / 4096) :: hexDigit (n / 256 % 16) ::
      hexDigit (n / 16 % 16) :: hexDigit (n % 16) :: rest) = precede [.ofNat n] rest := by
  rw [readUnits.eq_3, hexQuad?_hexDigit h]
  cases hrest : readUnits rest <;> simp [precede, hrest]

/-- A character that stands for itself is read as itself. -/
theorem readUnits_plain (hquote : c ≠ '"') (hescape : c ≠ '\\') (hcontrol : 32 ≤ c.toNat) :
    readUnits (c :: rest) = precede (unitsOf c) rest := by
  have hread : (decide (c.toNat < 0x20) || decide (c = '\\')) = false := by
    simp [hescape, hcontrol]
  rw [readUnits.eq_5 _ _ hquote (fun _ _ _ _ _ hc _ => hescape hc) fun _ _ hc _ => hescape hc,
    hread]
  cases hrest : readUnits rest <;> simp [precede, hrest]

/-- What is written for a character is read as this character. -/
theorem readUnits_escapeChar (c : Char) (rest : List Char) :
    readUnits (escapeChar c ++ rest) = precede (unitsOf c) rest := by
  unfold escapeChar
  split_ifs with hquote hescape hback hfeed hline hreturn htab hcontrol
  · subst hquote
    exact readUnits_short (by decide) rfl
  · subst hescape
    exact readUnits_short (by decide) rfl
  · have hread : shortEscape? 'b' = some c := by rw [← Char.ofNat_toNat c, hback]; rfl
    exact readUnits_short (by decide) hread
  · have hread : shortEscape? 'f' = some c := by rw [← Char.ofNat_toNat c, hfeed]; rfl
    exact readUnits_short (by decide) hread
  · subst hline
    exact readUnits_short (by decide) rfl
  · subst hreturn
    exact readUnits_short (by decide) rfl
  · subst htab
    exact readUnits_short (by decide) rfl
  · have hzero : hexDigit 0 = '0' := by decide
    have hunits : unitsOf c = [.ofNat c.toNat] := by rw [unitsOf, if_pos (by omega)]
    have hread := readUnits_long (show c.toNat < 65536 by omega) rest
    rwa [show c.toNat / 4096 = 0 by omega, show c.toNat / 256 % 16 = 0 by omega,
      show c.toNat / 16 % 16 = c.toNat / 16 by omega, hzero, ← hunits] at hread
  · exact readUnits_plain hquote hescape (by omega)

/-- What is written for a symbol is read as its code units. -/
theorem readUnits_escapeSymbol (x : Symbol) (rest : List Char) :
    readUnits (escapeSymbol x ++ rest) = precede x.units rest := by
  cases x with
  | char c => exact readUnits_escapeChar c rest
  | half u =>
    have hread := readUnits_long u.toNat_lt rest
    rwa [UInt16.ofNat_toNat] at hread

/-- What is written for symbols is read as their code units, up to the closing quote. -/
theorem readUnits_flatMap (xs : List Symbol) (rest : List Char) :
    readUnits (xs.flatMap escapeSymbol ++ '"' :: rest) =
      some (xs.flatMap Symbol.units, rest) := by
  induction xs with
  | nil => rfl
  | cons x xs ih =>
    rw [List.flatMap_cons, List.append_assoc, readUnits_escapeSymbol, precede, ih]
    rfl

/-- A text in quotes is read back. -/
theorem readText_quote (t : Text) (rest : List Char) :
    readText (t.symbols.flatMap escapeSymbol ++ '"' :: rest) = some (t, rest) := by
  rw [readText, readUnits_flatMap, flatMap_units_symbols]
  rfl

end DagSelect.Json
