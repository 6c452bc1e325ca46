import DagSelect.Text.Basic

/-!
# The symbols of a text

Read from the front, a text consists of characters and of halves of surrogate pairs that stand
alone. The symbols of a string are its characters, so a string is determined by its code units.
-/

namespace DagSelect.Text

/-- A character, or half of a surrogate pair without the other half. -/
inductive Symbol where
  | char (c : Char)
  | half (unit : UInt16)
  deriving DecidableEq, Repr

/-- Whether a code unit is the first half of a surrogate pair. -/
def isHighHalf (u : UInt16) : Bool := 0xD800 ≤ u.toNat && u.toNat < 0xDC00

/-- Whether a code unit is the second half of a surrogate pair. -/
def isLowHalf (u : UInt16) : Bool := 0xDC00 ≤ u.toNat && u.toNat < 0xE000

/-- The character of a surrogate pair. -/
def pairChar (u v : UInt16) : Char :=
  Char.ofNat (0x10000 + (u.toNat - 0xD800) * 0x400 + (v.toNat - 0xDC00))

/-- The symbol of a code unit that belongs to no pair. -/
def symbolOf (u : UInt16) : Symbol :=
  if isHighHalf u || isLowHalf u then .half u else .char (Char.ofNat u.toNat)

/-- The symbols that a sequence of code units consists of. -/
def symbolsOf : List UInt16 → List Symbol
  | [] => []
  | [u] => [symbolOf u]
  | u :: v :: rest =>
    if isHighHalf u && isLowHalf v then .char (pairChar u v) :: symbolsOf rest
    else symbolOf u :: symbolsOf (v :: rest)

/-- The symbols of a text. -/
def symbols (t : Text) : List Symbol := symbolsOf t.units

/-- A symbol as a character; a half is shown as U+FFFD. -/
def Symbol.shown : Symbol → Char
  | .char c => c
  | .half _ => Char.ofNat 0xFFFD

/-- A text as a string, in which U+FFFD stands for every half that stands alone. -/
def toString (t : Text) : String := String.ofList (t.symbols.map Symbol.shown)

/-- The code units of a character in front are read as that character. -/
theorem symbolsOf_unitsOf_append (c : Char) (us : List UInt16) :
    symbolsOf (unitsOf c ++ us) = .char c :: symbolsOf us := by
  have hc := c.valid
  have hval : c.val.toNat = c.toNat := rfl
  simp only [UInt32.isValidChar, Nat.isValidChar, hval] at hc
  unfold unitsOf
  split
  · rename_i h
    have hu : (UInt16.ofNat c.toNat).toNat = c.toNat := by
      rw [UInt16.toNat_ofNat']; omega
    have hh : isHighHalf (.ofNat c.toNat) = false := by
      rw [isHighHalf, hu]; simp; omega
    have hl : isLowHalf (.ofNat c.toNat) = false := by
      rw [isLowHalf, hu]; simp; omega
    have hs : symbolOf (.ofNat c.toNat) = .char c := by
      rw [symbolOf, hh, hl, hu, Char.ofNat_toNat]; rfl
    cases us with
    | nil => exact congrArg (fun s => [s]) hs
    | cons v rest => rw [List.cons_append, List.nil_append, symbolsOf, hh, hs]; rfl
  · rename_i h
    have hu : (UInt16.ofNat (0xD800 + (c.toNat - 0x10000) / 0x400)).toNat =
        0xD800 + (c.toNat - 0x10000) / 0x400 := by
      rw [UInt16.toNat_ofNat']; omega
    have hv : (UInt16.ofNat (0xDC00 + (c.toNat - 0x10000) % 0x400)).toNat =
        0xDC00 + (c.toNat - 0x10000) % 0x400 := by
      rw [UInt16.toNat_ofNat']; omega
    have hh : isHighHalf (.ofNat (0xD800 + (c.toNat - 0x10000) / 0x400)) = true := by
      rw [isHighHalf, hu]; simp; omega
    have hl : isLowHalf (.ofNat (0xDC00 + (c.toNat - 0x10000) % 0x400)) = true := by
      rw [isLowHalf, hv]; simp; omega
    have hp : pairChar (.ofNat (0xD800 + (c.toNat - 0x10000) / 0x400))
        (.ofNat (0xDC00 + (c.toNat - 0x10000) % 0x400)) = c := by
      rw [pairChar, hu, hv]
      have e : 0x10000 + (0xD800 + (c.toNat - 0x10000) / 0x400 - 0xD800) * 0x400
          + (0xDC00 + (c.toNat - 0x10000) % 0x400 - 0xDC00) = c.toNat := by omega
      rw [e, Char.ofNat_toNat]
    rw [List.cons_append, List.cons_append, List.nil_append, symbolsOf, hh, hl, hp]
    rfl

/-- The symbols of a string are its characters. -/
theorem symbols_ofString (s : String) : (ofString s).symbols = s.toList.map .char := by
  unfold symbols ofString
  induction s.toList with
  | nil => rfl
  | cons c cs ih => rw [List.flatMap_cons, symbolsOf_unitsOf_append, ih, List.map_cons]

/-- A string is recovered from its text. -/
@[simp] theorem toString_ofString (s : String) : (ofString s).toString = s := by
  rw [toString, symbols_ofString, List.map_map]
  have h : (Symbol.shown ∘ Symbol.char : Char → Char) = id := rfl
  rw [h, List.map_id, String.ofList_toList]

/-- A string is determined by its code units. -/
theorem ofString_inj {a b : String} : ofString a = ofString b ↔ a = b :=
  ⟨fun h => by rw [← toString_ofString a, h, toString_ofString], fun h => h ▸ rfl⟩

end DagSelect.Text
