/-!
# Texts

A text is a sequence of UTF-16 code units. Every string is a text. The texts that are no strings
hold one half of a surrogate pair without the other; the escapes of a document can write them, and
two that differ stay apart like any other texts. Identifiers and names of members are texts.
-/

namespace DagSelect

/-- A text as its UTF-16 code units. -/
structure Text where
  units : List UInt16
  deriving Repr, Inhabited

namespace Text

/-- Whether two lists of code units are the same. -/
def sameUnits : List UInt16 → List UInt16 → Bool
  | [], [] => true
  | u :: us, v :: vs => u == v && sameUnits us vs
  | _, _ => false

/-- Lists of code units are the same only if they are equal. -/
theorem sameUnits_iff {us vs : List UInt16} : sameUnits us vs = true ↔ us = vs := by
  induction us generalizing vs with
  | nil => cases vs <;> simp [sameUnits]
  | cons u us ih => cases vs <;> simp [sameUnits, ih]

/-- Texts are equal if their code units are. -/
theorem units_inj {a b : Text} : a.units = b.units ↔ a = b := by
  constructor
  · intro h; cases a; cases b; cases h; rfl
  · rintro rfl; rfl

instance : DecidableEq Text := fun a b =>
  decidable_of_iff (sameUnits a.units b.units = true) (sameUnits_iff.trans units_inj)

/-- The code unit of a character below U+10000. -/
def unit (c : Char) : UInt16 := .ofNat c.toNat

/-- The code units of a character: itself below U+10000, a surrogate pair from there on. -/
def unitsOf (c : Char) : List UInt16 :=
  if c.toNat < 0x10000 then [.ofNat c.toNat]
  else [.ofNat (0xD800 + (c.toNat - 0x10000) / 0x400),
    .ofNat (0xDC00 + (c.toNat - 0x10000) % 0x400)]

/-- A string as a text. -/
def ofString (s : String) : Text := ⟨s.toList.flatMap unitsOf⟩

instance : Coe String Text := ⟨ofString⟩

instance : Append Text := ⟨fun a b => ⟨a.units ++ b.units⟩⟩

/-- Whether a text has no code unit. -/
def isEmpty (t : Text) : Bool := t.units.isEmpty

/-- The empty text is the one without code units. -/
theorem isEmpty_iff {t : Text} : t.isEmpty = true ↔ t = "" :=
  List.isEmpty_iff.trans units_inj

/-- Texts one after another, with a separator between them. -/
def join (sep : Text) (texts : List Text) : Text :=
  ⟨sep.units.intercalate (texts.map Text.units)⟩

/-- The parts of a text between its dots; there is always at least one. -/
def dotted (t : Text) : List Text :=
  (t.units.splitOn (unit '.')).map Text.mk

/-- The units of a text with another one behind it. -/
@[simp] theorem units_append (a b : Text) : (a ++ b).units = a.units ++ b.units := rfl

/-- The dotted parts, joined by dots, give the text back. -/
theorem join_dotted (t : Text) : join "." t.dotted = t := by
  have h : (Text.units ∘ Text.mk : List UInt16 → List UInt16) = id := rfl
  have hdot : (ofString ".").units = [unit '.'] := by decide
  simp [join, dotted, hdot, List.map_map, h, List.intercalate_splitOn]

end Text

end DagSelect
