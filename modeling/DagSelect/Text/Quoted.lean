import DagSelect.Text.Basic

/-!
# Quoted texts

A text in a message stands between quotes, with the characters that cannot be printed escaped. A
long text is broken after each of its line feeds: every line has quotes of its own, and plus signs
join them. Of a very long text only the beginning counts, and what is shown may be cut further.
-/

namespace DagSelect.Text

/-- An upper-case hexadecimal digit. -/
def upperHexDigit (n : Nat) : Char :=
  if n < 10 then Char.ofNat ('0'.toNat + n) else Char.ofNat ('A'.toNat + (n - 10))

/-- A character as it is shown between quotes of a kind. -/
def shownChar (mark c : Char) : List Char :=
  if c = mark || c = '\\' then ['\\', c]
  else if c.toNat = 8 then ['\\', 'b']
  else if c = '\t' then ['\\', 't']
  else if c = '\n' then ['\\', 'n']
  else if c.toNat = 12 then ['\\', 'f']
  else if c = '\r' then ['\\', 'r']
  else if c.toNat < 0x20 || (0x7F ≤ c.toNat && c.toNat < 0xA0) then
    ['\\', 'x', upperHexDigit (c.toNat / 16), upperHexDigit (c.toNat % 16)]
  else [c]

/-- The quotes for a text: single ones, if need be double ones or grave accents, so that a single
quote in it stands for itself where it can. -/
def quoteMark (s : List Char) : Char :=
  if !s.contains '\'' then '\''
  else if !s.contains '"' then '"'
  else if !s.contains '\x60' && !(s.zip s.tail).contains ('$', '\x7b') then '\x60'
  else '\''

/-- A text between quotes that suit it. -/
def quoted (s : List Char) : List Char :=
  let mark := quoteMark s
  mark :: s.flatMap (shownChar mark) ++ [mark]

/-- The lines of a text, each with the line feed that ends it. -/
def linesOf : List Char → List (List Char)
  | [] => []
  | c :: s =>
    if c = '\n' then [c] :: linesOf s
    else
      match linesOf s with
      | [] => [[c]]
      | line :: rest => (c :: line) :: rest

/-- The lines make up the text. -/
theorem linesOf_flatten (s : List Char) : (linesOf s).flatten = s := by
  induction s with
  | nil => rfl
  | cons c s ih =>
    rw [linesOf]
    split
    · simp [ih]
    · split <;> rename_i h <;> rw [h] at ih <;> simpa using ih

/-- The longest beginning of a text within a number of code units. -/
def takeUnits : Nat → List Char → List Char
  | _, [] => []
  | limit, c :: s =>
    let units := (unitsOf c).length
    if units ≤ limit then c :: takeUnits (limit - units) s else []

/-- The number of code units of a text that are shown at all. -/
def shownLimit : Nat := 10000

/-- The number of code units up to which a text is shown in one piece. -/
def pieceLimit : Nat := 76

/-- The beginning of a text as it is shown in a message. -/
def shown (s : String) : String :=
  let text := takeUnits shownLimit s.toList
  let lines := if (text.flatMap unitsOf).length ≤ pieceLimit then [text] else linesOf text
  String.ofList ([' ', '+', '\n', ' ', ' '].intercalate (lines.map quoted))

/-- A text, cut where it has more than a number of code units. The cut falls between two code units,
so it can leave the first half of a surrogate pair alone. -/
def shortened (limit : Nat) (t : Text) : Text :=
  if t.units.length ≤ limit then t else ⟨t.units.take limit⟩ ++ "..."

end DagSelect.Text
