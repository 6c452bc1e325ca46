import DagSelect.Text.Symbol

/-!
# Text in quotes

A JSON text stands between quotes. The quote, the backslash, the control characters below U+0020
and the halves of surrogate pairs that stand alone are escaped; every other character stands for
itself. Reading also accepts the escapes that writing does not use: `\/`, and any code unit by its
four hexadecimal digits.
-/

namespace DagSelect.Json

/-- The lower-case hexadecimal digit of a number below sixteen. -/
def hexDigit (n : Nat) : Char :=
  if n < 10 then Char.ofNat ('0'.toNat + n) else Char.ofNat ('a'.toNat + (n - 10))

/-- The value of a hexadecimal digit of either case. -/
def hexValue? (c : Char) : Option Nat :=
  if '0' ≤ c ∧ c ≤ '9' then some (c.toNat - '0'.toNat)
  else if 'a' ≤ c ∧ c ≤ 'f' then some (c.toNat - 'a'.toNat + 10)
  else if 'A' ≤ c ∧ c ≤ 'F' then some (c.toNat - 'A'.toNat + 10)
  else none

/-- One character as it stands between quotes. -/
def escapeChar (c : Char) : List Char :=
  if c = '"' then ['\\', '"']
  else if c = '\\' then ['\\', '\\']
  else if c.toNat = 8 then ['\\', 'b']
  else if c.toNat = 12 then ['\\', 'f']
  else if c = '\n' then ['\\', 'n']
  else if c = '\r' then ['\\', 'r']
  else if c = '\t' then ['\\', 't']
  else if c.toNat < 0x20 then
    ['\\', 'u', '0', '0', hexDigit (c.toNat / 16), hexDigit (c.toNat % 16)]
  else [c]

/-- One symbol of a text as it stands between quotes. -/
def escapeSymbol : Text.Symbol → List Char
  | .char c => escapeChar c
  | .half u =>
    let n := u.toNat
    ['\\', 'u', hexDigit (n / 4096), hexDigit (n / 256 % 16), hexDigit (n / 16 % 16),
      hexDigit (n % 16)]

/-- A text in quotes. -/
def quote (t : Text) : List Char :=
  '"' :: t.symbols.flatMap escapeSymbol ++ ['"']

/-- The character that a single-letter escape stands for. -/
def shortEscape? (c : Char) : Option Char :=
  if c = '"' then some '"'
  else if c = '\\' then some '\\'
  else if c = '/' then some '/'
  else if c = 'b' then some (Char.ofNat 8)
  else if c = 'f' then some (Char.ofNat 12)
  else if c = 'n' then some '\n'
  else if c = 'r' then some '\r'
  else if c = 't' then some '\t'
  else none

/-- The code unit that four hexadecimal digits denote. -/
def hexQuad? (a b c d : Char) : Option UInt16 := do
  let a ← hexValue? a
  let b ← hexValue? b
  let c ← hexValue? c
  let d ← hexValue? d
  return .ofNat (((a * 16 + b) * 16 + c) * 16 + d)

/-- The code units up to the closing quote, and what follows it. -/
def readUnits : List Char → Option (List UInt16 × List Char)
  | [] => none
  | '"' :: rest => some ([], rest)
  | '\\' :: 'u' :: a :: b :: c :: d :: rest => do
    let u ← hexQuad? a b c d
    let (us, rest) ← readUnits rest
    return (u :: us, rest)
  | '\\' :: c :: rest => do
    let c ← shortEscape? c
    let (us, rest) ← readUnits rest
    return (Text.unitsOf c ++ us, rest)
  | c :: rest =>
    if c.toNat < 0x20 || c = '\\' then none
    else do
      let (us, rest) ← readUnits rest
      return (Text.unitsOf c ++ us, rest)

/-- The text up to the closing quote, and what follows it. -/
def readText (s : List Char) : Option (Text × List Char) :=
  (readUnits s).map fun (us, rest) => (⟨us⟩, rest)

end DagSelect.Json
