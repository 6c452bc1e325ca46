import DagSelect.Json.Basic
import DagSelect.Json.Escape

/-!
# Writing JSON

The layout has two spaces per level and one item or field per line; an empty list or object stays
on one line. A number is written as its integer, followed by its power of ten unless that is zero,
so what is written reads back as the same value.
-/

namespace DagSelect.Json

/-- A natural number in decimal digits. -/
def natText (n : Nat) : List Char :=
  Nat.toDigits 10 n

/-- An integer in decimal digits. -/
def intText (n : Int) : List Char :=
  if n < 0 then '-' :: natText n.natAbs else natText n.natAbs

/-- A new line at a level of nesting. -/
def newLine (level : Nat) : List Char :=
  '\n' :: List.replicate (2 * level) ' '

mutual

/-- A value whose first line starts at a level of nesting. -/
def prettyAt (level : Nat) : Json → List Char
  | .null => "null".toList
  | .bool true => "true".toList
  | .bool false => "false".toList
  | .number m e => if e = 0 then intText m else intText m ++ 'e' :: intText e
  | .string s => quote s
  | .array [] => ['[', ']']
  | .array (item :: items) =>
    '[' :: newLine (level + 1) ++ prettyAt (level + 1) item ++ prettyItems (level + 1) items
      ++ newLine level ++ [']']
  | .object [] => ['\x7b', '\x7d']
  | .object ((key, value) :: fields) =>
    '\x7b' :: newLine (level + 1) ++ quote key ++ ':' :: ' ' :: prettyAt (level + 1) value
      ++ prettyFields (level + 1) fields ++ newLine level ++ ['\x7d']

/-- The further items of a list, each after a comma. -/
def prettyItems (level : Nat) : List Json → List Char
  | [] => []
  | item :: items => ',' :: newLine level ++ prettyAt level item ++ prettyItems level items

/-- The further fields of an object, each after a comma. -/
def prettyFields (level : Nat) : List (Text × Json) → List Char
  | [] => []
  | (key, value) :: fields =>
    ',' :: newLine level ++ quote key ++ ':' :: ' ' :: prettyAt level value
      ++ prettyFields level fields

end

/-- A value as text. -/
def pretty (value : Json) : String :=
  String.ofList (prettyAt 0 value)

end DagSelect.Json
