import DagSelect.Json.Basic
import DagSelect.Json.Escape

/-!
# Reading JSON

A strict reader: exactly one value, with nothing but the four space characters around it, no
trailing comma, no comment, no leading zero, no control character inside quotes. The readers take
a bound on the number of steps; two steps per character are enough, since a list or a dictionary
spends one step on each item beside the item's own, and every item takes at least one character.
-/

namespace DagSelect.Json

/-- The characters that may stand between the parts of a value. -/
def isSpace (c : Char) : Bool :=
  c = ' ' || c = '\t' || c = '\n' || c = '\r'

/-- The text from its first character that is no space. -/
def skipSpace (s : List Char) : List Char :=
  s.dropWhile isSpace

/-- The text after an expected beginning. -/
def expect? : List Char → List Char → Option (List Char)
  | [], s => some s
  | c :: cs, d :: s => if c = d then expect? cs s else none
  | _ :: _, [] => none

/-- A non-empty run of decimal digits, and what follows it. -/
def readDigits (s : List Char) : Option (List Char × List Char) :=
  let digits := s.takeWhile Char.isDigit
  if digits.isEmpty then none else some (digits, s.dropWhile Char.isDigit)

/-- The digits after a decimal point, none if there is no point. -/
def readFraction : List Char → Option (List Char × List Char)
  | '.' :: s => readDigits s
  | s => some ([], s)

/-- The power of ten after `e` or `E`, zero if there is none. -/
def readExponent : List Char → Option (Int × List Char)
  | 'e' :: s | 'E' :: s =>
    match s with
    | '-' :: s => (readDigits s).map fun (ds, s) => (-(Text.decimalValue ds : Int), s)
    | '+' :: s => (readDigits s).map fun (ds, s) => ((Text.decimalValue ds : Int), s)
    | s => (readDigits s).map fun (ds, s) => ((Text.decimalValue ds : Int), s)
  | s => some (0, s)

/-- A number without sign: its integer part has no leading zero. -/
def readMagnitude (s : List Char) : Option (Nat × Int × List Char) := do
  let (whole, s) ← match s with
    | '0' :: s => some (['0'], s)
    | s => readDigits s
  let (fraction, s) ← readFraction s
  let (exponent, s) ← readExponent s
  return (Text.decimalValue (whole ++ fraction), exponent - (fraction.length : Int), s)

/-- A number, and what follows it. -/
def readNumber : List Char → Option (Json × List Char)
  | '-' :: s => (readMagnitude s).map fun (m, e, s) => (number (-(m : Int)) e, s)
  | s => (readMagnitude s).map fun (m, e, s) => (number (m : Int) e, s)

mutual

/-- A value, and what follows it. -/
def readValue : Nat → List Char → Option (Json × List Char)
  | 0, _ => none
  | steps + 1, s =>
    match skipSpace s with
    | 'n' :: s => (expect? "ull".toList s).map fun s => (null, s)
    | 't' :: s => (expect? "rue".toList s).map fun s => (bool true, s)
    | 'f' :: s => (expect? "alse".toList s).map fun s => (bool false, s)
    | '"' :: s => (readText s).map fun (text, s) => (string text, s)
    | '[' :: s =>
      match skipSpace s with
      | ']' :: s => some (array [], s)
      | s => (readItems steps s).map fun (items, s) => (array items, s)
    | '\x7b' :: s =>
      match skipSpace s with
      | '\x7d' :: s => some (object [], s)
      | s => (readFields steps s).map fun (fields, s) => (object fields, s)
    | s => readNumber s

/-- The items of a list up to its closing bracket, at least one. -/
def readItems : Nat → List Char → Option (List Json × List Char)
  | 0, _ => none
  | steps + 1, s => do
    let (item, s) ← readValue steps s
    match skipSpace s with
    | ',' :: s =>
      let (items, s) ← readItems steps s
      return (item :: items, s)
    | ']' :: s => return ([item], s)
    | _ => none

/-- The fields of an object up to its closing brace, at least one. -/
def readFields : Nat → List Char → Option (List (Text × Json) × List Char)
  | 0, _ => none
  | steps + 1, s =>
    match skipSpace s with
    | '"' :: s => do
      let (key, s) ← readText s
      match skipSpace s with
      | ':' :: s =>
        let (value, s) ← readValue steps s
        match skipSpace s with
        | ',' :: s =>
          let (fields, s) ← readFields steps s
          return ((key, value) :: fields, s)
        | '\x7d' :: s => return ([(key, value)], s)
        | _ => none
      | _ => none
    | _ => none

end

/-- The value that a text holds, if it holds exactly one. -/
def parse? (text : String) : Option Json :=
  let s := text.toList
  match readValue (2 * s.length + 2) s with
  | some (value, rest) => if (skipSpace rest).isEmpty then some value else none
  | none => none

end DagSelect.Json
