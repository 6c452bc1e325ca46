import DagSelect.Dictionary
import DagSelect.Error
import DagSelect.Spec.Basic
import DagSelect.Text.Blank
import DagSelect.Text.ReservedKey

/-!
# Reading criteria

A criterion is written `[@][N+][method.key=value…:]value[+N]` on one line. The parts are cut off
from the front, each as long as it can be, and the downstream part from the back: a plus sign with
nothing but digits after it. What remains is the value, which must not be empty. An `@` and an
upstream part exclude each other. Without a method the value is matched by qualified name.
-/

namespace DagSelect.Criterion

/-- The parts of the text of a criterion: whether there is an `@`, the digits of the upstream part,
the method with its arguments, the value, and the digits of the downstream part. -/
structure Parts where
  family : Bool
  upstream : Option (List Char)
  method : Option (List Char)
  value : List Char
  downstream : Option (List Char)

/-- The characters of a method and its arguments. -/
def isMethodChar (c : Char) : Bool :=
  c.isAlphanum || c = '_' || c = '.' || c = '=' || c = '-'

/-- Whether there is an `@` in front, and what follows it. -/
def cutFamily : List Char → Bool × List Char
  | '@' :: s => (true, s)
  | s => (false, s)

/-- The digits in front of a plus sign, and what follows it. -/
def cutUpstream (s : List Char) : Option (List Char) × List Char :=
  match s.dropWhile Char.isDigit with
  | '+' :: rest => (some (s.takeWhile Char.isDigit), rest)
  | _ => (none, s)

/-- The method text in front of a colon, and what follows it. -/
def cutMethod (s : List Char) : Option (List Char) × List Char :=
  match s.takeWhile isMethodChar, s.dropWhile isMethodChar with
  | [], _ => (none, s)
  | name, ':' :: rest => (some name, rest)
  | _, _ => (none, s)

/-- What stands before a last plus sign that only digits follow, and these digits. -/
def cutDownstream (s : List Char) : List Char × Option (List Char) :=
  match s.reverse.dropWhile Char.isDigit with
  | '+' :: rest => (rest.reverse, some (s.reverse.takeWhile Char.isDigit).reverse)
  | _ => (s, none)

/-- The parts of a text without line breaks. -/
def cut (s : List Char) : Parts :=
  let (family, s) := cutFamily s
  let (upstream, s) := cutUpstream s
  let (method, s) := cutMethod s
  let (value, downstream) := cutDownstream s
  ⟨family, upstream, method, value, downstream⟩

/-- The bound that the digits of a part denote, none without digits. -/
def depthOf (digits : List Char) : Option Depth :=
  if digits.isEmpty then none else some (Depth.ofNumeral digits)

/-- The method that a value is matched by if none is written. -/
def defaultMethod : String := "fqn"

/-- Read one argument of a method. Without an equals sign its value is `true`, and nothing counts
from a second equals sign on; the key must not be empty. -/
def readArgument (written : String) : Option (String × String) :=
  let (key, value) := match Text.pieces '=' written with
    | [] => ("", "")
    | [key] => (key, "true")
    | key :: value :: _ => (key, value)
  if key.isEmpty then none else some (key, value)

/-- Read the arguments of a method; the last value of a key counts, and the key that holds nothing
keeps none. -/
def readArguments (written : List String) : Option (List (String × String)) := do
  let args ← written.mapM readArgument
  return Dictionary.assignAll [] (args.filter fun arg => arg.1 ≠ Text.voidKey)

/-- Read a method and its arguments. -/
def readMethod : Option (List Char) → Except SelectorError (String × List (String × String))
  | none => .ok (defaultMethod, [])
  | some chars =>
    let written := String.ofList chars
    let parts := Text.pieces '.' written
    let method := parts.headD ""
    match readArguments parts.tail with
    | some arguments => .ok (method, arguments)
    | none => .error (.badArguments written method)

/-- Read a criterion. -/
def parse (text : String) (greedy : Bool) : Except SelectorError Criterion := do
  let parts := cut text.toList
  if text.toList.any Text.isLineBreak || parts.value.isEmpty then
    throw (.malformed text)
  if parts.family && parts.upstream.isSome then
    throw (.clashingModifiers text)
  let (method, arguments) ← readMethod parts.method
  return {
    method := method
    arguments := arguments
    value := String.ofList parts.value
    upstream := parts.upstream.isSome
    upstreamDepth := parts.upstream.bind depthOf
    downstream := parts.downstream.isSome
    downstreamDepth := parts.downstream.bind depthOf
    family := parts.family
    greedy := greedy
    warnIfEmpty := false
    text := text }

end DagSelect.Criterion
