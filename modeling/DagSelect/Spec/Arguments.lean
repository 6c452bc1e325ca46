import DagSelect.Spec.Parser

/-!
# Selection arguments

The arguments of a selection are lists of texts. Blanks between words mean union and commas inside
a word mean intersection. A word that selects nothing is worth a warning, unless it stands in for
arguments that were not given. What is excluded is resolved greedily: a test goes if any of its
parents goes.

The texts are strings, as a command line gives them. Texts with halves of surrogate pairs that stand
alone are no arguments here.
-/

namespace DagSelect

/-- What to select and what to exclude; an empty list stands for an argument that is not given. -/
structure SelectionArguments where
  select : List String
  exclude : List String
  greedy : Bool

namespace SelectionArguments

/-- What is selected if nothing is said about it: every node, source and exposure. -/
def defaultSelect : List String := ["fqn:*", "source:*", "exposure:*"]

/-- Read one word: the intersection of its parts between commas. -/
def readWord (warnIfEmpty greedy : Bool) (word : String) : Except SelectorError Spec := do
  let parts ← (Text.pieces ',' word).mapM fun part => Criterion.parse part greedy
  return .combine .intersection (parts.map .criterion) warnIfEmpty (some word)

/-- Read a list of texts: the union of their words. -/
def readUnion (texts : List String) (warnIfEmpty greedy : Bool) : Except SelectorError Spec := do
  let words ← (texts.flatMap Text.words).mapM (readWord warnIfEmpty greedy)
  return .combine .union words false (some (" ".intercalate texts))

/-- The spec of what the arguments select. -/
def parseSelect (args : SelectionArguments) : Except SelectorError Spec :=
  if args.select.isEmpty then readUnion defaultSelect false args.greedy
  else readUnion args.select true args.greedy

/-- The spec of what the arguments exclude. -/
def parseExclude (args : SelectionArguments) : Except SelectorError Spec :=
  readUnion args.exclude true true

/-- The spec of the arguments. -/
def parse (args : SelectionArguments) : Except SelectorError Spec := do
  let included ← args.parseSelect
  if args.exclude.isEmpty then return included
  let excluded ← args.parseExclude
  return .combine .difference [included, excluded] false none

end SelectionArguments

end DagSelect
