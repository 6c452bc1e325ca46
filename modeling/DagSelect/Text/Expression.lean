import DagSelect.Text.Basic
import DagSelect.Text.Blank

/-!
# Expressions

The part of the language of regular expressions in which patterns are written down: a code unit
stands for itself, with a backslash in front if it is syntax, and a dot with an asterisk stands for
any run without a line break, the empty run included. Whatever else is syntax is not read. An
expression has to match from the first code unit to the last.

Matching works backwards through the expression, one row per atom: the row says for every end part
of the candidate, longest first, whether the rest of the expression matches it. A row costs one pass
over the candidate, so the work is the product of the two lengths however many runs there are.
-/

namespace DagSelect.Text.Expression

/-- What an expression consists of: code units that stand for themselves, and runs on one line. -/
inductive Atom where
  | literal (u : UInt16)
  | run
  deriving DecidableEq, Repr

/-- The code units that are syntax where no backslash precedes them. -/
def syntaxUnits : List UInt16 :=
  "^$\\.*+?()[]\x7b\x7d|".toList.map unit

/-- The atoms of an expression, if it has nothing but literals and runs. -/
def read? : List UInt16 → Option (List Atom)
  | [] => some []
  | [u] => if u ∈ syntaxUnits then none else some [.literal u]
  | u :: v :: rest =>
    if u = unit '\\' then
      if v ∈ syntaxUnits then (read? rest).map (.literal v :: ·) else none
    else if u = unit '.' ∧ v = unit '*' then (read? rest).map (.run :: ·)
    else if u ∈ syntaxUnits then none
    else (read? (v :: rest)).map (.literal u :: ·)

/-- The row of no atoms: only the empty end part matches. -/
def emptyRow : List UInt16 → List Bool
  | [] => [true]
  | _ :: s => false :: emptyRow s

/-- The row of the literal `c` and more atoms, from the row of these. -/
def literalRow (c : UInt16) : List UInt16 → List Bool → List Bool
  | d :: s, _ :: row => (d == c && row.headD false) :: literalRow c s row
  | _, _ => [false]

/-- The row of a run and more atoms, from the row of these. -/
def runRow : List UInt16 → List Bool → List Bool
  | d :: s, b :: row =>
    let later := runRow s row
    (b || (!isLineBreakUnit d && later.headD false)) :: later
  | _, row => row

/-- Which end parts of the candidate the atoms match, the whole candidate first. -/
def row : List Atom → List UInt16 → List Bool
  | [], s => emptyRow s
  | .literal c :: atoms, s => literalRow c s (row atoms s)
  | .run :: atoms, s => runRow s (row atoms s)

/-- Whether the atoms match the whole candidate. -/
def accepts (atoms : List Atom) (candidate : List UInt16) : Bool :=
  (row atoms candidate).headD false

end DagSelect.Text.Expression
