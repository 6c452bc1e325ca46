import DagSelect.Text.Expression

/-!
# Wildcard patterns

In a pattern an asterisk stands for any run of code units without a line break, the empty run
included, and every other code unit for itself. A pattern without asterisks is compared as it is.
Any other is written down as an expression: its parts between the asterisks, escaped, with a dot and
an asterisk in the place of every asterisk.
-/

namespace DagSelect.Text

/-- The code units that are escaped: all that are syntax in an expression, the asterisk apart. -/
def escapedUnits : List UInt16 :=
  ".+?^$\x7b\x7d()|[]\\".toList.map unit

/-- A part of a pattern with a backslash in front of every unit that is syntax. -/
def escape (part : List UInt16) : List UInt16 :=
  part.flatMap fun u => if u ∈ escapedUnits then [unit '\\', u] else [u]

/-- The expression that a pattern stands for. -/
def expressionOf (pattern : List UInt16) : List UInt16 :=
  [unit '.', unit '*'].intercalate ((pattern.splitOn (unit '*')).map escape)

/-- Whether a wildcard pattern matches the whole candidate. -/
def wildcardMatches (pattern candidate : Text) : Bool :=
  if unit '*' ∈ pattern.units then
    (Expression.read? (expressionOf pattern.units)).any fun atoms =>
      Expression.accepts atoms candidate.units
  else pattern = candidate

end DagSelect.Text
