import DagSelect.Depth
import DagSelect.OrderedSet

/-!
# Selection specs

A spec is a tree: its leaves are criteria, and an inner node combines what its components select.
Every spec carries the text that it is quoted by, and whether a warning is due when it selects
nothing.

What a spec is read from comes from a command line, so its texts are strings: a half of a surrogate
pair that stands alone cannot occur in them, although it can in the identifiers, names and tags that
they are compared with.
-/

namespace DagSelect

/-- A single condition: a method with its arguments and a value, and how the members that it
matches are widened along the graph. A depth counts only where the direction is widened at all; a
missing depth means that there is no bound. -/
structure Criterion where
  method : String
  arguments : List (String × String)
  value : String
  upstream : Bool
  upstreamDepth : Option Depth
  downstream : Bool
  downstreamDepth : Option Depth
  family : Bool
  greedy : Bool
  warnIfEmpty : Bool
  text : String

/-- A selection spec. -/
inductive Spec where
  | criterion (c : Criterion)
  | combination (operation : SetOperation) (components : List Spec) (warnIfEmpty : Bool)
      (text : String)

namespace Criterion

/-- The criterion that matches a value by a method and widens nothing. -/
def plain (method value : String) : Criterion :=
  { method := method
    arguments := []
    value := value
    upstream := false
    upstreamDepth := none
    downstream := false
    downstreamDepth := none
    family := false
    greedy := false
    warnIfEmpty := false
    text := method ++ ":" ++ value }

end Criterion

namespace Spec

/-- The text that a spec is quoted by. -/
def text : Spec → String
  | criterion c => c.text
  | combination _ _ _ text => text

/-- Whether a warning is due when the spec selects nothing. -/
def warnIfEmpty : Spec → Bool
  | criterion c => c.warnIfEmpty
  | combination _ _ warnIfEmpty _ => warnIfEmpty

/-- Combine specs by an operation; without a text of its own the combination is quoted by those of
its components with the operation's name between them. -/
def combine (operation : SetOperation) (components : List Spec) (warnIfEmpty : Bool)
    (text : Option String) : Spec :=
  combination operation components warnIfEmpty
    (text.getD ((" " ++ operation.name ++ " ").intercalate (components.map Spec.text)))

end Spec

end DagSelect
