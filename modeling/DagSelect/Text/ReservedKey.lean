import DagSelect.Text.Basic

/-!
# Reserved keys

Twelve keys are reserved. A dictionary of neighbours counts them as taken from the start, so an
edge to an identifier with such a name is not recorded where its parent is already there. One of
them holds nothing at all: what is put under it is never listed, but from then on the dictionary
counts eight further keys as taken.
-/

namespace DagSelect.Text

/-- The key under which nothing is kept. -/
def voidKey : Text := "__proto__"

/-- The keys that count as taken from the start. -/
def reservedKeys : List Text :=
  [voidKey, "constructor", "hasOwnProperty", "isPrototypeOf", "propertyIsEnumerable",
    "toLocaleString", "toString", "valueOf", "__defineGetter__", "__defineSetter__",
    "__lookupGetter__", "__lookupSetter__"]

/-- The keys that count as taken once something is put under the key that holds nothing. -/
def lentKeys : List Text :=
  ["key", "attributes", "source", "target", "attach", "attachMulti", "detach", "detachMulti"]

/-- Whether a key counts as taken from the start. -/
def isReserved (key : Text) : Bool :=
  key ∈ reservedKeys

/-- The key that holds nothing is one of the reserved ones. -/
theorem isReserved_voidKey : isReserved voidKey = true := by
  decide

end DagSelect.Text
