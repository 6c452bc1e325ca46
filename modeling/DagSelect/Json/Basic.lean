import DagSelect.Dictionary
import DagSelect.Text.KeyOrder

/-!
# JSON values

A value keeps its numbers as they are written, an integer times a power of ten, and the fields of
an object as they are written too. Reading an object as a dictionary is `Json.entries`: a repeated
key keeps its first position and its last value, and keys that are array indices come first.
-/

namespace DagSelect

/-- A JSON value as it is written. -/
inductive Json where
  | null
  | bool (value : Bool)
  | number (mantissa exponent : Int)
  | string (value : Text)
  | array (items : List Json)
  | object (fields : List (Text × Json))
  deriving Inhabited

namespace Json

/-- The kinds of value that a description of a document tells apart. -/
inductive Kind where
  | null
  | bool
  | number
  | string
  | array
  | object
  deriving DecidableEq, Repr

/-- The kind's name in a description. -/
def Kind.name : Kind → String
  | null => "null"
  | bool => "boolean"
  | number => "number"
  | string => "string"
  | array => "array"
  | object => "object"

/-- The kind of a value. -/
def kind : Json → Kind
  | null => .null
  | bool _ => .bool
  | number _ _ => .number
  | string _ => .string
  | array _ => .array
  | object _ => .object

variable {v : Json}

/-- A value of the kind of flags is one. -/
theorem exists_eq_bool (h : v.kind = .bool) : ∃ b, v = .bool b := by
  cases v <;> simp [kind] at h ⊢

/-- A value of the kind of texts is one. -/
theorem exists_eq_string (h : v.kind = .string) : ∃ s, v = .string s := by
  cases v <;> simp [kind] at h ⊢

/-- A value of the kind of lists is one. -/
theorem exists_eq_array (h : v.kind = .array) : ∃ items, v = .array items := by
  cases v <;> simp [kind] at h ⊢

/-- A value of the kind of objects is one. -/
theorem exists_eq_object (h : v.kind = .object) : ∃ fields, v = .object fields := by
  cases v <;> simp [kind] at h ⊢

variable {α : Type}

/-- The dictionary that a list of fields denotes, in the order in which its keys are enumerated. -/
def entries (fields : List (Text × α)) : List (Text × α) :=
  Text.indexFirst Prod.fst (Dictionary.assignAll [] fields)

/-- The keys of a dictionary are distinct. -/
theorem entries_keys_nodup (fields : List (Text × α)) :
    ((entries fields).map Prod.fst).Nodup := by
  have hempty : (([] : List (Text × α)).map Prod.fst).Nodup := List.nodup_nil
  exact ((Text.indexFirst_perm _ _).map Prod.fst).nodup_iff.2
    (Dictionary.assignAll_keys_nodup hempty fields)

end Json

end DagSelect
