import DagSelect.Json.Basic

/-!
# Issues of a manifest document

An issue names the place in the document where it violates the schema, as the keys and positions
that lead there, and what is wrong there.
-/

namespace DagSelect

/-- What is wrong at a place of a document. -/
inductive Violation where
  | missing
  | wrongKind (expected : Text) (received : Json.Kind)
  | tooShort
  | notAnOption (options : List Text) (received : Text)
  | unknownKeys (keys : List Text)
  deriving DecidableEq, Repr

/-- A violation and its place, from the root of the document. -/
structure Issue where
  path : List Text
  violation : Violation
  deriving DecidableEq, Repr

/-- A text between single quotes, as it is. -/
def singleQuoted (t : Text) : Text :=
  "'" ++ t ++ "'"

/-- The written form of a choice between options. -/
def optionList (options : List Text) : Text :=
  .join " | " (options.map singleQuoted)

namespace Violation

/-- What is wrong, in words. -/
def message : Violation → Text
  | missing => "Required"
  | wrongKind expected received => "Expected " ++ expected ++ ", received " ++ received.name
  | tooShort => "String must contain at least 1 character(s)"
  | notAnOption options received =>
    "Invalid enum value. Expected " ++ optionList options ++ ", received " ++ singleQuoted received
  | unknownKeys keys =>
    "Unrecognized key(s) in object: " ++ Text.join ", " (keys.map singleQuoted)

end Violation

namespace Issue

/-- The issue of a part, seen from the whole in which the part has a key. -/
def under (key : Text) (issue : Issue) : Issue :=
  ⟨key :: issue.path, issue.violation⟩

/-- The issue in words, after its place. -/
def message (issue : Issue) : Text :=
  Text.join "." issue.path ++ ": " ++ issue.violation.message

end Issue

end DagSelect
