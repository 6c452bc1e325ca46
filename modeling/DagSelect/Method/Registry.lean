import DagSelect.Dictionary
import DagSelect.Manifest.Basic
import DagSelect.Method.Matching

/-!
# Registered methods

A registry gives methods their names. Registering a name again replaces its method in place; a new
name comes last. A search goes through the included identifiers in order and keeps the members
that the method selects. A malformed value is an error only when the search meets a member that
the method would compare with it.
-/

namespace DagSelect

/-- The methods that a selection can name, in order of registration. -/
structure Registry where
  entries : List (String × Method)

namespace Registry

/-- The registry with the given methods under their own names. -/
def ofMethods (methods : List Method) : Registry :=
  ⟨Dictionary.assignAll [] (methods.map fun m => (m.name, m))⟩

/-- The registry with all methods under their own names. -/
def standard : Registry := ofMethods Method.all

/-- Register a method under a name. -/
def register (r : Registry) (name : String) (method : Method) : Registry :=
  ⟨Dictionary.assign name method r.entries⟩

/-- The registered names, in order. -/
def names (r : Registry) : List String := r.entries.map Prod.fst

/-- The method with a registered name. -/
def find (r : Registry) (name : String) : Except SelectorError Method :=
  match Dictionary.find? name r.entries with
  | some method => .ok method
  | none => .error (.unknownMethod name)

end Registry

namespace Method

/-- The included members that a method selects by a value. -/
def search (manifest : Manifest) (method : Method) (included : IdSet) (value : String) :
    Except SelectorError IdSet :=
  let met := included.toList.filterMap manifest.find?
  let text : Text := value
  match method.valueError? value with
  | some error => if met.any method.examines then .error error else .ok .empty
  | none => .ok (included.filter fun id => (manifest.find? id).any (method.selects text))

end Method

end DagSelect
