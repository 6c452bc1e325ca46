import DagSelect.Manifest.Basic
import DagSelect.Manifest.Schema
import DagSelect.Text.ReservedKey

/-!
# Reading a manifest document

A document that the schema accepts is read into members: the nodes, then the sources, then the
exposures, each collection in the order in which its keys are enumerated. A field that is absent
gets its default; the package is then the second dotted part of the identifier, and the qualified
name is made of the package and the names. An entry under the key that holds nothing is checked
like any other but gives no member.
-/

namespace DagSelect.Manifest

/-- The text in a field, if the field is there. -/
def textField? (key : Text) (entries : List (Text × Json)) : Option Text :=
  match Dictionary.find? key entries with
  | some (.string s) => some s
  | _ => none

/-- The flag in a field, or a default. -/
def flagField (key : Text) (default : Bool) (entries : List (Text × Json)) : Bool :=
  match Dictionary.find? key entries with
  | some (.bool b) => b
  | _ => default

/-- The texts among the items of a list. -/
def texts : List Json → List Text
  | [] => []
  | .string s :: rest => s :: texts rest
  | _ :: rest => texts rest

/-- The texts in a field, if the field is there. -/
def textsField? (key : Text) (entries : List (Text × Json)) : Option (List Text) :=
  match Dictionary.find? key entries with
  | some (.array items) => some (texts items)
  | _ => none

/-- The second dotted part of an identifier, where its package stands. -/
def packageOfId (id : Text) : Text :=
  (id.dotted[1]?).getD ""

/-- A member from the fields of its object; the qualified name defaults to the package followed by
the given names. -/
def memberOf (id : Text) (entries : List (Text × Json)) (role : Role)
    (names : Text → List Text) : Member :=
  let name := (textField? "name" entries).getD ""
  let package := (textField? "packageName" entries).getD (packageOfId id)
  { id := id
    name := name
    package := package
    qualifiedName := (textsField? "fqn" entries).getD (package :: names name)
    path := (textField? "path" entries).getD ""
    tags := (textsField? "tags" entries).getD []
    enabled := flagField "enabled" true entries
    dependsOn := (textsField? "dependsOn" entries).getD []
    role := role }

/-- A node from its entry. -/
def nodeOf (id : Text) (entries : List (Text × Json)) : Member :=
  let kind := ((textField? "resourceType" entries).bind NodeKind.ofName?).getD .model
  memberOf id entries (.node kind (flagField "empty" false entries)) (fun name => [name])

/-- A source from its entry. -/
def sourceOf (id : Text) (entries : List (Text × Json)) : Member :=
  let sourceName := (textField? "sourceName" entries).getD ""
  memberOf id entries (.source sourceName) (fun name => [sourceName, name])

/-- An exposure from its entry. -/
def exposureOf (id : Text) (entries : List (Text × Json)) : Member :=
  memberOf id entries .exposure (fun name => [name])

/-- The dictionary that a value holds, empty if it is no object. -/
def entriesOf : Json → List (Text × Json)
  | .object written => Json.entries written
  | _ => []

/-- The members of one collection of a document. -/
def collectionMembers (read : Text → List (Text × Json) → Member) (key : Text)
    (entries : List (Text × Json)) : List Member :=
  let collection := ((Dictionary.find? key entries).map entriesOf).getD []
  (collection.filter (fun entry => entry.1 ≠ Text.voidKey)).map
    (fun entry => read entry.1 (entriesOf entry.2))

/-- The members of a document that the schema accepts. -/
def documentMembers (document : Json) : List Member :=
  let entries := entriesOf document
  collectionMembers nodeOf "nodes" entries
    ++ collectionMembers sourceOf "sources" entries
    ++ collectionMembers exposureOf "exposures" entries

/-- The manifest of a document, which may be absent. -/
def ofDocument (document : Option Json) : Except ManifestError Manifest :=
  let issues := Schema.documentIssues document
  if issues.isEmpty then ofMembers ((document.map documentMembers).getD [])
  else .error (.invalidDocument issues)

end DagSelect.Manifest
