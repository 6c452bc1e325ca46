import DagSelect.Manifest.Issue
import DagSelect.Member

/-!
# The schema of a manifest document

A document is an object with up to three collections. A collection maps identifiers to members,
and a member is an object whose fields hold texts, flags, choices and lists of texts. All issues
of a document are reported: an object lists those of the fields that the schema knows, in the
schema's order, and after them its unknown keys at once; a collection lists for each entry those
of its key and then those of its member; a list goes by position.
-/

namespace DagSelect.Schema

/-- What a field of a member may hold. -/
inductive Content where
  | text (nonEmpty : Bool)
  | flag
  | choice (options : List Text)
  | texts (nonEmpty : Bool)
  deriving DecidableEq, Repr

/-- A field of a member: its key, whether it has to be there, and what it may hold. -/
structure Field where
  key : Text
  required : Bool
  content : Content
  deriving DecidableEq, Repr

/-- A collection of members: its key in the document and the fields of its members. -/
structure Collection where
  key : Text
  fields : List Field
  deriving DecidableEq, Repr

/-- The fields that every member has. -/
def commonFields : List Field :=
  [⟨"name", true, .text true⟩,
    ⟨"packageName", false, .text true⟩,
    ⟨"fqn", false, .texts false⟩,
    ⟨"path", false, .text false⟩,
    ⟨"tags", false, .texts false⟩,
    ⟨"enabled", false, .flag⟩,
    ⟨"dependsOn", false, .texts true⟩]

/-- The fields of a node. -/
def nodeFields : List Field :=
  commonFields ++
    [⟨"resourceType", true, .choice (NodeKind.all.map fun kind => kind.name)⟩,
      ⟨"empty", false, .flag⟩]

/-- The fields of a source. -/
def sourceFields : List Field :=
  commonFields ++ [⟨"sourceName", true, .text true⟩]

/-- The collections of a document. -/
def collections : List Collection :=
  [⟨"nodes", nodeFields⟩, ⟨"sources", sourceFields⟩, ⟨"exposures", commonFields⟩]

/-- The issues of a text where a text is expected. -/
def textIssues (nonEmpty : Bool) : Json → List Issue
  | .string s => if nonEmpty && s.isEmpty then [⟨[], .tooShort⟩] else []
  | v => [⟨[], .wrongKind "string" v.kind⟩]

/-- The issues of the items of a list of texts, from a position on. -/
def itemIssues (nonEmpty : Bool) (position : Nat) : List Json → List Issue
  | [] => []
  | v :: rest =>
    (textIssues nonEmpty v).map (Issue.under (String.ofList (Nat.toDigits 10 position)))
      ++ itemIssues nonEmpty (position + 1) rest

/-- The issues of what a field holds. -/
def contentIssues : Content → Json → List Issue
  | .text nonEmpty, v => textIssues nonEmpty v
  | .flag, .bool _ => []
  | .flag, v => [⟨[], .wrongKind "boolean" v.kind⟩]
  | .choice options, .string s =>
    if s ∈ options then [] else [⟨[], .notAnOption options s⟩]
  | .choice options, v => [⟨[], .wrongKind (optionList options) v.kind⟩]
  | .texts nonEmpty, .array items => itemIssues nonEmpty 0 items
  | .texts _, v => [⟨[], .wrongKind "array" v.kind⟩]

/-- The issues of one field of an object, which may be absent if it is not required. -/
def fieldIssues (entries : List (Text × Json)) (field : Field) : List Issue :=
  match Dictionary.find? field.key entries with
  | some v => (contentIssues field.content v).map (Issue.under field.key)
  | none => if field.required then [⟨[field.key], .missing⟩] else []

/-- The issue of the keys of an object that are not among the known ones, if there are any. -/
def unknownKeyIssues (known : List Text) (entries : List (Text × Json)) : List Issue :=
  let unknown := (entries.map Prod.fst).filter (fun key => key ∉ known)
  if unknown.isEmpty then [] else [⟨[], .unknownKeys unknown⟩]

/-- The issues of a member. -/
def memberIssues (fields : List Field) : Json → List Issue
  | .object written =>
    let entries := Json.entries written
    fields.flatMap (fieldIssues entries) ++ unknownKeyIssues (fields.map Field.key) entries
  | v => [⟨[], .wrongKind "object" v.kind⟩]

/-- The issues of one entry of a collection: those of its key, then those of its member. -/
def entryIssues (fields : List Field) (entry : Text × Json) : List Issue :=
  (textIssues true (.string entry.1) ++ memberIssues fields entry.2).map (Issue.under entry.1)

/-- The issues of a collection. -/
def collectionIssues (fields : List Field) : Json → List Issue
  | .object written => (Json.entries written).flatMap (entryIssues fields)
  | v => [⟨[], .wrongKind "object" v.kind⟩]

/-- The issues of one collection of a document, which may be absent. -/
def partIssues (entries : List (Text × Json)) (part : Collection) : List Issue :=
  match Dictionary.find? part.key entries with
  | some v => (collectionIssues part.fields v).map (Issue.under part.key)
  | none => []

/-- The issues of a document, which may be absent altogether. -/
def documentIssues : Option Json → List Issue
  | none => [⟨[], .missing⟩]
  | some (.object written) =>
    let entries := Json.entries written
    collections.flatMap (partIssues entries)
      ++ unknownKeyIssues (collections.map Collection.key) entries
  | some v => [⟨[], .wrongKind "object" v.kind⟩]

end DagSelect.Schema
