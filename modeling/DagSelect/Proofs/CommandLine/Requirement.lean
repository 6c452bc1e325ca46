import DagSelect.Proofs.CommandLine.Invocation
import DagSelect.Proofs.Graph.Dependencies
import DagSelect.Proofs.Manifest.Loading
import DagSelect.Proofs.Preparation
import DagSelect.Proofs.Spec.Words

/-!
# What a command needs

Nine things are needed, in the order in which they are checked: the output format, a file that can
be read, that it is JSON, its schema, distinct identifiers, parents that are members, known kinds of
resource, and a selection and an exclusion that can be read. Each is said of the invocation and of
what the file holds, without regard to how it is checked, and there is one error for what is
missing. What the file holds counts only as far as it goes: a file without JSON has no schema to
satisfy. The kinds, the selection and the exclusion can be wrong whatever the file is.
-/

namespace DagSelect.CommandLine

variable {m : Manifest} {g : Graph} {filter : ResourceFilter} {spec : Spec}

/-- What a command needs, in the order in which it is checked. -/
inductive Requirement where
  | format
  | file
  | json
  | schema
  | distinctIds
  | parents
  | kinds
  | selection
  | exclusion
  deriving DecidableEq

namespace Requirement

/-- All that a command needs, in order. -/
@[simp] def all : List Requirement :=
  [format, file, json, schema, distinctIds, parents, kinds, selection, exclusion]

/-- What is checked before. -/
@[simp] def earlier (r : Requirement) : List Requirement := all.takeWhile fun other => other ≠ r

/-- Of two different requirements one is checked before the other. -/
theorem mem_earlier_or (r r' : Requirement) : r ∈ r'.earlier ∨ r = r' ∨ r' ∈ r.earlier := by
  cases r <;> cases r' <;> decide

/-- What is not needed for the manifest is needed for the request. -/
theorem mem_earlier_parents_or (r : Requirement) :
    r ∈ parents.earlier ∨ r ∈ [parents, kinds, selection, exclusion] := by
  cases r <;> decide

end Requirement

namespace Invocation

variable (inv : Invocation) (around : Surroundings)

/-- The absolute path of the manifest file. -/
def absolute : String := absolutePath around.directory inv.path

/-- The content of the manifest file; there is none at a path with a null character. -/
def content : Except ReadError String :=
  if (inv.absolute around).toList.contains (Char.ofNat 0) then .error .nullInPath
  else around.read (inv.absolute around)

/-- Whether the manifest file holds a JSON document. -/
def HoldsJson (document : Json) : Prop :=
  ∃ text, inv.content around = .ok text ∧ Json.parse? text = some document

/-- Whether the manifest file holds a document that satisfies the schema and describes certain
members. -/
def Describes (members : List Member) : Prop :=
  ∃ written, inv.HoldsJson around (.object written) ∧ Schema.IsDocument (Json.entries written) ∧
    Manifest.DescribesAll (Json.entries written) members

/-- Whether something that a command needs is missing, and the error about that. -/
inductive Breaks : Requirement → Text → Prop
  | format (hcommand : inv.command = .ls) (hformat : ∀ f : ListingFormat, f.name ≠ inv.format) :
    Breaks .format s!"알 수 없는 형식: {inv.format}"
  | file {error : ReadError} (hcontent : inv.content around = .error error) :
    Breaks .file (error.message (inv.absolute around))
  | json {text : String} (hcontent : inv.content around = .ok text)
    (hparse : Json.parse? text = none) :
    Breaks .json (ManifestError.notJson (inv.absolute around) (around.notJsonReason text)).message
  | schema {document : Json} {issues : List Issue} (hdocument : inv.HoldsJson around document)
    (hschema : ¬ Schema.Accepts (some document))
    (hissues : Schema.Reports issues (Schema.DocumentWrong (some document))) :
    Breaks .schema (ManifestError.invalidDocument issues).message
  | distinctIds {members : List Member} {id : Text} (hmembers : inv.Describes around members)
    (hid : Manifest.IsFirstRepeat (members.map Member.id) id) :
    Breaks .distinctIds (ManifestError.duplicateId id).message
  | parents {m : Manifest} {x : Member} {parent : Text} (hmembers : inv.Describes around m.members)
    (hparent : m.FirstUnresolved x parent) :
    Breaks .parents (ManifestError.unknownParent x.id parent).message
  | kinds {name : String} (hname : inv.request.FirstUnknownKind name) :
    Breaks .kinds (SelectorError.unknownResourceType name).message
  | selection {error : SelectorError}
    (herror : SelectionArguments.FirstRejected inv.request.arguments.select error) :
    Breaks .selection error.message
  | exclusion {error : SelectorError}
    (herror : SelectionArguments.FirstRejected inv.request.arguments.exclude error) :
    Breaks .exclusion error.message

variable {inv : Invocation} {around : Surroundings} {args : List String} {members : List Member}

/-- A file holds one document at most. -/
theorem HoldsJson.unique {document document' : Json} (h : inv.HoldsJson around document)
    (h' : inv.HoldsJson around document') : document = document' := by
  obtain ⟨text, htext, hparse⟩ := h
  obtain ⟨text', htext', hparse'⟩ := h'
  obtain rfl := Except.ok.inj (htext.symm.trans htext')
  exact Option.some.inj (hparse.symm.trans hparse')

/-- A file describes the members of one manifest at most. -/
theorem Describes.unique {members' : List Member} (h : inv.Describes around members)
    (h' : inv.Describes around members') : members = members' := by
  obtain ⟨written, hjson, -, hmembers⟩ := h
  obtain ⟨written', hjson', -, hmembers'⟩ := h'
  obtain rfl := Json.object.inj (hjson.unique hjson')
  exact hmembers.unique (Json.entries_keys_nodup written) hmembers'

/-- No member that a file describes has the identifier that is never listed. -/
theorem Describes.voidKey_not_mem (h : inv.Describes around m.members) : Text.voidKey ∉ m.ids := by
  obtain ⟨written, -, -, hmembers⟩ := h
  exact hmembers.voidKey_not_mem (Json.entries_keys_nodup written)

/-- There is one error at most about something that is missing. -/
theorem Breaks.unique {r : Requirement} {text text' : Text} (h : inv.Breaks around r text)
    (h' : inv.Breaks around r text') : text = text' := by
  cases h with
  | format => cases h' with
    | format => rfl
  | file hcontent => cases h' with
    | file hcontent' => rw [Except.error.inj (hcontent.symm.trans hcontent')]
  | json hcontent => cases h' with
    | json hcontent' => rw [Except.ok.inj (hcontent.symm.trans hcontent')]
  | schema hjson _ hissues => cases h' with
    | schema hjson' _ hissues' =>
      obtain rfl := hjson.unique hjson'
      rw [hissues.unique hissues']
  | distinctIds hmembers hid => cases h' with
    | distinctIds hmembers' hid' =>
      obtain rfl := hmembers.unique hmembers'
      rw [hid.unique hid']
  | parents hmembers hparent => cases h' with
    | parents hmembers' hparent' =>
      obtain rfl := Manifest.eq_of_members (hmembers.unique hmembers')
      have hgraph := Manifest.graph_eq_error_iff.2 ⟨_, _, hparent, rfl⟩
      rw [Except.error.inj
        (hgraph.symm.trans (Manifest.graph_eq_error_iff.2 ⟨_, _, hparent', rfl⟩))]
  | kinds hname => cases h' with
    | kinds hname' =>
      have hfilter := SelectionRequest.filter_eq_error_iff.2 ⟨_, hname, rfl⟩
      rw [Except.error.inj
        (hfilter.symm.trans (SelectionRequest.filter_eq_error_iff.2 ⟨_, hname', rfl⟩))]
  | selection herror => cases h' with
    | selection herror' =>
      have hselect := SelectionArguments.parseSelect_eq_error_iff.2 herror
      rw [Except.error.inj
        (hselect.symm.trans (SelectionArguments.parseSelect_eq_error_iff.2 herror'))]
  | exclusion herror => cases h' with
    | exclusion herror' =>
      have hexclude := SelectionArguments.parseExclude_eq_error_iff.2 herror
      rw [Except.error.inj
        (hexclude.symm.trans (SelectionArguments.parseExclude_eq_error_iff.2 herror'))]

/-- Whether something that a command needs is there. -/
def Meets (inv : Invocation) (around : Surroundings) (r : Requirement) : Prop :=
  ∀ text, ¬ inv.Breaks around r text

/-- There is the written format. -/
theorem meets_format {format : ListingFormat}
    (h : ListingFormat.ofName? inv.format = some format) : inv.Meets around .format := by
  intro text hbreaks
  cases hbreaks with
  | format _ hformat =>
    have hname := List.find?_some h
    exact hformat format (of_decide_eq_true hname)

/-- A file with a content can be read. -/
theorem meets_file {text : String} (h : inv.content around = .ok text) :
    inv.Meets around .file := by
  intro text hbreaks
  cases hbreaks with
  | file hcontent =>
    rw [h] at hcontent
    contradiction

/-- A file with a JSON document can be read. -/
theorem HoldsJson.meets_file {document : Json} (h : inv.HoldsJson around document) :
    inv.Meets around .file := by
  obtain ⟨text, htext, -⟩ := h
  exact Invocation.meets_file htext

/-- A file with a JSON document is JSON. -/
theorem HoldsJson.meets_json {document : Json} (h : inv.HoldsJson around document) :
    inv.Meets around .json := by
  obtain ⟨text, htext, hparse⟩ := h
  intro _ hbreaks
  cases hbreaks with
  | json hcontent hnone =>
    obtain rfl := Except.ok.inj (htext.symm.trans hcontent)
    rw [hparse] at hnone
    contradiction

/-- A file that describes members satisfies the schema. -/
theorem Describes.meets_schema (h : inv.Describes around members) : inv.Meets around .schema := by
  obtain ⟨written, hjson, hdocument, -⟩ := h
  intro _ hbreaks
  cases hbreaks with
  | schema hjson' hschema _ =>
    obtain rfl := hjson.unique hjson'
    exact hschema ⟨written, rfl, hdocument⟩

/-- The identifiers of a manifest are distinct. -/
theorem Describes.meets_distinctIds (h : inv.Describes around m.members) :
    inv.Meets around .distinctIds := by
  intro _ hbreaks
  cases hbreaks with
  | distinctIds hmembers hid =>
    obtain ⟨before, after, hids, hmem, -⟩ := hid
    have hnodup := m.nodup
    rw [h.unique hmembers, hids] at hnodup
    exact (List.nodup_append.1 hnodup).2.2 _ hmem _ List.mem_cons_self rfl

/-- A file that describes the members of a manifest has all that is needed before its graph. -/
theorem Describes.meets (h : inv.Describes around m.members) :
    ∀ r ∈ Requirement.parents.earlier, r = .format ∨ inv.Meets around r := by
  obtain ⟨written, hjson, -⟩ := id h
  simpa using ⟨hjson.meets_file, hjson.meets_json, h.meets_schema, h.meets_distinctIds⟩

/-- Every dependency in a manifest with a graph is on a member. -/
theorem Describes.meets_parents (h : inv.Describes around m.members) (hg : m.graph = .ok g) :
    inv.Meets around .parents := by
  intro _ hbreaks
  cases hbreaks with
  | parents hmembers hparent =>
    obtain rfl := Manifest.eq_of_members (h.unique hmembers)
    rw [Manifest.graph_eq_error_iff.2 ⟨_, _, hparent, rfl⟩] at hg
    contradiction

/-- The kinds of a filter that can be read are known. -/
theorem meets_kinds (h : inv.request.filter = .ok filter) : inv.Meets around .kinds := by
  intro _ hbreaks
  cases hbreaks with
  | kinds hname =>
    rw [SelectionRequest.filter_eq_error_iff.2 ⟨_, hname, rfl⟩] at h
    contradiction

/-- Each part of a selection that can be read can be read. -/
theorem meets_selection (h : inv.request.arguments.parseSelect = .ok spec) :
    inv.Meets around .selection := by
  intro _ hbreaks
  cases hbreaks with
  | selection herror =>
    rw [SelectionArguments.parseSelect_eq_error_iff.2 herror] at h
    contradiction

/-- Each part of an exclusion that can be read can be read. -/
theorem meets_exclusion (h : inv.request.arguments.parseExclude = .ok spec) :
    inv.Meets around .exclusion := by
  intro _ hbreaks
  cases hbreaks with
  | exclusion herror =>
    rw [SelectionArguments.parseExclude_eq_error_iff.2 herror] at h
    contradiction

end Invocation

end DagSelect.CommandLine
