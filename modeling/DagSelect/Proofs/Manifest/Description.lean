import DagSelect.Manifest.Document
import DagSelect.Proofs.Json.Enumeration
import DagSelect.Proofs.Manifest.Acceptance
import DagSelect.Text.Symbol
import Mathlib.Data.List.Forall2
import Mathlib.Data.List.Pairwise

/-!
# The members that a document describes

A document that is accepted describes its members: every field of a member is what the document
says, or its default, and the members of a collection stand in the order in which its keys are
enumerated. It describes no other members, and these are the ones that are read from it.
-/

namespace DagSelect.Manifest

open Schema

variable {fields written : List (Text × Json)} {key id : Text}

/-- Whether a field holds a value, or is missing and something holds by default. -/
def Given (fields : List (Text × Json)) (key : Text) (v : Json) (default : Prop) : Prop :=
  (key, v) ∈ fields ∨ key ∉ fields.map Prod.fst ∧ default

/-- Whether fields under an identifier describe a member, apart from its role. The qualified name is
made of the package and certain names where it is not given. -/
structure DescribesMember (id : Text) (fields : List (Text × Json)) (names : Text → List Text)
    (x : Member) : Prop where
  id_eq : x.id = id
  name : (("name" : Text), Json.string x.name) ∈ fields
  package : Given fields "packageName" (.string x.package) (x.package = packageOfId id)
  qualifiedName : Given fields "fqn" (.array (x.qualifiedName.map .string))
    (x.qualifiedName = x.package :: names x.name)
  path : Given fields "path" (.string x.path) (x.path = "")
  tags : Given fields "tags" (.array (x.tags.map .string)) (x.tags = [])
  enabled : Given fields "enabled" (.bool x.enabled) (x.enabled = true)
  dependsOn : Given fields "dependsOn" (.array (x.dependsOn.map .string)) (x.dependsOn = [])

/-- Whether fields under an identifier describe a node. -/
def DescribesNode (id : Text) (fields : List (Text × Json)) (x : Member) : Prop :=
  DescribesMember id fields (fun name => [name]) x ∧ ∃ kind empty, x.role = .node kind empty ∧
    (("resourceType" : Text), Json.string kind.name) ∈ fields ∧
    Given fields "empty" (.bool empty) (empty = false)

/-- Whether fields under an identifier describe a source. -/
def DescribesSource (id : Text) (fields : List (Text × Json)) (x : Member) : Prop :=
  ∃ sourceName, x.role = .source sourceName ∧
    (("sourceName" : Text), Json.string sourceName) ∈ fields ∧
    DescribesMember id fields (fun name => [sourceName, name]) x

/-- Whether fields under an identifier describe an exposure. -/
def DescribesExposure (id : Text) (fields : List (Text × Json)) (x : Member) : Prop :=
  x.role = .exposure ∧ DescribesMember id fields (fun name => [name]) x

/-- Whether one collection of a document describes members, in the order in which its keys are
enumerated. A collection that is missing describes none, and neither does the key that holds
nothing. -/
def DescribesPart (Describes : Text → List (Text × Json) → Member → Prop)
    (fields : List (Text × Json)) (part : Text) (members : List Member) : Prop :=
  (part ∉ fields.map Prod.fst ∧ members = []) ∨
  ∃ written entries, (part, .object written) ∈ fields ∧ Json.Enumerates written entries ∧
    List.Forall₂ (fun entry x => ∃ inner, entry.2 = .object inner ∧
      Describes entry.1 (Json.entries inner) x)
      (entries.filter fun entry => entry.1 ≠ Text.voidKey) members

/-- Whether a document describes members: nodes, then sources, then exposures. -/
def DescribesAll (fields : List (Text × Json)) (members : List Member) : Prop :=
  ∃ nodes sources exposures, members = nodes ++ sources ++ exposures ∧
    DescribesPart DescribesNode fields "nodes" nodes ∧
    DescribesPart DescribesSource fields "sources" sources ∧
    DescribesPart DescribesExposure fields "exposures" exposures

/-- The texts of a list of texts. -/
theorem texts_map_string (ts : List Text) : texts (ts.map .string) = ts := by
  induction ts with
  | nil => rfl
  | cons t ts ih => rw [List.map_cons, texts, ih]

section Fields

variable (hfields : (fields.map Prod.fst).Nodup)

include hfields

/-- A text that has to be there is read. -/
theorem textField?_of_mem {s : Text} (h : (key, .string s) ∈ fields) :
    textField? key fields = some s := by
  rw [textField?, (Dictionary.find?_eq_some_iff hfields).2 h]

/-- A text that may be missing is given or has its default. -/
theorem given_text (h : MayHave IsText fields key) (default : Text) :
    Given fields key (.string ((textField? key fields).getD default))
      ((textField? key fields).getD default = default) := by
  cases hfind : Dictionary.find? key fields with
  | some v =>
    have hv := (Dictionary.find?_eq_some_iff hfields).1 hfind
    obtain ⟨s, rfl⟩ := h v hv
    rw [textField?_of_mem hfields hv]
    exact .inl hv
  | none =>
    rw [textField?, hfind]
    exact .inr ⟨Dictionary.find?_eq_none_iff.1 hfind, rfl⟩

/-- A list of texts that may be missing is given or has its default. -/
theorem given_texts (h : MayHave IsTexts fields key) (default : List Text) :
    Given fields key (.array (((textsField? key fields).getD default).map .string))
      ((textsField? key fields).getD default = default) := by
  cases hfind : Dictionary.find? key fields with
  | some v =>
    have hv := (Dictionary.find?_eq_some_iff hfields).1 hfind
    obtain ⟨ts, rfl⟩ := h v hv
    rw [textsField?, hfind]
    simp only [texts_map_string, Option.getD_some]
    exact .inl hv
  | none =>
    rw [textsField?, hfind]
    exact .inr ⟨Dictionary.find?_eq_none_iff.1 hfind, rfl⟩

/-- A flag that may be missing is given or has its default. -/
theorem given_flag (h : MayHave IsFlag fields key) (default : Bool) :
    Given fields key (.bool (flagField key default fields))
      (flagField key default fields = default) := by
  cases hfind : Dictionary.find? key fields with
  | some v =>
    have hv := (Dictionary.find?_eq_some_iff hfields).1 hfind
    obtain ⟨b, rfl⟩ := h v hv
    rw [flagField, hfind]
    exact .inl hv
  | none =>
    rw [flagField, hfind]
    exact .inr ⟨Dictionary.find?_eq_none_iff.1 hfind, rfl⟩

/-- What holds every field of a member describes the member that is read from it. -/
theorem describesMember_memberOf (h : IsMember fields) (id : Text) (role : Role)
    (names : Text → List Text) :
    DescribesMember id fields names (memberOf id fields role names) := by
  obtain ⟨_, hname, s, rfl, -⟩ := h.name
  have hpackage : MayHave IsText fields "packageName" := fun v hv =>
    let ⟨s, hs, _⟩ := h.packageName v hv
    ⟨s, hs⟩
  have hdepends : MayHave IsTexts fields "dependsOn" := fun v hv =>
    let ⟨ts, hts, _⟩ := h.dependsOn v hv
    ⟨ts, hts⟩
  exact {
    id_eq := rfl
    name := by
      simp only [memberOf, textField?_of_mem hfields hname, Option.getD_some]
      exact hname
    package := given_text hfields hpackage (packageOfId id)
    qualifiedName := given_texts hfields h.fqn _
    path := given_text hfields h.path ""
    tags := given_texts hfields h.tags []
    enabled := given_flag hfields h.enabled true
    dependsOn := given_texts hfields hdepends [] }

/-- What holds every field of a node describes the node that is read from it. -/
theorem describesNode_nodeOf (h : IsNode fields) (id : Text) :
    DescribesNode id fields (nodeOf id fields) := by
  obtain ⟨_, hkind, kind, rfl⟩ := h.resourceType
  refine ⟨describesMember_memberOf hfields h.toIsMember id _ _, kind, _, ?_, hkind,
    given_flag hfields h.empty false⟩
  simp only [nodeOf, memberOf, textField?_of_mem hfields hkind, Option.bind_some,
    NodeKind.ofName?_name, Option.getD_some]

/-- What holds every field of a source describes the source that is read from it. -/
theorem describesSource_sourceOf (h : IsSource fields) (id : Text) :
    DescribesSource id fields (sourceOf id fields) := by
  obtain ⟨_, hname, sourceName, rfl, -⟩ := h.sourceName
  refine ⟨sourceName, ?_, hname, ?_⟩
  · simp only [sourceOf, memberOf, textField?_of_mem hfields hname, Option.getD_some]
  · have hmember := describesMember_memberOf hfields h.toIsMember id (.source sourceName)
      fun name => [sourceName, name]
    simpa only [sourceOf, textField?_of_mem hfields hname, Option.getD_some] using hmember

/-- What holds every field of an exposure describes the exposure that is read from it. -/
theorem describesExposure_exposureOf (h : IsExposure fields) (id : Text) :
    DescribesExposure id fields (exposureOf id fields) :=
  ⟨rfl, describesMember_memberOf hfields h.toIsMember id .exposure _⟩

end Fields

section Parts

variable {read : Text → List (Text × Json) → Member} {Is : List (Text × Json) → Prop}
  {Describes : Text → List (Text × Json) → Member → Prop} {part : Text} {members : List Member}

/-- The members that are read from a collection are those that it describes. -/
theorem describesPart_collectionMembers
    (hread : ∀ {inner}, (inner.map Prod.fst).Nodup → Is inner → ∀ id,
      Describes id inner (read id inner))
    (hfields : (fields.map Prod.fst).Nodup) (h : MayHave (IsCollection Is) fields part) :
    DescribesPart Describes fields part (collectionMembers read part fields) := by
  cases hfind : Dictionary.find? part fields with
  | none =>
    refine .inl ⟨Dictionary.find?_eq_none_iff.1 hfind, ?_⟩
    simp only [collectionMembers, hfind, Option.map_none, Option.getD_none, List.filter_nil,
      List.map_nil]
  | some v =>
    have hv := (Dictionary.find?_eq_some_iff hfields).1 hfind
    obtain ⟨written, rfl, hentries⟩ := h v hv
    refine .inr ⟨written, Json.entries written, hv, Json.enumerates_entries written, ?_⟩
    simp only [collectionMembers, hfind, Option.map_some, Option.getD_some, entriesOf]
    rw [List.forall₂_map_right_iff, List.forall₂_same]
    rintro ⟨key, value⟩ hentry
    obtain ⟨-, inner, rfl, hinner⟩ := hentries key value (List.mem_filter.1 hentry).1
    exact ⟨inner, rfl, hread (Json.entries_keys_nodup inner) hinner key⟩

end Parts

/-- A described node has the identifier under which it stands. -/
theorem DescribesNode.id_eq {x : Member} (h : DescribesNode id fields x) : x.id = id :=
  h.1.id_eq

/-- A described source has the identifier under which it stands. -/
theorem DescribesSource.id_eq {x : Member} (h : DescribesSource id fields x) : x.id = id := by
  obtain ⟨_, _, _, hx⟩ := h
  exact hx.id_eq

/-- A described exposure has the identifier under which it stands. -/
theorem DescribesExposure.id_eq {x : Member} (h : DescribesExposure id fields x) : x.id = id :=
  h.2.id_eq

/-- The members that are read from a document are those that it describes. -/
theorem describesAll_documentMembers (h : IsDocument (Json.entries written)) :
    DescribesAll (Json.entries written) (documentMembers (.object written)) := by
  have hfields := Json.entries_keys_nodup written
  exact ⟨_, _, _, rfl,
    describesPart_collectionMembers describesNode_nodeOf hfields h.nodes,
    describesPart_collectionMembers describesSource_sourceOf hfields h.sources,
    describesPart_collectionMembers describesExposure_exposureOf hfields h.exposures⟩

section Unique

variable {α : Type} {f : α → Json} {a b c : α} {x y : Member}

/-- Two values that are given for one field, or are its default, are the same. -/
theorem Given.eq (hfields : (fields.map Prod.fst).Nodup) (hf : Function.Injective f)
    (ha : Given fields key (f a) (a = c)) (hb : Given fields key (f b) (b = c)) : a = b := by
  rcases ha with ha | ⟨hnone, rfl⟩ <;> rcases hb with hb | ⟨hnone', rfl⟩
  · exact hf (Dictionary.eq_of_mem hfields ha hb)
  · exact absurd (List.mem_map_of_mem ha) hnone'
  · exact absurd (List.mem_map_of_mem hb) hnone
  · rfl

/-- A field that holds a value of a kind if it is there may be there. -/
theorem Given.mayHave {Is : Json → Prop} {v : Json} {default : Prop}
    (h : Given fields key v default) (hfields : (fields.map Prod.fst).Nodup)
    (hv : (key, v) ∈ fields → Is v) : MayHave Is fields key := by
  intro v' hv'
  rcases h with h | ⟨hnone, -⟩
  · obtain rfl := Dictionary.eq_of_mem hfields hv' h
    exact hv h
  · exact absurd (List.mem_map_of_mem hv') hnone

/-- Lists of texts are the same if they are written alike. -/
theorem array_string_injective :
    Function.Injective fun ts : List Text => Json.array (ts.map Json.string) := by
  intro a b h
  rw [← texts_map_string a, ← texts_map_string b, Json.array.inj h]

/-- Fields describe one member with a role at most. -/
theorem DescribesMember.unique {names : Text → List Text} (hfields : (fields.map Prod.fst).Nodup)
    (hx : DescribesMember id fields names x) (hy : DescribesMember id fields names y)
    (hrole : x.role = y.role) : x = y := by
  have hid : x.id = y.id := hx.id_eq.trans hy.id_eq.symm
  have hname : x.name = y.name := Json.string.inj (Dictionary.eq_of_mem hfields hx.name hy.name)
  have hpackage := hx.package.eq hfields (fun _ _ => Json.string.inj) hy.package
  have hfqn := hy.qualifiedName
  rw [← hname, ← hpackage] at hfqn
  have hfqn := hx.qualifiedName.eq hfields array_string_injective hfqn
  have hpath := hx.path.eq hfields (fun _ _ => Json.string.inj) hy.path
  have htags := hx.tags.eq hfields array_string_injective hy.tags
  have henabled := hx.enabled.eq hfields (fun _ _ => Json.bool.inj) hy.enabled
  have hdepends := hx.dependsOn.eq hfields array_string_injective hy.dependsOn
  cases x
  cases y
  simp_all only

/-- Fields describe one node at most. -/
theorem DescribesNode.unique (hfields : (fields.map Prod.fst).Nodup)
    (hx : DescribesNode id fields x) (hy : DescribesNode id fields y) : x = y := by
  obtain ⟨hx, kind, empty, hrole, hkind, hempty⟩ := hx
  obtain ⟨hy, kind', empty', hrole', hkind', hempty'⟩ := hy
  have hname := Text.ofString_inj.1 (Json.string.inj (Dictionary.eq_of_mem hfields hkind hkind'))
  have hsome : some kind = some kind' := by
    rw [← NodeKind.ofName?_name kind, ← NodeKind.ofName?_name kind', hname]
  obtain rfl := Option.some.inj hsome
  obtain rfl := hempty.eq hfields (fun _ _ => Json.bool.inj) hempty'
  exact hx.unique hfields hy (hrole.trans hrole'.symm)

/-- Fields describe one source at most. -/
theorem DescribesSource.unique (hfields : (fields.map Prod.fst).Nodup)
    (hx : DescribesSource id fields x) (hy : DescribesSource id fields y) : x = y := by
  obtain ⟨sourceName, hrole, hsource, hx⟩ := hx
  obtain ⟨sourceName', hrole', hsource', hy⟩ := hy
  obtain rfl := Json.string.inj (Dictionary.eq_of_mem hfields hsource hsource')
  exact hx.unique hfields hy (hrole.trans hrole'.symm)

/-- Fields describe one exposure at most. -/
theorem DescribesExposure.unique (hfields : (fields.map Prod.fst).Nodup)
    (hx : DescribesExposure id fields x) (hy : DescribesExposure id fields y) : x = y :=
  hx.2.unique hfields hy.2 (hx.1.trans hy.1.symm)

/-- A collection describes one list of members at most. -/
theorem DescribesPart.unique {Describes : Text → List (Text × Json) → Member → Prop} {part : Text}
    {members members' : List Member} (hfields : (fields.map Prod.fst).Nodup)
    (h : DescribesPart Describes fields part members)
    (h' : DescribesPart Describes fields part members')
    (hunique : ∀ {id inner x y}, (inner.map Prod.fst).Nodup → Describes id inner x →
      Describes id inner y → x = y) : members = members' := by
  rcases h with ⟨hpart, rfl⟩ | ⟨written, entries, hv, hentries, hmembers⟩ <;>
    rcases h' with ⟨hpart', rfl⟩ | ⟨written', entries', hv', hentries', hmembers'⟩
  · rfl
  · exact absurd (List.mem_map_of_mem hv') hpart
  · exact absurd (List.mem_map_of_mem hv) hpart'
  · obtain rfl := Json.object.inj (Dictionary.eq_of_mem hfields hv hv')
    obtain rfl := hentries.eq_entries.trans hentries'.eq_entries.symm
    refine List.right_unique_forall₂' ?_ hmembers hmembers'
    rintro ⟨id, value⟩ x y ⟨inner, rfl, hx⟩ ⟨inner', hinner, hy⟩
    obtain rfl := Json.object.inj hinner
    exact hunique (Json.entries_keys_nodup inner) hx hy

/-- A document describes one list of members at most. -/
theorem DescribesAll.unique {members members' : List Member}
    (hfields : (fields.map Prod.fst).Nodup) (h : DescribesAll fields members)
    (h' : DescribesAll fields members') : members = members' := by
  obtain ⟨nodes, sources, exposures, rfl, hnodes, hsources, hexposures⟩ := h
  obtain ⟨nodes', sources', exposures', rfl, hnodes', hsources', hexposures'⟩ := h'
  obtain rfl := hnodes.unique hfields hnodes' DescribesNode.unique
  obtain rfl := hsources.unique hfields hsources' DescribesSource.unique
  obtain rfl := hexposures.unique hfields hexposures' DescribesExposure.unique
  rfl

end Unique

end DagSelect.Manifest
