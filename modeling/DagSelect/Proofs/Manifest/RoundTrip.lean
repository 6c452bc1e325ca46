import DagSelect.Proofs.Manifest.Loading

/-!
# Writing a manifest back

A manifest is written as a document by putting each member into the collection of its role, under
its identifier and with every field spelled out; only a package that is empty is left out, since the
schema refuses it. A manifest that was read from a document is read back from what is written.
-/

namespace DagSelect

open Schema Manifest

/-- The fields that only members with this role have. -/
def Role.fields : Role → List (Text × Json)
  | .node kind empty => [("resourceType", .string kind.name), ("empty", .bool empty)]
  | .source sourceName => [("sourceName", .string sourceName)]
  | .exposure => []

/-- The key of the collection that holds the members with this role. -/
def Role.part : Role → Text
  | .node _ _ => "nodes"
  | .source _ => "sources"
  | .exposure => "exposures"

namespace Member

/-- The package of a member as it is written, if it is not empty. -/
def packageField (x : Member) : List (Text × Json) :=
  if x.package = "" then [] else [("packageName", .string x.package)]

/-- The fields of a member as they are written. -/
def fields (x : Member) : List (Text × Json) :=
  ("name", .string x.name) :: ("fqn", .array (x.qualifiedName.map .string))
    :: ("path", .string x.path) :: ("tags", .array (x.tags.map .string))
    :: ("enabled", .bool x.enabled) :: ("dependsOn", .array (x.dependsOn.map .string))
    :: (x.packageField ++ x.role.fields)

/-- A member as it is written in its collection. -/
def entry (x : Member) : Text × Json := (x.id, .object x.fields)

/-- Whether the schema lets a member be written so that it is read back. A package that is empty has
to be what the identifier gives. -/
structure Writable (x : Member) : Prop where
  id_ne : x.id ≠ ""
  id_ne_void : x.id ≠ Text.voidKey
  name : x.name ≠ ""
  package : x.package = "" → packageOfId x.id = ""
  dependsOn : ("" : Text) ∉ x.dependsOn
  sourceName : ∀ s, x.role = .source s → s ≠ ""

variable {x : Member} {v : Json}

/-- No field of a member is written twice. -/
theorem nodup_fields (x : Member) : (x.fields.map Prod.fst).Nodup := by
  have hkeys : ∀ package : List Text, package = [] ∨ package = ["packageName"] →
      ∀ own : List Text, own = ["resourceType", "empty"] ∨ own = ["sourceName"] ∨ own = [] →
      (("name" : Text) :: "fqn" :: "path" :: "tags" :: "enabled" :: "dependsOn" ::
        (package ++ own)).Nodup := by
    rintro _ (rfl | rfl) _ (rfl | rfl | rfl) <;> decide
  simp only [fields, List.map_cons, List.map_append]
  refine hkeys _ ?_ _ ?_
  · rw [packageField]
    split
    · exact .inl rfl
    · exact .inr rfl
  · cases x.role with
    | node => exact .inl rfl
    | source => exact .inr (.inl rfl)
    | exposure => exact .inr (.inr rfl)

/-- The fields of a member are read as they are written. -/
theorem mem_entries_fields {field : Text × Json} :
    field ∈ Json.entries x.fields ↔ field ∈ x.fields :=
  Json.mem_entries_of_nodup (nodup_fields x)

/-- A package that is written is not empty. -/
theorem package_ne_of_mem {v : Json} (h : (("packageName" : Text), v) ∈ x.fields) :
    x.package ≠ "" := by
  intro hpackage
  cases hrole : x.role <;>
    simp [fields, packageField, Role.fields, hpackage, hrole, Text.ofString_inj] at h

/-- What is written of a member describes it. -/
theorem describesMember_fields (h : x.Writable) (names : Text → List Text) :
    DescribesMember x.id (Json.entries x.fields) names x where
  id_eq := rfl
  name := mem_entries_fields.2 (by simp [fields])
  package := by
    by_cases hpackage : x.package = ""
    · refine .inr ⟨fun hkey => ?_, hpackage.trans (h.package hpackage).symm⟩
      obtain ⟨⟨_, v⟩, hv, rfl⟩ := List.mem_map.1 hkey
      exact package_ne_of_mem (mem_entries_fields.1 hv) hpackage
    · exact .inl (mem_entries_fields.2 (by simp [fields, packageField, hpackage]))
  qualifiedName := .inl (mem_entries_fields.2 (by simp [fields]))
  path := .inl (mem_entries_fields.2 (by simp [fields]))
  tags := .inl (mem_entries_fields.2 (by simp [fields]))
  enabled := .inl (mem_entries_fields.2 (by simp [fields]))
  dependsOn := .inl (mem_entries_fields.2 (by simp [fields]))

/-- What is written of a member is what a member holds. -/
theorem isMember_fields (h : x.Writable) : IsMember (Json.entries x.fields) := by
  have hfields := Json.entries_keys_nodup x.fields
  have hx := describesMember_fields h fun name => [name]
  exact {
    name := ⟨_, hx.name, x.name, rfl, h.name⟩
    packageName := hx.package.mayHave hfields fun hmem =>
      ⟨x.package, rfl, package_ne_of_mem (mem_entries_fields.1 hmem)⟩
    fqn := hx.qualifiedName.mayHave hfields fun _ => ⟨x.qualifiedName, rfl⟩
    path := hx.path.mayHave hfields fun _ => ⟨x.path, rfl⟩
    tags := hx.tags.mayHave hfields fun _ => ⟨x.tags, rfl⟩
    enabled := hx.enabled.mayHave hfields fun _ => ⟨x.enabled, rfl⟩
    dependsOn := hx.dependsOn.mayHave hfields fun _ => ⟨x.dependsOn, rfl, h.dependsOn⟩ }

/-- The keys of what is written of a member are those of every member and those of its role. -/
theorem hasOnly_fields {keys : List Text} (h : x.role.fields.map Prod.fst = keys) :
    HasOnly ("name" :: "packageName" :: "fqn" :: "path" :: "tags" :: "enabled" :: "dependsOn" ::
      keys) (Json.entries x.fields) := by
  intro key hkey
  have hpackage : key ∈ x.packageField.map Prod.fst → key = "packageName" := by
    rw [packageField]
    split <;> simp
  rw [Json.mem_keys_entries] at hkey
  simp only [fields, List.map_cons, List.map_append, List.mem_cons, List.mem_append, h] at hkey
  simp only [List.mem_cons]
  grind

/-- What is written of a node is what a node holds, and describes it. -/
theorem isNode_fields (h : x.Writable) {kind : NodeKind} {empty : Bool}
    (hrole : x.role = .node kind empty) :
    IsNode (Json.entries x.fields) ∧ DescribesNode x.id (Json.entries x.fields) x := by
  have hkind : (("resourceType" : Text), Json.string kind.name) ∈ Json.entries x.fields :=
    mem_entries_fields.2 (by simp [fields, Role.fields, hrole])
  have hempty : Given (Json.entries x.fields) "empty" (.bool empty) (empty = false) :=
    .inl (mem_entries_fields.2 (by simp [fields, Role.fields, hrole]))
  refine ⟨⟨isMember_fields h, ⟨_, hkind, kind, rfl⟩,
    hempty.mayHave (Json.entries_keys_nodup _) fun _ => ⟨empty, rfl⟩, ?_⟩,
    describesMember_fields h _, kind, empty, hrole, hkind, hempty⟩
  exact hasOnly_fields (by rw [hrole]; rfl)

/-- What is written of a source is what a source holds, and describes it. -/
theorem isSource_fields (h : x.Writable) {sourceName : Text} (hrole : x.role = .source sourceName) :
    IsSource (Json.entries x.fields) ∧ DescribesSource x.id (Json.entries x.fields) x := by
  have hsource : (("sourceName" : Text), Json.string sourceName) ∈ Json.entries x.fields :=
    mem_entries_fields.2 (by simp [fields, Role.fields, hrole])
  refine ⟨⟨isMember_fields h, ⟨_, hsource, sourceName, rfl, h.sourceName _ hrole⟩, ?_⟩,
    sourceName, hrole, hsource, describesMember_fields h _⟩
  exact hasOnly_fields (by rw [hrole]; rfl)

/-- What is written of an exposure is what an exposure holds, and describes it. -/
theorem isExposure_fields (h : x.Writable) (hrole : x.role = .exposure) :
    IsExposure (Json.entries x.fields) ∧ DescribesExposure x.id (Json.entries x.fields) x := by
  refine ⟨⟨isMember_fields h, ?_⟩, hrole, describesMember_fields h _⟩
  exact hasOnly_fields (by rw [hrole]; rfl)

end Member

namespace Manifest

/-- The members of a manifest whose roles are those of a collection. -/
def inPart (m : Manifest) (part : Text) : List Member :=
  m.members.filter fun x => x.role.part = part

/-- The collections of a manifest as they are written. -/
def parts (m : Manifest) : List (Text × Json) :=
  [("nodes", .object ((m.inPart "nodes").map Member.entry)),
    ("sources", .object ((m.inPart "sources").map Member.entry)),
    ("exposures", .object ((m.inPart "exposures").map Member.entry))]

/-- A manifest as a document. -/
def toDocument (m : Manifest) : Json := .object m.parts

/-- Whether a manifest can be written so that it is read back: its members stand collection by
collection, in the order in which their identifiers are enumerated. -/
structure Writable (m : Manifest) : Prop where
  split : m.members = m.inPart "nodes" ++ m.inPart "sources" ++ m.inPart "exposures"
  ordered : ∀ part ∈ m.parts.map Prod.fst,
    ∃ keys, ((m.inPart part).map Member.id).Pairwise (Json.KeyBefore keys)
  writable : ∀ x ∈ m.members, x.Writable

variable {m : Manifest} {x : Member} {xs members : List Member} {keys : List Text} {part : Text}
  {fields written : List (Text × Json)} {Is : List (Text × Json) → Prop}
  {Describes : Text → List (Text × Json) → Member → Prop}

/-- A member that is described by what a member holds can be written. -/
theorem DescribesMember.writable {names : Text → List Text}
    (hx : DescribesMember x.id fields names x) (hfields : (fields.map Prod.fst).Nodup)
    (h : IsMember fields) (hne : x.id ≠ "") (hvoid : x.id ≠ Text.voidKey)
    (hsource : ∀ s, x.role = .source s → s ≠ "") : x.Writable where
  id_ne := hne
  id_ne_void := hvoid
  name := by
    obtain ⟨_, hname, s, rfl, hs⟩ := h.name
    obtain rfl := Json.string.inj (Dictionary.eq_of_mem hfields hname hx.name)
    exact hs
  package := by
    intro hempty
    rcases hx.package with hgiven | ⟨-, hpackage⟩
    · obtain ⟨s, hs, hne⟩ := h.packageName _ hgiven
      exact absurd ((Json.string.inj hs).symm.trans hempty) hne
    · exact hpackage.symm.trans hempty
  dependsOn := by
    rcases hx.dependsOn with hgiven | ⟨-, hnone⟩
    · obtain ⟨ts, hts, hne⟩ := h.dependsOn _ hgiven
      rwa [array_string_injective hts]
    · simp [hnone]
  sourceName := hsource

/-- Members that a collection describes stand under identifiers that are enumerated in their order,
and each is described by an object that a member of the collection may be. -/
theorem DescribesPart.exists_of_mem (h : DescribesPart Describes fields part members)
    (hpart : MayHave (IsCollection Is) fields part)
    (hid : ∀ {id inner x}, Describes id inner x → x.id = id) (hx : x ∈ members) :
    x.id ≠ "" ∧ x.id ≠ Text.voidKey ∧ ∃ inner : List (Text × Json),
      (inner.map Prod.fst).Nodup ∧ Is inner ∧ Describes x.id inner x := by
  rcases h with ⟨-, rfl⟩ | ⟨written, entries, hv, hentries, hmembers⟩
  · contradiction
  · obtain rfl := hentries.eq_entries
    obtain ⟨i, hi, rfl⟩ := List.getElem_of_mem hx
    have hi' := hmembers.length_eq ▸ hi
    obtain ⟨inner, hvalue, hinner⟩ := hmembers.get hi' hi
    obtain ⟨hentry, hvoid⟩ := List.mem_filter.1 (List.get_mem _ ⟨i, hi'⟩)
    obtain ⟨_, hwritten, hcollection⟩ := hpart _ hv
    obtain rfl := Json.object.inj hwritten
    obtain ⟨hne, _, hobject, his⟩ := hcollection _ _ hentry
    obtain rfl := Json.object.inj (hvalue.symm.trans hobject)
    have hkey := hid hinner
    rw [← hkey] at hne hvoid hinner
    exact ⟨hne, by simpa using hvoid, _, Json.entries_keys_nodup inner, his, hinner⟩

/-- The identifiers of members that a collection describes are enumerated in their order. -/
theorem DescribesPart.exists_ordered (h : DescribesPart Describes fields part members)
    (hid : ∀ {id inner x}, Describes id inner x → x.id = id) :
    ∃ keys, (members.map Member.id).Pairwise (Json.KeyBefore keys) := by
  rcases h.map_id hid with ⟨-, hids⟩ | ⟨written, entries, -, hentries, hids⟩
  · exact ⟨[], by simp [hids]⟩
  · rw [hids]
    exact ⟨_, hentries.ordered.sublist (List.filter_sublist.map _)⟩

/-- Members that are enumerated in their order are what their collection describes when they are
written. -/
theorem describesPart_entry (hordered : (xs.map Member.id).Pairwise (Json.KeyBefore keys))
    (hxs : ∀ x ∈ xs, x.id ≠ Text.voidKey ∧ Describes x.id (Json.entries x.fields) x)
    (hpart : (part, .object (xs.map Member.entry)) ∈ fields) :
    DescribesPart Describes fields part xs := by
  have hkeys : (xs.map Member.entry).map Prod.fst = xs.map Member.id := by
    rw [List.map_map]
    rfl
  have hentries := Json.enumerates_entries (xs.map Member.entry)
  rw [Json.entries_eq_self (hkeys ▸ hordered)] at hentries
  refine .inr ⟨_, _, hpart, hentries, ?_⟩
  have hall : ((xs.map Member.entry).filter fun entry => entry.1 ≠ Text.voidKey) =
      xs.map Member.entry := by
    refine List.filter_eq_self.2 fun entry hentry => ?_
    obtain ⟨x, hx, rfl⟩ := List.mem_map.1 hentry
    exact decide_eq_true (hxs x hx).1
  rw [hall, List.forall₂_map_left_iff, List.forall₂_same]
  exact fun x hx => ⟨x.fields, rfl, (hxs x hx).2⟩

/-- Members that can be written are written as a collection. -/
theorem isCollection_entry
    (hxs : ∀ x ∈ xs, x.id ≠ "" ∧ Is (Json.entries x.fields)) :
    IsCollection Is (.object (xs.map Member.entry)) := by
  refine ⟨_, rfl, fun key value hentry => ?_⟩
  obtain ⟨before, after, hwritten, -⟩ := Json.mem_entries.1 hentry
  have hmem : (key, value) ∈ xs.map Member.entry := by
    rw [hwritten]
    exact List.mem_append_right _ List.mem_cons_self
  obtain ⟨x, hx, hentry⟩ := List.mem_map.1 hmem
  obtain ⟨rfl, rfl⟩ := Prod.mk.inj hentry
  exact ⟨(hxs x hx).1, x.fields, rfl, (hxs x hx).2⟩

/-- The collections of a manifest have different keys. -/
theorem nodup_parts (m : Manifest) : (m.parts.map Prod.fst).Nodup := by
  have hkeys : (["nodes", "sources", "exposures"] : List Text).Nodup := by decide
  exact hkeys

/-- Members with a role are in the part of their role. -/
theorem mem_inPart : x ∈ m.inPart part ↔ x ∈ m.members ∧ x.role.part = part := by
  simp [inPart]

/-- What is written of a manifest may stand under a key where it is written. -/
theorem mayHave_parts {Is : Json → Prop} {v : Json} (hv : (part, v) ∈ m.parts) (h : Is v) :
    MayHave Is (Json.entries m.parts) part := by
  intro v' hv'
  rw [Json.mem_entries_of_nodup (nodup_parts m)] at hv'
  obtain rfl := Dictionary.eq_of_mem (nodup_parts m) hv' hv
  exact h

/-- A part of a manifest is written as a collection that describes it. -/
theorem writtenPart (h : m.Writable)
    (hpart : (part, .object ((m.inPart part).map Member.entry)) ∈ m.parts)
    (hxs : ∀ x ∈ m.inPart part, x.Writable →
      Is (Json.entries x.fields) ∧ Describes x.id (Json.entries x.fields) x) :
    MayHave (IsCollection Is) (Json.entries m.parts) part ∧
      DescribesPart Describes (Json.entries m.parts) part (m.inPart part) := by
  have hwritable : ∀ x ∈ m.inPart part, x.Writable := fun x hx =>
    h.writable x (mem_inPart.1 hx).1
  obtain ⟨keys, hordered⟩ := h.ordered part (List.mem_map_of_mem hpart)
  refine ⟨mayHave_parts hpart (isCollection_entry fun x hx => ?_),
    describesPart_entry hordered (fun x hx => ?_)
      ((Json.mem_entries_of_nodup (nodup_parts m)).2 hpart)⟩
  · exact ⟨(hwritable x hx).id_ne, (hxs x hx (hwritable x hx)).1⟩
  · exact ⟨(hwritable x hx).id_ne_void, (hxs x hx (hwritable x hx)).2⟩

/-- A manifest that can be written is read back from what is written. -/
theorem ofDocument_toDocument (h : m.Writable) : ofDocument (some m.toDocument) = .ok m := by
  have hnodes : ∀ x ∈ m.inPart "nodes", x.Writable →
      IsNode (Json.entries x.fields) ∧ DescribesNode x.id (Json.entries x.fields) x := by
    intro x hx hwritable
    have hpart := (mem_inPart.1 hx).2
    cases hrole : x.role with
    | node kind empty => exact Member.isNode_fields hwritable hrole
    | source _ | exposure => simp [hrole, Role.part, Text.ofString_inj] at hpart
  have hsources : ∀ x ∈ m.inPart "sources", x.Writable →
      IsSource (Json.entries x.fields) ∧ DescribesSource x.id (Json.entries x.fields) x := by
    intro x hx hwritable
    have hpart := (mem_inPart.1 hx).2
    cases hrole : x.role with
    | source sourceName => exact Member.isSource_fields hwritable hrole
    | node _ _ | exposure => simp [hrole, Role.part, Text.ofString_inj] at hpart
  have hexposures : ∀ x ∈ m.inPart "exposures", x.Writable →
      IsExposure (Json.entries x.fields) ∧ DescribesExposure x.id (Json.entries x.fields) x := by
    intro x hx hwritable
    have hpart := (mem_inPart.1 hx).2
    cases hrole : x.role with
    | exposure => exact Member.isExposure_fields hwritable hrole
    | node _ _ | source _ => simp [hrole, Role.part, Text.ofString_inj] at hpart
  have hnodes := writtenPart h (by simp [parts]) hnodes
  have hsources := writtenPart h (by simp [parts]) hsources
  have hexposures := writtenPart h (by simp [parts]) hexposures
  refine ofDocument_eq_ok_iff.2 ⟨m.parts, rfl, ⟨hnodes.1, hsources.1, hexposures.1, ?_⟩,
    _, _, _, h.split, hnodes.2, hsources.2, hexposures.2⟩
  intro key hkey
  rwa [Json.mem_keys_entries] at hkey

/-- A manifest that is read from a document can be written. -/
theorem writable_of_ofDocument {document : Option Json} (h : ofDocument document = .ok m) :
    m.Writable := by
  obtain ⟨written, rfl, hdocument, nodes, sources, exposures, hmembers, hnodes, hsources,
    hexposures⟩ := ofDocument_eq_ok_iff.1 h
  have hnode : ∀ x ∈ nodes, x.role.part = "nodes" ∧ x.Writable := by
    intro x hx
    obtain ⟨hne, hvoid, inner, hinner, his, hx, kind, empty, hrole, -⟩ :=
      hnodes.exists_of_mem hdocument.nodes DescribesNode.id_eq hx
    exact ⟨by rw [hrole]; rfl, hx.writable hinner his.toIsMember hne hvoid (by simp [hrole])⟩
  have hsource : ∀ x ∈ sources, x.role.part = "sources" ∧ x.Writable := by
    intro x hx
    obtain ⟨hne, hvoid, inner, hinner, his, sourceName, hrole, hgiven, hx⟩ :=
      hsources.exists_of_mem hdocument.sources DescribesSource.id_eq hx
    obtain ⟨_, hname, s, rfl, hs⟩ := his.sourceName
    obtain rfl := Json.string.inj (Dictionary.eq_of_mem hinner hname hgiven)
    refine ⟨by rw [hrole]; rfl, hx.writable hinner his.toIsMember hne hvoid fun s' hs' => ?_⟩
    rw [hrole] at hs'
    exact Role.source.inj hs' ▸ hs
  have hexposure : ∀ x ∈ exposures, x.role.part = "exposures" ∧ x.Writable := by
    intro x hx
    obtain ⟨hne, hvoid, inner, hinner, his, hrole, hx⟩ :=
      hexposures.exists_of_mem hdocument.exposures DescribesExposure.id_eq hx
    exact ⟨by rw [hrole]; rfl, hx.writable hinner his.toIsMember hne hvoid (by simp [hrole])⟩
  have hparts : m.inPart "nodes" = nodes ∧ m.inPart "sources" = sources ∧
      m.inPart "exposures" = exposures := by
    have hfilter : ∀ {xs : List Member} {part : Text}, (∀ x ∈ xs, x.role.part = part ∧ x.Writable) →
        ∀ part', xs.filter (fun x => x.role.part = part') = if part = part' then xs else [] := by
      intro xs part hxs part'
      split
      · exact List.filter_eq_self.2 fun x hx => by simp_all
      · exact List.filter_eq_nil_iff.2 fun x hx => by simp_all
    simp [inPart, hmembers, hfilter hnode, hfilter hsource, hfilter hexposure, Text.ofString_inj]
  obtain ⟨hinNodes, hinSources, hinExposures⟩ := hparts
  refine ⟨by rw [hinNodes, hinSources, hinExposures, hmembers], ?_, fun x hx => ?_⟩
  · simp only [parts, List.map_cons, List.map_nil, List.forall_mem_cons, hinNodes, hinSources,
      hinExposures]
    exact ⟨hnodes.exists_ordered DescribesNode.id_eq, hsources.exists_ordered DescribesSource.id_eq,
      hexposures.exists_ordered DescribesExposure.id_eq, by simp⟩
  · rw [hmembers, List.mem_append, List.mem_append] at hx
    rcases hx with (hx | hx) | hx
    · exact (hnode x hx).2
    · exact (hsource x hx).2
    · exact (hexposure x hx).2

/-- A manifest that is read from a document is read again, with the same members in the same order,
from the document as which it is written. -/
theorem ofDocument_written_back (document : Option Json) (m : Manifest)
    (h : ofDocument document = .ok m) : ofDocument (some m.toDocument) = .ok m :=
  ofDocument_toDocument (writable_of_ofDocument h)

/-- The fields of a document with two nodes, of which one has an array index as its identifier, and
a source. -/
def Sample.indexed : List (Text × Json) :=
  [("nodes", .object [("orders", .object [("name", .string "orders"),
      ("resourceType", .string "model")]),
      ("7", .object [("resourceType", .string "test"), ("name", .string "seven"),
        ("dependsOn", .array [.string "orders"])])]),
    ("sources", .object [("source.shop.raw", .object [("name", .string "raw"),
      ("sourceName", .string "shop")])])]

/-- The manifest of the document is read again from the document as which it is written. -/
theorem ofDocument_written_back_indexed : ∃ m, ofDocument (some (.object Sample.indexed)) = .ok m ∧
    m.members.map Member.id = ["7", "orders", "source.shop.raw"] ∧
    ofDocument (some m.toDocument) = .ok m := by
  have haccepts : Accepts (some (.object Sample.indexed)) :=
    documentIssues_eq_nil.1 (by decide +kernel)
  obtain ⟨_, hwritten, hdocument⟩ := haccepts
  cases hwritten
  have hread : ofDocument (some (.object Sample.indexed)) =
      .ok ⟨documentMembers (.object Sample.indexed), by decide +kernel⟩ :=
    (ofDocument_of_isDocument hdocument).trans (ofMembers_eq_ok_iff.2 rfl)
  exact ⟨_, hread, by decide +kernel, ofDocument_written_back _ _ hread⟩

end Manifest

end DagSelect
