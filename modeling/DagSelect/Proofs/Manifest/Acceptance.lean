import DagSelect.Manifest.Schema
import DagSelect.Proofs.Dictionary

/-!
# Documents that the schema accepts

A document is an object with up to three collections of members, and a member an object with fields
of certain kinds, some of which have to be there. Said of the object as it is read, this is exactly
that no issue is found.
-/

namespace DagSelect.Schema

variable {fields written : List (Text × Json)} {v : Json}

/-- A text. -/
def IsText (v : Json) : Prop := ∃ s : Text, v = .string s

/-- A text that is not empty. -/
def IsName (v : Json) : Prop := ∃ s : Text, v = .string s ∧ s ≠ ""

/-- A flag. -/
def IsFlag (v : Json) : Prop := ∃ b : Bool, v = .bool b

/-- The written name of a kind of node. -/
def IsKind (v : Json) : Prop := ∃ kind : NodeKind, v = .string kind.name

/-- A list of texts. -/
def IsTexts (v : Json) : Prop := ∃ texts : List Text, v = .array (texts.map .string)

/-- A list of texts none of which is empty. -/
def IsNames (v : Json) : Prop :=
  ∃ texts : List Text, v = .array (texts.map .string) ∧ ("" : Text) ∉ texts

/-- Whether an object has a field that holds a value of a kind. -/
def Has (Is : Json → Prop) (fields : List (Text × Json)) (key : Text) : Prop :=
  ∃ v, (key, v) ∈ fields ∧ Is v

/-- Whether a field of an object, if it is there, holds a value of a kind. -/
def MayHave (Is : Json → Prop) (fields : List (Text × Json)) (key : Text) : Prop :=
  ∀ v, (key, v) ∈ fields → Is v

/-- Whether an object has no other keys than the given ones. -/
def HasOnly (keys : List Text) (fields : List (Text × Json)) : Prop :=
  ∀ key ∈ fields.map Prod.fst, key ∈ keys

/-- What every member holds. -/
structure IsMember (fields : List (Text × Json)) : Prop where
  name : Has IsName fields "name"
  packageName : MayHave IsName fields "packageName"
  fqn : MayHave IsTexts fields "fqn"
  path : MayHave IsText fields "path"
  tags : MayHave IsTexts fields "tags"
  enabled : MayHave IsFlag fields "enabled"
  dependsOn : MayHave IsNames fields "dependsOn"

/-- What a node holds. -/
structure IsNode (fields : List (Text × Json)) : Prop extends IsMember fields where
  resourceType : Has IsKind fields "resourceType"
  empty : MayHave IsFlag fields "empty"
  known : HasOnly ["name", "packageName", "fqn", "path", "tags", "enabled", "dependsOn",
    "resourceType", "empty"] fields

/-- What a source holds. -/
structure IsSource (fields : List (Text × Json)) : Prop extends IsMember fields where
  sourceName : Has IsName fields "sourceName"
  known : HasOnly ["name", "packageName", "fqn", "path", "tags", "enabled", "dependsOn",
    "sourceName"] fields

/-- What an exposure holds. -/
structure IsExposure (fields : List (Text × Json)) : Prop extends IsMember fields where
  known : HasOnly ["name", "packageName", "fqn", "path", "tags", "enabled", "dependsOn"] fields

/-- An object whose keys are not empty and whose values are objects of a kind. -/
def IsCollection (Is : List (Text × Json) → Prop) (v : Json) : Prop :=
  ∃ written, v = .object written ∧ ∀ key value, (key, value) ∈ Json.entries written →
    key ≠ "" ∧ ∃ fields, value = .object fields ∧ Is (Json.entries fields)

/-- What a document holds. -/
structure IsDocument (fields : List (Text × Json)) : Prop where
  nodes : MayHave (IsCollection IsNode) fields "nodes"
  sources : MayHave (IsCollection IsSource) fields "sources"
  exposures : MayHave (IsCollection IsExposure) fields "exposures"
  known : HasOnly ["nodes", "sources", "exposures"] fields

/-- Whether a document is there and is an object that holds what a document holds. -/
def Accepts (document : Option Json) : Prop :=
  ∃ written, document = some (.object written) ∧ IsDocument (Json.entries written)

/-- A list has no issue if none of its items has one. -/
theorem itemIssues_eq_nil {nonEmpty : Bool} {position : Nat} {items : List Json} :
    itemIssues nonEmpty position items = [] ↔ ∀ v ∈ items, textIssues nonEmpty v = [] := by
  induction items generalizing position with
  | nil => simp [itemIssues]
  | cons v rest ih => simp [itemIssues, ih]

/-- A text has no issue exactly if it is one. -/
theorem isText_iff : contentIssues (.text false) v = [] ↔ IsText v := by
  cases v <;> simp [contentIssues, textIssues, IsText]

/-- A text that must not be empty has no issue exactly if it is one. -/
theorem isName_iff : contentIssues (.text true) v = [] ↔ IsName v := by
  cases v <;> simp [contentIssues, textIssues, IsName, Text.isEmpty_iff]

/-- A flag has no issue exactly if it is one. -/
theorem isFlag_iff : contentIssues .flag v = [] ↔ IsFlag v := by
  cases v <;> simp [contentIssues, IsFlag]

/-- A choice between the kinds of node has no issue exactly if it is one of them. -/
theorem isKind_iff :
    contentIssues (.choice (NodeKind.all.map fun kind => kind.name)) v = [] ↔ IsKind v := by
  have hall : ∀ kind : NodeKind, kind ∈ NodeKind.all := by
    intro kind
    cases kind <;> decide
  cases v <;> simp [contentIssues, IsKind, hall, eq_comm]

/-- The texts of a list are its items. -/
theorem exists_eq_map_string {items : List Json} {P : Text → Prop} :
    (∀ v ∈ items, ∃ s, v = .string s ∧ P s) ↔
      ∃ texts : List Text, items = texts.map .string ∧ ∀ s ∈ texts, P s := by
  induction items with
  | nil => exact ⟨fun _ => ⟨[], rfl, by simp⟩, fun _ => by simp⟩
  | cons v rest ih =>
    rw [List.forall_mem_cons, ih]
    constructor
    · rintro ⟨⟨s, rfl, hs⟩, texts, rfl, htexts⟩
      exact ⟨s :: texts, rfl, List.forall_mem_cons.2 ⟨hs, htexts⟩⟩
    · rintro ⟨texts, htexts, hP⟩
      cases texts with
      | nil => contradiction
      | cons s texts =>
        obtain ⟨rfl, rfl⟩ := List.cons.inj htexts
        obtain ⟨hs, hP⟩ := List.forall_mem_cons.1 hP
        exact ⟨⟨s, rfl, hs⟩, texts, rfl, hP⟩

/-- A list of texts has no issue exactly if it is one. -/
theorem isTexts_iff : contentIssues (.texts false) v = [] ↔ IsTexts v := by
  cases v with
  | array items =>
    have hitem : ∀ v, textIssues false v = [] ↔ ∃ s, v = .string s ∧ True := by
      intro v
      rw [← contentIssues, isText_iff, IsText]
      simp
    rw [contentIssues, itemIssues_eq_nil]
    simp only [hitem, exists_eq_map_string, IsTexts, Json.array.injEq]
    simp
  | null | bool _ | number _ _ | string _ | object _ => simp [contentIssues, IsTexts]

/-- A list of texts that must not be empty has no issue exactly if it is one. -/
theorem isNames_iff : contentIssues (.texts true) v = [] ↔ IsNames v := by
  cases v with
  | array items =>
    have hitem : ∀ v, textIssues true v = [] ↔ ∃ s : Text, v = .string s ∧ s ≠ "" := by
      intro v
      rw [← contentIssues, isName_iff, IsName]
    rw [contentIssues, itemIssues_eq_nil]
    simp only [hitem, exists_eq_map_string, IsNames, Json.array.injEq]
    refine exists_congr fun texts => and_congr_right fun _ => ?_
    exact ⟨fun h hmem => h _ hmem rfl, fun h s hs hempty => h (hempty ▸ hs)⟩
  | null | bool _ | number _ _ | string _ | object _ => simp [contentIssues, IsNames]

/-- A field that has to be there has no issue exactly if it holds what it may hold. -/
theorem has_iff (hfields : (fields.map Prod.fst).Nodup) {key : Text} {content : Content}
    {Is : Json → Prop} (h : ∀ v, contentIssues content v = [] ↔ Is v) :
    fieldIssues fields ⟨key, true, content⟩ = [] ↔ Has Is fields key := by
  simp only [fieldIssues, Has, ← Dictionary.find?_eq_some_iff hfields]
  cases Dictionary.find? key fields <;> simp [h]

/-- A field that may be missing has no issue exactly if it holds what it may hold. -/
theorem mayHave_iff (hfields : (fields.map Prod.fst).Nodup) {key : Text} {content : Content}
    {Is : Json → Prop} (h : ∀ v, contentIssues content v = [] ↔ Is v) :
    fieldIssues fields ⟨key, false, content⟩ = [] ↔ MayHave Is fields key := by
  simp only [fieldIssues, MayHave, ← Dictionary.find?_eq_some_iff hfields]
  cases Dictionary.find? key fields <;> simp [h]

/-- There is no issue about unknown keys exactly if all keys are known. -/
theorem hasOnly_iff {known : List Text} :
    unknownKeyIssues known fields = [] ↔ HasOnly known fields := by
  simp [unknownKeyIssues, HasOnly]

/-- The fields that every member has are without issue exactly if they hold what they should. -/
theorem isMember_iff (hfields : (fields.map Prod.fst).Nodup) :
    commonFields.flatMap (fieldIssues fields) = [] ↔ IsMember fields := by
  simp only [commonFields, List.flatMap_cons, List.flatMap_nil, List.append_nil,
    List.append_eq_nil_iff, has_iff hfields fun _ => isName_iff,
    mayHave_iff hfields fun _ => isName_iff, mayHave_iff hfields fun _ => isTexts_iff,
    mayHave_iff hfields fun _ => isText_iff, mayHave_iff hfields fun _ => isFlag_iff,
    mayHave_iff hfields fun _ => isNames_iff]
  constructor
  · rintro ⟨hname, hpackage, hfqn, hpath, htags, henabled, hdepends⟩
    exact ⟨hname, hpackage, hfqn, hpath, htags, henabled, hdepends⟩
  · rintro ⟨hname, hpackage, hfqn, hpath, htags, henabled, hdepends⟩
    exact ⟨hname, hpackage, hfqn, hpath, htags, henabled, hdepends⟩

/-- A member has no issue exactly if it is an object whose fields have none. -/
theorem memberIssues_eq_nil {known : List Field} {Is : List (Text × Json) → Prop}
    (h : ∀ fields : List (Text × Json), (fields.map Prod.fst).Nodup →
      (known.flatMap (fieldIssues fields) = [] ∧ HasOnly (known.map Field.key) fields ↔
        Is fields)) :
    memberIssues known v = [] ↔ ∃ fields, v = .object fields ∧ Is (Json.entries fields) := by
  cases v with
  | object written =>
    simp only [memberIssues, List.append_eq_nil_iff, hasOnly_iff, Json.object.injEq,
      exists_eq_left', h _ (Json.entries_keys_nodup written)]
  | null | bool _ | number _ _ | string _ | array _ => simp [memberIssues]

/-- A node has no issue exactly if it is an object that holds what a node holds. -/
theorem isNode_iff : memberIssues nodeFields v = [] ↔
    ∃ fields, v = .object fields ∧ IsNode (Json.entries fields) := by
  refine memberIssues_eq_nil fun fields hfields => ?_
  simp only [nodeFields, List.flatMap_append, List.flatMap_cons, List.flatMap_nil, List.append_nil,
    List.append_eq_nil_iff, isMember_iff hfields, has_iff hfields fun _ => isKind_iff,
    mayHave_iff hfields fun _ => isFlag_iff]
  constructor
  · rintro ⟨⟨hmember, hkind, hempty⟩, hknown⟩
    exact ⟨hmember, hkind, hempty, hknown⟩
  · rintro ⟨hmember, hkind, hempty, hknown⟩
    exact ⟨⟨hmember, hkind, hempty⟩, hknown⟩

/-- A source has no issue exactly if it is an object that holds what a source holds. -/
theorem isSource_iff : memberIssues sourceFields v = [] ↔
    ∃ fields, v = .object fields ∧ IsSource (Json.entries fields) := by
  refine memberIssues_eq_nil fun fields hfields => ?_
  simp only [sourceFields, List.flatMap_append, List.flatMap_cons, List.flatMap_nil,
    List.append_nil, List.append_eq_nil_iff, isMember_iff hfields,
    has_iff hfields fun _ => isName_iff]
  constructor
  · rintro ⟨⟨hmember, hname⟩, hknown⟩
    exact ⟨hmember, hname, hknown⟩
  · rintro ⟨hmember, hname, hknown⟩
    exact ⟨⟨hmember, hname⟩, hknown⟩

/-- An exposure has no issue exactly if it is an object that holds what an exposure holds. -/
theorem isExposure_iff : memberIssues commonFields v = [] ↔
    ∃ fields, v = .object fields ∧ IsExposure (Json.entries fields) := by
  refine memberIssues_eq_nil fun fields hfields => ?_
  rw [isMember_iff hfields]
  exact ⟨fun h => ⟨h.1, h.2⟩, fun h => ⟨h.toIsMember, h.known⟩⟩

/-- A key has no issue exactly if it is not empty. -/
theorem textIssues_key_eq_nil {key : Text} : textIssues true (.string key) = [] ↔ key ≠ "" := by
  simp [textIssues, Text.isEmpty_iff]

/-- A collection has no issue exactly if its keys are not empty and its members have none. -/
theorem isCollection_iff {known : List Field} {Is : List (Text × Json) → Prop}
    (h : ∀ v, memberIssues known v = [] ↔ ∃ fields, v = .object fields ∧ Is (Json.entries fields)) :
    collectionIssues known v = [] ↔ IsCollection Is v := by
  cases v with
  | object written =>
    simp only [collectionIssues, List.flatMap_eq_nil_iff, entryIssues, List.map_eq_nil_iff,
      List.append_eq_nil_iff, h, IsCollection, Json.object.injEq, exists_eq_left', Prod.forall,
      textIssues_key_eq_nil]
  | null | bool _ | number _ _ | string _ | array _ => simp [collectionIssues, IsCollection]

/-- A part of a document has no issue exactly if it holds a collection, if it is there. -/
theorem partIssues_eq_nil (hfields : (fields.map Prod.fst).Nodup) {key : Text} {known : List Field}
    {Is : Json → Prop} (h : ∀ v, collectionIssues known v = [] ↔ Is v) :
    partIssues fields ⟨key, known⟩ = [] ↔ MayHave Is fields key := by
  simp only [partIssues, MayHave, ← Dictionary.find?_eq_some_iff hfields]
  cases Dictionary.find? key fields <;> simp [h]

/-- A document has no issue exactly if it is accepted. -/
theorem documentIssues_eq_nil {document : Option Json} :
    documentIssues document = [] ↔ Accepts document := by
  match document with
  | some (.object written) =>
    have hfields := Json.entries_keys_nodup written
    simp only [documentIssues, collections, List.flatMap_cons, List.flatMap_nil, List.append_nil,
      List.append_eq_nil_iff, hasOnly_iff, Accepts, Option.some.injEq, Json.object.injEq,
      exists_eq_left', partIssues_eq_nil hfields fun _ => isCollection_iff fun _ => isNode_iff,
      partIssues_eq_nil hfields fun _ => isCollection_iff fun _ => isSource_iff,
      partIssues_eq_nil hfields fun _ => isCollection_iff fun _ => isExposure_iff]
    constructor
    · rintro ⟨⟨hnodes, hsources, hexposures⟩, hknown⟩
      exact ⟨hnodes, hsources, hexposures, hknown⟩
    · rintro ⟨hnodes, hsources, hexposures, hknown⟩
      exact ⟨⟨hnodes, hsources, hexposures⟩, hknown⟩
  | none => simp [documentIssues, Accepts]
  | some .null | some (.bool _) | some (.number _ _) | some (.string _) | some (.array _) =>
    simp [documentIssues, Accepts]

end DagSelect.Schema
