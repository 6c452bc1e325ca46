import DagSelect.Proofs.Manifest.Description
import DagSelect.Proofs.Manifest.Violations

/-!
# The manifest of a document

The members that an accepted document describes are its manifest, unless two of its collections hold
the same identifier. A document that is not accepted is refused with everything that is wrong with
it.
-/

namespace DagSelect.Manifest

open Schema

variable {fields written : List (Text × Json)} {id : Text} {document : Option Json}

/-- Whether an identifier occurs in a collection of a document. -/
def OccursIn (fields : List (Text × Json)) (part id : Text) : Prop :=
  ∃ written, (part, .object written) ∈ fields ∧ id ∈ written.map Prod.fst

/-- Whether no identifier occurs in two collections of a document, apart from the key that holds
nothing. -/
def IdsApart (fields : List (Text × Json)) : Prop :=
  ∀ id, id ≠ Text.voidKey → ∀ part part', OccursIn fields part id → OccursIn fields part' id →
    part = part'

section Parts

variable {Describes : Text → List (Text × Json) → Member → Prop} {part : Text}
  {members : List Member}

/-- The members of a collection have its keys as their identifiers. -/
theorem DescribesPart.map_id (h : DescribesPart Describes fields part members)
    (hid : ∀ {id inner x}, Describes id inner x → x.id = id) :
    (part ∉ fields.map Prod.fst ∧ members.map Member.id = []) ∨
    ∃ written entries, (part, .object written) ∈ fields ∧ Json.Enumerates written entries ∧
      members.map Member.id =
        (entries.filter fun entry => entry.1 ≠ Text.voidKey).map Prod.fst := by
  rcases h with ⟨hpart, rfl⟩ | ⟨written, entries, hv, hentries, hmembers⟩
  · exact .inl ⟨hpart, rfl⟩
  · refine .inr ⟨written, entries, hv, hentries, ?_⟩
    rw [← List.forall₂_eq_eq_eq, List.forall₂_map_left_iff, List.forall₂_map_right_iff]
    refine hmembers.flip.imp ?_
    rintro x ⟨key, value⟩ ⟨inner, -, hx⟩
    exact hid hx

/-- The identifiers of the members of a collection are distinct. -/
theorem DescribesPart.nodup (h : DescribesPart Describes fields part members)
    (hid : ∀ {id inner x}, Describes id inner x → x.id = id) : (members.map Member.id).Nodup := by
  rcases h.map_id hid with ⟨-, hids⟩ | ⟨written, entries, -, hentries, hids⟩
  · exact hids ▸ List.nodup_nil
  · rw [hids]
    exact (Json.nodup_of_ordered hentries.ordered).sublist (List.filter_sublist.map _)

/-- The identifiers of the members of a collection are its keys but for the one that holds
nothing. -/
theorem DescribesPart.mem_ids_iff (h : DescribesPart Describes fields part members)
    (hid : ∀ {id inner x}, Describes id inner x → x.id = id)
    (hfields : (fields.map Prod.fst).Nodup) :
    id ∈ members.map Member.id ↔ id ≠ Text.voidKey ∧ OccursIn fields part id := by
  rcases h.map_id hid with ⟨hpart, hids⟩ | ⟨written, entries, hv, hentries, hids⟩
  · rw [hids]
    refine iff_of_false List.not_mem_nil fun h => ?_
    obtain ⟨-, written, hv, -⟩ := h
    exact hpart (List.mem_map_of_mem hv)
  · have hkeys : id ∈ entries.map Prod.fst ↔ id ∈ written.map Prod.fst := by
      rw [hentries.eq_entries, Json.mem_keys_entries]
    have hoccurs : OccursIn fields part id ↔ id ∈ written.map Prod.fst := by
      refine ⟨fun ⟨written', hv', hid'⟩ => ?_, fun hid' => ⟨written, hv, hid'⟩⟩
      obtain rfl := Json.object.inj (Dictionary.eq_of_mem hfields hv hv')
      exact hid'
    rw [hids, hoccurs, ← hkeys]
    simp only [List.mem_map, List.mem_filter, decide_eq_true_eq]
    constructor
    · rintro ⟨entry, ⟨hentry, hne⟩, rfl⟩
      exact ⟨hne, entry, hentry, rfl⟩
    · rintro ⟨hne, entry, hentry, rfl⟩
      exact ⟨entry, ⟨hentry, hne⟩, rfl⟩

end Parts

/-- The key that holds nothing is the identifier of no member that a document describes. -/
theorem DescribesAll.voidKey_not_mem {members : List Member}
    (hfields : (fields.map Prod.fst).Nodup) (h : DescribesAll fields members) :
    Text.voidKey ∉ members.map Member.id := by
  obtain ⟨nodes, sources, exposures, rfl, hnodes, hsources, hexposures⟩ := h
  simp [List.map_append, hnodes.mem_ids_iff DescribesNode.id_eq hfields,
    hsources.mem_ids_iff DescribesSource.id_eq hfields,
    hexposures.mem_ids_iff DescribesExposure.id_eq hfields]

/-- The members that a document describes have distinct identifiers exactly if no identifier occurs
in two of its collections. -/
theorem DescribesAll.nodup_iff {members : List Member} (hfields : (fields.map Prod.fst).Nodup)
    (hdocument : IsDocument fields) (h : DescribesAll fields members) :
    (members.map Member.id).Nodup ↔ IdsApart fields := by
  obtain ⟨nodes, sources, exposures, rfl, hnodes, hsources, hexposures⟩ := h
  have hnode : ∀ id, id ∈ nodes.map Member.id ↔ id ≠ Text.voidKey ∧ OccursIn fields "nodes" id :=
    fun id => hnodes.mem_ids_iff DescribesNode.id_eq hfields
  have hsource : ∀ id, id ∈ sources.map Member.id ↔
      id ≠ Text.voidKey ∧ OccursIn fields "sources" id :=
    fun id => hsources.mem_ids_iff DescribesSource.id_eq hfields
  have hexposure : ∀ id, id ∈ exposures.map Member.id ↔
      id ≠ Text.voidKey ∧ OccursIn fields "exposures" id :=
    fun id => hexposures.mem_ids_iff DescribesExposure.id_eq hfields
  have hdisjoint : (((nodes ++ sources ++ exposures).map Member.id).Nodup) ↔
      (∀ id ∈ nodes.map Member.id, id ∉ sources.map Member.id) ∧
      (∀ id ∈ nodes.map Member.id, id ∉ exposures.map Member.id) ∧
      ∀ id ∈ sources.map Member.id, id ∉ exposures.map Member.id := by
    rw [List.map_append, List.map_append, List.nodup_append', List.nodup_append',
      List.disjoint_append_left]
    simp only [hnodes.nodup DescribesNode.id_eq, hsources.nodup DescribesSource.id_eq,
      hexposures.nodup DescribesExposure.id_eq, true_and, List.Disjoint, imp_false]
  rw [hdisjoint]
  constructor
  · rintro ⟨hnodes, hnodes', hsources⟩ id hne part part' hpart hpart'
    have hknown : ∀ {part}, OccursIn fields part id →
        part = "nodes" ∨ part = "sources" ∨ part = "exposures" := by
      rintro part ⟨written, hv, -⟩
      simpa using hdocument.known part (List.mem_map_of_mem hv)
    have hns : OccursIn fields "nodes" id → ¬ OccursIn fields "sources" id := fun h h' =>
      hnodes id ((hnode id).2 ⟨hne, h⟩) ((hsource id).2 ⟨hne, h'⟩)
    have hne' : OccursIn fields "nodes" id → ¬ OccursIn fields "exposures" id := fun h h' =>
      hnodes' id ((hnode id).2 ⟨hne, h⟩) ((hexposure id).2 ⟨hne, h'⟩)
    have hse : OccursIn fields "sources" id → ¬ OccursIn fields "exposures" id := fun h h' =>
      hsources id ((hsource id).2 ⟨hne, h⟩) ((hexposure id).2 ⟨hne, h'⟩)
    rcases hknown hpart with rfl | rfl | rfl <;> rcases hknown hpart' with rfl | rfl | rfl
    · rfl
    · exact absurd hpart' (hns hpart)
    · exact absurd hpart' (hne' hpart)
    · exact absurd hpart (hns hpart')
    · rfl
    · exact absurd hpart' (hse hpart)
    · exact absurd hpart (hne' hpart')
    · exact absurd hpart (hse hpart')
    · rfl
  · intro happart
    have hdistinct : ∀ {id part part'}, id ≠ Text.voidKey ∧ OccursIn fields part id →
        id ≠ Text.voidKey ∧ OccursIn fields part' id → part = part' := by
      rintro id part part' ⟨hne, hpart⟩ ⟨-, hpart'⟩
      exact happart id hne part part' hpart hpart'
    refine ⟨fun id h h' => ?_, fun id h h' => ?_, fun id h h' => ?_⟩
    · exact absurd (hdistinct ((hnode id).1 h) ((hsource id).1 h')) (by decide)
    · exact absurd (hdistinct ((hnode id).1 h) ((hexposure id).1 h')) (by decide)
    · exact absurd (hdistinct ((hsource id).1 h) ((hexposure id).1 h')) (by decide)

/-- Whether an identifier is the first one that a list repeats. -/
def IsFirstRepeat (ids : List Text) (id : Text) : Prop :=
  ∃ before after, ids = before ++ id :: after ∧ id ∈ before ∧ before.Nodup

/-- A list has one first identifier that it repeats at most. -/
theorem IsFirstRepeat.unique {ids : List Text} {id id' : Text} (h : IsFirstRepeat ids id)
    (h' : IsFirstRepeat ids id') : id = id' := by
  have hnone : ∀ {before rest : List Text} {id : Text}, id ∈ before →
      ¬ (before ++ id :: rest).Nodup := fun hmem hnodup =>
    (List.nodup_append.1 hnodup).2.2 _ hmem _ List.mem_cons_self rfl
  obtain ⟨before, after, rfl, hmem, hnodup⟩ := h
  obtain ⟨before', after', hids, hmem', hnodup'⟩ := h'
  rcases List.append_eq_append_iff.1 hids with ⟨_ | ⟨next, rest⟩, hbefore, hrest⟩ |
    ⟨_ | ⟨next, rest⟩, hbefore, hrest⟩
  · exact (List.cons.inj hrest).1
  · obtain ⟨rfl, -⟩ := List.cons.inj hrest
    exact absurd (hbefore ▸ hnodup') (hnone hmem)
  · exact (List.cons.inj hrest).1.symm
  · obtain ⟨rfl, -⟩ := List.cons.inj hrest
    exact absurd (hbefore ▸ hnodup) (hnone hmem')

/-- What is found to repeat is the first element that occurs before or among those already seen. -/
theorem firstRepeat_eq_some {seen ids : List Text} (h : firstRepeat seen ids = some id) :
    ∃ before after, ids = before ++ id :: after ∧ (id ∈ before ∨ id ∈ seen) ∧ before.Nodup ∧
      ∀ x ∈ before, x ∉ seen := by
  induction ids generalizing seen with
  | nil => contradiction
  | cons first ids ih =>
    rw [firstRepeat] at h
    split at h
    · rename_i hfirst
      obtain rfl := Option.some.inj h
      exact ⟨[], ids, rfl, .inr hfirst, List.nodup_nil, by simp⟩
    · rename_i hfirst
      obtain ⟨before, after, rfl, hid, hnodup, hseen⟩ := ih h
      have hnot : first ∉ before := fun hmem => hseen first hmem List.mem_cons_self
      refine ⟨first :: before, after, rfl, ?_, List.nodup_cons.2 ⟨hnot, hnodup⟩, ?_⟩
      · rcases hid with hid | hid
        · exact .inl (List.mem_cons_of_mem _ hid)
        · rcases List.mem_cons.1 hid with rfl | hid
          · exact .inl List.mem_cons_self
          · exact .inr hid
      · intro x hx
        rcases List.mem_cons.1 hx with rfl | hx
        · exact hfirst
        · exact fun h => hseen x hx (List.mem_cons_of_mem _ h)

/-- Manifests with the same members are equal. -/
theorem eq_of_members {m m' : Manifest} (h : m.members = m'.members) : m = m' := by
  cases m
  cases m'
  cases h
  rfl

/-- Members are accepted as a manifest exactly if they are a manifest's members. -/
theorem ofMembers_eq_ok_iff {members : List Member} {m : Manifest} :
    ofMembers members = .ok m ↔ m.members = members := by
  constructor
  · intro h
    unfold ofMembers at h
    split at h
    · contradiction
    · exact congrArg Manifest.members (Except.ok.inj h).symm
  · rintro rfl
    have hnone : firstRepeat [] (m.members.map Member.id) = none :=
      firstRepeat_eq_none.2 ⟨m.nodup, by simp⟩
    unfold ofMembers
    split
    · rename_i hsome
      rw [hnone] at hsome
      contradiction
    · rfl

/-- Members that do not have distinct identifiers are refused with the first one that repeats. -/
theorem ofMembers_eq_error {members : List Member} (h : ¬ (members.map Member.id).Nodup) :
    ∃ id, ofMembers members = .error (.duplicateId id) ∧
      IsFirstRepeat (members.map Member.id) id := by
  unfold ofMembers
  split
  · rename_i id hsome
    obtain ⟨before, after, hids, hid, hnodup, -⟩ := firstRepeat_eq_some hsome
    exact ⟨id, rfl, before, after, hids, by simpa using hid, hnodup⟩
  · rename_i hnone
    exact absurd (firstRepeat_eq_none.1 hnone).1 h

/-- A document that is not accepted is refused with its issues. -/
theorem ofDocument_of_not_accepts (h : ¬ Accepts document) :
    ofDocument document = .error (.invalidDocument (documentIssues document)) := by
  rw [ofDocument, if_neg]
  rwa [List.isEmpty_iff, documentIssues_eq_nil]

/-- An accepted document has the manifest of its members, if there is one. -/
theorem ofDocument_of_isDocument (h : IsDocument (Json.entries written)) :
    ofDocument (some (.object written)) = ofMembers (documentMembers (.object written)) := by
  have hissues : documentIssues (some (.object written)) = [] :=
    documentIssues_eq_nil.2 ⟨written, rfl, h⟩
  rw [ofDocument, hissues]
  rfl

/-- A document has a certain manifest exactly if it is accepted and describes its members. -/
theorem ofDocument_eq_ok_iff {m : Manifest} : ofDocument document = .ok m ↔
    ∃ written, document = some (.object written) ∧ IsDocument (Json.entries written) ∧
      DescribesAll (Json.entries written) m.members := by
  constructor
  · intro h
    by_cases haccepts : Accepts document
    · obtain ⟨written, rfl, hdocument⟩ := haccepts
      rw [ofDocument_of_isDocument hdocument, ofMembers_eq_ok_iff] at h
      exact ⟨written, rfl, hdocument, h ▸ describesAll_documentMembers hdocument⟩
    · rw [ofDocument_of_not_accepts haccepts] at h
      contradiction
  · rintro ⟨written, rfl, hdocument, hmembers⟩
    rw [ofDocument_of_isDocument hdocument, ofMembers_eq_ok_iff]
    exact hmembers.unique (Json.entries_keys_nodup written) (describesAll_documentMembers hdocument)

/-- A document has a manifest exactly if it is accepted and no identifier occurs in two of its
collections; the manifest then holds the members that the document describes. A document that is not
accepted is refused with everything that is wrong with it, and an accepted one with the first
identifier that repeats. -/
theorem ofDocument_spec (document : Option Json) :
    ((∃ m, ofDocument document = .ok m) ↔ ∃ written, document = some (.object written) ∧
      IsDocument (Json.entries written) ∧ IdsApart (Json.entries written)) ∧
    (∀ m written, ofDocument document = .ok m → document = some (.object written) →
      DescribesAll (Json.entries written) m.members) ∧
    (¬ Accepts document → ∃ issues, ofDocument document = .error (.invalidDocument issues) ∧
      issues ≠ [] ∧ Reports issues (DocumentWrong document)) ∧
    ∀ written, document = some (.object written) → IsDocument (Json.entries written) →
      ¬ IdsApart (Json.entries written) → ∃ members id,
        ofDocument document = .error (.duplicateId id) ∧
        DescribesAll (Json.entries written) members ∧
        IsFirstRepeat (members.map Member.id) id := by
  have hnodup : ∀ {written members}, IsDocument (Json.entries written) →
      DescribesAll (Json.entries written) members →
      ((members.map Member.id).Nodup ↔ IdsApart (Json.entries written)) :=
    fun hdocument hmembers => hmembers.nodup_iff (Json.entries_keys_nodup _) hdocument
  refine ⟨⟨?_, ?_⟩, ?_, fun h => ?_, ?_⟩
  · rintro ⟨m, hm⟩
    obtain ⟨written, rfl, hdocument, hmembers⟩ := ofDocument_eq_ok_iff.1 hm
    exact ⟨written, rfl, hdocument, (hnodup hdocument hmembers).1 m.nodup⟩
  · rintro ⟨written, rfl, hdocument, happart⟩
    have hmembers := describesAll_documentMembers hdocument
    exact ⟨⟨_, (hnodup hdocument hmembers).2 happart⟩,
      ofDocument_eq_ok_iff.2 ⟨written, rfl, hdocument, hmembers⟩⟩
  · rintro m written hm rfl
    obtain ⟨_, ⟨⟩, -, hmembers⟩ := ofDocument_eq_ok_iff.1 hm
    exact hmembers
  · refine ⟨_, ofDocument_of_not_accepts h, ?_, reports_documentIssues document⟩
    rwa [Ne, documentIssues_eq_nil]
  · rintro written rfl hdocument hnot
    have hmembers := describesAll_documentMembers hdocument
    obtain ⟨id, herror, hrepeat⟩ := ofMembers_eq_error (mt (hnodup hdocument hmembers).1 hnot)
    exact ⟨_, id, (ofDocument_of_isDocument hdocument).trans herror, hmembers, hrepeat⟩

/-- The fields of a document in which a node and an exposure share an identifier. -/
def Sample.shared : List (Text × Json) :=
  [("nodes", .object [("orders", .object [("name", .string "orders"),
      ("resourceType", .string "model")])]),
    ("exposures", .object [("orders", .object [("name", .string "board")])])]

/-- The document is refused with the identifier that its collections share. -/
theorem ofDocument_spec_shared : ∃ members id,
    ofDocument (some (.object Sample.shared)) = .error (.duplicateId id) ∧
    DescribesAll (Json.entries Sample.shared) members ∧
    IsFirstRepeat (members.map Member.id) id := by
  have haccepts : Accepts (some (.object Sample.shared)) :=
    documentIssues_eq_nil.1 (by decide +kernel)
  obtain ⟨_, hwritten, hdocument⟩ := haccepts
  cases hwritten
  refine (ofDocument_spec _).2.2.2 _ rfl hdocument fun happart => ?_
  have hnodes : OccursIn (Json.entries Sample.shared) "nodes" "orders" :=
    ⟨_, Json.mem_entries.2 ⟨[], _, rfl, by decide⟩, by decide⟩
  have hexposures : OccursIn (Json.entries Sample.shared) "exposures" "orders" :=
    ⟨_, Json.mem_entries.2 ⟨[_], [], rfl, by decide⟩, by decide⟩
  have hsame := happart "orders" (by decide) _ _ hnodes hexposures
  revert hsame
  decide

end DagSelect.Manifest
