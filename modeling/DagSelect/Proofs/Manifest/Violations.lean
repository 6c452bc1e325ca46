import DagSelect.Manifest.Schema
import DagSelect.Proofs.Dictionary
import Mathlib.Data.List.Lex
import Mathlib.Data.List.Basic

/-!
# What is reported about a document

The rules below say what is wrong with a document, part by part, and at which place of the document
it is wrong. A place is the list of positions that lead to a part: of a collection or a field in the
schema, of an entry among the keys as they are enumerated, of an item in its list. At an entry its
key comes before its member, and at an object its unknown keys come after its fields. The issues of
a document are exactly what is wrong with it, each once and in ascending order of places.
-/

namespace DagSelect.Schema

/-- What is wrong with a value where a text is expected. -/
inductive TextWrong (nonEmpty : Bool) : Json → List Nat → Issue → Prop
  | notText {v : Json} (h : v.kind ≠ .string) :
    TextWrong nonEmpty v [] ⟨[], .wrongKind "string" v.kind⟩
  | tooShort (h : nonEmpty = true) : TextWrong nonEmpty (.string "") [] ⟨[], .tooShort⟩

/-- What is wrong with what a field of a member holds. -/
inductive ContentWrong : Content → Json → List Nat → Issue → Prop
  | text {nonEmpty : Bool} {v : Json} {place : List Nat} {issue : Issue}
    (h : TextWrong nonEmpty v place issue) : ContentWrong (.text nonEmpty) v place issue
  | notFlag {v : Json} (h : v.kind ≠ .bool) :
    ContentWrong .flag v [] ⟨[], .wrongKind "boolean" v.kind⟩
  | notText {options : List Text} {v : Json} (h : v.kind ≠ .string) :
    ContentWrong (.choice options) v [] ⟨[], .wrongKind (optionList options) v.kind⟩
  | notAnOption {options : List Text} {s : Text} (h : s ∉ options) :
    ContentWrong (.choice options) (.string s) [] ⟨[], .notAnOption options s⟩
  | notList {nonEmpty : Bool} {v : Json} (h : v.kind ≠ .array) :
    ContentWrong (.texts nonEmpty) v [] ⟨[], .wrongKind "array" v.kind⟩
  | item {nonEmpty : Bool} {items : List Json} {i : Nat} {v : Json} {place : List Nat}
    {issue : Issue} (hitem : items[i]? = some v) (h : TextWrong nonEmpty v place issue) :
    ContentWrong (.texts nonEmpty) (.array items) (i :: place)
      (issue.under (String.ofList (Nat.toDigits 10 i)))

/-- What is wrong with a member that should have certain fields and no others. -/
inductive MemberWrong (fields : List Field) : Json → List Nat → Issue → Prop
  | notObject {v : Json} (h : v.kind ≠ .object) :
    MemberWrong fields v [] ⟨[], .wrongKind "object" v.kind⟩
  | missing {written : List (Text × Json)} {i : Nat} {field : Field}
    (hfield : fields[i]? = some field) (hrequired : field.required = true)
    (h : field.key ∉ (Json.entries written).map Prod.fst) :
    MemberWrong fields (.object written) [i] ⟨[field.key], .missing⟩
  | content {written : List (Text × Json)} {i : Nat} {field : Field} {v : Json} {place : List Nat}
    {issue : Issue} (hfield : fields[i]? = some field)
    (hvalue : (field.key, v) ∈ Json.entries written)
    (h : ContentWrong field.content v place issue) :
    MemberWrong fields (.object written) (i :: place) (issue.under field.key)
  | unknownKeys {written : List (Text × Json)} {unknown : List Text}
    (hunknown : unknown = ((Json.entries written).map Prod.fst).filter (· ∉ fields.map Field.key))
    (h : unknown ≠ []) :
    MemberWrong fields (.object written) [fields.length] ⟨[], .unknownKeys unknown⟩

/-- What is wrong with a collection of members. -/
inductive CollectionWrong (fields : List Field) : Json → List Nat → Issue → Prop
  | notObject {v : Json} (h : v.kind ≠ .object) :
    CollectionWrong fields v [] ⟨[], .wrongKind "object" v.kind⟩
  | emptyKey {written : List (Text × Json)} {i : Nat} {v : Json}
    (hentry : (Json.entries written)[i]? = some (("" : Text), v)) :
    CollectionWrong fields (.object written) [i, 0] ⟨[""], .tooShort⟩
  | member {written : List (Text × Json)} {i : Nat} {key : Text} {v : Json} {place : List Nat}
    {issue : Issue} (hentry : (Json.entries written)[i]? = some (key, v))
    (h : MemberWrong fields v place issue) :
    CollectionWrong fields (.object written) (i :: 1 :: place) (issue.under key)

/-- What is wrong with a document, which may be absent altogether. -/
inductive DocumentWrong : Option Json → List Nat → Issue → Prop
  | missing : DocumentWrong none [] ⟨[], .missing⟩
  | notObject {v : Json} (h : v.kind ≠ .object) :
    DocumentWrong (some v) [] ⟨[], .wrongKind "object" v.kind⟩
  | collection {written : List (Text × Json)} {i : Nat} {part : Collection} {v : Json}
    {place : List Nat} {issue : Issue} (hpart : collections[i]? = some part)
    (hvalue : (part.key, v) ∈ Json.entries written)
    (h : CollectionWrong part.fields v place issue) :
    DocumentWrong (some (.object written)) (i :: place) (issue.under part.key)
  | unknownKeys {written : List (Text × Json)} {unknown : List Text}
    (hunknown : unknown =
      ((Json.entries written).map Prod.fst).filter (· ∉ collections.map Collection.key))
    (h : unknown ≠ []) :
    DocumentWrong (some (.object written)) [collections.length] ⟨[], .unknownKeys unknown⟩

/-- Whether a list of issues is what is wrong, each issue once and in ascending order of places. -/
def Reports (issues : List Issue) (Wrong : List Nat → Issue → Prop) : Prop :=
  ∃ placed : List (List Nat × Issue), placed.map Prod.snd = issues ∧
    placed.Pairwise (fun a b => a.1 < b.1) ∧
    ∀ place issue, (place, issue) ∈ placed ↔ Wrong place issue

namespace Reports

variable {issues issues' : List Issue} {Wrong Wrong' : List Nat → Issue → Prop}

/-- Nothing is reported where nothing is wrong. -/
theorem nil (h : ∀ place issue, ¬ Wrong place issue) : Reports [] Wrong :=
  ⟨[], rfl, List.Pairwise.nil, fun place issue => by simp [h place issue]⟩

/-- One issue is reported where one thing is wrong. -/
theorem singleton {place : List Nat} {issue : Issue} (hwrong : Wrong place issue)
    (h : ∀ place' issue', Wrong place' issue' → place' = place ∧ issue' = issue) :
    Reports [issue] Wrong := by
  refine ⟨[(place, issue)], rfl, List.pairwise_singleton _ _, fun place' issue' => ?_⟩
  rw [List.mem_singleton, Prod.mk.injEq]
  refine ⟨?_, h place' issue'⟩
  rintro ⟨rfl, rfl⟩
  exact hwrong

/-- The same is reported for the same faults. -/
theorem congr (hr : Reports issues Wrong)
    (h : ∀ place issue, Wrong place issue ↔ Wrong' place issue) : Reports issues Wrong' := by
  obtain ⟨placed, hissues, hordered, hmem⟩ := hr
  exact ⟨placed, hissues, hordered, fun place issue => (hmem place issue).trans (h place issue)⟩

/-- What is wrong determines what is reported. -/
theorem unique (hr : Reports issues Wrong) (hr' : Reports issues' Wrong) : issues = issues' := by
  obtain ⟨placed, rfl, hordered, hmem⟩ := hr
  obtain ⟨placed', rfl, hordered', hmem'⟩ := hr'
  have hnodup : ∀ {placed : List (List Nat × Issue)}, placed.Pairwise (fun a b => a.1 < b.1) →
      placed.Nodup := fun h => h.imp fun hlt heq => absurd (heq ▸ hlt) (lt_irrefl _)
  have hperm : placed.Perm placed' :=
    (List.perm_ext_iff_of_nodup (hnodup hordered) (hnodup hordered')).2 fun ⟨place, issue⟩ =>
      (hmem place issue).trans (hmem' place issue).symm
  rw [hperm.eq_of_pairwise (fun _ _ _ _ hab hba => absurd hba hab.asymm) hordered hordered']

/-- What is wrong at later places is reported later. -/
theorem append (hr : Reports issues Wrong) (hr' : Reports issues' Wrong')
    (hlt : ∀ place issue place' issue', Wrong place issue → Wrong' place' issue' → place < place') :
    Reports (issues ++ issues') fun place issue => Wrong place issue ∨ Wrong' place issue := by
  obtain ⟨placed, rfl, hordered, hmem⟩ := hr
  obtain ⟨placed', rfl, hordered', hmem'⟩ := hr'
  refine ⟨placed ++ placed', List.map_append, List.pairwise_append.2
    ⟨hordered, hordered', fun a ha b hb => ?_⟩, fun place issue => ?_⟩
  · exact hlt a.1 a.2 b.1 b.2 ((hmem _ _).1 ha) ((hmem' _ _).1 hb)
  · rw [List.mem_append, hmem, hmem']

/-- What is wrong with a part is reported for the whole under the key of the part. -/
theorem under (hr : Reports issues Wrong) (key : Text) :
    Reports (issues.map (Issue.under key)) fun place issue =>
      ∃ inner, Wrong place inner ∧ issue = inner.under key := by
  obtain ⟨placed, rfl, hordered, hmem⟩ := hr
  refine ⟨placed.map fun a => (a.1, a.2.under key), by simp [Function.comp_def],
    List.pairwise_map.2 hordered, fun place issue => ?_⟩
  simp only [List.mem_map, Prod.mk.injEq, Prod.exists, hmem]
  constructor
  · rintro ⟨_, inner, h, rfl, rfl⟩
    exact ⟨inner, h, rfl⟩
  · rintro ⟨inner, h, rfl⟩
    exact ⟨place, inner, h, rfl, rfl⟩

/-- What is wrong with a part is reported at the position of the part. -/
theorem within (hr : Reports issues Wrong) (position : Nat) :
    Reports issues fun place issue => ∃ inner, place = position :: inner ∧ Wrong inner issue := by
  obtain ⟨placed, rfl, hordered, hmem⟩ := hr
  refine ⟨placed.map fun a => (position :: a.1, a.2), by simp [Function.comp_def],
    List.pairwise_map.2 (hordered.imp fun h => List.cons_lt_cons_iff.2 (.inr ⟨rfl, h⟩)),
    fun place issue => ?_⟩
  simp only [List.mem_map, Prod.mk.injEq, Prod.exists, hmem]
  constructor
  · rintro ⟨inner, _, h, rfl, rfl⟩
    exact ⟨inner, rfl, h⟩
  · rintro ⟨inner, rfl, h⟩
    exact ⟨inner, issue, h, rfl, rfl⟩

/-- What is wrong with the parts of a whole is reported part by part. -/
theorem flatMap {α : Type} {report : α → List Issue} {Wrong : α → List Nat → Issue → Prop}
    (parts : List α) (hr : ∀ part ∈ parts, Reports (report part) (Wrong part)) :
    Reports (parts.flatMap report) fun place issue =>
      ∃ i part inner, parts[i]? = some part ∧ place = i :: inner ∧ Wrong part inner issue := by
  -- The induction counts positions from an arbitrary first one.
  suffices h : ∀ first, Reports (parts.flatMap report) fun place issue => ∃ i part inner,
      parts[i]? = some part ∧ place = (first + i) :: inner ∧ Wrong part inner issue by
    simpa using h 0
  induction parts with
  | nil => exact fun first => nil (by simp)
  | cons part parts ih =>
    intro first
    have hhead := (hr part List.mem_cons_self).within first
    have htail := ih (fun part hpart => hr part (List.mem_cons_of_mem _ hpart)) (first + 1)
    refine (hhead.append htail ?_).congr fun place issue => ?_
    · rintro _ _ _ _ ⟨inner, rfl, -⟩ ⟨i, part', inner', -, rfl, -⟩
      exact List.cons_lt_cons_iff.2 (.inl (by omega))
    · constructor
      · rintro (⟨inner, rfl, h⟩ | ⟨i, part', inner, hpart, rfl, h⟩)
        · exact ⟨0, part, inner, rfl, rfl, h⟩
        · exact ⟨i + 1, part', inner, hpart, by rw [Nat.add_assoc, Nat.add_comm 1], h⟩
      · rintro ⟨i, part', inner, hpart, rfl, h⟩
        cases i with
        | zero =>
          obtain rfl := Option.some.inj hpart
          exact .inl ⟨inner, rfl, h⟩
        | succ i => exact .inr ⟨i, part', inner, hpart, by rw [Nat.add_assoc, Nat.add_comm 1], h⟩

end Reports

variable {fields : List Field}

/-- What is wrong with a text is reported. -/
theorem reports_textIssues (nonEmpty : Bool) (v : Json) :
    Reports (textIssues nonEmpty v) (TextWrong nonEmpty v) := by
  by_cases hkind : v.kind = .string
  · obtain ⟨s, rfl⟩ := Json.exists_eq_string hkind
    by_cases hshort : nonEmpty = true ∧ s = ("" : Text)
    · obtain ⟨rfl, rfl⟩ := hshort
      refine Reports.singleton (.tooShort rfl) fun place issue h => ?_
      cases h with
      | notText h => exact absurd hkind h
      | tooShort => exact ⟨rfl, rfl⟩
    · rw [textIssues, if_neg (by simpa [Text.isEmpty_iff] using hshort)]
      refine Reports.nil fun place issue h => ?_
      cases h with
      | notText h => exact h hkind
      | tooShort h => exact hshort ⟨h, rfl⟩
  · have hsome : textIssues nonEmpty v = [⟨[], .wrongKind "string" v.kind⟩] := by
      cases v <;> first | rfl | exact absurd rfl hkind
    rw [hsome]
    refine Reports.singleton (.notText hkind) fun place issue h => ?_
    cases h with
    | notText => exact ⟨rfl, rfl⟩
    | tooShort => exact absurd rfl hkind

/-- The items of a list are examined one by one, each under its position. -/
theorem itemIssues_eq_flatMap (nonEmpty : Bool) (position : Nat) (items : List Json) :
    itemIssues nonEmpty position items = (items.zipIdx position).flatMap fun item =>
      (textIssues nonEmpty item.1).map (Issue.under (String.ofList (Nat.toDigits 10 item.2))) := by
  induction items generalizing position with
  | nil => rfl
  | cons v rest ih => rw [itemIssues, ih, List.zipIdx_cons, List.flatMap_cons]

/-- What is wrong with a flag is reported. -/
theorem reports_flag (v : Json) : Reports (contentIssues .flag v) (ContentWrong .flag v) := by
  by_cases hkind : v.kind = .bool
  · obtain ⟨b, rfl⟩ := Json.exists_eq_bool hkind
    refine Reports.nil fun place issue h => ?_
    cases h with
    | notFlag h => exact h hkind
  · have hsome : contentIssues .flag v = [⟨[], .wrongKind "boolean" v.kind⟩] := by
      cases v <;> first | rfl | exact absurd rfl hkind
    rw [hsome]
    refine Reports.singleton (.notFlag hkind) fun place issue h => ?_
    cases h with
    | notFlag => exact ⟨rfl, rfl⟩

/-- What is wrong with a choice between options is reported. -/
theorem reports_choice (options : List Text) (v : Json) :
    Reports (contentIssues (.choice options) v) (ContentWrong (.choice options) v) := by
  by_cases hkind : v.kind = .string
  · obtain ⟨s, rfl⟩ := Json.exists_eq_string hkind
    by_cases hoption : s ∈ options
    · rw [contentIssues, if_pos hoption]
      refine Reports.nil fun place issue h => ?_
      cases h with
      | notText h => exact h hkind
      | notAnOption h => exact h hoption
    · rw [contentIssues, if_neg hoption]
      refine Reports.singleton (.notAnOption hoption) fun place issue h => ?_
      cases h with
      | notText h => exact absurd hkind h
      | notAnOption => exact ⟨rfl, rfl⟩
  · have hsome : contentIssues (.choice options) v =
        [⟨[], .wrongKind (optionList options) v.kind⟩] := by
      cases v <;> first | rfl | exact absurd rfl hkind
    rw [hsome]
    refine Reports.singleton (.notText hkind) fun place issue h => ?_
    cases h with
    | notText => exact ⟨rfl, rfl⟩
    | notAnOption => exact absurd rfl hkind

/-- What is wrong with a list of texts is reported. -/
theorem reports_texts (nonEmpty : Bool) (v : Json) :
    Reports (contentIssues (.texts nonEmpty) v) (ContentWrong (.texts nonEmpty) v) := by
  by_cases hkind : v.kind = .array
  · obtain ⟨items, rfl⟩ := Json.exists_eq_array hkind
    rw [contentIssues, itemIssues_eq_flatMap]
    refine (Reports.flatMap _ fun item _ =>
      (reports_textIssues nonEmpty item.1).under _).congr fun place issue => ?_
    constructor
    · rintro ⟨i, ⟨v, position⟩, inner, hitem, rfl, issue, h, rfl⟩
      obtain ⟨hv, rfl⟩ : items[i]? = some v ∧ i = position := by
        simpa [List.getElem?_zipIdx] using hitem
      exact .item hv h
    · intro h
      cases h with
      | notList h => exact absurd hkind h
      | @item _ _ i v inner issue hitem h =>
        exact ⟨i, (v, i), inner, by simp [List.getElem?_zipIdx, hitem], rfl, issue, h, rfl⟩
  · have hsome : contentIssues (.texts nonEmpty) v = [⟨[], .wrongKind "array" v.kind⟩] := by
      cases v <;> first | rfl | exact absurd rfl hkind
    rw [hsome]
    refine Reports.singleton (.notList hkind) fun place issue h => ?_
    cases h with
    | notList => exact ⟨rfl, rfl⟩
    | item => exact absurd rfl hkind

/-- What is wrong with what a field holds is reported. -/
theorem reports_contentIssues (content : Content) (v : Json) :
    Reports (contentIssues content v) (ContentWrong content v) := by
  cases content with
  | text nonEmpty =>
    refine (reports_textIssues nonEmpty v).congr fun place issue => ⟨.text, fun h => ?_⟩
    cases h with
    | text h => exact h
  | flag => exact reports_flag v
  | choice options => exact reports_choice options v
  | texts nonEmpty => exact reports_texts nonEmpty v

variable {entries : List (Text × Json)}

/-- What is wrong with one field of a member is reported. -/
theorem reports_fieldIssues (hentries : (entries.map Prod.fst).Nodup) (field : Field) :
    Reports (fieldIssues entries field) fun place issue =>
      (field.required = true ∧ field.key ∉ entries.map Prod.fst ∧
        place = [] ∧ issue = ⟨[field.key], .missing⟩) ∨
      ∃ v inner, (field.key, v) ∈ entries ∧ ContentWrong field.content v place inner ∧
        issue = inner.under field.key := by
  rw [fieldIssues]
  cases hfind : Dictionary.find? field.key entries with
  | some v =>
    have hv := (Dictionary.find?_eq_some_iff hentries).1 hfind
    refine ((reports_contentIssues field.content v).under field.key).congr fun place issue => ?_
    constructor
    · rintro ⟨inner, h, rfl⟩
      exact .inr ⟨v, inner, hv, h, rfl⟩
    · rintro (⟨-, hkey, -⟩ | ⟨v', inner, hv', h, rfl⟩)
      · exact absurd (List.mem_map_of_mem hv) hkey
      · rw [← Dictionary.find?_eq_some_iff hentries, hfind] at hv'
        obtain rfl := Option.some.inj hv'
        exact ⟨inner, h, rfl⟩
  | none =>
    have hkey := Dictionary.find?_eq_none_iff.1 hfind
    have hno : ∀ v, (field.key, v) ∉ entries := fun v hv => hkey (List.mem_map_of_mem hv)
    cases hrequired : field.required with
    | true => exact Reports.singleton (.inl ⟨rfl, hkey, rfl, rfl⟩) fun place issue => by simp [hno]
    | false => exact Reports.nil fun place issue => by simp [hno]

/-- The unknown keys of an object are reported, if there are any. -/
theorem reports_unknownKeyIssues (known : List Text) (entries : List (Text × Json)) :
    Reports (unknownKeyIssues known entries) fun place issue => place = [] ∧
      ∃ unknown, unknown = (entries.map Prod.fst).filter (· ∉ known) ∧ unknown ≠ [] ∧
        issue = ⟨[], .unknownKeys unknown⟩ := by
  rw [unknownKeyIssues]
  by_cases hunknown : (entries.map Prod.fst).filter (· ∉ known) = []
  · simp only [hunknown, List.isEmpty_nil, if_true]
    exact Reports.nil fun place issue => by simp
  · rw [if_neg (mt List.isEmpty_iff.1 hunknown)]
    refine Reports.singleton ⟨rfl, _, rfl, hunknown, rfl⟩ ?_
    rintro place issue ⟨rfl, unknown, rfl, -, rfl⟩
    exact ⟨rfl, rfl⟩

/-- What is wrong with a member is reported. -/
theorem reports_memberIssues (fields : List Field) (v : Json) :
    Reports (memberIssues fields v) (MemberWrong fields v) := by
  by_cases hkind : v.kind = .object
  · obtain ⟨written, rfl⟩ := Json.exists_eq_object hkind
    have hfields := Reports.flatMap fields fun field _ =>
      reports_fieldIssues (Json.entries_keys_nodup written) field
    have hunknown := (reports_unknownKeyIssues (fields.map Field.key)
      (Json.entries written)).within fields.length
    refine (hfields.append hunknown ?_).congr fun place issue => ⟨?_, fun h => ?_⟩
    · rintro _ _ _ _ ⟨i, field, inner, hfield, rfl, -⟩ ⟨inner', rfl, -⟩
      exact List.cons_lt_cons_iff.2 (.inl (List.getElem?_eq_some_iff.1 hfield).1)
    · rintro (⟨i, field, inner, hfield, rfl, h⟩ | ⟨_, rfl, rfl, unknown, hunknown, hne, rfl⟩)
      · rcases h with ⟨hrequired, hkey, rfl, rfl⟩ | ⟨v, issue, hv, h, rfl⟩
        · exact .missing hfield hrequired hkey
        · exact .content hfield hv h
      · exact .unknownKeys hunknown hne
    · cases h with
      | notObject h => exact absurd hkind h
      | missing hfield hrequired hkey =>
        exact .inl ⟨_, _, _, hfield, rfl, .inl ⟨hrequired, hkey, rfl, rfl⟩⟩
      | content hfield hv h => exact .inl ⟨_, _, _, hfield, rfl, .inr ⟨_, _, hv, h, rfl⟩⟩
      | unknownKeys hunknown hne => exact .inr ⟨_, rfl, rfl, _, hunknown, hne, rfl⟩
  · have hsome : memberIssues fields v = [⟨[], .wrongKind "object" v.kind⟩] := by
      cases v <;> first | rfl | exact absurd rfl hkind
    rw [hsome]
    refine Reports.singleton (.notObject hkind) fun place issue h => ?_
    cases h with
    | notObject => exact ⟨rfl, rfl⟩
    | missing | content | unknownKeys => exact absurd rfl hkind

/-- What is wrong with an entry of a collection is reported, with its key before its member. -/
theorem reports_entryIssues (fields : List Field) (entry : Text × Json) :
    Reports (entryIssues fields entry) fun place issue =>
      (entry.1 = ("" : Text) ∧ place = [0] ∧ issue = ⟨[""], .tooShort⟩) ∨
      ∃ inner below, place = 1 :: inner ∧ MemberWrong fields entry.2 inner below ∧
        issue = below.under entry.1 := by
  have hkey := (reports_textIssues true (.string entry.1)).within 0
  have hmember := (reports_memberIssues fields entry.2).within 1
  refine ((hkey.append hmember ?_).under entry.1).congr fun place issue => ⟨?_, ?_⟩
  · rintro _ _ _ _ ⟨inner, rfl, -⟩ ⟨inner', rfl, -⟩
    exact List.cons_lt_cons_iff.2 (.inl Nat.zero_lt_one)
  · rintro ⟨below, ⟨inner, rfl, h⟩ | ⟨inner, rfl, h⟩, rfl⟩
    · cases hentry : entry.1 with
      | mk units =>
        rw [hentry] at h
        cases h with
        | notText h => exact absurd rfl h
        | tooShort => exact .inl ⟨rfl, rfl, rfl⟩
    · exact .inr ⟨inner, below, rfl, h, rfl⟩
  · rintro (⟨hempty, rfl, rfl⟩ | ⟨inner, below, rfl, h, rfl⟩)
    · rw [hempty]
      exact ⟨_, .inl ⟨[], rfl, .tooShort rfl⟩, rfl⟩
    · exact ⟨below, .inr ⟨inner, rfl, h⟩, rfl⟩

/-- What is wrong with a collection is reported. -/
theorem reports_collectionIssues (fields : List Field) (v : Json) :
    Reports (collectionIssues fields v) (CollectionWrong fields v) := by
  by_cases hkind : v.kind = .object
  · obtain ⟨written, rfl⟩ := Json.exists_eq_object hkind
    refine (Reports.flatMap (Json.entries written) fun entry _ =>
      reports_entryIssues fields entry).congr fun place issue => ⟨?_, fun h => ?_⟩
    · rintro ⟨i, ⟨key, v⟩, _, hentry, rfl, ⟨rfl, rfl, rfl⟩ | ⟨inner, below, rfl, h, rfl⟩⟩
      · exact .emptyKey hentry
      · exact .member hentry h
    · cases h with
      | notObject h => exact absurd hkind h
      | emptyKey hentry => exact ⟨_, _, _, hentry, rfl, .inl ⟨rfl, rfl, rfl⟩⟩
      | member hentry h => exact ⟨_, _, _, hentry, rfl, .inr ⟨_, _, rfl, h, rfl⟩⟩
  · have hsome : collectionIssues fields v = [⟨[], .wrongKind "object" v.kind⟩] := by
      cases v <;> first | rfl | exact absurd rfl hkind
    rw [hsome]
    refine Reports.singleton (.notObject hkind) fun place issue h => ?_
    cases h with
    | notObject => exact ⟨rfl, rfl⟩
    | emptyKey | member => exact absurd rfl hkind

/-- What is wrong with a part of a document is reported. -/
theorem reports_partIssues (hentries : (entries.map Prod.fst).Nodup) (part : Collection) :
    Reports (partIssues entries part) fun place issue => ∃ v inner, (part.key, v) ∈ entries ∧
      CollectionWrong part.fields v place inner ∧ issue = inner.under part.key := by
  rw [partIssues]
  cases hfind : Dictionary.find? part.key entries with
  | some v =>
    have hv := (Dictionary.find?_eq_some_iff hentries).1 hfind
    refine ((reports_collectionIssues part.fields v).under part.key).congr fun place issue => ?_
    constructor
    · rintro ⟨inner, h, rfl⟩
      exact ⟨v, inner, hv, h, rfl⟩
    · rintro ⟨v', inner, hv', h, rfl⟩
      rw [← Dictionary.find?_eq_some_iff hentries, hfind] at hv'
      obtain rfl := Option.some.inj hv'
      exact ⟨inner, h, rfl⟩
  | none =>
    refine Reports.nil ?_
    rintro place issue ⟨v, inner, hv, -⟩
    exact Dictionary.find?_eq_none_iff.1 hfind (List.mem_map_of_mem hv)

/-- What is wrong with a document is reported. -/
theorem reports_documentIssues (document : Option Json) :
    Reports (documentIssues document) (DocumentWrong document) := by
  cases document with
  | none =>
    refine Reports.singleton .missing fun place issue h => ?_
    cases h with
    | missing => exact ⟨rfl, rfl⟩
  | some v =>
    by_cases hkind : v.kind = .object
    · obtain ⟨written, rfl⟩ := Json.exists_eq_object hkind
      have hparts := Reports.flatMap collections fun part _ =>
        reports_partIssues (Json.entries_keys_nodup written) part
      have hunknown := (reports_unknownKeyIssues (collections.map Collection.key)
        (Json.entries written)).within collections.length
      refine (hparts.append hunknown ?_).congr fun place issue => ⟨?_, fun h => ?_⟩
      · rintro _ _ _ _ ⟨i, part, inner, hpart, rfl, -⟩ ⟨inner', rfl, -⟩
        exact List.cons_lt_cons_iff.2 (.inl (List.getElem?_eq_some_iff.1 hpart).1)
      · rintro (⟨i, part, inner, hpart, rfl, v, issue, hv, h, rfl⟩ |
          ⟨_, rfl, rfl, unknown, hunknown, hne, rfl⟩)
        · exact .collection hpart hv h
        · exact .unknownKeys hunknown hne
      · cases h with
        | notObject h => exact absurd hkind h
        | collection hpart hv h => exact .inl ⟨_, _, _, hpart, rfl, _, _, hv, h, rfl⟩
        | unknownKeys hunknown hne => exact .inr ⟨_, rfl, rfl, _, hunknown, hne, rfl⟩
    · have hsome : documentIssues (some v) = [⟨[], .wrongKind "object" v.kind⟩] := by
        cases v <;> first | rfl | exact absurd rfl hkind
      rw [hsome]
      refine Reports.singleton (.notObject hkind) fun place issue h => ?_
      cases h with
      | notObject => exact ⟨rfl, rfl⟩
      | collection | unknownKeys => exact absurd rfl hkind

end DagSelect.Schema
