import DagSelect.Listing
import DagSelect.Proofs.Json.Enumeration
import DagSelect.Proofs.Json.RoundTrip

/-!
# What a JSON listing tells

A JSON listing is a text that the parser of documents reads, as a list with one object for each
member: the member's identifier, its name and the name of its kind, and nothing else. Whatever
characters these hold, they are read back as they are, so the text determines what is told of the
members.
-/

namespace DagSelect

variable {members others : List Member}

/-- Kinds of resource with the same written name are equal. -/
theorem ResourceKind.name_injective : Function.Injective ResourceKind.name := by
  have hfound : ofName? ∘ name = some := funext ofName?_name
  apply Function.Injective.of_comp (f := ofName?)
  rw [hfound]
  exact fun _ _ => Option.some.inj

namespace Member

variable {m m' : Member}

/-- The fields of a member's summary. -/
def listedFields (m : Member) : List (Text × Json) :=
  [("uniqueId", .string m.id), ("name", .string m.name),
    ("resourceType", .string m.resourceKind.name)]

/-- They are read as they stand, since their keys are distinct and none is an array index. -/
theorem entries_listedFields (m : Member) : Json.entries m.listedFields = m.listedFields := by
  have hkeys : m.listedFields.map Prod.fst = ["uniqueId", "name", "resourceType"] := rfl
  refine Json.entries_eq_self_of_names ?_ ?_
  · rw [hkeys]
    decide
  · rw [hkeys]
    decide

/-- What a JSON listing tells of a member: its identifier, its name and its kind. -/
def told (m : Member) : Text × Text × ResourceKind := (m.id, m.name, m.resourceKind)

/-- Summaries agree if and only if they tell the same. -/
theorem summary_eq_iff : m.summary = m'.summary ↔ m.told = m'.told := by
  simp [summary, told, Text.ofString_inj, ResourceKind.name_injective.eq_iff]

/-- So do lists of them. -/
theorem map_summary_eq_iff :
    others.map summary = members.map summary ↔ others.map told = members.map told := by
  simp only [← List.forall₂_eq_eq_eq, List.forall₂_map_left_iff, List.forall₂_map_right_iff,
    summary_eq_iff]

end Member

/-- JSON listings are the same text if and only if they tell the same of the same number of members,
in the same order. -/
theorem formatListing_json_eq_iff : formatListing others .json = formatListing members .json ↔
    others.map Member.told = members.map Member.told := by
  rw [formatListing, formatListing, Text.ofString_inj, Json.pretty_injective.eq_iff,
    Json.array.injEq, Member.map_summary_eq_iff]

/-- Every JSON listing is a text that is read as a list of objects, which are in order the
identifiers, names and kinds of the members; and only listings of members that agree on these are
the same text. -/
theorem formatListing_json_tells (members : List Member) :
    (∃ (text : String) (rows : List (List (Text × Json))),
      formatListing members .json = Text.ofString text ∧
      Json.parse? text = some (.array (rows.map .object)) ∧
      rows.map Json.entries = members.map fun m =>
        ([("uniqueId", .string m.id), ("name", .string m.name),
          ("resourceType", .string m.resourceKind.name)] : List (Text × Json))) ∧
    ∀ others, formatListing others .json = formatListing members .json ↔
      others.map Member.told = members.map Member.told := by
  refine ⟨⟨_, members.map Member.listedFields, rfl, ?_, ?_⟩, fun others =>
    formatListing_json_eq_iff⟩
  · rw [Json.parse?_pretty, List.map_map]
    rfl
  · rw [List.map_map]
    exact List.map_congr_left fun m _ => m.entries_listedFields

-- The layout of a listing, with a quotation mark and a line feed of a name escaped.
example :
    let m : Member := ⟨"a.b", "say \"hi\"\n", "", [], "", [], true, [], .source "b"⟩
    formatListing [m] .json = Text.ofString ("[\n  \x7b\n" ++ "    \"uniqueId\": \"a.b\",\n" ++
      "    \"name\": \"say \\\"hi\\\"\\n\",\n" ++
      "    \"resourceType\": \"source\"\n" ++ "  \x7d\n]") := by
  decide +kernel

end DagSelect
