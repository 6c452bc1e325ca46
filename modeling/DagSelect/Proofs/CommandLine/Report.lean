import DagSelect.Proofs.CommandLine.Invocation
import DagSelect.Proofs.Json.RoundTrip

/-!
# The report of a listing

Arguments that ask for a listing carry it out, and every listing can be asked for. If it succeeds
its report is one text, besides the progress and the diagnostics that are written elsewhere. The
JSON report reads back as the summaries of the members that are listed. Only if there are none, the
report is a sentence in either format and no JSON.
-/

namespace DagSelect.CommandLine

variable {around : Surroundings} {args : List String} {path : String} {format : ListingFormat}
  {request : SelectionRequest} {m : Manifest} {listed : Logged (List Member)}

/-- Whether arguments ask for the listing that a request describes, in a format and of a manifest
file: the command's name is the first operand, and its options are scanned with nothing left
over. -/
def AsksForListing (args : List String) (path : String) (format : ListingFormat)
    (request : SelectionRequest) : Prop :=
  ∃ top s, scan [.version] none false args = .ok top ∧
    top.operands.head? = some Command.ls.name ∧
    scan Command.ls.flags none false top.leftOver = .ok s ∧ s.leftOver = [] ∧
    s.last? .manifest = some path ∧
    ListingFormat.ofName? ((s.last? .output).getD ListingFormat.text.name) = some format ∧
    selectionRequest s = request

/-- Arguments that ask for a listing ask for an invocation with the written format. -/
theorem asksForListing_iff : AsksForListing args path format request ↔
    ∃ written, ListingFormat.ofName? written = some format ∧
      Invocation.IsAskedBy ⟨.ls, path, written, request⟩ args := by
  constructor
  · rintro ⟨top, s, htop, hname, hs, hleft, hpath, hformat, hrequest⟩
    exact ⟨_, hformat, top, s, htop, hname, hs, hleft, hpath, rfl, hrequest⟩
  · rintro ⟨written, hformat, top, s, htop, hname, hs, hleft, hpath, rfl, hrequest⟩
    exact ⟨top, s, htop, hname, hs, hleft, hpath, hformat, hrequest⟩

/-- A run that is asked for a listing carries it out. -/
theorem run_of_asksForListing (h : AsksForListing args path format request) :
    run around args = carryOut around .ls format path request := by
  obtain ⟨written, hformat, hasked⟩ := asksForListing_iff.1 h
  rw [hasked.run_eq around]
  simp only [hformat]

/-- The options of a listing, with the lists of texts repeated text by text. -/
def listingOptions (path : String) (format : ListingFormat) (request : SelectionRequest) :
    List (Flag × String) :=
  (.manifest, path) :: (request.arguments.select.map (Prod.mk .select) ++
    request.arguments.exclude.map (Prod.mk .exclude) ++
    request.resourceTypes.map (Prod.mk .resourceType) ++
    (if request.arguments.greedy then [(.greedy, "")] else []) ++ [(.output, format.name)])

/-- Arguments for a listing. -/
def listingArguments (path : String) (format : ListingFormat) (request : SelectionRequest) :
    List String :=
  Command.ls.name :: (listingOptions path format request).map optionText

/-- The arguments for a listing ask for it. -/
theorem asksForListing_listingArguments (path : String) (format : ListingFormat)
    (request : SelectionRequest) :
    AsksForListing (listingArguments path format request) path format request := by
  have hasked : Invocation.IsAskedBy ⟨.ls, path, format.name, request⟩
      (listingArguments path format request) :=
    Invocation.isAskedBy_arguments fun hqueue => by contradiction
  exact asksForListing_iff.2 ⟨_, ListingFormat.ofName?_name format, hasked⟩

/-- The texts that a run reports, in order. -/
def Outcome.reports (o : Outcome) : List Text :=
  (o.output.filter fun piece => piece.channel = .report).map Output.text

/-- What a listing reports: that nothing is selected, or the listing in its format. -/
def listingText (members : List Member) (format : ListingFormat) : Text :=
  if members.isEmpty then "선택된 노드가 없습니다." else formatListing members format

/-- The report of a listing is one text. -/
theorem listingReport_eq (members : List Member) (format : ListingFormat) :
    listingReport members format = [⟨.report, listingText members format⟩] := by
  rw [listingReport, listingText]
  split <;> rfl

/-- A listing that succeeds sets no exit code and reports one text. -/
theorem run_of_listing (hm : openManifest around path = .ok m)
    (hlisted : listing m request = .ok listed)
    (hargs : AsksForListing args path format request) :
    (run around args).exit = none ∧
      (run around args).reports = [listingText listed.value format] := by
  have hrun : run around args =
      ⟨loading :: loaded m :: (diagnostics around listed.log ++
        [⟨.report, listingText listed.value format⟩]), none⟩ := by
    rw [run_of_asksForListing hargs, carryOut, hm]
    simp only [report, hlisted, ← listingReport_eq]
    rfl
  rw [hrun]
  exact ⟨rfl, by simp [Outcome.reports, loading, loaded, progress, diagnostics]⟩

/-- If a manifest file can be opened and a request for a listing succeeds, the JSON listing can be
asked for; and whatever arguments ask for it, the run sets no exit code and reports one text, which
reads back as the summaries of the listed members unless there are none. -/
theorem json_listing (hm : openManifest around path = .ok m)
    (hlisted : listing m request = .ok listed) :
    (∃ args, AsksForListing args path .json request) ∧
    ∀ args, AsksForListing args path .json request →
      (run around args).exit = none ∧
      ∃ text : String, (run around args).reports = [Text.ofString text] ∧
        (listed.value ≠ [] →
          Json.parse? text = some (.array (listed.value.map Member.summary))) := by
  refine ⟨⟨_, asksForListing_listingArguments path .json request⟩, fun args hargs => ?_⟩
  obtain ⟨hexit, hreports⟩ := run_of_listing hm hlisted hargs
  refine ⟨hexit, ?_⟩
  rw [hreports, listingText]
  cases hempty : listed.value.isEmpty with
  | true => exact ⟨_, rfl, fun hne => absurd (List.isEmpty_iff.1 hempty) hne⟩
  | false => exact ⟨_, rfl, fun _ => Json.parse?_pretty _⟩

namespace Sample

/-- Surroundings in which every file holds the same text. -/
def holding (text : String) : Surroundings :=
  ⟨none, "/", fun _ => .ok text, fun _ => "Unexpected end of JSON input"⟩

/-- A request in which nothing is said about the selection. -/
def plainRequest : SelectionRequest := ⟨⟨[], [], false⟩, []⟩

/-- Arguments for its JSON listing. -/
def plainArguments : List String := ["ls", "--manifest=m.json", "--output=json"]

/-- They ask for it. -/
theorem asksForListing_plainArguments :
    AsksForListing plainArguments "m.json" .json plainRequest := by
  have h : plainArguments = listingArguments "m.json" .json plainRequest := by decide
  rw [h]
  exact asksForListing_listingArguments "m.json" .json plainRequest

/-- A document with one node. -/
def single : Json :=
  .object [("nodes", .object [("model.shop.orders", .object [("name", .string "orders"),
    ("resourceType", .string "model")])])]

/-- The node of the document. -/
def orders : Member :=
  { id := "model.shop.orders"
    name := "orders"
    package := "shop"
    qualifiedName := ["shop", "orders"]
    path := ""
    tags := []
    enabled := true
    dependsOn := []
    role := .node .model false }

end Sample

/-- The JSON listing of a file with one node reads back as a list of its summary. -/
theorem json_listing_sample : ∃ m listed,
    openManifest (Sample.holding Sample.single.pretty) "m.json" = .ok m ∧
    listing m Sample.plainRequest = .ok listed ∧ listed.value = [Sample.orders] ∧
    ∃ text : String,
      (run (Sample.holding Sample.single.pretty) Sample.plainArguments).reports =
        [Text.ofString text] ∧
      Json.parse? text = some (.array [.object [("uniqueId", .string "model.shop.orders"),
        ("name", .string "orders"), ("resourceType", .string "model")]]) := by
  obtain ⟨m, hm⟩ := Except.exists_eq_ok
    (x := openManifest (Sample.holding Sample.single.pretty) "m.json") (by decide +kernel)
  have hcheck : (openManifest (Sample.holding Sample.single.pretty) "m.json").toOption.all
      (fun m => (listing m Sample.plainRequest).isOk &&
        (listing m Sample.plainRequest).toOption.all fun listed =>
          listed.value = [Sample.orders]) = true := by
    decide +kernel
  rw [hm] at hcheck
  simp only [Except.toOption, Option.all_some, Bool.and_eq_true] at hcheck
  obtain ⟨hlisting, hvalue⟩ := hcheck
  obtain ⟨listed, hlisted⟩ := Except.exists_eq_ok hlisting
  rw [hlisted] at hvalue
  have horders : listed.value = [Sample.orders] := of_decide_eq_true hvalue
  obtain ⟨-, hall⟩ := json_listing hm hlisted
  obtain ⟨-, text, hreports, hparse⟩ := hall _ Sample.asksForListing_plainArguments
  rw [horders] at hparse
  exact ⟨m, listed, hm, hlisted, horders, text, hreports, hparse (List.cons_ne_nil _ _)⟩

/-- The file of an empty document can be opened and nothing of it is listed, but the JSON listing
that is asked for reports a sentence and no JSON. -/
theorem json_listing_empty : ∃ m listed,
    openManifest (Sample.holding "\x7b\x7d") "m.json" = .ok m ∧
    listing m Sample.plainRequest = .ok listed ∧ listed.value = [] ∧
    AsksForListing Sample.plainArguments "m.json" .json Sample.plainRequest ∧
    (run (Sample.holding "\x7b\x7d") Sample.plainArguments).reports =
      [Text.ofString "선택된 노드가 없습니다."] ∧
    Json.parse? "선택된 노드가 없습니다." = none := by
  obtain ⟨m, hm⟩ := Except.exists_eq_ok
    (x := openManifest (Sample.holding "\x7b\x7d") "m.json") (by decide +kernel)
  have hcheck : (openManifest (Sample.holding "\x7b\x7d") "m.json").toOption.all (fun m =>
      (listing m Sample.plainRequest).isOk &&
        (listing m Sample.plainRequest).toOption.all fun listed =>
          listed.value.isEmpty) = true := by
    decide +kernel
  rw [hm] at hcheck
  simp only [Except.toOption, Option.all_some, Bool.and_eq_true] at hcheck
  obtain ⟨hlisting, hempty⟩ := hcheck
  obtain ⟨listed, hlisted⟩ := Except.exists_eq_ok hlisting
  rw [hlisted] at hempty
  have hnil : listed.value = [] := List.isEmpty_iff.1 hempty
  refine ⟨m, listed, hm, hlisted, hnil, Sample.asksForListing_plainArguments, ?_, rfl⟩
  rw [(run_of_listing hm hlisted Sample.asksForListing_plainArguments).2, hnil]
  rfl

end DagSelect.CommandLine
