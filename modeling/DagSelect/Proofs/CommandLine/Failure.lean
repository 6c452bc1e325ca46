import DagSelect.Proofs.CommandLine.Requirement

/-!
# How a command fails

If something is missing that a command needs, the run writes the error about the first of it and
nothing else besides its progress, and exits with code 1: no part of a report comes before an error.
If nothing is missing it does not fail any more, since all that the selection and the report look up
is there.
-/

namespace DagSelect.CommandLine

variable {m : Manifest} {g : Graph} {request : SelectionRequest} {filter : ResourceFilter}
variable {spec : Spec}

/-- A command on a manifest fails as the preparation of its request does. -/
theorem report_eq_error {around : Surroundings} {command : Command} {format : ListingFormat}
    {error : SelectionError} (h : request.prepare m = .error error) :
    report around command format m request = .error error := by
  cases command with
  | ls =>
    rw [report, listing, h]
    rfl
  | queue =>
    rw [report, plan, h]
    rfl

/-- A command on a manifest with a graph reports something, if its request can be read and no member
has the identifier that is never listed. -/
theorem exists_report (around : Surroundings) (command : Command) (format : ListingFormat)
    (hg : m.graph = .ok g) (hfilter : request.filter = .ok filter)
    (hspec : request.arguments.parse = .ok spec) (hvoid : Text.voidKey ∉ m.ids) :
    ∃ output, report around command format m request = .ok output := by
  cases command with
  | ls =>
    obtain ⟨listed, leftOut, -, -, hlisting⟩ := listing_spec hg hfilter hspec rfl
    rw [report, hlisting]
    exact ⟨_, rfl⟩
  | queue =>
    obtain ⟨order, horder, hknown⟩ := exists_plan hg hfilter hspec hvoid
    obtain ⟨members, hmembers, -⟩ := Manifest.mapM_get hknown
    rw [report, horder, Except.ok_bind, hmembers]
    exact ⟨_, rfl⟩

/-- The output of a run without its progress. -/
def Outcome.withoutProgress (o : Outcome) : List Output :=
  o.output.filter fun piece => piece.channel ≠ .stderr

namespace Invocation

variable {inv : Invocation} {around : Surroundings} {args : List String}

/-- Whether something is the first that a command needs and that is missing, and the error about
that. -/
def BreaksFirst (inv : Invocation) (around : Surroundings) (r : Requirement) (text : Text) : Prop :=
  inv.Breaks around r text ∧ ∀ earlier ∈ r.earlier, inv.Meets around earlier

/-- A manifest file is opened by reading its content and then the manifest in that. -/
theorem openManifest_eq (inv : Invocation) (around : Surroundings) :
    openManifest around inv.path = (do
      let text ← (inv.content around).mapError (.unreadable (inv.absolute around))
      (readManifest around.notJsonReason (inv.absolute around) text).mapError
        fun e => .selection (.manifest e)) := by
  rw [openManifest, content, absolute]
  split <;> rfl

/-- A document has no manifest because of the first of what is needed of it, and otherwise it
describes the members of the manifest. -/
theorem HoldsJson.ofDocument_cases {document : Json} (hjson : inv.HoldsJson around document) :
    (∃ m, Manifest.ofDocument (some document) = .ok m ∧ inv.Describes around m.members) ∨
    ∃ error r, Manifest.ofDocument (some document) = .error error ∧
      inv.Breaks around r error.message ∧
      ∀ earlier ∈ r.earlier, earlier = .format ∨ inv.Meets around earlier := by
  by_cases hschema : Schema.Accepts (some document)
  · obtain ⟨written, hwritten, hdocument⟩ := hschema
    obtain rfl := Option.some.inj hwritten
    have hmembers : inv.Describes around (Manifest.documentMembers (.object written)) :=
      ⟨written, hjson, hdocument, Manifest.describesAll_documentMembers hdocument⟩
    rw [Manifest.ofDocument_of_isDocument hdocument]
    by_cases hnodup : ((Manifest.documentMembers (.object written)).map Member.id).Nodup
    · exact .inl ⟨⟨_, hnodup⟩, Manifest.ofMembers_eq_ok_iff.2 rfl, hmembers⟩
    · obtain ⟨id, herror, hid⟩ := Manifest.ofMembers_eq_error hnodup
      refine .inr ⟨_, .distinctIds, herror, .distinctIds hmembers hid, ?_⟩
      simpa using ⟨hjson.meets_file, hjson.meets_json, hmembers.meets_schema⟩
  · refine .inr ⟨_, .schema, Manifest.ofDocument_of_not_accepts hschema,
      .schema hjson hschema (Schema.reports_documentIssues _), ?_⟩
    simpa using ⟨hjson.meets_file, hjson.meets_json⟩

/-- A manifest file cannot be opened because of the first of what is needed for that, and otherwise
it describes the members of the manifest. -/
theorem openManifest_cases (inv : Invocation) (around : Surroundings) :
    (∃ m, openManifest around inv.path = .ok m ∧ inv.Describes around m.members) ∨
    ∃ failure r, openManifest around inv.path = .error failure ∧
      inv.Breaks around r failure.message ∧
      ∀ earlier ∈ r.earlier, earlier = .format ∨ inv.Meets around earlier := by
  rw [openManifest_eq]
  cases hcontent : inv.content around with
  | error error =>
    refine .inr ⟨_, .file, rfl, .file hcontent, ?_⟩
    simp
  | ok text =>
    rw [Except.ok_mapError, Except.ok_bind, readManifest]
    cases hparse : Json.parse? text with
    | none =>
      refine .inr ⟨_, .json, rfl, .json hcontent hparse, ?_⟩
      simpa using meets_file hcontent
    | some document =>
      have hjson : inv.HoldsJson around document := ⟨text, hcontent, hparse⟩
      rcases hjson.ofDocument_cases with ⟨m, hm, hmembers⟩ | ⟨error, r, herror, hbreaks, hearlier⟩
      · simp only [hm]
        exact .inl ⟨m, rfl, hmembers⟩
      · simp only [herror]
        exact .inr ⟨_, r, rfl, hbreaks, hearlier⟩

/-- A request cannot be prepared because of the first of what is needed after the manifest, and
otherwise its parts can be read. -/
theorem prepare_cases (h : inv.Describes around m.members) :
    (∃ g filter spec, m.graph = .ok g ∧ inv.request.filter = .ok filter ∧
      inv.request.arguments.parse = .ok spec ∧
      ∀ r ∈ [.parents, .kinds, .selection, .exclusion], inv.Meets around r) ∨
    ∃ error r, inv.request.prepare m = .error error ∧ inv.Breaks around r error.message ∧
      ∀ earlier ∈ r.earlier, earlier ∈ Requirement.parents.earlier ∨ inv.Meets around earlier := by
  cases hg : m.graph with
  | error error =>
    obtain ⟨x, parent, hparent, rfl⟩ := Manifest.graph_eq_error_iff.1 hg
    exact .inr ⟨_, .parents, SelectionRequest.prepare_of_graph hg, .parents h hparent,
      fun _ => .inl⟩
  | ok g =>
    cases hfilter : inv.request.filter with
    | error error =>
      obtain ⟨name, hname, rfl⟩ := SelectionRequest.filter_eq_error_iff.1 hfilter
      refine .inr ⟨_, .kinds, SelectionRequest.prepare_of_filter hg hfilter, .kinds hname, ?_⟩
      simpa using h.meets_parents hg
    | ok filter =>
      have hverdict := inv.request.arguments.verdict_parse
      cases hselect : inv.request.arguments.parseSelect with
      | error error =>
        rw [hselect] at hverdict
        have hspec := Except.verdict_eq_error_iff.1 hverdict
        refine .inr ⟨_, .selection, SelectionRequest.prepare_of_parse hg hfilter hspec,
          .selection (SelectionArguments.parseSelect_eq_error_iff.1 hselect), ?_⟩
        simpa using
          ⟨h.meets_parents hg, meets_kinds hfilter⟩
      | ok included =>
        cases hexclude : inv.request.arguments.parseExclude with
        | error error =>
          rw [hselect, hexclude] at hverdict
          have hspec := Except.verdict_eq_error_iff.1 hverdict
          refine .inr ⟨_, .exclusion, SelectionRequest.prepare_of_parse hg hfilter hspec,
            .exclusion (SelectionArguments.parseExclude_eq_error_iff.1 hexclude), ?_⟩
          simpa using
            ⟨h.meets_parents hg, meets_kinds hfilter, meets_selection hselect⟩
        | ok excluded =>
          rw [hselect, hexclude] at hverdict
          obtain ⟨spec, hspec⟩ := Except.verdict_eq_ok_iff.1 hverdict
          refine .inl ⟨g, filter, spec, rfl, rfl, hspec, ?_⟩
          simpa using ⟨h.meets_parents hg, meets_kinds hfilter, meets_selection hselect,
            meets_exclusion hexclude⟩

variable {r r' : Requirement} {text text' : Text}

/-- Only one thing is the first that is missing, and there is one error about it. -/
theorem BreaksFirst.unique (h : inv.BreaksFirst around r text)
    (h' : inv.BreaksFirst around r' text') : text = text' := by
  rcases Requirement.mem_earlier_or r r' with hearlier | rfl | hearlier
  · exact absurd h.1 (h'.2 r hearlier text)
  · exact h.1.unique h'.1
  · exact absurd h'.1 (h.2 r' hearlier text')

/-- Without the written format a listing is asked for, since a plan is not given one. -/
theorem IsAskedBy.breaks_format (h : inv.IsAskedBy args)
    (hformat : ListingFormat.ofName? inv.format = none) (around : Surroundings) :
    inv.BreaksFirst around .format s!"알 수 없는 형식: {inv.format}" := by
  have hno : ∀ f : ListingFormat, f.name ≠ inv.format := by
    rintro f hname
    rw [← hname, ListingFormat.ofName?_name] at hformat
    contradiction
  have hls : inv.command = .ls := by
    cases hcommand : inv.command with
    | ls => rfl
    | queue => exact absurd (h.format_of_queue hcommand).symm (hno .text)
  refine ⟨.format hls hno, ?_⟩
  simp

/-- Either nothing is missing and a run that is asked for a command does not fail, or it writes the
error about the first thing that is, and nothing else. -/
theorem IsAskedBy.run_cases (h : inv.IsAskedBy args) (around : Surroundings) :
    ((run around args).exit = none ∧ ∀ r, inv.Meets around r) ∨
    ∃ r text, inv.BreaksFirst around r text ∧ (run around args).exit = some 1 ∧
      (run around args).withoutProgress = [⟨.message .error, text⟩] := by
  have hrun := h.run_eq around
  cases hformat : ListingFormat.ofName? inv.format with
  | none =>
    simp only [hformat] at hrun
    rw [hrun]
    exact .inr ⟨.format, _, h.breaks_format hformat around, rfl, rfl⟩
  | some format =>
    have hmeets : inv.Meets around .format := meets_format hformat
    simp only [hformat, carryOut] at hrun
    rcases inv.openManifest_cases around with
      ⟨m, hopen, hmembers⟩ | ⟨failure, r, hopen, hbreaks, hearlier⟩
    · have hbefore : ∀ r ∈ Requirement.parents.earlier, inv.Meets around r := fun r hr =>
        (hmembers.meets r hr).elim (fun heq => heq ▸ hmeets) id
      rcases prepare_cases hmembers with
        ⟨g, filter, spec, hg, hfilter, hspec, hlater⟩ | ⟨error, r, hprepare, hbreaks, hearlier⟩
      · obtain ⟨output, houtput⟩ := exists_report around inv.command format hg hfilter hspec
          hmembers.voidKey_not_mem
        simp only [hopen, houtput] at hrun
        rw [hrun]
        refine .inl ⟨rfl, fun r => ?_⟩
        exact r.mem_earlier_parents_or.elim (hbefore r) (hlater r)
      · simp only [hopen, report_eq_error hprepare] at hrun
        rw [hrun]
        exact .inr ⟨r, error.message, ⟨hbreaks, fun earlier hmem =>
          (hearlier earlier hmem).elim (hbefore earlier) id⟩, rfl, rfl⟩
    · simp only [hopen] at hrun
      rw [hrun]
      exact .inr ⟨r, failure.message, ⟨hbreaks, fun earlier hmem =>
        (hearlier earlier hmem).elim (fun heq => heq ▸ hmeets) id⟩, rfl, rfl⟩

/-- A run that is asked for a command exits with code 1 exactly if something is missing that the
command needs, and otherwise sets no exit code. If something is missing, all that it writes besides
its progress is the error about the first of it. -/
theorem fails_at_first (h : inv.IsAskedBy args) (around : Surroundings) :
    ((run around args).exit = some 1 ↔ ∃ r text, inv.Breaks around r text) ∧
    ((∀ r, inv.Meets around r) → (run around args).exit = none) ∧
    ∀ r text, inv.BreaksFirst around r text →
      (run around args).withoutProgress = [⟨.message .error, text⟩] := by
  rcases h.run_cases around with ⟨hexit, hmeets⟩ | ⟨r, text, hfirst, hexit, hwritten⟩
  · refine ⟨?_, fun _ => hexit, fun r text hfirst => absurd hfirst.1 (hmeets r text)⟩
    rw [hexit]
    exact iff_of_false nofun fun ⟨r, text, hbreaks⟩ => hmeets r text hbreaks
  · exact ⟨iff_of_true hexit ⟨r, text, hfirst.1⟩, fun hmeets => absurd hfirst.1 (hmeets r text),
      fun r' text' hfirst' => hfirst.unique hfirst' ▸ hwritten⟩

end Invocation

namespace Sample

/-- Surroundings without any file. -/
def bare : Surroundings :=
  ⟨none, "/", fun _ => .error .missing, fun _ => "Unexpected end of JSON input"⟩

/-- A plan for an unknown kind of resource and a selection with an empty part. -/
def hopeless : Invocation := ⟨.queue, "m.json", "text", ⟨⟨["orders,"], [], false⟩, ["table"]⟩⟩

/-- Without the file only that is reported, although the kind and the selection are wrong too. -/
theorem hopeless_fails_at_first :
    hopeless.IsAskedBy
      ["queue", "--manifest=m.json", "--select=orders,", "--resource-type=table"] ∧
    hopeless.Breaks bare .kinds (SelectorError.unknownResourceType "table").message ∧
    hopeless.Breaks bare .selection (SelectorError.malformed "").message ∧
    (run bare ["queue", "--manifest=m.json", "--select=orders,", "--resource-type=table"]).exit =
      some 1 ∧
    (run bare ["queue", "--manifest=m.json", "--select=orders,",
      "--resource-type=table"]).withoutProgress =
        [⟨.message .error, "ENOENT: no such file or directory, open '/m.json'"⟩] := by
  have hasked : hopeless.IsAskedBy
      ["queue", "--manifest=m.json", "--select=orders,", "--resource-type=table"] := by
    have harguments : hopeless.arguments =
        ["queue", "--manifest=m.json", "--select=orders,", "--resource-type=table"] := by
      decide
    exact harguments ▸ Invocation.isAskedBy_arguments fun _ => rfl
  have hkinds : hopeless.Breaks bare .kinds (SelectorError.unknownResourceType "table").message :=
    .kinds ⟨[], [], rfl, by simp, SelectionRequest.ofName?_eq_none_iff.1 (by decide)⟩
  have hselection : hopeless.Breaks bare .selection (SelectorError.malformed "").message := by
    refine .selection ⟨["orders"], "", [], by decide, fun earlier hearlier => ?_, rfl⟩
    rw [List.mem_singleton.1 hearlier]
    exact Except.exists_eq_ok (by decide)
  have hformat : ListingFormat.ofName? hopeless.format = some .text := by decide
  have hfirst : hopeless.BreaksFirst bare .file (ReadError.missing.message "/m.json") := by
    refine ⟨.file (by decide), ?_⟩
    simpa using Invocation.meets_format hformat
  obtain ⟨hexit, -, hwritten⟩ := Invocation.fails_at_first hasked bare
  exact ⟨hasked, hkinds, hselection, hexit.2 ⟨_, _, hselection⟩, hwritten _ _ hfirst⟩

end Sample

end DagSelect.CommandLine
