import DagSelect.Proofs.Listing
import DagSelect.Proofs.Selector.Unintelligible
import DagSelect.Proofs.Spec.Arguments

/-!
# Warnings

Only a word of the arguments is worth a warning, for it alone is marked when arguments are read. The
words are evaluated in order, what is selected before what is excluded, and each on its own: whether
a word selects nothing depends neither on the words around it nor on what is excluded. A criterion
that cannot be understood selects nothing, and so does a word with such a part; what is left about
it is a notice, which is no warning.
-/

namespace DagSelect

/-- The warnings among messages. -/
def warnings (log : List LogEntry) : List LogEntry :=
  log.filter fun entry => entry.severity = .warn

/-- The warnings of two lists of messages are those of the first, then those of the second. -/
theorem warnings_append (log more : List LogEntry) :
    warnings (log ++ more) = warnings log ++ warnings more :=
  List.filter_append ..

/-- The warnings of several lists of messages are those of each, one after another. -/
theorem warnings_flatMap {α : Type} (xs : List α) (log : α → List LogEntry) :
    warnings (xs.flatMap log) = xs.flatMap fun x => warnings (log x) :=
  List.filter_flatMap

/-- No notice about left-out tests is a warning. -/
theorem warnings_unusedTests (names : List Text) (greedyOption : String) :
    warnings (Notice.unusedTests names greedyOption) = [] := rfl

/-- A criterion is read without a warning of its own. -/
theorem Criterion.warnIfEmpty_of_parse {text : String} {greedy : Bool} {c : Criterion}
    (h : parse text greedy = .ok c) : c.warnIfEmpty = false := by
  simp only [parse] at h
  split at h
  · contradiction
  · split at h
    · contradiction
    · obtain ⟨method, -, hc⟩ := Except.bind_eq_ok_iff.1 h
      obtain rfl := Except.ok.inj hc
      rfl

namespace SelectionArguments

/-- The words of texts that can be read can be read. -/
theorem readWord_of_readUnion {texts : List String} {warnIfEmpty greedy : Bool} {spec : Spec}
    (h : readUnion texts warnIfEmpty greedy = .ok spec) :
    ∀ word ∈ texts.flatMap Text.words, ∃ wordSpec,
      readWord warnIfEmpty greedy word = .ok wordSpec := by
  obtain ⟨specs, hspecs, -⟩ := Except.bind_eq_ok_iff.1 h
  exact fun word hword => Except.exists_eq_ok_of_mapM hspecs hword

/-- The words of arguments that can be read can be read. -/
theorem readWord_of_parse {args : SelectionArguments} {spec : Spec} (h : args.parse = .ok spec) :
    (∀ word ∈ args.select.flatMap Text.words, ∃ wordSpec,
      readWord true args.greedy word = .ok wordSpec) ∧
    ∀ word ∈ args.exclude.flatMap Text.words, ∃ wordSpec,
      readWord true true word = .ok wordSpec := by
  obtain ⟨included, excluded, hincluded, hexcluded, -⟩ := parse_spec h
  refine ⟨?_, readWord_of_readUnion hexcluded⟩
  by_cases hnil : args.select = []
  · simp [hnil]
  · rw [parseSelect_of_select_ne_nil hnil] at hincluded
    exact readWord_of_readUnion hincluded

end SelectionArguments

namespace Selector

variable {s : Selector} {c : Criterion} {greedy : Bool} {word : String} {spec : Spec}

/-- Whether a word that can be read selects nothing on its own: what its parts between commas have
in common has an empty direct set. -/
def isUnmatched (s : Selector) (greedy : Bool) (word : String) : Bool :=
  match SelectionArguments.readWord true greedy word with
  | .error _ => false
  | .ok spec =>
    match s.resolve spec with
    | .error _ => false
    | .ok result => result.value.direct.isEmpty

/-- A word is unmatched exactly if the spec that is read for it selects nothing. -/
theorem isUnmatched_eq (h : SelectionArguments.readWord true greedy word = .ok spec) :
    s.isUnmatched greedy word = (s.bundle spec).direct.isEmpty := by
  simp only [isUnmatched, h, resolve_eq]
  rfl

/-- What is left about a criterion that cannot be understood is no warning. -/
theorem warnings_complaints (c : Criterion) : warnings (s.complaints c) = [] := by
  rw [complaints]
  split
  · rw [recover]
    split <;> rfl
  · rfl

/-- A criterion that is not marked gives no warning. -/
theorem warnings_messages_criterion (h : c.warnIfEmpty = false) :
    warnings (s.messages (.criterion c)) = [] := by
  have hmark : (Spec.criterion c).warnIfEmpty = false := h
  rw [messages, warnings_append, warnings_complaints, warning, hmark]
  rfl

/-- The warnings for a combination are those for its components, then its own if it is marked and
selects nothing. -/
theorem warnings_messages_combination (operation : SetOperation) (components : List Spec)
    (warnIfEmpty : Bool) (text : String) :
    warnings (s.messages (.combination operation components warnIfEmpty text)) =
      (components.flatMap fun spec => warnings (s.messages spec)) ++
        if warnIfEmpty &&
            (s.bundle (.combination operation components warnIfEmpty text)).direct.isEmpty
        then [Notice.nothingMatches text] else [] := by
  rw [messages, warnings_append, messagesAll_eq_flatMap, warnings_flatMap]
  congr 1
  cases warnIfEmpty with
  | false => rfl
  | true =>
    rw [Bool.true_and, warning, Spec.warnIfEmpty, if_pos rfl, Notice.ifEmpty]
    split <;> rfl

/-- A word gives one warning if it is marked and unmatched, and else none. -/
theorem warnings_messages_readWord {warnIfEmpty : Bool}
    (h : SelectionArguments.readWord warnIfEmpty greedy word = .ok spec) :
    warnings (s.messages spec) =
      if warnIfEmpty && s.isUnmatched greedy word then [Notice.nothingMatches word] else [] := by
  obtain ⟨parts, hparts, hspec⟩ := Except.bind_eq_ok_iff.1 h
  obtain rfl := Except.ok.inj hspec
  have hread : SelectionArguments.readWord true greedy word =
      .ok (.combine .intersection (parts.map .criterion) true (some word)) :=
    Except.bind_eq_ok_iff.2 ⟨parts, hparts, rfl⟩
  have hnone : ((parts.map Spec.criterion).flatMap fun part =>
      warnings (s.messages part)) = [] := by
    refine List.flatMap_eq_nil_iff.2 (List.forall_mem_map.2 fun c hc => ?_)
    obtain ⟨text, -, htext⟩ := Except.exists_of_mem_mapM hparts hc
    exact warnings_messages_criterion (Criterion.warnIfEmpty_of_parse htext)
  rw [Spec.combine, warnings_messages_combination, hnone, List.nil_append, isUnmatched_eq hread]
  cases warnIfEmpty <;> rfl

/-- The warnings for a list of texts are those for its words, if these are marked. -/
theorem warnings_messages_readUnion {texts : List String} {warnIfEmpty : Bool}
    (h : SelectionArguments.readUnion texts warnIfEmpty greedy = .ok spec) :
    warnings (s.messages spec) = ((texts.flatMap Text.words).filter fun word =>
      warnIfEmpty && s.isUnmatched greedy word).map Notice.nothingMatches := by
  obtain ⟨specs, hspecs, hspec⟩ := Except.bind_eq_ok_iff.1 h
  obtain rfl := Except.ok.inj hspec
  rw [Spec.combine, warnings_messages_combination, Bool.false_and, if_neg Bool.false_ne_true,
    List.append_nil]
  have hall := Except.mapM_eq_ok_iff.1 hspecs
  clear h hspec hspecs
  generalize texts.flatMap Text.words = words at hall ⊢
  induction hall with
  | nil => rfl
  | cons hword _ ih =>
    rw [List.flatMap_cons, ih, warnings_messages_readWord hword, List.filter_cons]
    split <;> rfl

/-- The warnings for arguments are those for the words of what is selected, if anything is said
about it, and then for those of what is excluded. -/
theorem warnings_messages_parse {args : SelectionArguments} (h : args.parse = .ok spec) :
    warnings (s.messages spec) =
      ((args.select.flatMap Text.words).filter (s.isUnmatched args.greedy) ++
        (args.exclude.flatMap Text.words).filter (s.isUnmatched true)).map
          Notice.nothingMatches := by
  have hselect : ∀ included, args.parseSelect = .ok included → warnings (s.messages included) =
      ((args.select.flatMap Text.words).filter (s.isUnmatched args.greedy)).map
        Notice.nothingMatches := by
    intro included hincluded
    by_cases hnil : args.select = []
    · rw [SelectionArguments.parseSelect, hnil] at hincluded
      rw [warnings_messages_readUnion hincluded, hnil]
      simp only [Bool.false_and, List.filter_false]
      rfl
    · rw [SelectionArguments.parseSelect_of_select_ne_nil hnil] at hincluded
      exact warnings_messages_readUnion hincluded
  by_cases hnil : args.exclude = []
  · rw [SelectionArguments.parse_of_exclude_eq_nil hnil] at h
    rw [hselect spec h, hnil, List.flatMap_nil, List.filter_nil, List.append_nil]
  · obtain ⟨included, excluded, hincluded, hexcluded, rfl⟩ :=
      (SelectionArguments.parse_eq_ok_iff hnil).1 h
    rw [Spec.combine, warnings_messages_combination, Bool.false_and, if_neg Bool.false_ne_true,
      List.append_nil, List.flatMap_cons, List.flatMap_singleton, hselect included hincluded,
      warnings_messages_readUnion hexcluded, List.map_append]
    rfl

end Selector

variable {m : Manifest} {g : Graph} {request : SelectionRequest} {filter : ResourceFilter}
variable {spec : Spec}

/-- The warnings of a listing are one for each word that selects nothing on its own, in the order of
the words, what is selected before what is excluded. All of these words can be read and resolved,
and one with a part that cannot be understood selects nothing. -/
theorem warnings_of_listing (hg : m.graph = .ok g) (hfilter : request.filter = .ok filter)
    (hspec : request.arguments.parse = .ok spec) :
    ∃ (s : Selector) (listed : Logged (List Member)),
      request.prepare m = .ok (s, spec) ∧
      listing m request = .ok listed ∧
      warnings listed.log =
        ((request.arguments.select.flatMap Text.words).filter
            (s.isUnmatched request.arguments.greedy) ++
          (request.arguments.exclude.flatMap Text.words).filter (s.isUnmatched true)).map
            Notice.nothingMatches ∧
      (∀ word ∈ request.arguments.select.flatMap Text.words, ∃ wordSpec,
        SelectionArguments.readWord true request.arguments.greedy word = .ok wordSpec) ∧
      (∀ word ∈ request.arguments.exclude.flatMap Text.words, ∃ wordSpec,
        SelectionArguments.readWord true true word = .ok wordSpec) ∧
      ∀ greedy word wordSpec, SelectionArguments.readWord true greedy word = .ok wordSpec →
        ∃ result, s.resolve wordSpec = .ok result ∧
          s.isUnmatched greedy word = result.value.direct.isEmpty ∧
          ((∃ c ∈ wordSpec.criteria, c.Unintelligible) →
            result.value.direct.isEmpty = true) := by
  let s := Selector.ofManifest m g .standard filter Selector.standardGreedyOption
  obtain ⟨listed, leftOut, -, -, hlisting⟩ := listing_spec hg hfilter hspec (s := s) rfl
  have hnotices : warnings (if leftOut.isEmpty then []
      else Notice.unusedTests (leftOut.map Member.name) Selector.standardGreedyOption) = [] := by
    split
    · rfl
    · exact warnings_unusedTests _ _
  obtain ⟨hselect, hexclude⟩ := SelectionArguments.readWord_of_parse hspec
  refine ⟨s, _, SelectionRequest.prepare_eq hg hfilter hspec, hlisting, ?_, hselect, hexclude, ?_⟩
  · rw [warnings_append, hnotices, List.append_nil]
    exact Selector.warnings_messages_parse hspec
  · intro greedy word wordSpec hword
    refine ⟨_, s.resolve_eq wordSpec, Selector.isUnmatched_eq hword, ?_⟩
    rintro ⟨c, hc, hunintelligible⟩
    exact Selector.direct_of_unintelligible rfl hword hc hunintelligible

namespace Sample

/-- A request with an unknown method, a source and an exposure value with too many dotted parts, a
word that matches nothing, and one that is selected and excluded. -/
def doubtful : SelectionRequest :=
  ⟨⟨["orders,owner:me source:a.b.c.d orders", "nothing"], ["exposure:a.b.c", "orders"], false⟩, []⟩

/-- It is warned about all of its words but the one that is selected and excluded. -/
theorem warnings_of_doubtful : ∃ (s : Selector) (spec : Spec) (listed : Logged (List Member)),
    doubtful.prepare manifest = .ok (s, spec) ∧
    listing manifest doubtful = .ok listed ∧
    warnings listed.log =
      ((doubtful.arguments.select.flatMap Text.words).filter (s.isUnmatched false) ++
        (doubtful.arguments.exclude.flatMap Text.words).filter (s.isUnmatched true)).map
          Notice.nothingMatches ∧
    warnings listed.log = ["orders,owner:me", "source:a.b.c.d", "nothing", "exposure:a.b.c"].map
      Notice.nothingMatches := by
  obtain ⟨spec, hspec⟩ := Except.exists_eq_ok (x := doubtful.arguments.parse) (by decide +kernel)
  obtain ⟨s, listed, hprepare, hlisted, hwarnings, -⟩ := warnings_of_listing graph_eq rfl hspec
  have hlog : (listing manifest doubtful).toOption.all (fun listed => warnings listed.log =
      ["orders,owner:me", "source:a.b.c.d", "nothing", "exposure:a.b.c"].map
        Notice.nothingMatches) = true := by
    decide +kernel
  rw [hlisted] at hlog
  exact ⟨s, spec, listed, hprepare, hlisted, hwarnings, of_decide_eq_true hlog⟩

end Sample

end DagSelect
