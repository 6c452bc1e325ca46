import DagSelect.Spec.Arguments
import DagSelect.Proofs.Except
import DagSelect.Proofs.Spec.Tree

/-!
# The specs that arguments give

What is selected and what is excluded are positive specs, read with one greediness for all of their
criteria. Whether arguments can be read does not depend on greediness: read greedily they give the
same spec with its criteria made greedy. A difference stands at the top and only there, when
something is to be excluded.
-/

namespace DagSelect

/-- A criterion that is read greedily is greedy, and otherwise it is the one read without. -/
theorem Criterion.parse_true (text : String) :
    parse text true = (parse text false).map greedily := by
  simp only [parse]
  split
  · rfl
  · split
    · rfl
    · cases readMethod (cut text.toList).method <;> rfl

/-- A criterion is as greedy as it is read. -/
theorem Criterion.greedy_of_parse {text : String} {greedy : Bool} {c : Criterion}
    (h : parse text greedy = .ok c) : c.greedy = greedy := by
  simp only [parse] at h
  split at h
  · contradiction
  · split at h
    · contradiction
    · cases hmethod : readMethod (cut text.toList).method with
      | error e =>
        rw [hmethod] at h
        contradiction
      | ok method =>
        rw [hmethod] at h
        obtain rfl := Except.ok.inj h
        rfl

namespace SelectionArguments

/-- A word is read as a positive spec whose criteria are as greedy as it is read. -/
theorem readWord_spec {warnIfEmpty greedy : Bool} {word : String} {spec : Spec}
    (h : readWord warnIfEmpty greedy word = .ok spec) :
    spec.Positive ∧ ∀ c ∈ spec.criteria, c.greedy = greedy := by
  obtain ⟨parts, hparts, hspec⟩ := Except.bind_eq_ok_iff.1 h
  obtain rfl := Except.ok.inj hspec
  constructor
  · refine .combination (by simp) fun part hpart => ?_
    obtain ⟨c, -, rfl⟩ := List.mem_map.1 hpart
    exact .criterion c
  · intro c hc
    have hmem : c ∈ parts := by simpa [Spec.combine, Spec.criteria] using hc
    obtain ⟨text, -, htext⟩ := Except.exists_of_mem_mapM hparts hmem
    exact Criterion.greedy_of_parse htext

/-- A word read greedily is the word read without, made greedy. -/
theorem readWord_true (warnIfEmpty : Bool) (word : String) :
    readWord warnIfEmpty true word = (readWord warnIfEmpty false word).map Spec.greedily := by
  have hparts : (Text.pieces ',' word).mapM (fun part => Criterion.parse part true) =
      ((Text.pieces ',' word).mapM fun part => Criterion.parse part false).map
        (List.map Criterion.greedily) := by
    rw [← Except.mapM_map]
    exact congrArg (fun f => (Text.pieces ',' word).mapM f) (funext Criterion.parse_true)
  rw [readWord, readWord, hparts]
  cases (Text.pieces ',' word).mapM fun part => Criterion.parse part false with
  | error e => rfl
  | ok parts =>
    simp [Except.map, bind, Except.bind, pure, Except.pure, Spec.combine, Spec.greedily,
      Function.comp_def]

/-- A list of texts is read as a positive spec whose criteria are as greedy as it is read. -/
theorem readUnion_spec {texts : List String} {warnIfEmpty greedy : Bool} {spec : Spec}
    (h : readUnion texts warnIfEmpty greedy = .ok spec) :
    spec.Positive ∧ ∀ c ∈ spec.criteria, c.greedy = greedy := by
  obtain ⟨words, hwords, hspec⟩ := Except.bind_eq_ok_iff.1 h
  obtain rfl := Except.ok.inj hspec
  have hword : ∀ spec ∈ words, spec.Positive ∧ ∀ c ∈ spec.criteria, c.greedy = greedy := by
    intro spec hmem
    obtain ⟨word, -, hword⟩ := Except.exists_of_mem_mapM hwords hmem
    exact readWord_spec hword
  refine ⟨.combination (by simp) fun spec hmem => (hword spec hmem).1, fun c hc => ?_⟩
  obtain ⟨spec, hmem, hc⟩ := Spec.mem_criteriaAll.1 hc
  exact (hword spec hmem).2 c hc

/-- The union of a list of texts and further ones has the words of the list first, and so the list
can be read on its own. -/
theorem readUnion_append {texts more : List String} {warnIfEmpty greedy : Bool} {spec : Spec}
    (h : readUnion (texts ++ more) warnIfEmpty greedy = .ok spec) :
    ∃ words moreWords,
      readUnion texts warnIfEmpty greedy =
        .ok (.combination .union words false (" ".intercalate texts)) ∧
      spec = .combination .union (words ++ moreWords) false (" ".intercalate (texts ++ more)) := by
  obtain ⟨all, hall, hspec⟩ := Except.bind_eq_ok_iff.1 h
  rw [List.flatMap_append, List.mapM_append] at hall
  obtain ⟨words, hwords, hall⟩ := Except.bind_eq_ok_iff.1 hall
  obtain ⟨moreWords, -, hall⟩ := Except.bind_eq_ok_iff.1 hall
  obtain rfl := Except.ok.inj hall
  exact ⟨words, moreWords, Except.bind_eq_ok_iff.2 ⟨words, hwords, rfl⟩, (Except.ok.inj hspec).symm⟩

/-- A list of texts read greedily is the list read without, made greedy. -/
theorem readUnion_true (texts : List String) (warnIfEmpty : Bool) :
    readUnion texts warnIfEmpty true = (readUnion texts warnIfEmpty false).map Spec.greedily := by
  have hwords : (texts.flatMap Text.words).mapM (readWord warnIfEmpty true) =
      ((texts.flatMap Text.words).mapM (readWord warnIfEmpty false)).map
        (List.map Spec.greedily) := by
    rw [← Except.mapM_map]
    exact congrArg (fun f => (texts.flatMap Text.words).mapM f) (funext (readWord_true warnIfEmpty))
  rw [readUnion, readUnion, hwords]
  cases (texts.flatMap Text.words).mapM (readWord warnIfEmpty false) with
  | error e => rfl
  | ok words => simp [Except.map, bind, Except.bind, pure, Except.pure, Spec.combine, Spec.greedily]

variable {args : SelectionArguments} {spec included excluded : Spec}

/-- Where something is to be selected, that is read. -/
theorem parseSelect_of_select_ne_nil (h : args.select ≠ []) :
    args.parseSelect = readUnion args.select true args.greedy := by
  have hempty : args.select.isEmpty = false := by simpa using h
  rw [parseSelect, hempty]
  rfl

/-- What is selected is a positive spec that is as greedy as the arguments say. -/
theorem parseSelect_spec (h : args.parseSelect = .ok included) :
    included.Positive ∧ ∀ c ∈ included.criteria, c.greedy = args.greedy := by
  rw [parseSelect] at h
  split at h
  · exact readUnion_spec h
  · exact readUnion_spec h

/-- What is excluded is a positive greedy spec. -/
theorem parseExclude_spec (h : args.parseExclude = .ok excluded) :
    excluded.Positive ∧ ∀ c ∈ excluded.criteria, c.greedy = true :=
  readUnion_spec h

/-- Arguments without an exclusion give the spec of what is selected. -/
theorem parse_of_exclude_eq_nil (h : args.exclude = []) : args.parse = args.parseSelect := by
  rw [parse, h]
  cases args.parseSelect <;> rfl

/-- Arguments with an exclusion give the difference of what is selected and what is excluded. -/
theorem parse_eq_ok_iff (h : args.exclude ≠ []) : args.parse = .ok spec ↔
    ∃ included excluded, args.parseSelect = .ok included ∧ args.parseExclude = .ok excluded ∧
      spec = .combine .difference [included, excluded] false none := by
  have hempty : args.exclude.isEmpty = false := by simpa using h
  rw [parse, Except.bind_eq_ok_iff]
  constructor
  · rintro ⟨included, hincluded, hrest⟩
    rw [hempty] at hrest
    obtain ⟨excluded, hexcluded, hspec⟩ := Except.bind_eq_ok_iff.1 hrest
    exact ⟨included, excluded, hincluded, hexcluded, (Except.ok.inj hspec).symm⟩
  · rintro ⟨included, excluded, hincluded, hexcluded, rfl⟩
    refine ⟨included, hincluded, ?_⟩
    rw [hempty]
    exact Except.bind_eq_ok_iff.2 ⟨excluded, hexcluded, rfl⟩

/-- Arguments that can be read give a spec for what is selected without what is excluded. -/
theorem parse_spec (h : args.parse = .ok spec) :
    ∃ included excluded, args.parseSelect = .ok included ∧ args.parseExclude = .ok excluded ∧
      Spec.Exclusion included excluded spec := by
  obtain ⟨included, excluded, hincluded, hexcluded, hwithout⟩ :
      ∃ included excluded, args.parseSelect = .ok included ∧ args.parseExclude = .ok excluded ∧
        Spec.Without included excluded spec := by
    by_cases hnil : args.exclude = []
    · rw [parse_of_exclude_eq_nil hnil] at h
      have hexclude : args.parseExclude = .ok (.combination .union [] false "") := by
        rw [parseExclude, hnil]
        rfl
      exact ⟨spec, _, h, hexclude, .nothing rfl⟩
    · obtain ⟨included, excluded, hincluded, hexcluded, rfl⟩ := (parse_eq_ok_iff hnil).1 h
      exact ⟨included, excluded, hincluded, hexcluded, .difference false _⟩
  obtain ⟨hexcludedPositive, hgreedy⟩ := parseExclude_spec hexcluded
  exact ⟨included, excluded, hincluded, hexcluded, (parseSelect_spec hincluded).1,
    hexcludedPositive, hgreedy, hwithout⟩

/-- Arguments that can be read can be read greedily, and give the spec made greedy. -/
theorem parse_greedy {select exclude : List String}
    (h : parse ⟨select, exclude, false⟩ = .ok spec) :
    parse ⟨select, exclude, true⟩ = .ok spec.greedily := by
  have hselect : parseSelect ⟨select, exclude, true⟩ =
      (parseSelect ⟨select, exclude, false⟩).map Spec.greedily := by
    simp only [parseSelect]
    split
    · exact readUnion_true _ _
    · exact readUnion_true _ _
  by_cases hnil : exclude = []
  · rw [parse_of_exclude_eq_nil hnil] at h ⊢
    rw [hselect, h]
    rfl
  · obtain ⟨included, excluded, hincluded, hexcluded, rfl⟩ := (parse_eq_ok_iff hnil).1 h
    refine (parse_eq_ok_iff hnil).2 ⟨included.greedily, excluded, ?_, hexcluded, ?_⟩
    · rw [hselect, hincluded]
      rfl
    · have hself : excluded.greedily = excluded :=
        Spec.greedily_eq_self (parseExclude_spec hexcluded).2
      simp [Spec.combine, Spec.greedily, hself]

end SelectionArguments

end DagSelect
