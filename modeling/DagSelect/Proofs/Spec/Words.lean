import DagSelect.Proofs.Spec.Arguments
import Mathlib.Data.List.Basic

/-!
# Words and parts

Only the words of a list of texts count, so texts that are joined by blanks are read as they are one
by one, and the text that a spec is quoted by is read as that spec again. Arguments can be read
exactly if every part between commas of every word can, and otherwise the first part that cannot
gives the error; what is selected comes before what is excluded.
-/

namespace DagSelect

namespace Text

/-- The words of two texts with a blank between them are those of the first, then those of the
second. -/
theorem words_append_blank (s t : String) : words (s ++ " " ++ t) = words s ++ words t := by
  have hblank : isBlank ' ' = true := by decide
  have hsplit : (s ++ " " ++ t).toList.splitOnP isBlank =
      s.toList.splitOnP isBlank ++ t.toList.splitOnP isBlank := by
    rw [String.toList_append, String.toList_append, List.append_assoc]
    exact List.splitOnP_append_cons _ _ hblank
  rw [words, hsplit, List.filter_append, List.map_append]
  rfl

/-- The words of joined texts are those of each, one after another. -/
theorem words_intercalate (texts : List String) :
    words (" ".intercalate texts) = texts.flatMap words := by
  induction texts with
  | nil => rfl
  | cons text texts ih =>
    cases texts with
    | nil => rw [String.intercalate_singleton, List.flatMap_singleton]
    | cons next rest =>
      rw [String.intercalate_cons_cons, words_append_blank, ih]
      rfl

end Text

/-- Whether a criterion can be read does not depend on greediness. -/
theorem Criterion.verdict_parse (text : String) (greedy greedy' : Bool) :
    Except.verdict (parse text greedy) = Except.verdict (parse text greedy') := by
  have hplain : ∀ greedy,
      Except.verdict (parse text greedy) = Except.verdict (parse text false) := by
    rintro (_ | _)
    · rfl
    · rw [parse_true]
      cases parse text false <;> rfl
  rw [hplain greedy, hplain greedy']

namespace SelectionArguments

/-- The parts between commas of the words of texts. -/
def parts (texts : List String) : List String :=
  (texts.flatMap Text.words).flatMap (Text.pieces ',')

/-- Texts in one, with blanks between them; an argument that is not given stays so. -/
def joined (texts : List String) : List String :=
  if texts.isEmpty then [] else [" ".intercalate texts]

/-- The arguments with one text each for what is selected and what is excluded. -/
def inOneText (args : SelectionArguments) : SelectionArguments :=
  { args with select := joined args.select, exclude := joined args.exclude }

variable {args : SelectionArguments} {texts : List String} {warnIfEmpty greedy : Bool}
variable {spec : Spec}

/-- Texts in one are read as the texts one by one. -/
theorem readUnion_intercalate (texts : List String) (warnIfEmpty greedy : Bool) :
    readUnion [" ".intercalate texts] warnIfEmpty greedy = readUnion texts warnIfEmpty greedy := by
  rw [readUnion, readUnion, List.flatMap_singleton, Text.words_intercalate,
    String.intercalate_singleton]

/-- A union is quoted by its texts, with blanks between them. -/
theorem text_of_readUnion (h : readUnion texts warnIfEmpty greedy = .ok spec) :
    spec.text = " ".intercalate texts := by
  obtain ⟨words, -, hspec⟩ := Except.bind_eq_ok_iff.1 h
  obtain rfl := Except.ok.inj hspec
  rfl

/-- Neither or both of texts and the texts in one are given. -/
theorem isEmpty_joined (texts : List String) : (joined texts).isEmpty = texts.isEmpty := by
  cases texts <;> rfl

/-- Texts are read in one as they are one by one, also if none is given. -/
theorem readUnion_joined (texts : List String) (warnIfEmpty greedy : Bool) :
    readUnion (joined texts) warnIfEmpty greedy = readUnion texts warnIfEmpty greedy := by
  cases texts with
  | nil => rfl
  | cons text texts => exact readUnion_intercalate (text :: texts) warnIfEmpty greedy

/-- Arguments in one text each are read as they are. -/
theorem parse_inOneText (args : SelectionArguments) : args.inOneText.parse = args.parse := by
  simp only [parse, parseSelect, parseExclude, inOneText, isEmpty_joined, readUnion_joined]

/-- A word can be read exactly if each of its parts can. -/
theorem verdict_readWord (warnIfEmpty greedy : Bool) (word : String) :
    Except.verdict (readWord warnIfEmpty greedy word) =
      forM (Text.pieces ',' word) fun part => Except.verdict (Criterion.parse part greedy) := by
  rw [readWord, Except.verdict_bind_pure, Except.verdict_mapM]

/-- Texts can be read exactly if each of their parts can. -/
theorem verdict_readUnion (texts : List String) (warnIfEmpty greedy : Bool) :
    Except.verdict (readUnion texts warnIfEmpty greedy) =
      forM (parts texts) fun part => Except.verdict (Criterion.parse part greedy) := by
  rw [readUnion, Except.verdict_bind_pure, Except.verdict_mapM, parts,
    Except.forM_flatMap _ (Text.pieces ',')]
  simp only [verdict_readWord]

/-- What is selected can be read exactly if each part of it can; what stands in for it always can.
-/
theorem verdict_parseSelect (args : SelectionArguments) (greedy : Bool) :
    Except.verdict args.parseSelect =
      forM (parts args.select) fun part => Except.verdict (Criterion.parse part greedy) := by
  simp only [Criterion.verdict_parse _ greedy args.greedy]
  rw [parseSelect]
  split
  · rename_i hnil
    rw [List.isEmpty_iff.1 hnil]
    cases args.greedy <;> rfl
  · exact verdict_readUnion args.select true args.greedy

/-- What is excluded can be read exactly if each part of it can. -/
theorem verdict_parseExclude (args : SelectionArguments) (greedy : Bool) :
    Except.verdict args.parseExclude =
      forM (parts args.exclude) fun part => Except.verdict (Criterion.parse part greedy) := by
  simp only [Criterion.verdict_parse _ greedy true]
  exact verdict_readUnion args.exclude true true

/-- Whether an error is that of the first part of texts that cannot be read. -/
def FirstRejected (texts : List String) (error : SelectorError) : Prop :=
  ∃ before part after, parts texts = before ++ part :: after ∧
    (∀ earlier ∈ before, ∃ c, Criterion.parse earlier false = .ok c) ∧
    Criterion.parse part false = .error error

/-- Reading what is selected fails with the error of the first part that cannot be read. -/
theorem parseSelect_eq_error_iff {error : SelectorError} :
    args.parseSelect = .error error ↔ FirstRejected args.select error := by
  rw [← Except.verdict_eq_error_iff, verdict_parseSelect args false, Except.forM_eq_error_iff]
  simp only [FirstRejected, Except.verdict_eq_ok_iff, Except.verdict_eq_error_iff]

/-- Reading what is excluded fails with the error of the first part that cannot be read. -/
theorem parseExclude_eq_error_iff {error : SelectorError} :
    args.parseExclude = .error error ↔ FirstRejected args.exclude error := by
  rw [← Except.verdict_eq_error_iff, verdict_parseExclude args false, Except.forM_eq_error_iff]
  simp only [FirstRejected, Except.verdict_eq_ok_iff, Except.verdict_eq_error_iff]

/-- Arguments can be read exactly if what is selected and then what is excluded can. -/
theorem verdict_parse (args : SelectionArguments) : Except.verdict args.parse =
    Except.verdict args.parseSelect >>= fun _ => Except.verdict args.parseExclude := by
  refine Except.verdict_bind fun included => ?_
  split
  · rename_i hnil
    rw [parseExclude, List.isEmpty_iff.1 hnil]
    rfl
  · exact Except.verdict_bind_pure _ _

/-- Arguments can be read exactly if each part of what is selected and then of what is excluded can.
-/
theorem verdict_parse_eq_forM (args : SelectionArguments) (greedy : Bool) :
    Except.verdict args.parse = forM (parts args.select ++ parts args.exclude) fun part =>
      Except.verdict (Criterion.parse part greedy) := by
  rw [verdict_parse, verdict_parseSelect args greedy, verdict_parseExclude args greedy,
    List.forM_append]

/-- The text of every spec that is read for what is selected or excluded is read as that spec again,
and so are all of the texts in one. Arguments can be read exactly if every part of their words can,
and otherwise the error is that of the first part that cannot. -/
theorem parse_in_one_text (hselect : args.select ≠ []) (greedy : Bool) :
    args.inOneText.parse = args.parse ∧
    (∀ included, args.parseSelect = .ok included →
      parseSelect { args with select := [included.text] } = .ok included) ∧
    (∀ excluded, args.parseExclude = .ok excluded →
      parseExclude { args with exclude := [excluded.text] } = .ok excluded) ∧
    ((∃ spec, args.parse = .ok spec) ↔
      ∀ part ∈ parts args.select ++ parts args.exclude, ∃ c, Criterion.parse part greedy = .ok c) ∧
    ∀ error, args.parse = .error error ↔ ∃ before part after,
      parts args.select ++ parts args.exclude = before ++ part :: after ∧
      (∀ earlier ∈ before, ∃ c, Criterion.parse earlier greedy = .ok c) ∧
      Criterion.parse part greedy = .error error := by
  have hverdict := args.verdict_parse_eq_forM greedy
  refine ⟨args.parse_inOneText, fun included h => ?_, fun excluded h => ?_, ?_, fun error => ?_⟩
  · have hread : readUnion args.select true args.greedy = .ok included :=
      (parseSelect_of_select_ne_nil hselect).symm.trans h
    rw [text_of_readUnion hread, parseSelect_of_select_ne_nil (List.cons_ne_nil _ _)]
    exact (readUnion_intercalate _ _ _).trans hread
  · rw [text_of_readUnion h]
    exact (readUnion_intercalate _ _ _).trans h
  · rw [← Except.verdict_eq_ok_iff, hverdict, Except.forM_eq_ok_iff]
    simp only [Except.verdict_eq_ok_iff]
  · rw [← Except.verdict_eq_error_iff, hverdict, Except.forM_eq_error_iff]
    simp only [Except.verdict_eq_ok_iff, Except.verdict_eq_error_iff]

/-- A trailing comma in what is excluded is an empty part, and that is the error in whichever texts
the words of the arguments come. -/
theorem parse_in_one_text_sample :
    (["orders,stock", "\u00a0+report"] : List String) ≠ [] ∧
    parse ⟨["orders,stock \u00a0+report"], ["unique, zebra"], false⟩ =
      parse ⟨["orders,stock", "\u00a0+report"], ["unique,", "zebra"], false⟩ ∧
    parse ⟨["orders,stock", "\u00a0+report"], ["unique,", "zebra"], false⟩ =
      .error (.malformed "") := by
  have hselect : (["orders,stock", "\u00a0+report"] : List String) ≠ [] := List.cons_ne_nil _ _
  obtain ⟨hjoined, -, -, -, herror⟩ := @parse_in_one_text
    ⟨["orders,stock", "\u00a0+report"], ["unique,", "zebra"], false⟩ hselect false
  refine ⟨hselect, hjoined, (herror _).2 ⟨["orders", "stock", "+report", "unique"], "", ["zebra"],
    by decide +kernel, ?_, rfl⟩⟩
  have hread : ∀ earlier ∈ (["orders", "stock", "+report", "unique"] : List String),
      (Criterion.parse earlier false).isOk = true := by decide +kernel
  exact fun earlier hearlier => Except.exists_eq_ok (hread earlier hearlier)

end SelectionArguments

end DagSelect
