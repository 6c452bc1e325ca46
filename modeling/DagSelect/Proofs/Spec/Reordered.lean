import DagSelect.Proofs.Spec.Arguments
import DagSelect.Proofs.UpToOrder

/-!
# Specs that differ in order only

The components of a union or an intersection may stand in another order; those of a difference may
not, but may differ in order within. Words that are permuted, with their parts between commas
permuted, are read as such a spec, and one can be read exactly if the other can.
-/

namespace DagSelect

/-- Whether a spec is another one with the components of its unions and intersections in a possibly
different order. Warnings and the texts that are quoted do not count. -/
inductive Spec.Reordered : Spec → Spec → Prop
  | criterion (c : Criterion) : Reordered (.criterion c) (.criterion c)
  | combination {operation : SetOperation} {components changed components' : List Spec}
      {warnIfEmpty warnIfEmpty' : Bool} {text text' : String} (hop : operation ≠ .difference)
      (hchanged : List.Forall₂ Reordered components changed) (hperm : changed.Perm components') :
      Reordered (.combination operation components warnIfEmpty text)
        (.combination operation components' warnIfEmpty' text')
  | difference {components components' : List Spec} {warnIfEmpty warnIfEmpty' : Bool}
      {text text' : String} (hcomponents : List.Forall₂ Reordered components components') :
      Reordered (.combination .difference components warnIfEmpty text)
        (.combination .difference components' warnIfEmpty' text')

/-- Whether two words have the same parts between commas, in a possibly different order. -/
def SameParts (word word' : String) : Prop :=
  (Text.pieces ',' word).Perm (Text.pieces ',' word')

/-- Whether two lists of texts have the same words up to the order of their parts, in a possibly
different order. A list without texts is not the same as one without words. -/
structure SameWords (texts texts' : List String) : Prop where
  words : Rearranged SameParts (texts.flatMap Text.words) (texts'.flatMap Text.words)
  eq_nil_iff : texts = [] ↔ texts' = []

namespace SelectionArguments

/-- Whether arguments have the words of other ones in a possibly different order. -/
structure Reordered (args args' : SelectionArguments) : Prop where
  select : SameWords args.select args'.select
  exclude : SameWords args.exclude args'.exclude
  greedy_eq : args'.greedy = args.greedy

variable {args args' : SelectionArguments} {texts texts' : List String} {word word' : String}
variable {warnIfEmpty greedy : Bool} {spec : Spec}

/-- A word can be read with its parts in another order, and gives the same spec up to order. -/
theorem readWord_reordered (h : SameParts word word')
    (hspec : readWord warnIfEmpty greedy word = .ok spec) :
    ∃ spec', readWord warnIfEmpty greedy word' = .ok spec' ∧ spec.Reordered spec' := by
  obtain ⟨criteria, hcriteria, hrest⟩ := Except.bind_eq_ok_iff.1 hspec
  obtain rfl := Except.ok.inj hrest
  obtain ⟨criteria', hcriteria', changed, hchanged, hperm⟩ :=
    Except.mapM_rearranged (k := fun part => Criterion.parse part greedy) (R := Eq) (S := Eq)
      (.of_perm (fun _ _ => rfl) h) hcriteria (fun x _ c hx hc => ⟨c, hx ▸ hc, rfl⟩)
  obtain rfl : criteria = changed := by simpa using hchanged
  refine ⟨_, Except.bind_eq_ok_iff.2 ⟨criteria', hcriteria', rfl⟩, ?_⟩
  refine .combination (by simp) (List.forall₂_same.2 fun spec hmem => ?_) (hperm.map _)
  obtain ⟨c, -, rfl⟩ := List.mem_map.1 hmem
  exact .criterion c

/-- A list of texts can be read with its words in another order, and gives the same spec up to
order. -/
theorem readUnion_reordered
    (h : Rearranged SameParts (texts.flatMap Text.words) (texts'.flatMap Text.words))
    (hspec : readUnion texts warnIfEmpty greedy = .ok spec) :
    ∃ spec', readUnion texts' warnIfEmpty greedy = .ok spec' ∧ spec.Reordered spec' := by
  obtain ⟨words, hwords, hrest⟩ := Except.bind_eq_ok_iff.1 hspec
  obtain rfl := Except.ok.inj hrest
  obtain ⟨words', hwords', changed, hchanged, hperm⟩ :=
    Except.mapM_rearranged h hwords fun _ _ _ => readWord_reordered
  exact ⟨_, Except.bind_eq_ok_iff.2 ⟨words', hwords', rfl⟩,
    .combination (by simp) hchanged hperm⟩

/-- What is selected can be read with its words in another order, and gives the same spec up to
order. -/
theorem Reordered.parseSelect (h : args.Reordered args') (hspec : args.parseSelect = .ok spec) :
    ∃ spec', args'.parseSelect = .ok spec' ∧ spec.Reordered spec' := by
  have hempty : args'.select.isEmpty = args.select.isEmpty := by
    rw [Bool.eq_iff_iff, List.isEmpty_iff, List.isEmpty_iff, h.select.eq_nil_iff]
  rw [SelectionArguments.parseSelect] at hspec ⊢
  rw [hempty, h.greedy_eq]
  cases hdefault : args.select.isEmpty with
  | true =>
    rw [if_pos hdefault] at hspec
    exact readUnion_reordered (.of_perm (fun _ _ => .refl _) (.refl _)) hspec
  | false =>
    rw [if_neg (by simp [hdefault])] at hspec
    exact readUnion_reordered h.select.words hspec

/-- Arguments can be read with their words in another order, and give the same spec up to order. -/
theorem Reordered.parse (h : args.Reordered args') (hspec : args.parse = .ok spec) :
    ∃ spec', args'.parse = .ok spec' ∧ spec.Reordered spec' := by
  by_cases hnil : args.exclude = []
  · rw [parse_of_exclude_eq_nil hnil] at hspec
    rw [parse_of_exclude_eq_nil (h.exclude.eq_nil_iff.1 hnil)]
    exact h.parseSelect hspec
  · obtain ⟨included, excluded, hincluded, hexcluded, rfl⟩ := (parse_eq_ok_iff hnil).1 hspec
    obtain ⟨included', hincluded', hin⟩ := h.parseSelect hincluded
    obtain ⟨excluded', hexcluded', hex⟩ := readUnion_reordered h.exclude.words hexcluded
    have hnil' : args'.exclude ≠ [] := fun heq => hnil (h.exclude.eq_nil_iff.2 heq)
    exact ⟨_, (parse_eq_ok_iff hnil').2 ⟨included', excluded', hincluded', hexcluded', rfl⟩,
      .difference (.cons hin (.cons hex .nil))⟩

end SelectionArguments

end DagSelect
