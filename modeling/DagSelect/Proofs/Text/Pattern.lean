import DagSelect.Proofs.Text.Parts
import DagSelect.Proofs.Text.Wildcard

/-!
# Patterns by their parts

The asterisks cut a pattern into parts. A pattern matches the texts in which its parts stand in order
from the first code unit to the last, with a run on one line between each two of them, so a pattern
without asterisks matches nothing but itself. The runs may be empty and may hold what the parts hold:
that some choice of them fits is all that is asked.
-/

namespace DagSelect.Text

/-- Parts one after another, with a run between each two of them. -/
def filled : List (List UInt16) → List (List UInt16) → List UInt16
  | [], _ => []
  | part :: _, [] => part
  | part :: parts, run :: runs => part ++ run ++ filled parts runs

variable {s : List UInt16} {parts : List (List UInt16)}

/-- A wildcard pattern without asterisks matches nothing but itself. -/
theorem wildcardMatches_of_no_star {pattern candidate : Text} (h : unit '*' ∉ pattern.units) :
    wildcardMatches pattern candidate = true ↔ candidate = pattern := by
  rw [wildcardMatches_iff, matches_of_no_star h, units_inj]

/-- Parts with asterisks between them match the texts that fill in a run for every asterisk. -/
theorem matches_intercalate_iff (hparts : ∀ part ∈ parts, unit '*' ∉ part) (hne : parts ≠ []) :
    Matches ([unit '*'].intercalate parts) s ↔ ∃ runs : List (List UInt16),
      runs.length + 1 = parts.length ∧ (∀ run ∈ runs, OnOneLine run) ∧ s = filled parts runs := by
  induction parts generalizing s with
  | nil => contradiction
  | cons part parts ih =>
    obtain ⟨hpart, hparts⟩ := List.forall_mem_cons.1 hparts
    cases parts with
    | nil =>
      rw [List.intercalate_singleton, matches_of_no_star hpart]
      constructor
      · rintro rfl
        exact ⟨[], rfl, by simp, rfl⟩
      · rintro ⟨runs, hlength, -, rfl⟩
        obtain rfl : runs = [] := List.length_eq_zero_iff.1 (by simpa using hlength)
        rfl
    | cons next rest =>
      have ih := fun t => ih (s := t) hparts (List.cons_ne_nil _ _)
      simp only [List.intercalate_cons_cons, List.append_assoc, List.singleton_append,
        matches_append_iff hpart, matches_star_iff, ih]
      constructor
      · rintro ⟨_, rfl, run, _, rfl, hrun, runs, hlength, hruns, rfl⟩
        refine ⟨run :: runs, congrArg (· + 1) hlength, List.forall_mem_cons.2 ⟨hrun, hruns⟩, ?_⟩
        rw [filled, List.append_assoc]
      · rintro ⟨runs, hlength, hruns, rfl⟩
        cases runs with
        | nil => simp at hlength
        | cons run runs =>
          obtain ⟨hrun, hruns⟩ := List.forall_mem_cons.1 hruns
          refine ⟨_, ?_, run, _, rfl, hrun, runs, Nat.add_right_cancel hlength, hruns, rfl⟩
          rw [filled, List.append_assoc]

/-- A wildcard pattern matches a text exactly if the text has the parts of the pattern between its
asterisks in order and, in the place of each asterisk, a run without line breaks; so a pattern
without asterisks matches nothing but itself. -/
theorem wildcardMatches_iff_filled (pattern candidate : Text) :
    (wildcardMatches pattern candidate = true ↔ ∃ runs : List (List UInt16),
      runs.length = pattern.units.count (unit '*') ∧ (∀ run ∈ runs, OnOneLine run) ∧
      candidate.units = filled (pattern.units.splitOn (unit '*')) runs) ∧
    (pattern.units.count (unit '*') = 0 →
      (wildcardMatches pattern candidate = true ↔ candidate = pattern)) := by
  constructor
  · -- The pattern is its own parts with asterisks between them.
    have hparts : ∀ part ∈ pattern.units.splitOn (unit '*'), unit '*' ∉ part := fun part hpart =>
      not_mem_of_mem_splitOn hpart
    have hmatches := matches_intercalate_iff (s := candidate.units) hparts
      (List.splitOn_ne_nil _ _)
    rw [List.intercalate_splitOn, length_splitOn] at hmatches
    simpa only [wildcardMatches_iff, Nat.add_right_cancel_iff] using hmatches
  · intro hcount
    exact wildcardMatches_of_no_star (List.count_eq_zero.1 hcount)

/-- Between two asterisks a dot and a letter stand for themselves, and what precedes their second
occurrence may be filled in for the first asterisk; brackets without an asterisk match nothing but
themselves. -/
theorem wildcardMatches_iff_filled_sample :
    (∃ runs : List (List UInt16), runs.length = 2 ∧ (∀ run ∈ runs, OnOneLine run) ∧
      (ofString "a.b.bc").units = filled ((ofString "*.b*c").units.splitOn (unit '*')) runs) ∧
    (ofString "[ab]").units.count (unit '*') = 0 ∧ ¬ wildcardMatches "[ab]" "a" = true := by
  have hcount : (ofString "[ab]").units.count (unit '*') = 0 := by decide
  refine ⟨?_, hcount, ?_⟩
  · exact (wildcardMatches_iff_filled "*.b*c" "a.b.bc").1.1 (by decide)
  · rw [(wildcardMatches_iff_filled "[ab]" "a").2 hcount]
    decide

end DagSelect.Text
