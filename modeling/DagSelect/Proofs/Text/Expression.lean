import DagSelect.Text.Expression

/-!
# What an expression matches

An expression matches a text that has its literals in order, with a run of code units on one line in
the place of every run. The rows by which matching is decided say this of all end parts of the text
at once.
-/

namespace DagSelect.Text

/-- Whether code units stand on one line. -/
def OnOneLine (s : List UInt16) : Prop := ∀ u ∈ s, isLineBreakUnit u = false

namespace Expression

/-- What atoms match: a literal itself, a run any code units on one line. -/
inductive Matches : List Atom → List UInt16 → Prop
  | nil : Matches [] []
  | literal {c : UInt16} {atoms : List Atom} {s : List UInt16} (h : Matches atoms s) :
    Matches (.literal c :: atoms) (c :: s)
  | run {run s : List UInt16} {atoms : List Atom} (hrun : OnOneLine run) (h : Matches atoms s) :
    Matches (.run :: atoms) (run ++ s)

variable {c : UInt16} {s : List UInt16} {atoms : List Atom}

/-- No atoms match nothing but the empty text. -/
theorem matches_nil_iff : Matches [] s ↔ s = [] := by
  constructor
  · intro h
    cases h
    rfl
  · rintro rfl
    exact .nil

/-- A literal in front of atoms matches itself in front of what the atoms match. -/
theorem matches_literal_iff :
    Matches (.literal c :: atoms) s ↔ ∃ t, s = c :: t ∧ Matches atoms t := by
  constructor
  · intro h
    cases h with
    | literal ht => exact ⟨_, rfl, ht⟩
  · rintro ⟨t, rfl, ht⟩
    exact .literal ht

/-- A run in front of atoms matches code units on one line in front of what the atoms match. -/
theorem matches_run_iff : Matches (.run :: atoms) s ↔
    ∃ run t, s = run ++ t ∧ OnOneLine run ∧ Matches atoms t := by
  constructor
  · intro h
    cases h with
    | run hrun ht => exact ⟨_, _, rfl, hrun, ht⟩
  · rintro ⟨run, t, rfl, hrun, ht⟩
    exact .run hrun ht

/-- Whether a row says of every end part of a candidate, longest first, whether it has a
property. -/
def IsRow (P : List UInt16 → Prop) : List UInt16 → List Bool → Prop
  | [], row => ∃ b, row = [b] ∧ (b = true ↔ P [])
  | d :: s, row => ∃ b later, row = b :: later ∧ (b = true ↔ P (d :: s)) ∧ IsRow P s later

variable {P Q : List UInt16 → Prop} {row : List Bool}

/-- The first entry of a row is about the whole candidate. -/
theorem IsRow.headD (h : IsRow P s row) : row.headD false = true ↔ P s := by
  cases s with
  | nil =>
    obtain ⟨b, rfl, hb⟩ := h
    exact hb
  | cons d s =>
    obtain ⟨b, later, rfl, hb, -⟩ := h
    exact hb

/-- A row says the same of a property that is equivalent. -/
theorem IsRow.congr (h : IsRow P s row) (hPQ : ∀ s, P s ↔ Q s) : IsRow Q s row := by
  induction s generalizing row with
  | nil =>
    obtain ⟨b, rfl, hb⟩ := h
    exact ⟨b, rfl, hb.trans (hPQ _)⟩
  | cons d s ih =>
    obtain ⟨b, later, rfl, hb, hlater⟩ := h
    exact ⟨b, later, rfl, hb.trans (hPQ _), ih hlater⟩

/-- The row of no atoms says which end part is empty. -/
theorem isRow_emptyRow (s : List UInt16) : IsRow (· = []) s (emptyRow s) := by
  induction s with
  | nil => exact ⟨true, rfl, by simp⟩
  | cons d s ih => exact ⟨false, _, rfl, by simp, ih⟩

/-- The row of a literal says which end parts start with it and go on with the property. -/
theorem IsRow.literalRow (h : IsRow P s row) (c : UInt16) :
    IsRow (fun s => ∃ t, s = c :: t ∧ P t) s (literalRow c s row) := by
  induction s generalizing row with
  | nil => exact ⟨false, rfl, by simp⟩
  | cons d s ih =>
    obtain ⟨b, later, rfl, -, hlater⟩ := h
    refine ⟨_, _, rfl, ?_, ih hlater⟩
    rw [Bool.and_eq_true, beq_iff_eq, hlater.headD]
    constructor
    · rintro ⟨rfl, ht⟩
      exact ⟨s, rfl, ht⟩
    · rintro ⟨t, heq, ht⟩
      obtain ⟨rfl, rfl⟩ := List.cons.inj heq
      exact ⟨rfl, ht⟩

/-- The row of a run says which end parts have the property after code units on one line. -/
theorem IsRow.runRow (h : IsRow P s row) :
    IsRow (fun s => ∃ run t, s = run ++ t ∧ OnOneLine run ∧ P t) s (runRow s row) := by
  induction s generalizing row with
  | nil =>
    obtain ⟨b, rfl, hb⟩ := h
    refine ⟨b, rfl, hb.trans ⟨fun hP => ⟨[], [], rfl, by simp [OnOneLine], hP⟩, ?_⟩⟩
    rintro ⟨run, t, heq, -, ht⟩
    obtain ⟨rfl, rfl⟩ := List.append_eq_nil_iff.1 heq.symm
    exact ht
  | cons d s ih =>
    obtain ⟨b, later, rfl, hb, hlater⟩ := h
    have ih := ih hlater
    refine ⟨_, _, rfl, ?_, ih⟩
    rw [Bool.or_eq_true, Bool.and_eq_true, Bool.not_eq_true', ih.headD, hb]
    constructor
    · rintro (hP | ⟨hd, run, t, rfl, hrun, ht⟩)
      · exact ⟨[], d :: s, rfl, by simp [OnOneLine], hP⟩
      · exact ⟨d :: run, t, rfl, List.forall_mem_cons.2 ⟨hd, hrun⟩, ht⟩
    · rintro ⟨run, t, heq, hrun, ht⟩
      cases run with
      | nil => exact .inl (heq ▸ ht)
      | cons u run =>
        obtain ⟨rfl, rfl⟩ := List.cons.inj heq
        obtain ⟨hd, hrun⟩ := List.forall_mem_cons.1 hrun
        exact .inr ⟨hd, run, t, rfl, hrun, ht⟩

/-- The row of atoms says which end parts they match. -/
theorem isRow_row (atoms : List Atom) (s : List UInt16) :
    IsRow (Matches atoms) s (Expression.row atoms s) := by
  induction atoms with
  | nil => exact (isRow_emptyRow s).congr fun s => matches_nil_iff.symm
  | cons atom atoms ih =>
    cases atom with
    | literal c => exact (ih.literalRow c).congr fun s => matches_literal_iff.symm
    | run => exact ih.runRow.congr fun s => matches_run_iff.symm

/-- Atoms accept what they match. -/
theorem accepts_iff : accepts atoms s = true ↔ Matches atoms s :=
  (isRow_row atoms s).headD

end Expression

end DagSelect.Text
