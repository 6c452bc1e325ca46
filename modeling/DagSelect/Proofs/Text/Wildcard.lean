import DagSelect.Proofs.Text.Expression
import DagSelect.Text.Wildcard

/-!
# What a wildcard pattern matches

The expression of a pattern reads back as one atom for each code unit of the pattern: a run for an
asterisk, and a literal for any other, since all that is syntax in an expression is escaped. So
a pattern matches a text that has the pattern's code units in order, with a run of code units on one
line in the place of every asterisk.
-/

namespace DagSelect.Text

open Expression (Atom)

variable {c : UInt16} {p s front : List UInt16}

/-- What a code unit of a pattern stands for. -/
def atomOf (c : UInt16) : Atom := if c = unit '*' then .run else .literal c

/-- Every code unit that is syntax in an expression is escaped, the asterisk apart. -/
theorem mem_syntaxUnits_iff : c ∈ Expression.syntaxUnits ↔ c = unit '*' ∨ c ∈ escapedUnits := by
  have hescaped : Expression.syntaxUnits ⊆ unit '*' :: escapedUnits := by decide
  have hspecial : unit '*' :: escapedUnits ⊆ Expression.syntaxUnits := by decide
  rw [← List.mem_cons]
  exact ⟨fun h => hescaped h, fun h => hspecial h⟩

/-- An asterisk in front of a pattern is a dot and an asterisk in front of its expression. -/
theorem expressionOf_star :
    expressionOf (unit '*' :: p) = unit '.' :: unit '*' :: expressionOf p := by
  obtain ⟨part, parts, hsplit⟩ := List.exists_cons_of_ne_nil (List.splitOn_ne_nil (unit '*') p)
  rw [expressionOf, expressionOf, List.splitOn_cons_eq_if_modifyHead, if_pos (by simp), hsplit]
  rfl

/-- Another code unit in front of a pattern is escaped in front of its expression. -/
theorem expressionOf_literal (hc : c ≠ unit '*') :
    expressionOf (c :: p) = escape [c] ++ expressionOf p := by
  obtain ⟨part, parts, hsplit⟩ := List.exists_cons_of_ne_nil (List.splitOn_ne_nil (unit '*') p)
  rw [expressionOf, expressionOf, List.splitOn_cons_eq_if_modifyHead, if_neg (by simpa using hc),
    hsplit, List.modifyHead_cons]
  have hescape : escape (c :: part) = escape [c] ++ escape part := by
    rw [← List.singleton_append, escape, List.flatMap_append]
    rfl
  cases parts <;> simp [hescape]

/-- An asterisk after a dot is read as a run. -/
theorem read?_run (rest : List UInt16) : Expression.read? (unit '.' :: unit '*' :: rest) =
    (Expression.read? rest).map (.run :: ·) := by
  rw [Expression.read?, if_neg (by decide), if_pos ⟨rfl, rfl⟩]

/-- An escaped code unit is read as itself. -/
theorem read?_escape (hc : c ≠ unit '*') (rest : List UInt16) :
    Expression.read? (escape [c] ++ rest) = (Expression.read? rest).map (.literal c :: ·) := by
  have hspecial : c ∈ Expression.syntaxUnits ↔ c ∈ escapedUnits := by simp [mem_syntaxUnits_iff, hc]
  by_cases hescaped : c ∈ escapedUnits
  · have hescape : escape [c] = [unit '\\', c] := by simp [escape, hescaped]
    rw [hescape, List.cons_append, List.cons_append, List.nil_append, Expression.read?, if_pos rfl,
      if_pos (hspecial.2 hescaped)]
  · -- Neither a backslash nor a dot is left as it is.
    have hescape : escape [c] = [c] := by simp [escape, hescaped]
    have hplain : ∀ u ∈ escapedUnits, c ≠ u := fun u hu heq => hescaped (heq ▸ hu)
    have hbackslash : c ≠ unit '\\' := hplain _ (by decide)
    have hdot : c ≠ unit '.' := hplain _ (by decide)
    rw [hescape, List.singleton_append]
    cases rest with
    | nil => simp [Expression.read?, hspecial, hescaped]
    | cons v rest => simp [Expression.read?, hbackslash, hdot, hspecial, hescaped]

/-- The expression of a pattern is read as what its code units stand for. -/
theorem read?_expressionOf (p : List UInt16) :
    Expression.read? (expressionOf p) = some (p.map atomOf) := by
  induction p with
  | nil => rfl
  | cons c p ih =>
    by_cases hc : c = unit '*'
    · subst hc
      rw [expressionOf_star, read?_run, ih]
      rfl
    · rw [expressionOf_literal hc, read?_escape hc, ih]
      simp [atomOf, hc]

/-- What a pattern matches: an asterisk any run on one line, another code unit itself. -/
def Matches (p s : List UInt16) : Prop := Expression.Matches (p.map atomOf) s

/-- The empty pattern matches nothing but the empty text. -/
theorem matches_nil_iff : Matches [] s ↔ s = [] := Expression.matches_nil_iff

/-- A literal in front of a pattern matches itself in front of what the pattern matches. -/
theorem matches_literal_iff (hc : c ≠ unit '*') :
    Matches (c :: p) s ↔ ∃ t, s = c :: t ∧ Matches p t := by
  rw [Matches, List.map_cons, atomOf, if_neg hc, Expression.matches_literal_iff]
  rfl

/-- An asterisk in front of a pattern matches a run on one line in front of what the pattern
matches. -/
theorem matches_star_iff : Matches (unit '*' :: p) s ↔
    ∃ run t, s = run ++ t ∧ OnOneLine run ∧ Matches p t := by
  rw [Matches, List.map_cons, atomOf, if_pos rfl, Expression.matches_run_iff]
  rfl

/-- Literals in front of a pattern match themselves in front of what the pattern matches. -/
theorem matches_append_iff (h : unit '*' ∉ front) :
    Matches (front ++ p) s ↔ ∃ t, s = front ++ t ∧ Matches p t := by
  induction front generalizing s with
  | nil => simp
  | cons c front ih =>
    have hc : c ≠ unit '*' := fun e => h (e ▸ List.mem_cons_self)
    have hfront : unit '*' ∉ front := fun hmem => h (List.mem_cons_of_mem _ hmem)
    rw [List.cons_append, matches_literal_iff hc]
    constructor
    · rintro ⟨rest, rfl, hrest⟩
      obtain ⟨t, rfl, ht⟩ := (ih hfront).1 hrest
      exact ⟨t, rfl, ht⟩
    · rintro ⟨t, rfl, ht⟩
      exact ⟨front ++ t, rfl, (ih hfront).2 ⟨t, rfl, ht⟩⟩

/-- A pattern without asterisks matches nothing but itself. -/
theorem matches_of_no_star (h : unit '*' ∉ p) : Matches p s ↔ s = p := by
  rw [← List.append_nil p, matches_append_iff h]
  simp only [matches_nil_iff, exists_eq_right]

/-- Whether a pattern matches is decided by its expression, or by comparison without asterisks. -/
theorem wildcardMatches_iff {pattern candidate : Text} :
    wildcardMatches pattern candidate = true ↔ Matches pattern.units candidate.units := by
  rw [wildcardMatches]
  split
  · rw [read?_expressionOf, Option.any_some, Expression.accepts_iff]
    rfl
  · rename_i hstar
    rw [decide_eq_true_eq, matches_of_no_star hstar, units_inj, eq_comm]

/-- An asterisk alone matches what stands on one line. -/
theorem wildcardMatches_asterisk {candidate : Text} :
    wildcardMatches "*" candidate = true ↔ OnOneLine candidate.units := by
  have hunits : ofString "*" = ⟨[unit '*']⟩ := by decide
  simp only [wildcardMatches_iff, hunits, matches_star_iff, matches_nil_iff]
  constructor
  · rintro ⟨run, t, hrun, hline, rfl⟩
    rwa [hrun, List.append_nil]
  · intro h
    exact ⟨_, [], (List.append_nil _).symm, h, rfl⟩

end DagSelect.Text
