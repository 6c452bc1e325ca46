import DagSelect.Method.Matching
import DagSelect.Proofs.Text.Pattern

/-!
# Qualified names by their beginnings

A value without asterisks selects a qualified name in two ways. Either it is the last segment, dots
and all; or its dotted parts come first among those of the full name. Compared as texts, the second
way says that the full name starts with the value once a dot stands behind both, so a value selects
by whole dotted parts only.
-/

namespace DagSelect.Method

variable {name patterns names : List Text} {value : Text}

/-- Names start with segments that match patterns without asterisks exactly if they start with the
patterns. -/
theorem segmentsMatch_iff_startsWith (h : ∀ pattern ∈ patterns, Text.unit '*' ∉ pattern.units) :
    segmentsMatch patterns names = true ↔ patterns <+: names := by
  induction patterns generalizing names with
  | nil => simp [segmentsMatch]
  | cons pattern patterns ih =>
    obtain ⟨hpattern, hpatterns⟩ := List.forall_mem_cons.1 h
    cases names with
    | nil => simp [segmentsMatch]
    | cons name names =>
      have ih : segmentsMatch patterns names = true ↔ patterns <+: names := ih hpatterns
      have hmatch : Text.wildcardMatches pattern name = true ↔ pattern = name :=
        (Text.wildcardMatches_of_no_star hpattern).trans eq_comm
      rw [segmentsMatch, Bool.and_eq_true, decide_eq_true_eq] at ih ⊢
      rw [List.cons_prefix_cons, ← ih, List.zip_cons_cons, List.all_cons, Bool.and_eq_true, hmatch,
        List.length_cons, List.length_cons, Nat.add_le_add_iff_right]
      exact and_left_comm

/-- A value without asterisks selects a qualified name exactly if it is its last segment, or the full
name starts with it where a dot stands behind both; and the full name does so exactly if its dotted
parts start with those of the value. -/
theorem qualifiedNameMatches_iff_startsWith (hname : name ≠ [])
    (hvalue : Text.unit '*' ∉ value.units) :
    (qualifiedNameMatches name value = true ↔ value = name.getLast hname ∨
      (value ++ ".").units <+: (Text.join "." name ++ ".").units) ∧
    ((value ++ ".").units <+: (Text.join "." name ++ ".").units ↔
      value.dotted <+: (Text.join "." name).dotted) := by
  refine ⟨?_, Text.append_dot_prefix_iff⟩
  have hparts : ∀ part ∈ value.dotted, Text.unit '*' ∉ part.units := fun part hpart h =>
    hvalue (Text.mem_of_mem_dotted hpart h)
  rw [qualifiedNameMatches, Bool.or_eq_true, beq_iff_eq, List.getLast?_eq_some_getLast hname,
    Option.some_inj, segmentsMatch_iff_startsWith hparts, Text.append_dot_prefix_iff,
    Text.dotted_join hname]
  exact or_congr_left eq_comm

/-- A value may end inside a segment that holds dots, but not inside a dotted part. -/
theorem qualifiedNameMatches_iff_startsWith_sample :
    [("shop" : Text), "raw.orders"] ≠ [] ∧
    Text.unit '*' ∉ (Text.ofString "shop.raw").units ∧
    Text.unit '*' ∉ (Text.ofString "shop.ra").units ∧
    qualifiedNameMatches ["shop", "raw.orders"] "shop.raw" = true ∧
    ¬ qualifiedNameMatches ["shop", "raw.orders"] "shop.ra" = true := by
  have hwhole : Text.unit '*' ∉ (Text.ofString "shop.raw").units := by decide
  have hpart : Text.unit '*' ∉ (Text.ofString "shop.ra").units := by decide
  refine ⟨List.cons_ne_nil _ _, hwhole, hpart, ?_, ?_⟩
  · rw [(qualifiedNameMatches_iff_startsWith (List.cons_ne_nil _ _) hwhole).1]
    decide
  · rw [(qualifiedNameMatches_iff_startsWith (List.cons_ne_nil _ _) hpart).1]
    decide

end DagSelect.Method
