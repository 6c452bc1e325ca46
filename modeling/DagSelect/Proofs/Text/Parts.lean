import DagSelect.Text.Basic
import Mathlib.Data.List.Basic

/-!
# Parts between separators

Cutting a list at a separator gives one part more than there are separators, and no part holds one.
Parts that are ended by a separator each can be told apart without knowing where they are cut: one
such list starts with another exactly if it has the parts of the other in front of its own. The
dotted parts of a text are the case that names are made of.
-/

namespace DagSelect.Text

variable {α : Type} {sep x : α} {s part : List α} {parts others : List (List α)}

/-- Parts with a separator behind each of them. -/
def ended (sep : α) (parts : List (List α)) : List α := parts.flatMap (· ++ [sep])

/-- Without parts there is nothing. -/
@[simp] theorem ended_nil (sep : α) : ended sep [] = [] := rfl

/-- The first part is ended, and then come the others. -/
@[simp] theorem ended_cons (sep : α) (part : List α) (parts : List (List α)) :
    ended sep (part :: parts) = part ++ sep :: ended sep parts := by
  rw [ended, List.flatMap_cons, List.append_assoc]
  rfl

/-- Parts that are joined by separators lack only the last one. -/
theorem intercalate_append_sep (h : parts ≠ []) :
    [sep].intercalate parts ++ [sep] = ended sep parts := by
  induction parts with
  | nil => contradiction
  | cons part parts ih =>
    cases parts with
    | nil => rw [List.intercalate_singleton, ended_cons, ended_nil]
    | cons next rest =>
      rw [ended_cons, ← ih (List.cons_ne_nil _ _), List.intercalate_cons_cons, List.append_assoc,
        List.append_assoc]
      rfl

variable [BEq α]

/-- There is one part more than there are separators. -/
theorem length_splitOn (sep : α) (s : List α) : (s.splitOn sep).length = s.count sep + 1 := by
  induction s with
  | nil => rfl
  | cons c s ih =>
    rw [List.splitOn_cons_eq_if_modifyHead, List.count_cons]
    split
    · rw [List.length_cons, ih]
    · rw [List.length_modifyHead, ih, Nat.add_zero]

variable [LawfulBEq α]

/-- A part consists of elements of the list that are no separators. -/
theorem mem_of_mem_splitOn (hpart : part ∈ s.splitOn sep) (hx : x ∈ part) : x ∈ s ∧ x ≠ sep := by
  induction s generalizing part with
  | nil =>
    obtain rfl : part = [] := by simpa using hpart
    contradiction
  | cons c s ih =>
    rw [List.splitOn_cons_eq_if_modifyHead] at hpart
    split at hpart
    · rcases List.mem_cons.1 hpart with rfl | hpart
      · contradiction
      · exact (ih hpart hx).imp_left (List.mem_cons_of_mem c)
    · rename_i hc
      -- An element that is no separator joins the first part.
      obtain ⟨first, rest, hsplit⟩ := List.exists_cons_of_ne_nil (List.splitOn_ne_nil sep s)
      rw [hsplit, List.modifyHead_cons] at hpart
      rw [hsplit] at ih
      rcases List.mem_cons.1 hpart with rfl | hpart
      · rcases List.mem_cons.1 hx with rfl | hx
        · exact ⟨List.mem_cons_self, by simpa using hc⟩
        · exact (ih List.mem_cons_self hx).imp_left (List.mem_cons_of_mem c)
      · exact (ih (List.mem_cons_of_mem _ hpart) hx).imp_left (List.mem_cons_of_mem c)

/-- No part holds a separator. -/
theorem not_mem_of_mem_splitOn (hpart : part ∈ s.splitOn sep) : sep ∉ part := fun h =>
  (mem_of_mem_splitOn hpart h).2 rfl

/-- A list with a separator behind it consists of its parts, each with one behind it. -/
theorem ended_splitOn (sep : α) (s : List α) : ended sep (s.splitOn sep) = s ++ [sep] := by
  rw [← intercalate_append_sep (List.splitOn_ne_nil sep s), List.intercalate_splitOn]

/-- Joined parts are cut where they were joined, and each of them further. -/
theorem splitOn_intercalate_eq_flatMap (h : parts ≠ []) :
    ([sep].intercalate parts).splitOn sep = parts.flatMap (List.splitOn sep) := by
  induction parts with
  | nil => contradiction
  | cons part parts ih =>
    cases parts with
    | nil => rw [List.intercalate_singleton, List.flatMap_singleton]
    | cons next rest =>
      rw [List.intercalate_cons_cons, List.append_assoc, List.singleton_append,
        List.splitOn_append_cons_self, ih (List.cons_ne_nil _ _)]
      rfl

/-- Ended parts start with others exactly if the others come first among the parts. -/
theorem ended_prefix_iff (hparts : ∀ part ∈ parts, sep ∉ part)
    (hothers : ∀ part ∈ others, sep ∉ part) :
    ended sep parts <+: ended sep others ↔ parts <+: others := by
  induction parts generalizing others with
  | nil => simp
  | cons part parts ih =>
    cases others with
    | nil => simp
    | cons other others =>
      obtain ⟨hpart, hparts⟩ := List.forall_mem_cons.1 hparts
      obtain ⟨hother, hothers⟩ := List.forall_mem_cons.1 hothers
      rw [ended_cons, ended_cons, List.cons_prefix_cons, ← ih hparts hothers]
      constructor
      · rintro ⟨rest, hrest⟩
        rw [List.append_assoc, List.cons_append] at hrest
        -- The first part ends at the first separator on either side.
        have hsplit := congrArg (List.splitOn sep) hrest
        rw [List.splitOn_append_cons_self_of_not_mem hpart,
          List.splitOn_append_cons_self_of_not_mem hother] at hsplit
        obtain ⟨rfl, -⟩ := List.cons.inj hsplit
        exact ⟨rfl, rest, (List.cons.inj (List.append_cancel_left hrest)).2⟩
      · rintro ⟨rfl, rest, hrest⟩
        exact ⟨rest, by rw [← hrest, List.append_assoc, List.cons_append]⟩

section Dotted

variable {a b : Text} {texts otherTexts : List Text}

/-- Texts come first among others exactly if their code units do. -/
theorem map_units_prefix_iff : texts.map units <+: otherTexts.map units ↔ texts <+: otherTexts :=
  List.prefix_map_iff_of_injective fun _ _ => units_inj.1

/-- The dotted parts of a text are the parts of its code units. -/
theorem map_units_dotted (t : Text) : t.dotted.map units = t.units.splitOn (unit '.') := by
  rw [dotted, List.map_map]
  exact List.map_id _

/-- The dotted parts of joined texts are the dotted parts of each. -/
theorem dotted_join (h : texts ≠ []) : (join "." texts).dotted = texts.flatMap dotted := by
  have hdot : (ofString ".").units = [unit '.'] := by decide
  have hunits : texts.map units ≠ [] := by simpa using h
  rw [dotted, join, hdot, splitOn_intercalate_eq_flatMap hunits, List.map_flatMap, List.flatMap_map]
  rfl

/-- A text starts with another, with a dot behind both, exactly if the dotted parts of the other come
first among its own. -/
theorem append_dot_prefix_iff :
    (a ++ ".").units <+: (b ++ ".").units ↔ a.dotted <+: b.dotted := by
  have hended (t : Text) : (t ++ ".").units = ended (unit '.') (t.units.splitOn (unit '.')) :=
    (ended_splitOn _ _).symm
  rw [hended, hended, ended_prefix_iff (fun _ => not_mem_of_mem_splitOn)
    (fun _ => not_mem_of_mem_splitOn), ← map_units_dotted, ← map_units_dotted, map_units_prefix_iff]

/-- The dotted parts of a text hold no code unit that the text does not hold. -/
theorem mem_of_mem_dotted {part : Text} {u : UInt16} (hpart : part ∈ a.dotted)
    (h : u ∈ part.units) : u ∈ a.units := by
  have hsplit : part.units ∈ a.units.splitOn (unit '.') := by
    rw [← map_units_dotted]
    exact List.mem_map_of_mem hpart
  exact (mem_of_mem_splitOn hsplit h).1

end Dotted

end DagSelect.Text
