import Std.Data.TreeSet.Lemmas

/-!
# Search trees

What is already known is looked up in a balanced tree, so that going through a list costs one
descent for each of its elements. The elements that are not known yet are picked out in order of
arrival. Which ones they are depends on what the tree knows and not on its shape.
-/

namespace DagSelect.SearchTree

variable {α : Type} [Ord α]

/-- A tree with further elements. -/
def extend (known : Std.TreeSet α) (xs : List α) : Std.TreeSet α :=
  xs.foldl (fun known a => known.insert a) known

/-- The tree of the elements of a list. -/
def ofList (xs : List α) : Std.TreeSet α := extend ∅ xs

/-- The elements of a list that are not known, each at its first position. -/
def novel (known : Std.TreeSet α) : List α → List α
  | [] => []
  | a :: xs =>
    if known.contains a then novel known xs else a :: novel (known.insert a) xs

variable [Std.TransOrd α]

/-- What is novel depends on the known elements only. -/
theorem novel_congr {known other : Std.TreeSet α} (h : ∀ x, x ∈ known ↔ x ∈ other)
    (xs : List α) : novel known xs = novel other xs := by
  induction xs generalizing known other with
  | nil => rfl
  | cons a xs ih =>
    have hc : known.contains a = other.contains a := by
      rw [Bool.eq_iff_iff, Std.TreeSet.contains_iff_mem, Std.TreeSet.contains_iff_mem, h a]
    have hi : novel (known.insert a) xs = novel (other.insert a) xs := ih fun x => by
      rw [Std.TreeSet.mem_insert, Std.TreeSet.mem_insert, h x]
    rw [novel, novel, hc, ih h, hi]

variable [Std.LawfulEqOrd α]

/-- A tree with one more element knows that element too. -/
theorem mem_insert {known : Std.TreeSet α} {a x : α} :
    x ∈ known.insert a ↔ x = a ∨ x ∈ known := by
  rw [Std.TreeSet.mem_insert, Std.LawfulEqCmp.compare_eq_iff_eq, eq_comm]

/-- An extended tree knows what it knew and the new elements. -/
@[simp] theorem mem_extend {known : Std.TreeSet α} {xs : List α} {x : α} :
    x ∈ extend known xs ↔ x ∈ known ∨ x ∈ xs := by
  unfold extend
  induction xs generalizing known with
  | nil => simp
  | cons a xs ih => rw [List.foldl_cons, ih, mem_insert, List.mem_cons, or_assoc, or_left_comm]

/-- The tree of a list knows its elements. -/
@[simp] theorem mem_ofList {xs : List α} {x : α} : x ∈ ofList xs ↔ x ∈ xs := by
  simp [ofList]

/-- The novel elements are those of the list that are not known. -/
@[simp] theorem mem_novel {known : Std.TreeSet α} {xs : List α} {x : α} :
    x ∈ novel known xs ↔ x ∈ xs ∧ x ∉ known := by
  induction xs generalizing known with
  | nil => simp [novel]
  | cons a xs ih =>
    rw [novel]
    split
    · rename_i h
      have ha : a ∈ known := Std.TreeSet.contains_iff_mem.1 h
      rw [ih, List.mem_cons]
      constructor
      · rintro ⟨hx, hk⟩; exact ⟨.inr hx, hk⟩
      · rintro ⟨rfl | hx, hk⟩
        · exact absurd ha hk
        · exact ⟨hx, hk⟩
    · rename_i h
      have ha : a ∉ known := fun hk => h (Std.TreeSet.contains_iff_mem.2 hk)
      rw [List.mem_cons, ih, mem_insert, List.mem_cons]
      constructor
      · rintro (rfl | ⟨hx, hk⟩)
        · exact ⟨.inl rfl, ha⟩
        · exact ⟨.inr hx, fun hk' => hk (.inr hk')⟩
      · rintro ⟨rfl | hx, hk⟩
        · exact .inl rfl
        · by_cases e : x = a
          · exact .inl e
          · exact .inr ⟨hx, fun h => h.elim e hk⟩

/-- No novel element is listed twice. -/
theorem novel_nodup (known : Std.TreeSet α) (xs : List α) : (novel known xs).Nodup := by
  induction xs generalizing known with
  | nil => exact List.nodup_nil
  | cons a xs ih =>
    rw [novel]
    split
    · exact ih known
    · exact List.nodup_cons.2 ⟨fun h => (mem_novel.1 h).2 (mem_insert.2 (.inl rfl)), ih _⟩

/-- Of a list without repetition that meets nothing known, everything is novel. -/
theorem novel_eq_self {known : Std.TreeSet α} {xs : List α} (hnd : xs.Nodup)
    (hnew : ∀ x ∈ xs, x ∉ known) : novel known xs = xs := by
  induction xs generalizing known with
  | nil => rfl
  | cons a xs ih =>
    have ha : ¬ known.contains a = true := fun hk =>
      hnew a List.mem_cons_self (Std.TreeSet.contains_iff_mem.1 hk)
    rw [novel, if_neg ha, ih (List.nodup_cons.1 hnd).2]
    intro z hz hmem
    rcases mem_insert.1 hmem with rfl | hmem
    · exact (List.nodup_cons.1 hnd).1 hz
    · exact hnew z (List.mem_cons_of_mem _ hz) hmem

end DagSelect.SearchTree
