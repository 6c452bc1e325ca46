import DagSelect.SearchTree
import DagSelect.Text.Order

/-!
# Ordered sets

A finite set that remembers the order in which its elements arrived: a list without repetition.
Inserting an element that is already present changes nothing, so the first arrival decides the
position. The order is visible in answers and decides some selections, so it belongs to the type.

Where many elements arrive at once, those already present are looked up in a search tree. The
result is the one that single insertions give.
-/

namespace DagSelect

/-- A finite set in order of arrival. -/
structure OrderedSet (α : Type) where
  toList : List α
  nodup : toList.Nodup

namespace OrderedSet

variable {α : Type}

/-- Two sets with the same elements in the same order are equal. -/
theorem toList_inj {s t : OrderedSet α} : s.toList = t.toList ↔ s = t := by
  constructor
  · intro h; cases s; cases t; cases h; rfl
  · rintro rfl; rfl

/-- The set without elements. -/
def empty : OrderedSet α := ⟨[], List.nodup_nil⟩

instance : Inhabited (OrderedSet α) := ⟨empty⟩

instance : Membership α (OrderedSet α) := ⟨fun s a => a ∈ s.toList⟩

/-- The elements are those of the list. -/
theorem mem_toList {a : α} {s : OrderedSet α} : a ∈ s.toList ↔ a ∈ s := Iff.rfl

/-- The number of elements. -/
def size (s : OrderedSet α) : Nat := s.toList.length

/-- Whether there is no element. -/
def isEmpty (s : OrderedSet α) : Bool := s.toList.isEmpty

/-- The elements that pass a test, in order. -/
def filter (s : OrderedSet α) (p : α → Bool) : OrderedSet α :=
  ⟨s.toList.filter p, s.nodup.filter p⟩

/-- The empty set lists nothing. -/
@[simp] theorem toList_empty : (empty : OrderedSet α).toList = [] := rfl

/-- Filtering a set filters its list. -/
@[simp] theorem toList_filter (s : OrderedSet α) (p : α → Bool) :
    (s.filter p).toList = s.toList.filter p := rfl

/-- Nothing is in the empty set. -/
@[simp] theorem not_mem_empty (a : α) : a ∉ (empty : OrderedSet α) := by
  simp [← mem_toList]

/-- The elements that remain are those that pass the test. -/
@[simp] theorem mem_filter {s : OrderedSet α} {p : α → Bool} {x : α} :
    x ∈ s.filter p ↔ x ∈ s ∧ p x = true := by
  simp [← mem_toList]

section Ordered

variable [Ord α] [Std.TransOrd α] [Std.LawfulEqOrd α]

/-- Put the elements of a list at the end, one after another, unless they are already there. -/
def insertAll (s : OrderedSet α) (xs : List α) : OrderedSet α :=
  ⟨s.toList ++ SearchTree.novel (SearchTree.ofList s.toList) xs,
    List.nodup_append.2 ⟨s.nodup, SearchTree.novel_nodup _ _, fun _ hx _ hy e =>
      (SearchTree.mem_novel.1 hy).2 (SearchTree.mem_ofList.2 (e ▸ hx))⟩⟩

/-- The elements of a list, each at its first position. -/
def ofList (xs : List α) : OrderedSet α :=
  empty.insertAll xs

/-- The elements of the first set, then the new ones of the second. -/
def union (s t : OrderedSet α) : OrderedSet α :=
  s.insertAll t.toList

/-- The new elements come after the old ones. -/
theorem toList_insertAll (s : OrderedSet α) (xs : List α) :
    (s.insertAll xs).toList = s.toList ++ SearchTree.novel (SearchTree.ofList s.toList) xs := rfl

/-- Insertion of a list adds its elements. -/
@[simp] theorem mem_insertAll {s : OrderedSet α} {xs : List α} {x : α} :
    x ∈ s.insertAll xs ↔ x ∈ s ∨ x ∈ xs := by
  rw [← mem_toList, toList_insertAll, List.mem_append, SearchTree.mem_novel, SearchTree.mem_ofList,
    ← mem_toList]
  by_cases h : x ∈ s.toList <;> simp [h]

/-- The set of a list has its elements. -/
@[simp] theorem mem_ofList {xs : List α} {x : α} : x ∈ ofList xs ↔ x ∈ xs := by
  simp [ofList]

/-- A union has the elements of either set. -/
@[simp] theorem mem_union {s t : OrderedSet α} {x : α} : x ∈ s.union t ↔ x ∈ s ∨ x ∈ t := by
  rw [union, mem_insertAll, mem_toList]

/-- Elements that are already there change nothing. -/
theorem union_eq_self {s t : OrderedSet α} (h : ∀ x ∈ t, x ∈ s) : s.union t = s := by
  have hnone : SearchTree.novel (SearchTree.ofList s.toList) t.toList = [] := by
    refine List.eq_nil_iff_forall_not_mem.2 fun x hx => ?_
    obtain ⟨hmem, hnew⟩ := SearchTree.mem_novel.1 hx
    exact hnew (SearchTree.mem_ofList.2 (h x hmem))
  rw [← toList_inj, union, toList_insertAll, hnone, List.append_nil]

/-- A list without repetition is already a set in order. -/
theorem toList_ofList_of_nodup {xs : List α} (h : xs.Nodup) : (ofList xs).toList = xs :=
  SearchTree.novel_eq_self h fun _ _ hx => absurd (SearchTree.mem_ofList.1 hx) List.not_mem_nil

end Ordered

variable [DecidableEq α]

instance (a : α) (s : OrderedSet α) : Decidable (a ∈ s) :=
  inferInstanceAs (Decidable (a ∈ s.toList))

/-- Put an element at the end, unless it is already there. -/
def insert (s : OrderedSet α) (a : α) : OrderedSet α :=
  if h : a ∈ s.toList then s
  else ⟨s.toList ++ [a], by
    refine List.nodup_append.2 ⟨s.nodup, by simp, ?_⟩
    intro x hx y hy e
    simp only [List.mem_singleton] at hy
    exact h (hy ▸ e ▸ hx)⟩

/-- The set without one element. -/
def erase (s : OrderedSet α) (a : α) : OrderedSet α :=
  s.filter (fun x => x ≠ a)

/-- The elements of the first set that are not in the second. -/
def diff (s t : OrderedSet α) : OrderedSet α :=
  s.filter (fun a => a ∉ t)

/-- Whether every element of a list is in the set. -/
def containsAll (s : OrderedSet α) (xs : List α) : Bool :=
  xs.all (fun a => a ∈ s)

/-- A new element comes last, and an old one changes nothing. -/
theorem toList_insert (s : OrderedSet α) (a : α) :
    (s.insert a).toList = if a ∈ s.toList then s.toList else s.toList ++ [a] := by
  unfold insert; split <;> rfl

/-- Insertion adds one element. -/
@[simp] theorem mem_insert {s : OrderedSet α} {a x : α} : x ∈ s.insert a ↔ x ∈ s ∨ x = a := by
  simp only [← mem_toList, toList_insert]
  split
  · rename_i h
    constructor
    · exact .inl
    · rintro (hx | rfl)
      · exact hx
      · exact h
  · simp

/-- Erasing takes one element away. -/
@[simp] theorem mem_erase {s : OrderedSet α} {a x : α} : x ∈ s.erase a ↔ x ∈ s ∧ x ≠ a := by
  simp [erase]

/-- A difference has the elements of the first set that the second lacks. -/
@[simp] theorem mem_diff {s t : OrderedSet α} {x : α} : x ∈ s.diff t ↔ x ∈ s ∧ x ∉ t := by
  simp [diff]

/-- The test for all elements of a list means that each is in the set. -/
theorem containsAll_iff {s : OrderedSet α} {xs : List α} :
    s.containsAll xs = true ↔ ∀ a ∈ xs, a ∈ s := by
  simp [containsAll]

/-- Many insertions are single insertions, one after another. -/
theorem insertAll_eq_foldl [Ord α] [Std.TransOrd α] [Std.LawfulEqOrd α] (s : OrderedSet α)
    (xs : List α) : s.insertAll xs = xs.foldl insert s := by
  induction xs generalizing s with
  | nil => rw [← toList_inj]; exact List.append_nil _
  | cons a xs ih =>
    rw [List.foldl_cons, ← ih, ← toList_inj, toList_insertAll, toList_insertAll,
      SearchTree.novel, toList_insert]
    by_cases ha : a ∈ s.toList
    · rw [if_pos (Std.TreeSet.contains_iff_mem.2 (SearchTree.mem_ofList.2 ha)), if_pos ha]
    · have hc : ¬ (SearchTree.ofList s.toList).contains a = true := fun h =>
        ha (SearchTree.mem_ofList.1 (Std.TreeSet.contains_iff_mem.1 h))
      rw [if_neg hc, if_neg ha, List.append_assoc, List.singleton_append]
      congr 2
      refine SearchTree.novel_congr (fun x => ?_) xs
      rw [SearchTree.mem_insert, SearchTree.mem_ofList, SearchTree.mem_ofList, List.mem_append,
        List.mem_singleton, or_comm]

end OrderedSet

/-- The ways in which a list of sets is combined. -/
inductive SetOperation where
  | union
  | intersection
  | difference
  deriving DecidableEq, Repr

namespace SetOperation

/-- The operation's written name. -/
def name : SetOperation → String
  | union => "union"
  | intersection => "intersection"
  | difference => "difference"

variable {α : Type} [DecidableEq α] [Ord α] [Std.TransOrd α] [Std.LawfulEqOrd α]

/-- Combine sets from left to right; no set at all gives the empty set. An intersection keeps what
is in every set and a difference what is in the first set only, both in the order of the first. -/
def combine (operation : SetOperation) : List (OrderedSet α) → OrderedSet α
  | [] => .empty
  | first :: rest =>
    match operation with
    | union => rest.foldl OrderedSet.union first
    | intersection => first.filter (fun a => rest.all (fun s => a ∈ s))
    | difference => first.filter (fun a => rest.all (fun s => a ∉ s))

/-- A combination by union has what is in any of the sets. -/
theorem mem_combine_union {sets : List (OrderedSet α)} {x : α} :
    x ∈ union.combine sets ↔ ∃ s ∈ sets, x ∈ s := by
  cases sets with
  | nil => simp [combine]
  | cons first rest =>
    show x ∈ rest.foldl OrderedSet.union first ↔ _
    induction rest generalizing first with
    | nil => simp
    | cons s rest ih => rw [List.foldl_cons, ih]; simp [or_assoc]

/-- A combination by intersection has what is in every set, if there is a set. -/
theorem mem_combine_intersection {sets : List (OrderedSet α)} {x : α} :
    x ∈ intersection.combine sets ↔ sets ≠ [] ∧ ∀ s ∈ sets, x ∈ s := by
  cases sets <;> simp [combine]

/-- A combination by difference has what is in the first set and in no other. -/
theorem mem_combine_difference {first : OrderedSet α} {rest : List (OrderedSet α)} {x : α} :
    x ∈ difference.combine (first :: rest) ↔ x ∈ first ∧ ∀ s ∈ rest, x ∉ s := by
  simp [combine]

/-- Whatever is in a combination is in one of the sets. -/
theorem exists_of_mem_combine {ι : Type} {operation : SetOperation} {items : List ι}
    {f : ι → OrderedSet α} {x : α} (h : x ∈ operation.combine (items.map f)) :
    ∃ i ∈ items, x ∈ f i := by
  suffices hset : ∃ s ∈ items.map f, x ∈ s by
    obtain ⟨_, hmem, hx⟩ := hset
    obtain ⟨i, hi, rfl⟩ := List.mem_map.1 hmem
    exact ⟨i, hi, hx⟩
  cases operation with
  | union => exact mem_combine_union.1 h
  | intersection =>
    obtain ⟨hne, hall⟩ := mem_combine_intersection.1 h
    obtain ⟨s, hs⟩ := List.exists_mem_of_ne_nil _ hne
    exact ⟨s, hs, hall s hs⟩
  | difference =>
    cases items with
    | nil => exact absurd h (OrderedSet.not_mem_empty x)
    | cons first rest => exact ⟨f first, List.mem_cons_self, (mem_combine_difference.1 h).1⟩

/-- Without differences, what one element entails for another in each set it entails in their
combination. -/
theorem mem_combine_mono {ι : Type} {operation : SetOperation} (hop : operation ≠ .difference)
    {items : List ι} {f g : ι → OrderedSet α} {x y : α} (h : ∀ i ∈ items, x ∈ f i → y ∈ g i)
    (hx : x ∈ operation.combine (items.map f)) : y ∈ operation.combine (items.map g) := by
  cases operation with
  | union =>
    obtain ⟨_, hmem, hx⟩ := mem_combine_union.1 hx
    obtain ⟨i, hi, rfl⟩ := List.mem_map.1 hmem
    exact mem_combine_union.2 ⟨g i, List.mem_map_of_mem hi, h i hi hx⟩
  | intersection =>
    obtain ⟨hne, hall⟩ := mem_combine_intersection.1 hx
    refine mem_combine_intersection.2 ⟨by simpa using hne, fun _ hmem => ?_⟩
    obtain ⟨i, hi, rfl⟩ := List.mem_map.1 hmem
    exact h i hi (hall _ (List.mem_map_of_mem hi))
  | difference => exact absurd rfl hop

/-- Whether something is in a combination depends only on the sets that it is in. -/
theorem mem_combine_congr {ι : Type} {operation : SetOperation} {items : List ι}
    {f g : ι → OrderedSet α} {x : α} (h : ∀ i ∈ items, (x ∈ f i ↔ x ∈ g i)) :
    x ∈ operation.combine (items.map f) ↔ x ∈ operation.combine (items.map g) := by
  by_cases hop : operation = .difference
  · subst hop
    cases items with
    | nil => rfl
    | cons first rest =>
      rw [List.map_cons, List.map_cons, mem_combine_difference, mem_combine_difference]
      simp only [List.forall_mem_map]
      refine and_congr (h first List.mem_cons_self) ?_
      exact forall₂_congr fun i hi => not_congr (h i (List.mem_cons_of_mem _ hi))
  · exact ⟨mem_combine_mono hop fun i hi => (h i hi).1, mem_combine_mono hop fun i hi => (h i hi).2⟩

end SetOperation

/-- A set of identifiers in order of arrival. -/
abbrev IdSet := OrderedSet Text

end DagSelect
