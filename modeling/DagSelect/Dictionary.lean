/-!
# Dictionaries in order of arrival

A dictionary is a list of keys with their values. Assigning to a key that is already there changes
its value in place; a new key comes last. So a key keeps its first position and its last value.
-/

namespace DagSelect.Dictionary

variable {κ α : Type} [DecidableEq κ]

/-- Give a key a value: at the key's position if it has one, else at the end. -/
def assign (key : κ) (value : α) : List (κ × α) → List (κ × α)
  | [] => [(key, value)]
  | (k, v) :: rest => if k = key then (key, value) :: rest else (k, v) :: assign key value rest

/-- Make the assignments of a list one after another. -/
def assignAll (dict assignments : List (κ × α)) : List (κ × α) :=
  assignments.foldl (fun dict entry => assign entry.1 entry.2 dict) dict

/-- The value of a key. -/
def find? (key : κ) : List (κ × α) → Option α
  | [] => none
  | (k, v) :: rest => if k = key then some v else find? key rest

/-- Assigning changes no key that is there; a new key comes last. -/
theorem assign_keys (key : κ) (value : α) (dict : List (κ × α)) :
    (assign key value dict).map Prod.fst =
      if key ∈ dict.map Prod.fst then dict.map Prod.fst else dict.map Prod.fst ++ [key] := by
  induction dict with
  | nil => simp [assign]
  | cons field rest ih =>
    obtain ⟨k, v⟩ := field
    by_cases h : k = key
    · subst h; simp [assign]
    · have h' : ¬ key = k := fun e => h e.symm
      simp only [assign, if_neg h, List.map_cons, ih, List.mem_cons, h', false_or]
      split <;> simp

/-- The keys stay distinct under assignment. -/
theorem assignAll_keys_nodup {dict : List (κ × α)} (h : (dict.map Prod.fst).Nodup)
    (assignments : List (κ × α)) : ((assignAll dict assignments).map Prod.fst).Nodup := by
  unfold assignAll
  induction assignments generalizing dict with
  | nil => exact h
  | cons entry rest ih =>
    refine ih ?_
    rw [assign_keys]
    split
    · exact h
    · rename_i hnew
      refine List.nodup_append.2 ⟨h, by simp, ?_⟩
      intro a ha b hb e
      simp only [List.mem_singleton] at hb
      exact hnew (hb ▸ e ▸ ha)

/-- The value last assigned to a key is found, and no other key's value changes. -/
theorem find?_assign (key other : κ) (value : α) (dict : List (κ × α)) :
    find? other (assign key value dict) = if key = other then some value else find? other dict := by
  induction dict with
  | nil => simp [assign, find?]
  | cons field rest ih =>
    obtain ⟨k, v⟩ := field
    by_cases h : k = key
    · subst h
      by_cases ho : k = other <;> simp [assign, find?, ho]
    · by_cases ho : k = other
      · subst ho
        have hk : ¬ key = k := fun e => h e.symm
        simp [assign, find?, h, hk]
      · simp [assign, find?, h, ho, ih]

end DagSelect.Dictionary
