import DagSelect.Dictionary
import Mathlib.Data.List.Basic
import Mathlib.Data.List.Induction

/-!
# What assignments leave behind

After a list of assignments every key has the value last assigned to it, and the keys stand in the
order in which they were first assigned to.
-/

namespace DagSelect.Dictionary

variable {κ α : Type} [DecidableEq κ] {dict : List (κ × α)} {key : κ} {value : α}

/-- One more assignment comes after the others. -/
theorem assignAll_concat (dict assignments : List (κ × α)) (entry : κ × α) :
    assignAll dict (assignments ++ [entry]) =
      assign entry.1 entry.2 (assignAll dict assignments) := by
  simp [assignAll]

/-- After assignments to an empty dictionary a key has the value last assigned to it. -/
theorem find?_assignAll (key : κ) (assignments : List (κ × α)) :
    find? key (assignAll [] assignments) =
      (assignments.reverse.find? fun entry => entry.1 = key).map Prod.snd := by
  induction assignments using List.reverseRecOn with
  | nil => rfl
  | append_singleton entries entry ih =>
    obtain ⟨k, v⟩ := entry
    rw [assignAll_concat, find?_assign, ih, List.reverse_concat, List.find?_cons]
    by_cases h : k = key <;> simp [h]

/-- Assignments to an empty dictionary leave distinct keys behind. -/
theorem nodup_keys_assignAll (assignments : List (κ × α)) :
    ((assignAll [] assignments).map Prod.fst).Nodup := by
  have hempty : (([] : List (κ × α)).map Prod.fst).Nodup := List.nodup_nil
  exact assignAll_keys_nodup hempty assignments

/-- The keys assigned to are the keys that are there afterwards. -/
theorem mem_keys_assignAll (assignments : List (κ × α)) :
    key ∈ (assignAll [] assignments).map Prod.fst ↔ key ∈ assignments.map Prod.fst := by
  induction assignments using List.reverseRecOn with
  | nil => rfl
  | append_singleton entries entry ih =>
    rw [assignAll_concat, assign_keys, List.map_append, List.mem_append, ← ih]
    split
    · rename_i h
      constructor
      · exact .inl
      · rintro (h' | h')
        · exact h'
        · rwa [List.mem_singleton.1 h']
    · exact List.mem_append

/-- Keys stand in the order in which they are first assigned to. -/
theorem keys_assignAll_pairwise (assignments : List (κ × α)) :
    ((assignAll [] assignments).map Prod.fst).Pairwise fun a b =>
      (assignments.map Prod.fst).idxOf a < (assignments.map Prod.fst).idxOf b := by
  induction assignments using List.reverseRecOn with
  | nil => exact List.Pairwise.nil
  | append_singleton entries entry ih =>
    have hold : ∀ {a}, a ∈ (assignAll [] entries).map Prod.fst →
        ((entries ++ [entry]).map Prod.fst).idxOf a = (entries.map Prod.fst).idxOf a := by
      intro a ha
      rw [List.map_append, List.idxOf_append_of_mem ((mem_keys_assignAll entries).1 ha)]
    have hpairwise : ((assignAll [] entries).map Prod.fst).Pairwise fun a b =>
        ((entries ++ [entry]).map Prod.fst).idxOf a <
          ((entries ++ [entry]).map Prod.fst).idxOf b := by
      refine ih.imp_of_mem fun ha hb hlt => ?_
      rwa [hold ha, hold hb]
    rw [assignAll_concat, assign_keys]
    split
    · exact hpairwise
    · rename_i hnew
      refine List.pairwise_append.2 ⟨hpairwise, List.pairwise_singleton _ _, ?_⟩
      intro a ha b hb
      obtain rfl := List.mem_singleton.1 hb
      have hlt := List.idxOf_lt_length_iff.2 ((mem_keys_assignAll entries).1 ha)
      rw [hold ha, List.map_append,
        List.idxOf_append_of_notMem (mt (mem_keys_assignAll entries).2 hnew)]
      omega

/-- Assigning to a new key puts it at the end. -/
theorem assign_of_not_mem (h : key ∉ dict.map Prod.fst) :
    assign key value dict = dict ++ [(key, value)] := by
  induction dict with
  | nil => rfl
  | cons entry rest ih =>
    obtain ⟨k, v⟩ := entry
    rw [List.map_cons, List.mem_cons, not_or] at h
    rw [assign, if_neg fun e => h.1 e.symm, ih h.2]
    rfl

/-- Assignments to different keys give the dictionary that they are. -/
theorem assignAll_eq_self {assignments : List (κ × α)}
    (h : (assignments.map Prod.fst).Nodup) : assignAll [] assignments = assignments := by
  induction assignments using List.reverseRecOn with
  | nil => rfl
  | append_singleton entries entry ih =>
    rw [List.map_append] at h
    have hentries := ih (List.nodup_append.1 h).1
    rw [assignAll_concat, hentries, assign_of_not_mem]
    intro hmem
    exact (List.nodup_append.1 h).2.2 _ hmem _ List.mem_cons_self rfl

/-- In a dictionary with distinct keys a key has the value that stands with it. -/
theorem find?_eq_some_iff (h : (dict.map Prod.fst).Nodup) :
    find? key dict = some value ↔ (key, value) ∈ dict := by
  induction dict with
  | nil => simp [find?]
  | cons entry rest ih =>
    obtain ⟨k, v⟩ := entry
    rw [List.map_cons, List.nodup_cons] at h
    rw [find?, List.mem_cons]
    split
    · rename_i hk
      subst hk
      have hnot : (k, value) ∉ rest := fun hmem =>
        h.1 (List.mem_map.2 ⟨(k, value), hmem, rfl⟩)
      simp [hnot, eq_comm]
    · rename_i hk
      rw [ih h.2]
      refine (or_iff_right fun heq => hk ?_).symm
      exact (congrArg Prod.fst heq).symm

/-- In a dictionary with distinct keys a key stands with one value at most. -/
theorem eq_of_mem {value' : α} (h : (dict.map Prod.fst).Nodup) (hmem : (key, value) ∈ dict)
    (hmem' : (key, value') ∈ dict) : value = value' := by
  rw [← find?_eq_some_iff h] at hmem hmem'
  exact Option.some.inj (hmem.symm.trans hmem')

/-- A key is not found exactly if it is not there. -/
theorem find?_eq_none_iff : find? key dict = none ↔ key ∉ dict.map Prod.fst := by
  induction dict with
  | nil => simp [find?]
  | cons entry rest ih =>
    obtain ⟨k, v⟩ := entry
    rw [find?, List.map_cons, List.mem_cons, not_or]
    split
    · rename_i hk
      simp [hk]
    · rename_i hk
      rw [ih]
      exact (and_iff_right fun e => hk e.symm).symm

end DagSelect.Dictionary
