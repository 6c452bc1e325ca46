import DagSelect.Json.Basic
import DagSelect.Proofs.Dictionary
import DagSelect.Proofs.Text.Numeral
import Mathlib.Data.List.Nodup

/-!
# The order of enumeration

The dictionary that an object denotes is fixed by how the object is written: every key has the value
that is written last for it, keys that are array indices come first and ascend, and the other keys
follow in the order in which they are first written. An object whose fields stand in this order
already is its own dictionary.
-/

namespace DagSelect.Json

variable {α : Type} {written fields : List (Text × α)} {keys : List Text} {key : Text} {value : α}

/-- Whether a key is enumerated before another one, for the keys of an object as they are
written. -/
def KeyBefore (keys : List Text) (a b : Text) : Prop :=
  match Text.arrayIndex? a, Text.arrayIndex? b with
  | some i, some j => i < j
  | some _, none => True
  | none, some _ => False
  | none, none => keys.idxOf a < keys.idxOf b

/-- Whether a list holds every key of an object with the value that is written last for it, in the
order in which keys are enumerated. -/
structure Enumerates (written fields : List (Text × α)) : Prop where
  ordered : (fields.map Prod.fst).Pairwise (KeyBefore (written.map Prod.fst))
  mem_iff : ∀ key value, (key, value) ∈ fields ↔ ∃ before after,
    written = before ++ (key, value) :: after ∧ key ∉ after.map Prod.fst

/-- No key is enumerated before itself. -/
theorem not_keyBefore_self (keys : List Text) (a : Text) : ¬ KeyBefore keys a a := by
  intro h
  cases ha : Text.arrayIndex? a <;> simp [KeyBefore, ha] at h

/-- Of two keys at most one is enumerated before the other. -/
theorem KeyBefore.asymm {a b : Text} (hab : KeyBefore keys a b) : ¬ KeyBefore keys b a := by
  intro hba
  cases ha : Text.arrayIndex? a <;> cases hb : Text.arrayIndex? b <;>
    simp only [KeyBefore, ha, hb] at hab hba <;> omega

/-- Keys in the order of enumeration are distinct. -/
theorem nodup_of_ordered (h : (fields.map Prod.fst).Pairwise (KeyBefore keys)) :
    (fields.map Prod.fst).Nodup := by
  refine List.Pairwise.imp ?_ h
  rintro a _ hab rfl
  exact not_keyBefore_self keys a hab

/-- Indices that are sorted before all other keys are enumerated in this order, and so are the other
keys if they stand in the order in which they are written. -/
theorem keyBefore_indexFirst {items : List (Text × α)} (hnodup : (items.map Prod.fst).Nodup)
    (hitems : (items.map Prod.fst).Pairwise fun a b => keys.idxOf a < keys.idxOf b) :
    ((Text.indexFirst Prod.fst items).map Prod.fst).Pairwise (KeyBefore keys) := by
  have htrans : ∀ a b c : Text × α, Text.indexLE a.1 b.1 = true → Text.indexLE b.1 c.1 = true →
      Text.indexLE a.1 c.1 = true := by
    simp only [Text.indexLE, decide_eq_true_eq]
    omega
  have htotal : ∀ a b : Text × α, (Text.indexLE a.1 b.1 || Text.indexLE b.1 a.1) = true := by
    simp only [Text.indexLE, Bool.or_eq_true, decide_eq_true_eq]
    omega
  have hsorted := Sorting.sort_pairwise htrans htotal
    (items.filter fun a => (Text.arrayIndex? a.1).isSome)
  have hperm := Sorting.sort_perm (fun a b : Text × α => Text.indexLE a.1 b.1)
    (items.filter fun a => (Text.arrayIndex? a.1).isSome)
  have hindex : ∀ a ∈ Sorting.sort (fun a b : Text × α => Text.indexLE a.1 b.1)
      (items.filter fun a => (Text.arrayIndex? a.1).isSome),
      ∃ i, Text.arrayIndex? a.1 = some i := fun a ha =>
    Option.isSome_iff_exists.1 (List.mem_filter.1 (hperm.mem_iff.1 ha)).2
  have hdistinct := List.pairwise_map.1
    ((hperm.map Prod.fst).nodup_iff.2 (hnodup.sublist (List.filter_sublist.map Prod.fst)))
  rw [Text.indexFirst, List.pairwise_map, List.pairwise_append]
  refine ⟨(hsorted.and hdistinct).imp_of_mem ?_, ?_, ?_⟩
  · rintro a b ha hb ⟨hle, hne⟩
    obtain ⟨i, hi⟩ := hindex a ha
    obtain ⟨j, hj⟩ := hindex b hb
    simp only [Text.indexLE, hi, hj, Option.getD_some, decide_eq_true_eq] at hle
    simp only [KeyBefore, hi, hj]
    refine Nat.lt_of_le_of_ne hle fun e => hne ?_
    exact Text.eq_of_arrayIndex? hi (e ▸ hj)
  · refine ((List.pairwise_map.1 hitems).filter _).imp_of_mem fun ha hb hlt => ?_
    have ha' := Option.isNone_iff_eq_none.1 (List.mem_filter.1 ha).2
    have hb' := Option.isNone_iff_eq_none.1 (List.mem_filter.1 hb).2
    simpa only [KeyBefore, ha', hb'] using hlt
  · intro a ha b hb
    obtain ⟨i, hi⟩ := hindex a ha
    have hb' := Option.isNone_iff_eq_none.1 (List.mem_filter.1 hb).2
    simp only [KeyBefore, hi, hb']

/-- A key has the value that is written last for it. -/
theorem mem_entries : (key, value) ∈ entries written ↔
    ∃ before after, written = before ++ (key, value) :: after ∧ key ∉ after.map Prod.fst := by
  have hnodup := Dictionary.nodup_keys_assignAll written
  rw [entries, Text.mem_indexFirst, ← Dictionary.find?_eq_some_iff hnodup,
    Dictionary.find?_assignAll, Option.map_eq_some_iff]
  constructor
  · rintro ⟨⟨k, v⟩, hfind, rfl⟩
    obtain ⟨hk, after, before, hwritten, hafter⟩ := List.find?_eq_some_iff_append.1 hfind
    obtain rfl : k = key := by simpa using hk
    refine ⟨before.reverse, after.reverse, ?_, fun hmem => ?_⟩
    · simpa using congrArg List.reverse hwritten
    · obtain ⟨entry, hentry, hkey⟩ := List.mem_map.1 hmem
      simpa [hkey] using hafter entry (List.mem_reverse.1 hentry)
  · rintro ⟨before, after, rfl, hafter⟩
    refine ⟨(key, value), List.find?_eq_some_iff_append.2 ⟨by simp, after.reverse,
      before.reverse, by simp, fun entry hentry => ?_⟩, rfl⟩
    have hne : entry.1 ≠ key := fun e =>
      hafter (e ▸ List.mem_map_of_mem (List.mem_reverse.1 hentry))
    simpa using hne

/-- The keys of an object are those that are written. -/
theorem mem_keys_entries : key ∈ (entries written).map Prod.fst ↔ key ∈ written.map Prod.fst := by
  rw [← Dictionary.mem_keys_assignAll written]
  exact ((Text.indexFirst_perm Prod.fst _).map Prod.fst).mem_iff

/-- An object is read as the enumeration of its fields. -/
theorem enumerates_entries (written : List (Text × α)) : Enumerates written (entries written) where
  ordered := keyBefore_indexFirst (Dictionary.nodup_keys_assignAll written)
    (Dictionary.keys_assignAll_pairwise written)
  mem_iff _ _ := mem_entries

/-- There is only one enumeration of an object's fields. -/
theorem Enumerates.eq_entries (h : Enumerates written fields) : fields = entries written := by
  have hnodup := (nodup_of_ordered h.ordered).of_map
  have hentries := enumerates_entries written
  have hperm : fields.Perm (entries written) := by
    refine (List.perm_ext_iff_of_nodup hnodup (nodup_of_ordered hentries.ordered).of_map).2 ?_
    rintro ⟨key, value⟩
    rw [h.mem_iff, hentries.mem_iff]
  exact hperm.eq_of_pairwise (fun _ _ _ _ hab hba => absurd hba hab.asymm)
    (List.pairwise_map.1 h.ordered) (List.pairwise_map.1 hentries.ordered)

/-- Fields that stand in the order of enumeration are enumerated as they stand. -/
theorem entries_eq_self (h : (fields.map Prod.fst).Pairwise (KeyBefore keys)) :
    entries fields = fields := by
  have hnodup := nodup_of_ordered h
  have hplaces := Dictionary.keys_assignAll_pairwise fields
  rw [Dictionary.assignAll_eq_self hnodup] at hplaces
  refine (Enumerates.eq_entries ⟨?_, fun key value => ?_⟩).symm
  · refine (h.and hplaces).imp ?_
    rintro a b ⟨hab, hlt⟩
    cases ha : Text.arrayIndex? a <;> cases hb : Text.arrayIndex? b <;>
      simp_all [KeyBefore]
  · constructor
    · intro hmem
      obtain ⟨before, after, hfields⟩ := List.append_of_mem hmem
      refine ⟨before, after, hfields, fun hafter => ?_⟩
      rw [hfields, List.map_append, List.map_cons] at hnodup
      exact (List.nodup_cons.1 (List.nodup_append.1 hnodup).2.1).1 hafter
    · rintro ⟨before, after, rfl, -⟩
      exact List.mem_append_right _ List.mem_cons_self

/-- Fields with distinct keys of which none is an array index are read as they stand. -/
theorem entries_eq_self_of_names (hnodup : (fields.map Prod.fst).Nodup)
    (hnames : ∀ key ∈ fields.map Prod.fst, Text.arrayIndex? key = none) :
    entries fields = fields := by
  have hnone : ∀ field ∈ fields, Text.arrayIndex? field.1 = none :=
    fun _ hfield => hnames _ (List.mem_map_of_mem hfield)
  have hindices : fields.filter (fun field => (Text.arrayIndex? field.1).isSome) = [] :=
    List.filter_eq_nil_iff.2 fun field hfield => by simp [hnone field hfield]
  have hothers : fields.filter (fun field => (Text.arrayIndex? field.1).isNone) = fields :=
    List.filter_eq_self.2 fun field hfield => by simp [hnone field hfield]
  rw [entries, Dictionary.assignAll_eq_self hnodup, Text.indexFirst, hindices, hothers]
  rfl

/-- Fields with distinct keys are all read. -/
theorem mem_entries_of_nodup (h : (written.map Prod.fst).Nodup) {field : Text × α} :
    field ∈ entries written ↔ field ∈ written := by
  have hperm := Text.indexFirst_perm Prod.fst (Dictionary.assignAll [] written)
  rw [← entries, Dictionary.assignAll_eq_self h] at hperm
  exact hperm.mem_iff

end DagSelect.Json
