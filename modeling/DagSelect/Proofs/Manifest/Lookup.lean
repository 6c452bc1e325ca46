import DagSelect.Manifest.Basic
import DagSelect.Proofs.Except
import Mathlib.Data.List.Nodup

/-!
# Looking up members

As no two members share an identifier, looking up an identifier finds a member exactly if it has
that identifier. Every look-up of a known identifier succeeds, and looking up a set of them in
ascending order lists their members.
-/

namespace DagSelect.Manifest

variable {m : Manifest} {id : Text} {x y : Member}

/-- The identifiers are those of the members. -/
theorem mem_ids : id ∈ m.ids ↔ ∃ x ∈ m.members, x.id = id := by
  rw [← OrderedSet.mem_toList]
  exact List.mem_map

/-- Members with the same identifier are the same. -/
theorem eq_of_id_eq (hx : x ∈ m.members) (hy : y ∈ m.members) (h : x.id = y.id) : x = y :=
  List.inj_on_of_nodup_map m.nodup hx hy h

/-- Looking up an identifier finds the member that has it. -/
theorem find?_eq_some_iff : m.find? id = some x ↔ x ∈ m.members ∧ x.id = id := by
  constructor
  · intro h
    exact ⟨List.mem_of_find?_eq_some h, by simpa using List.find?_some h⟩
  · rintro ⟨hx, rfl⟩
    cases h : m.find? x.id with
    | none => simpa using List.find?_eq_none.1 h x hx
    | some y =>
      have hid : y.id = x.id := by simpa using List.find?_some h
      rw [eq_of_id_eq (List.mem_of_find?_eq_some h) hx hid]

/-- Looking up an identifier that has to be known gives the member that has it. -/
theorem get_eq_ok_iff : m.get id = .ok x ↔ x ∈ m.members ∧ x.id = id := by
  rw [← find?_eq_some_iff, get]
  cases m.find? id <;> simp

/-- The node with an identifier is the member that has it, if that is a node. -/
theorem findNode?_eq_some_iff :
    m.findNode? id = some x ↔ x ∈ m.members ∧ x.id = id ∧ x.isNode = true := by
  rw [findNode?, Option.filter_eq_some_iff, find?_eq_some_iff, and_assoc]

/-- Looking up known identifiers gives their members in the same order. -/
theorem mapM_get {ids : List Text} (h : ∀ id ∈ ids, id ∈ m.ids) :
    ∃ members, ids.mapM m.get = .ok members ∧ members.map Member.id = ids ∧
      ∀ x, x ∈ members ↔ x ∈ m.members ∧ x.id ∈ ids := by
  induction ids with
  | nil => exact ⟨[], rfl, rfl, by simp⟩
  | cons id ids ih =>
    obtain ⟨x, hx, rfl⟩ := mem_ids.1 (h id List.mem_cons_self)
    obtain ⟨members, hmembers, hids, hmem⟩ := ih fun id hid => h id (List.mem_cons_of_mem _ hid)
    have hget : m.get x.id = .ok x := get_eq_ok_iff.2 ⟨hx, rfl⟩
    refine ⟨x :: members, ?_, by rw [List.map_cons, hids], fun y => ?_⟩
    · rw [List.mapM_cons, hget, Except.ok_bind, hmembers]
      rfl
    · rw [List.mem_cons, List.mem_cons, hmem]
      constructor
      · rintro (rfl | ⟨hy, hid⟩)
        · exact ⟨hx, .inl rfl⟩
        · exact ⟨hy, .inr hid⟩
      · rintro ⟨hy, hid | hid⟩
        · exact .inl (eq_of_id_eq hy hx hid)
        · exact .inr ⟨hy, hid⟩

/-- Whether a list holds the members with a property, each once, in the order of identifiers. -/
structure IsListing (m : Manifest) (property : Member → Prop) (members : List Member) : Prop where
  nodup : members.Nodup
  ascending : (members.map Member.id).Pairwise (fun a b => Text.unitLE a b = true)
  mem_iff : ∀ x, x ∈ members ↔ x ∈ m.members ∧ property x

namespace IsListing

variable {P Q R : Member → Prop} {xs ys zs : List Member}

/-- A listing for a property is one for every property of the same members. -/
theorem congr (h : m.IsListing P xs) (hpq : ∀ x ∈ m.members, P x ↔ Q x) : m.IsListing Q xs :=
  ⟨h.nodup, h.ascending, fun x => (h.mem_iff x).trans (and_congr_right (hpq x))⟩

/-- A listing for either of two properties that exclude each other holds what the listings for both
hold. -/
theorem perm_append (hz : m.IsListing R zs) (hx : m.IsListing P xs) (hy : m.IsListing Q ys)
    (hor : ∀ x ∈ m.members, R x ↔ P x ∨ Q x) (hnot : ∀ x ∈ m.members, P x → ¬ Q x) :
    zs.Perm (xs ++ ys) := by
  have hdisjoint : ∀ x ∈ xs, ∀ y ∈ ys, x ≠ y := by
    rintro x hmem _ hmem' rfl
    obtain ⟨hm, hp⟩ := (hx.mem_iff x).1 hmem
    exact hnot x hm hp ((hy.mem_iff x).1 hmem').2
  refine (List.perm_ext_iff_of_nodup hz.nodup
    (List.nodup_append.2 ⟨hx.nodup, hy.nodup, hdisjoint⟩)).2 fun x => ?_
  rw [List.mem_append, hz.mem_iff, hx.mem_iff, hy.mem_iff, ← and_or_left]
  exact and_congr_right (hor x)

/-- The identifiers of a listing are those of the members with the property. -/
theorem mem_ids (h : m.IsListing P xs) : id ∈ xs.map Member.id ↔
    ∃ x ∈ m.members, x.id = id ∧ P x := by
  simp only [List.mem_map, h.mem_iff, and_assoc]
  exact exists_congr fun x => and_congr_right fun _ => and_comm

/-- Only one list is a listing for a property. -/
theorem unique (hx : m.IsListing P xs) (hy : m.IsListing P ys) : xs = ys := by
  have hperm : xs.Perm ys := (List.perm_ext_iff_of_nodup hx.nodup hy.nodup).2 fun x => by
    rw [hx.mem_iff, hy.mem_iff]
  refine hperm.eq_of_pairwise (fun x y hxs hys hxy hyx => ?_) (List.pairwise_map.1 hx.ascending)
    (List.pairwise_map.1 hy.ascending)
  exact eq_of_id_eq ((hx.mem_iff x).1 hxs).1 ((hy.mem_iff y).1 hys).1 (Text.unitLE_antisymm hxy hyx)

/-- What passes a test is listed in the same order. -/
theorem filter (h : m.IsListing P xs) (p : Member → Bool) :
    m.IsListing (fun x => P x ∧ p x = true) (xs.filter p) where
  nodup := h.nodup.filter p
  ascending := h.ascending.sublist (List.filter_sublist.map Member.id)
  mem_iff x := by rw [List.mem_filter, h.mem_iff, and_assoc]

end IsListing

/-- Looking up a set of known identifiers in ascending order lists their members. -/
theorem mapM_get_sortIds {ids : IdSet} (h : ∀ id ∈ ids, id ∈ m.ids) :
    ∃ members, (Text.sortIds ids.toList).mapM m.get = .ok members ∧
      m.IsListing (fun x => x.id ∈ ids) members := by
  have hperm : (Text.sortIds ids.toList).Perm ids.toList := Text.sortIds_perm _
  obtain ⟨members, hmembers, hids, hmem⟩ := mapM_get fun id hid => h id (hperm.mem_iff.1 hid)
  have hnodup : (members.map Member.id).Nodup := hids ▸ hperm.nodup_iff.2 ids.nodup
  refine ⟨members, hmembers, hnodup.of_map _, hids ▸ Text.sortIds_sorted _, fun x => ?_⟩
  rw [hmem, hperm.mem_iff, OrderedSet.mem_toList]

end DagSelect.Manifest
