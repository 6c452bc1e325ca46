import DagSelect.Error
import DagSelect.OrderedSet

/-!
# Manifests

A manifest is a list of members no two of which share an identifier. Looking up an identifier
finds at most one member.
-/

namespace DagSelect

/-- The members of a build graph, in order. -/
structure Manifest where
  members : List Member
  nodup : (members.map Member.id).Nodup

namespace Manifest

/-- The first element that occurs earlier in a list or among those already seen. -/
def firstRepeat (seen : List Text) : List Text → Option Text
  | [] => none
  | id :: ids => if id ∈ seen then some id else firstRepeat (id :: seen) ids

/-- No element repeats exactly if the list has no duplicates and meets nothing already seen. -/
theorem firstRepeat_eq_none {seen ids : List Text} :
    firstRepeat seen ids = none ↔ ids.Nodup ∧ ∀ id ∈ ids, id ∉ seen := by
  induction ids generalizing seen with
  | nil => simp [firstRepeat]
  | cons id ids ih =>
    by_cases h : id ∈ seen
    · simp [firstRepeat, h]
    · rw [firstRepeat, if_neg h, ih, List.nodup_cons]
      constructor
      · rintro ⟨hnd, hall⟩
        refine ⟨⟨fun hid => hall id hid List.mem_cons_self, hnd⟩, ?_⟩
        intro x hx
        rcases List.mem_cons.1 hx with rfl | hx
        · exact h
        · exact fun hs => hall x hx (List.mem_cons_of_mem _ hs)
      · rintro ⟨⟨hid, hnd⟩, hall⟩
        refine ⟨hnd, fun x hx hs => ?_⟩
        rcases List.mem_cons.1 hs with rfl | hs
        · exact hid hx
        · exact hall x (List.mem_cons_of_mem _ hx) hs

/-- The manifest with the given members, unless an identifier repeats. -/
def ofMembers (members : List Member) : Except ManifestError Manifest :=
  match h : firstRepeat [] (members.map Member.id) with
  | some id => .error (.duplicateId id)
  | none => .ok ⟨members, (firstRepeat_eq_none.1 h).1⟩

/-- The number of members. -/
def size (m : Manifest) : Nat := m.members.length

/-- The identifiers of the members, in order. -/
def ids (m : Manifest) : IdSet := ⟨m.members.map Member.id, m.nodup⟩

/-- The member with an identifier, if there is one. -/
def find? (m : Manifest) (id : Text) : Option Member :=
  m.members.find? (fun x => x.id = id)

/-- The member with an identifier that has to be known. -/
def get (m : Manifest) (id : Text) : Except InternalError Member :=
  match m.find? id with
  | some member => .ok member
  | none => .error (.notInManifest id)

/-- The member with an identifier, if it is a node that can be built. -/
def findNode? (m : Manifest) (id : Text) : Option Member :=
  (m.find? id).filter Member.isNode

/-- Whether the member with an identifier takes part in selections. -/
def isSelectable (m : Manifest) (id : Text) : Except InternalError Bool :=
  (m.get id).map Member.isSelectable

end Manifest

end DagSelect
