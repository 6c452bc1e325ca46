import DagSelect.Proofs.Graph.OfManifest
import DagSelect.Proofs.Graph.Same
import DagSelect.Selector.Basic

/-!
# Manifests that differ in order only

A manifest may list the same members in another order, and a member may name the same parents in
another order. Looking up an identifier then finds the same member up to the order of its parents,
the dependencies are the same, and so are the graphs up to order.
-/

namespace DagSelect

/-- Whether a member is another one with its parents in a possibly different order. -/
def Member.Reordered (x y : Member) : Prop :=
  ∃ parents, x.dependsOn.Perm parents ∧ y = { x with dependsOn := parents }

/-- Whether a manifest holds the members of another one in a possibly different order, each with its
parents in a possibly different order. -/
def Manifest.Reordered (m m' : Manifest) : Prop :=
  Rearranged Member.Reordered m.members m'.members

/-- Whether no test depends on a test. -/
def Manifest.TestsApart (m : Manifest) : Prop :=
  ∀ t ∈ m.members, t.isTest = true → ∀ p ∈ t.dependsOn, ∀ x ∈ m.members, x.id = p →
    x.isTest = false

namespace Member.Reordered

variable {x y : Member} {p : Text}

/-- The order of parents can be changed back. -/
theorem symm (h : x.Reordered y) : y.Reordered x := by
  obtain ⟨parents, hperm, rfl⟩ := h
  exact ⟨x.dependsOn, hperm.symm, rfl⟩

/-- The identifier stays. -/
theorem id_eq (h : x.Reordered y) : y.id = x.id := by
  obtain ⟨parents, -, rfl⟩ := h
  rfl

/-- A test stays one, and nothing else becomes one. -/
theorem isTest_eq (h : x.Reordered y) : y.isTest = x.isTest := by
  obtain ⟨parents, -, rfl⟩ := h
  rfl

/-- A node stays one, and nothing else becomes one. -/
theorem isNode_eq (h : x.Reordered y) : y.isNode = x.isNode := by
  obtain ⟨parents, -, rfl⟩ := h
  rfl

/-- The parents stay the same. -/
theorem mem_dependsOn (h : x.Reordered y) : p ∈ y.dependsOn ↔ p ∈ x.dependsOn := by
  obtain ⟨parents, hperm, rfl⟩ := h
  exact hperm.symm.mem_iff

end Member.Reordered

namespace Manifest

variable {m m' : Manifest} {g g' : Graph} {id : Text}

/-- The order of members and parents can be changed back. -/
theorem Reordered.symm (h : m.Reordered m') : m'.Reordered m :=
  Rearranged.symm h fun _ _ => Member.Reordered.symm

/-- The identifiers stay the same. -/
theorem Reordered.mem_ids (h : m.Reordered m') : id ∈ m.ids ↔ id ∈ m'.ids := by
  rw [Manifest.mem_ids, Manifest.mem_ids]
  exact h.exists_iff fun x y hxy => by rw [hxy.id_eq]

/-- Looking up an identifier finds a member in one order exactly if it does in the other, and then
the same one up to the order of its parents. -/
theorem Reordered.find? (h : m.Reordered m') (id : Text) :
    Option.Rel Member.Reordered (m.find? id) (m'.find? id) := by
  cases hfind : m.find? id with
  | some x =>
    obtain ⟨hx, rfl⟩ := find?_eq_some_iff.1 hfind
    obtain ⟨y, hy, hxy⟩ := h.exists_right hx
    rw [find?_eq_some_iff.2 ⟨hy, hxy.id_eq⟩]
    exact .some hxy
  | none =>
    cases hfind' : m'.find? id with
    | none => exact .none
    | some y =>
      obtain ⟨hy, rfl⟩ := find?_eq_some_iff.1 hfind'
      obtain ⟨x, hx, hxy⟩ := h.exists_left hy
      rw [find?_eq_some_iff.2 ⟨hx, hxy.id_eq.symm⟩] at hfind
      contradiction

/-- The dependencies stay the same. -/
theorem Reordered.dependsOn (h : m.Reordered m') {child parent : Text} :
    m.DependsOn child parent ↔ m'.DependsOn child parent :=
  h.exists_iff fun x y hxy => by rw [hxy.id_eq, hxy.mem_dependsOn]

/-- If no test depends on a test, none does in another order. -/
theorem Reordered.testsApart (h : m.Reordered m') (htests : m.TestsApart) : m'.TestsApart := by
  rintro t' ht' htest p hp x' hx' rfl
  obtain ⟨t, ht, htt'⟩ := h.exists_left ht'
  obtain ⟨x, hx, hxx'⟩ := h.exists_left hx'
  rw [hxx'.isTest_eq]
  exact htests t ht (htt'.isTest_eq ▸ htest) x'.id (htt'.mem_dependsOn.1 hp) x hx hxx'.id_eq.symm

end Manifest

end DagSelect
