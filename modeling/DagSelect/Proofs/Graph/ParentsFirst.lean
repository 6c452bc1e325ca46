import DagSelect.Proofs.Graph.Plain
import Mathlib.Data.Set.Finite.List
import Mathlib.Logic.Relation
import Mathlib.Order.Preorder.Finite

/-!
# Orders that put parents first

In a list without repetition that puts parents first, everything that an identifier is reached from
comes before it. So nothing on a cycle, or behind one, can be in such a list. Conversely, nodes of
which each has a parent among them lie on a cycle or behind one, as there are finitely many nodes.
-/

namespace DagSelect.Graph

open Relation

variable {g : Graph} {order before after : List Text} {a c x : Text}

/-- Whether every listed identifier comes after all its parents. -/
def ParentsFirst (g : Graph) (order : List Text) : Prop :=
  ∀ before x after, order = before ++ x :: after → ∀ p, g.Edge p x → p ∈ before

namespace ParentsFirst

/-- The empty list puts parents first. -/
theorem nil : g.ParentsFirst [] := by
  intro before x after h
  simp at h

/-- An identifier whose parents are all listed can come last. -/
theorem concat (h : g.ParentsFirst order) (hx : ∀ p, g.Edge p x → p ∈ order) :
    g.ParentsFirst (order ++ [x]) := by
  intro before y after heq p hp
  rcases List.eq_nil_or_concat after with rfl | ⟨after, z, rfl⟩
  · obtain ⟨rfl, hy⟩ := List.append_inj' heq rfl
    obtain rfl : x = y := by simpa using hy
    exact hx p hp
  · have heq' : order ++ [x] = (before ++ y :: after) ++ [z] := by simpa using heq
    obtain ⟨hbefore, -⟩ := List.append_inj' heq' rfl
    exact h before y after hbefore p hp

/-- What an identifier is reached from comes before it. -/
theorem ancestor_mem (h : g.ParentsFirst order) (heq : order = before ++ x :: after)
    (ha : TransGen g.Edge a x) : a ∈ before := by
  have hclosed : ∀ y ∈ before, ∀ p, g.Edge p y → p ∈ before := by
    intro y hy p hp
    obtain ⟨first, last, rfl⟩ := List.append_of_mem hy
    have hmem : p ∈ first := h first y (last ++ x :: after) (by simpa using heq) p hp
    exact List.mem_append_left _ hmem
  induction ha using TransGen.head_induction_on with
  | single hax => exact h before x after heq _ hax
  | head hab _ ih => exact hclosed _ ih _ hab

/-- Without repetition, what an identifier is reached from has the smaller position. -/
theorem idxOf_lt (h : g.ParentsFirst order) (hnodup : order.Nodup) (hx : x ∈ order)
    (ha : TransGen g.Edge a x) : order.idxOf a < order.idxOf x := by
  obtain ⟨before, after, rfl⟩ := List.append_of_mem hx
  have hmem : a ∈ before := h.ancestor_mem rfl ha
  have hnew : x ∉ before := fun hb => (List.nodup_append.1 hnodup).2.2 x hb x List.mem_cons_self rfl
  rw [List.idxOf_append_of_mem hmem, List.idxOf_append_of_notMem hnew, List.idxOf_cons_self]
  exact Nat.lt_add_right 0 (List.idxOf_lt_length_of_mem hmem)

/-- Nothing that lies on a cycle, or is reached from one, is listed. -/
theorem not_cyclic (h : g.ParentsFirst order) (hnodup : order.Nodup) (hx : x ∈ order)
    (hcx : ReflTransGen g.Edge c x) : ¬ TransGen g.Edge c c := by
  intro hcc
  have hc : c ∈ order := by
    rcases reflTransGen_iff_eq_or_transGen.1 hcx with rfl | hcx
    · exact hx
    · obtain ⟨before, after, rfl⟩ := List.append_of_mem hx
      exact List.mem_append_left _ (h.ancestor_mem rfl hcx)
  exact Nat.lt_irrefl _ (h.idxOf_lt hnodup hc hcc)

end ParentsFirst

/-- Among nodes of which each has a parent among them, every one is reached from a cycle. Without
such a cycle, being reached from each other would be a well-founded relation on these nodes. -/
theorem exists_cycle_of_parents {s : Text → Prop} (hnodes : ∀ y, s y → y ∈ g.nodes)
    (hparent : ∀ y, s y → ∃ p, s p ∧ g.Edge p y) (hx : s x) :
    ∃ c, ReflTransGen g.Edge c x ∧ TransGen g.Edge c c := by
  by_contra hno
  have hacyclic : ∀ c, ReflTransGen g.Edge c x → ¬ TransGen g.Edge c c :=
    fun c hcx hcc => hno ⟨c, hcx, hcc⟩
  let above : {y // y ∈ g.nodes.toList} → {y // y ∈ g.nodes.toList} → Prop :=
    fun y z => TransGen g.Edge y z ∧ ReflTransGen g.Edge z x
  have htrans : IsTrans _ above := ⟨fun _ _ _ hab hbc => ⟨hab.1.trans hbc.1, hbc.2⟩⟩
  have hirrefl : Std.Irrefl above := ⟨fun y h => hacyclic y h.2 h.1⟩
  have hfinite : Finite {y // y ∈ g.nodes.toList} := (List.finite_toSet g.nodes.toList).to_subtype
  have hwf : WellFounded above := Finite.wellFounded_of_trans_of_irrefl above
  have hnone : ∀ y : {y // y ∈ g.nodes.toList}, s y → ¬ ReflTransGen g.Edge y x := by
    intro y
    induction y using hwf.induction with
    | _ y ih =>
      intro hy hyx
      obtain ⟨p, hp, hpy⟩ := hparent y hy
      exact ih ⟨p, hnodes p hp⟩ ⟨.single hpy, hyx⟩ hp (.head hpy hyx)
  exact hnone ⟨x, hnodes x hx⟩ hx .refl

end DagSelect.Graph
