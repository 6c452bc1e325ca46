import DagSelect.Proofs.Dictionary
import DagSelect.Proofs.Selector.Everything
import DagSelect.Spec.Arguments

/-!
# Criteria that cannot be understood

A criterion with a method that is not registered, or with a source or exposure value of too many
dotted parts, selects nothing: either that is found out when it is matched, or there is nothing that
it could be compared with. So it selects nothing with its modifiers either, and neither does a word
that has it as a part.
-/

namespace DagSelect

/-- Whether a criterion cannot be understood: its method is not registered, or it is matched by
source or exposure with too many dotted parts in its value. -/
def Criterion.Unintelligible (c : Criterion) : Prop :=
  c.method ∉ Registry.standard.names ∨
  c.method = Method.source.name ∧ 3 < (Text.dotted c.value).length ∨
  c.method = Method.exposure.name ∧ 2 < (Text.dotted c.value).length

/-- A registered method is found under its own name. -/
theorem Registry.find_standard {name : String} {method : Method}
    (h : standard.find name = .ok method) : name ∈ standard.names ∧ method.name = name := by
  rw [find] at h
  split at h
  · rename_i found hfound
    obtain rfl := Except.ok.inj h
    have hentry := (Dictionary.find?_eq_some_iff (by decide)).1 hfound
    have hentries : standard.entries = Method.all.map fun method => (method.name, method) := by
      decide
    refine ⟨List.mem_map_of_mem hentry, ?_⟩
    rw [hentries] at hentry
    obtain ⟨method, -, hmethod⟩ := List.mem_map.1 hentry
    obtain ⟨rfl, rfl⟩ := Prod.mk.inj hmethod
    rfl
  · contradiction

/-- Methods differ in their names. -/
theorem Method.name_inj {method method' : Method} (h : method.name = method'.name) :
    method = method' := by
  have hfind := Method.ofName?_name method
  rw [h, Method.ofName?_name] at hfind
  exact (Option.some.inj hfind).symm

namespace Selector

variable {s : Selector} {c : Criterion} {greedy : Bool} {word : String} {spec : Spec}

/-- Nothing surrounds no members. -/
theorem surroundings_nil (c : Criterion) : s.surroundings c [] = .empty := by
  rw [surroundings]
  cases c.family <;> cases c.upstream <;> cases c.downstream <;> rfl

/-- A criterion that cannot be understood matches nothing. -/
theorem matching_of_unintelligible {ids found : IdSet} (hs : s.registry = .standard)
    (hc : c.Unintelligible) (h : s.matching ids c = .ok found) : found = .empty := by
  obtain ⟨method, hmethod, hsearch⟩ := Except.bind_eq_ok_iff.1 h
  rw [hs] at hmethod
  obtain ⟨hregistered, hname⟩ := Registry.find_standard hmethod
  have hvalue : (method.valueError? c.value).isSome = true := by
    rcases hc with hc | ⟨hc, hlong⟩ | ⟨hc, hlong⟩
    · exact absurd hregistered hc
    · obtain rfl : method = .source := Method.name_inj (hname.trans hc)
      rw [Method.valueError?, if_pos hlong]
      rfl
    · obtain rfl : method = .exposure := Method.name_inj (hname.trans hc)
      rw [Method.valueError?, if_pos hlong]
      rfl
  obtain ⟨error, herror⟩ := Option.isSome_iff_exists.1 hvalue
  simp only [Method.search, herror] at hsearch
  split at hsearch
  · contradiction
  · exact (Except.ok.inj hsearch).symm

/-- A criterion that cannot be understood collects nothing. -/
theorem collected_of_unintelligible (hs : s.registry = .standard) (hc : c.Unintelligible) :
    s.collected c = .empty := by
  rw [collected]
  split
  · rfl
  · rename_i ids hids
    obtain rfl := matching_of_unintelligible hs hc hids
    rw [OrderedSet.toList_empty, surroundings_nil]
    rfl

/-- A word with a part that cannot be understood selects nothing. -/
theorem direct_of_unintelligible (hs : s.registry = .standard)
    (h : SelectionArguments.readWord true greedy word = .ok spec) (hc : c ∈ spec.criteria)
    (hunintelligible : c.Unintelligible) : (s.bundle spec).direct.isEmpty = true := by
  obtain ⟨parts, -, hspec⟩ := Except.bind_eq_ok_iff.1 h
  obtain rfl := Except.ok.inj hspec
  have hpart : .criterion c ∈ parts.map Spec.criterion := by
    simpa [Spec.combine, Spec.criteria] using hc
  rw [OrderedSet.isEmpty, List.isEmpty_iff, List.eq_nil_iff_forall_not_mem]
  intro x hx
  -- Whatever an intersection selects is at least among everything of each of its components.
  have hall := (mem_everything_combination (by decide)).1 (Bundle.mem_everything_of_mem_direct hx)
  have hmem := (SetOperation.mem_combine_intersection.1 hall).2 _ (List.mem_map_of_mem hpart)
  rw [bundle, collected_of_unintelligible hs hunintelligible, mem_everything_expansion] at hmem
  rcases hmem with hmem | ⟨t, ht, -⟩
  · exact OrderedSet.not_mem_empty x hmem
  · obtain ⟨-, -, p, hp, -⟩ := mem_neighbouringTests.1 ht
    exact OrderedSet.not_mem_empty p hp

end Selector

end DagSelect
