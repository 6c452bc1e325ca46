import DagSelect.Spec.Basic

/-!
# Spec trees

Induction over a spec goes from the components to their combination. The criteria of a spec are its
leaves, and a positive spec has no difference in it. Making a spec greedy makes all of its criteria
greedy and leaves everything else as it is.
-/

namespace DagSelect

/-- The criterion that takes along every test next to what it collects. -/
def Criterion.greedily (c : Criterion) : Criterion :=
  { c with greedy := true }

namespace Spec

/-- Induction over a spec, with the statement for all components of a combination. -/
@[elab_as_elim, induction_eliminator]
theorem induction {motive : Spec → Prop} (criterion : ∀ c, motive (.criterion c))
    (combination : ∀ operation components warnIfEmpty text,
      (∀ spec ∈ components, motive spec) →
        motive (.combination operation components warnIfEmpty text))
    (spec : Spec) : motive spec :=
  match spec with
  | .criterion c => criterion c
  | .combination operation components warnIfEmpty text =>
    combination operation components warnIfEmpty text fun spec _ =>
      induction criterion combination spec

mutual

/-- The criteria at the leaves of a spec. -/
def criteria : Spec → List Criterion
  | .criterion c => [c]
  | .combination _ components _ _ => criteriaAll components

/-- The criteria at the leaves of several specs. -/
def criteriaAll : List Spec → List Criterion
  | [] => []
  | spec :: specs => spec.criteria ++ criteriaAll specs

end

mutual

/-- The spec with all of its criteria made greedy. -/
def greedily : Spec → Spec
  | .criterion c => .criterion c.greedily
  | .combination operation components warnIfEmpty text =>
    .combination operation (greedilyAll components) warnIfEmpty text

/-- The specs with all of their criteria made greedy. -/
def greedilyAll : List Spec → List Spec
  | [] => []
  | spec :: specs => spec.greedily :: greedilyAll specs

end

/-- The criteria of several specs are those of each. -/
@[simp] theorem mem_criteriaAll {specs : List Spec} {c : Criterion} :
    c ∈ criteriaAll specs ↔ ∃ spec ∈ specs, c ∈ spec.criteria := by
  induction specs with
  | nil => simp [criteriaAll]
  | cons spec specs ih => simp [criteriaAll, ih]

/-- Several specs are made greedy one by one. -/
@[simp] theorem greedilyAll_eq_map (specs : List Spec) :
    greedilyAll specs = specs.map greedily := by
  induction specs with
  | nil => rfl
  | cons spec specs ih => rw [greedilyAll, ih, List.map_cons]

/-- Making a spec greedy keeps the text that it is quoted by. -/
@[simp] theorem text_greedily (spec : Spec) : spec.greedily.text = spec.text := by
  cases spec <;> rfl

/-- A spec whose criteria are all greedy does not change when it is made greedy. -/
theorem greedily_eq_self {spec : Spec} (h : ∀ c ∈ spec.criteria, c.greedy = true) :
    spec.greedily = spec := by
  induction spec with
  | criterion c =>
    have hc : c.greedy = true := h c (by simp [criteria])
    rw [greedily, Criterion.greedily, ← hc]
  | combination operation components warnIfEmpty text ih =>
    have hcomponents : components.map greedily = components := by
      refine (List.map_congr_left fun spec hspec => ih spec hspec fun c hc => h c ?_).trans
        (List.map_id _)
      rw [criteria, mem_criteriaAll]
      exact ⟨spec, hspec, hc⟩
    rw [greedily, greedilyAll_eq_map, hcomponents]

/-- A spec without a difference. -/
inductive Positive : Spec → Prop
  | criterion (c : Criterion) : Positive (.criterion c)
  | combination {operation : SetOperation} {components : List Spec} {warnIfEmpty : Bool}
      {text : String} (hoperation : operation ≠ .difference)
      (hcomponents : ∀ spec ∈ components, Positive spec) :
      Positive (.combination operation components warnIfEmpty text)

/-- Making a spec greedy brings no difference in. -/
theorem Positive.greedily {spec : Spec} (h : spec.Positive) : spec.greedily.Positive := by
  induction h with
  | criterion c => exact .criterion c.greedily
  | combination hoperation _ ih =>
    rw [Spec.greedily, greedilyAll_eq_map]
    exact .combination hoperation (List.forall_mem_map.2 ih)

/-- The ways to leave something out: a difference, or nothing to do if there is no criterion for
what is excluded. -/
inductive Without (included excluded : Spec) : Spec → Prop
  | nothing (hexcluded : excluded.criteria = []) : Without included excluded included
  | difference (warnIfEmpty : Bool) (text : String) :
      Without included excluded (.combination .difference [included, excluded] warnIfEmpty text)

/-- A spec for what is included without what is excluded, the latter read greedily, and a difference
nowhere else. -/
structure Exclusion (included excluded spec : Spec) : Prop where
  included_positive : included.Positive
  excluded_positive : excluded.Positive
  excluded_greedy : ∀ c ∈ excluded.criteria, c.greedy = true
  without : Without included excluded spec

/-- An exclusion made greedy leaves out the same. -/
theorem Exclusion.greedily {included excluded spec : Spec} (h : Exclusion included excluded spec) :
    Exclusion included.greedily excluded spec.greedily := by
  refine ⟨h.included_positive.greedily, h.excluded_positive, h.excluded_greedy, ?_⟩
  cases h.without with
  | nothing hexcluded => exact .nothing hexcluded
  | difference warnIfEmpty text =>
    rw [Spec.greedily, greedilyAll_eq_map, List.map_cons, List.map_cons, List.map_nil,
      greedily_eq_self h.excluded_greedy]
    exact .difference warnIfEmpty text

end Spec

end DagSelect
