import DagSelect.Proofs.Except
import DagSelect.Proofs.Graph.Reach
import DagSelect.Proofs.Spec.Tree
import DagSelect.Selector.Evaluation

/-!
# Evaluation never fails

A criterion is matched among the nodes of the member graph, and whatever widens its matches are
nodes again, so no look-up on the way can fail. What a spec selects and what is logged for it are
therefore functions of the spec, which follow its tree.
-/

namespace DagSelect.Selector

variable {s : Selector} {c : Criterion} {ids selected : IdSet} {x : Text}

/-- The members around the given ones that the modifiers of a criterion ask for. -/
def surroundings (s : Selector) (c : Criterion) (ids : List Text) : IdSet :=
  let family := if c.family then s.memberGraph.family ids else .empty
  let upstream :=
    if c.upstream then s.memberGraph.reachAll .upstream c.upstreamDepth ids else .empty
  let downstream :=
    if c.downstream then s.memberGraph.reachAll .downstream c.downstreamDepth ids else .empty
  (family.union upstream).union downstream

/-- The members that a criterion collects: those that it matches and those around them, or none if
it cannot be understood. -/
def collected (s : Selector) (c : Criterion) : IdSet :=
  match s.matching s.memberGraph.nodes c with
  | .error _ => .empty
  | .ok ids => ids.union (s.surroundings c ids.toList)

/-- The notice about a criterion, if it cannot be understood. -/
def complaints (s : Selector) (c : Criterion) : List LogEntry :=
  match s.matching s.memberGraph.nodes c with
  | .error error => [s.recover c error]
  | .ok _ => []

/-- The tests among the children of the selected members. -/
def neighbouringTests (s : Selector) (selected : IdSet) : List Member :=
  let successors := s.memberGraph.successors selected.toList
  (successors.toList.filterMap s.manifest.findNode?).filter Member.followsParents

/-- A selection expanded by the tests next to it. -/
def expansion (s : Selector) (selected : IdSet) (greedy : Bool) : Bundle :=
  let tests := s.neighbouringTests selected
  let isDirect (t : Member) : Bool := greedy || selected.containsAll t.dependsOn
  { direct := selected.insertAll ((tests.filter isDirect).map Member.id)
    indirect := .ofList ((tests.filter fun t => !isDirect t).map Member.id) }

/-- Matches are among the included members. -/
theorem mem_of_mem_matching (h : s.matching ids c = .ok selected) (hx : x ∈ selected) :
    x ∈ ids := by
  obtain ⟨method, -, hsearch⟩ := Except.bind_eq_ok_iff.1 h
  rw [Method.search] at hsearch
  split at hsearch
  · split at hsearch
    · contradiction
    · obtain rfl := Except.ok.inj hsearch
      exact absurd hx (OrderedSet.not_mem_empty x)
  · obtain rfl := Except.ok.inj hsearch
    exact (OrderedSet.mem_filter.1 hx).1

/-- Around a selection there is what each of the modifiers of a criterion asks for. -/
theorem mem_surroundings_iff {ids : List Text} :
    x ∈ s.surroundings c ids ↔ (c.family = true ∧ x ∈ s.memberGraph.family ids) ∨
      (c.upstream = true ∧ x ∈ s.memberGraph.reachAll .upstream c.upstreamDepth ids) ∨
      (c.downstream = true ∧ x ∈ s.memberGraph.reachAll .downstream c.downstreamDepth ids) := by
  have hguard (b : Bool) (found : IdSet) :
      x ∈ (if b then found else .empty) ↔ b = true ∧ x ∈ found := by
    cases b <;> simp [OrderedSet.not_mem_empty]
  simp only [surroundings, OrderedSet.mem_union, hguard, or_assoc]

/-- What surrounds nodes are nodes. -/
theorem mem_nodes_of_mem_surroundings {ids : List Text}
    (hids : ∀ id ∈ ids, id ∈ s.memberGraph.nodes) (hx : x ∈ s.surroundings c ids) :
    x ∈ s.memberGraph.nodes := by
  rcases mem_surroundings_iff.1 hx with ⟨-, hx⟩ | ⟨-, hx⟩ | ⟨-, hx⟩
  · exact Graph.mem_nodes_of_mem_family hids hx
  · exact Graph.mem_nodes_of_mem_reachAll hx
  · exact Graph.mem_nodes_of_mem_reachAll hx

/-- A criterion collects nodes of the member graph. -/
theorem mem_nodes_of_mem_collected (hx : x ∈ s.collected c) : x ∈ s.memberGraph.nodes := by
  rw [collected] at hx
  split at hx
  · exact absurd hx (OrderedSet.not_mem_empty x)
  · rename_i ids hids
    rcases OrderedSet.mem_union.1 hx with hx | hx
    · exact mem_of_mem_matching hids hx
    · exact mem_nodes_of_mem_surroundings (fun id hid => mem_of_mem_matching hids hid) hx

/-- Whether a criterion names a member: it matches it, or adds it to what it matches. -/
def Collects (s : Selector) (c : Criterion) (id : Text) : Prop :=
  ∃ ids added, s.matching s.memberGraph.nodes c = .ok ids ∧ s.widening c ids = .ok added ∧
    (id ∈ ids ∨ id ∈ added)

/-- Widening nodes of the member graph adds what surrounds them. -/
theorem widening_eq (hids : ∀ id ∈ ids, id ∈ s.memberGraph.nodes) :
    s.widening c ids = .ok (s.surroundings c ids.toList) := by
  have hfamily : s.memberGraph.familyOf ids.toList = .ok (s.memberGraph.family ids.toList) :=
    Graph.familyOf_eq hids
  have hancestors : ∀ depth, s.memberGraph.ancestorsOf ids.toList depth =
      .ok (s.memberGraph.reachAll .upstream depth ids.toList) :=
    Graph.ancestorsOf_eq hids
  have hdescendants : ∀ depth, s.memberGraph.descendantsOf ids.toList depth =
      .ok (s.memberGraph.reachAll .downstream depth ids.toList) :=
    Graph.descendantsOf_eq hids
  simp only [widening, surroundings, hfamily, hancestors, hdescendants]
  cases c.family <;> cases c.upstream <;> cases c.downstream <;> rfl

/-- A criterion collects the members that it names. -/
theorem collects_iff : s.Collects c x ↔ x ∈ s.collected c := by
  rw [Collects, collected]
  cases h : s.matching s.memberGraph.nodes c with
  | error e => simp
  | ok ids =>
    have hwidening : s.widening c ids = .ok (s.surroundings c ids.toList) :=
      widening_eq fun id hid => mem_of_mem_matching h hid
    rw [OrderedSet.mem_union]
    constructor
    · rintro ⟨ids', added, hids, hadded, hx⟩
      obtain rfl := Except.ok.inj hids
      rw [hwidening] at hadded
      obtain rfl := Except.ok.inj hadded
      exact hx
    · exact fun hx => ⟨ids, _, rfl, hwidening, hx⟩

/-- Expanding a selection of nodes of the member graph adds the tests next to it. -/
theorem expand_eq (hids : ∀ id ∈ ids, id ∈ s.memberGraph.nodes) (greedy : Bool) :
    s.expand ids greedy = .ok (s.expansion ids greedy) := by
  have htests : s.adjacentTests ids = .ok (s.neighbouringTests ids) := by
    rw [adjacentTests, Graph.childrenOf, Graph.require_eq_ok_iff.2 hids]
    rfl
  rw [expand, htests]
  rfl

/-- A criterion selects the expansion of what it collects. -/
theorem evaluateMatches_eq (c : Criterion) :
    s.evaluateMatches c = .ok ⟨s.expansion (s.collected c) c.greedy, s.complaints c⟩ := by
  cases h : s.matching s.memberGraph.nodes c with
  | error e => simp only [evaluateMatches, collected, complaints, h]; rfl
  | ok ids =>
    have hids : ∀ id ∈ ids, id ∈ s.memberGraph.nodes := fun id hid => mem_of_mem_matching h hid
    have hunion : ∀ id ∈ ids.union (s.surroundings c ids.toList), id ∈ s.memberGraph.nodes := by
      intro id hid
      rcases OrderedSet.mem_union.1 hid with hid | hid
      · exact hids id hid
      · exact mem_nodes_of_mem_surroundings hids hid
    simp only [evaluateMatches, collected, complaints, h, widening_eq hids, Except.ok_bind,
      expand_eq hunion]
    rfl

mutual

/-- What a spec selects and what hangs on it. -/
def bundle (s : Selector) : Spec → Bundle
  | .criterion c => s.expansion (s.collected c) c.greedy
  | .combination operation components _ _ => s.combine operation (s.bundleAll components)

/-- What each of several specs selects and what hangs on it. -/
def bundleAll (s : Selector) : List Spec → List Bundle
  | [] => []
  | spec :: specs => s.bundle spec :: s.bundleAll specs

end

/-- What is selected of what a spec selects and what hangs on it. -/
def selection (s : Selector) (spec : Spec) : Selection :=
  ⟨(s.bundle spec).direct, (s.bundle spec).indirect.diff (s.bundle spec).direct⟩

mutual

/-- The messages that are logged for a spec. -/
def messages (s : Selector) : Spec → List LogEntry
  | .criterion c => s.complaints c ++ warning (.criterion c) (s.bundle (.criterion c)).direct
  | .combination operation components warnIfEmpty text =>
    let spec := Spec.combination operation components warnIfEmpty text
    s.messagesAll components ++ warning spec (s.bundle spec).direct

/-- The messages that are logged for several specs. -/
def messagesAll (s : Selector) : List Spec → List LogEntry
  | [] => []
  | spec :: specs => s.messages spec ++ s.messagesAll specs

end

/-- Several specs are evaluated one by one. -/
@[simp] theorem bundleAll_eq_map (specs : List Spec) : s.bundleAll specs = specs.map s.bundle := by
  induction specs with
  | nil => rfl
  | cons spec specs ih => rw [bundleAll, ih, List.map_cons]

/-- The messages for several specs are those for each, one after another. -/
theorem messagesAll_eq_flatMap (specs : List Spec) :
    s.messagesAll specs = specs.flatMap s.messages := by
  induction specs with
  | nil => rfl
  | cons spec specs ih => rw [messagesAll, ih, List.flatMap_cons]

/-- If each of several specs can be evaluated, they all can, one after another. -/
theorem evaluateAll_eq {specs : List Spec}
    (h : ∀ spec ∈ specs, s.evaluate spec = .ok ⟨s.bundle spec, s.messages spec⟩) :
    s.evaluateAll specs = .ok ⟨s.bundleAll specs, s.messagesAll specs⟩ := by
  induction specs with
  | nil => rfl
  | cons spec specs ih =>
    have hfirst := h spec List.mem_cons_self
    have hrest := ih fun spec hspec => h spec (List.mem_cons_of_mem _ hspec)
    rw [evaluateAll, hfirst, Except.ok_bind, hrest]
    rfl

/-- Every spec can be evaluated, with the bundle and the messages that its tree says. -/
theorem evaluate_eq (s : Selector) (spec : Spec) :
    s.evaluate spec = .ok ⟨s.bundle spec, s.messages spec⟩ := by
  induction spec with
  | criterion c =>
    rw [evaluate, evaluateMatches_eq]
    rfl
  | combination operation components warnIfEmpty text ih =>
    rw [evaluate, evaluateAll_eq ih]
    rfl

/-- Every spec can be resolved. -/
theorem resolve_eq (s : Selector) (spec : Spec) :
    s.resolve spec = .ok ⟨s.selection spec, s.messages spec⟩ := by
  rw [resolve, evaluate_eq]
  rfl

end DagSelect.Selector
