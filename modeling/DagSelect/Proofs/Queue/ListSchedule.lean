import DagSelect.Proofs.Queue.Run
import DagSelect.Proofs.Queue.Same
import DagSelect.Proofs.Queue.Termination

/-!
# Schedules as list schedules

A list schedule of a graph is made by listing, as long as there is one, the node that goes first of
those that are not listed although all their parents are: the one with the most nodes below, and of
several such the one with the smallest identifier. A graph has one list schedule. A queue keeps its
ready tasks sorted and strikes what is done from what the tasks lack, and comes to the same list.

Over a graph with an edge from the identifier that is never listed, a schedule is no list schedule:
it may list a node twice.
-/

namespace DagSelect

namespace Graph

variable {g : Graph} {listed order order' : List Text} {a b id : Text}

/-- Whether a node is not listed although all its parents are. -/
def Eligible (g : Graph) (listed : List Text) (id : Text) : Prop :=
  id ∈ g.nodes ∧ id ∉ listed ∧ ∀ p, g.Edge p id → p ∈ listed

/-- Whether one node goes before another: more nodes are below it, or as many and its identifier is
not larger in the order of code units. -/
def Precedes (g : Graph) (a b : Text) : Prop :=
  (g.below b).ncard < (g.below a).ncard ∨
    (g.below a).ncard = (g.below b).ncard ∧ Text.unitLE a b = true

/-- Whether nodes go on a list in the order of a list schedule: each goes first of the nodes that
are then eligible, and after the last none is. -/
inductive ListSchedule (g : Graph) : List Text → List Text → Prop where
  | stop {listed : List Text} (hnone : ∀ id, ¬ g.Eligible listed id) : ListSchedule g listed []
  | next {listed rest : List Text} {id : Text} (heligible : g.Eligible listed id)
      (hfirst : ∀ other, g.Eligible listed other → g.Precedes id other)
      (hrest : ListSchedule g (listed ++ [id]) rest) : ListSchedule g listed (id :: rest)

/-- A node is counted as going before itself. -/
theorem Precedes.refl (g : Graph) (a : Text) : g.Precedes a a := by
  have hle := Text.unitLE_total a a
  rw [Bool.or_self] at hle
  exact .inr ⟨rfl, hle⟩

/-- A node has at least as many nodes below it as one that it goes before. -/
theorem Precedes.ncard_le (h : g.Precedes a b) : (g.below b).ncard ≤ (g.below a).ncard := by
  rcases h with hlt | ⟨heq, -⟩
  · exact hlt.le
  · exact heq.ge

/-- Of two different nodes only one goes before the other. -/
theorem Precedes.antisymm (hab : g.Precedes a b) (hba : g.Precedes b a) : a = b := by
  have hcard : (g.below a).ncard = (g.below b).ncard := le_antisymm hba.ncard_le hab.ncard_le
  exact Text.unitLE_antisymm (hab.resolve_left (by omega)).2 (hba.resolve_left (by omega)).2

/-- There is one way to go on in the order of a list schedule. -/
theorem ListSchedule.unique (h : g.ListSchedule listed order) (h' : g.ListSchedule listed order') :
    order = order' := by
  induction h generalizing order' with
  | stop hnone =>
    cases h' with
    | stop => rfl
    | next heligible => exact absurd heligible (hnone _)
  | next heligible hfirst _ ih =>
    cases h' with
    | stop hnone => exact absurd heligible (hnone _)
    | next heligible' hfirst' hrest' =>
      obtain rfl := (hfirst _ heligible').antisymm (hfirst' _ heligible)
      rw [ih hrest']

end Graph

/-- The sample graph with its nodes and edges added the other way round. -/
def Sample.reversed : Graph :=
  .ofEdges manifest.ids.toList.reverse manifest.dependencies.reverse

/-- The other way round the sample graph has the same nodes and edges. -/
theorem Sample.same_reversed : graph.Same reversed where
  mem_nodes := by
    have hperm : graph.nodes.toList.Perm reversed.nodes.toList := by decide +kernel
    exact fun _ => hperm.mem_iff
  edge := by
    have hperm : graph.edges.toList.Perm reversed.edges.toList := by decide +kernel
    exact fun _ _ => hperm.mem_iff

namespace Queue

variable {q : Queue} {id : Text} {task : Task} {rest : List Task}

/-- On a valid queue on which nothing runs the eligible nodes are ready. -/
theorem Valid.mem_ready_iff_eligible (hq : q.Valid) (hrunning : q.running = .empty) :
    id ∈ q.ready.map Task.id ↔ q.graph.Eligible q.done.toList id := by
  rw [hq.mem_ready, Released, hrunning]
  simp [Graph.Eligible, OrderedSet.mem_toList]

/-- The first ready node of a valid queue goes first of all that are ready. -/
theorem Valid.precedes_of_ready (hq : q.Valid) (hready : q.ready = task :: rest)
    (hid : id ∈ q.ready.map Task.id) : q.graph.Precedes task.id id := by
  have hordered := hq.ready_ordered
  rw [hready, List.map_cons] at hid hordered
  rcases List.mem_cons.1 hid with rfl | hid
  · exact .refl _ _
  · exact (List.pairwise_cons.1 hordered).1 id hid

/-- A valid queue on which nothing runs hands out what is still to be listed in the order of a list
schedule, if there are steps enough. -/
theorem Valid.listSchedule_drain (hq : q.Valid) (hrunning : q.running = .empty) {steps : Nat}
    (hsteps : q.remaining ≤ steps) : q.graph.ListSchedule q.done.toList (Queue.drain steps q) := by
  induction steps generalizing q with
  | zero =>
    refine .stop fun id hid => ?_
    have hmem := (hq.mem_ready_iff_eligible hrunning).2 hid
    have hpos := hq.remaining_pos ((hq.mem_ready id).1 hmem)
    omega
  | succ steps ih =>
    cases hready : q.ready with
    | nil =>
      rw [drain_of_ready_nil hready]
      refine .stop fun id hid => ?_
      have hmem := (hq.mem_ready_iff_eligible hrunning).2 hid
      rw [hready] at hmem
      exact List.not_mem_nil hmem
    | cons task rest =>
      obtain ⟨hvalid, hrun, hdone, hremaining⟩ := hq.advance hrunning hready
      have hmem : task.id ∈ q.ready.map Task.id := by
        rw [hready]
        exact List.mem_cons_self
      rw [drain_of_ready hready]
      refine .next ((hq.mem_ready_iff_eligible hrunning).1 hmem) (fun other hother => ?_) ?_
      · exact hq.precedes_of_ready hready ((hq.mem_ready_iff_eligible hrunning).2 hother)
      · rw [← hdone]
        exact ih hvalid hrun (by omega)

/-- The schedule of a graph that lists its edges is a list schedule. -/
theorem listSchedule_schedule {g : Graph} (hg : g.Lists g.edges.toList) (selected : IdSet) :
    g.ListSchedule [] (ofGraph g selected).schedule := by
  have hsteps : (ofGraph g selected).remaining ≤ Nat.pow 2 g.size :=
    (Nat.sub_le _ _).trans Nat.lt_two_pow_self.le
  exact (valid_ofGraph hg selected).listSchedule_drain rfl hsteps

/-- The schedule of a queue comes to an end, whatever steps are allowed for it. If its graph lists
its edges, it is the one list schedule of that graph: each node is listed when it goes first of
those that are eligible, and after the last none is. Queues over graphs with the same nodes and
edges have the same schedule, in whatever order these are kept. -/
theorem schedule_spec (q : Queue) :
    (∀ more, drain (Nat.pow 2 q.graph.size + more) (ofGraph q.graph q.selected) = q.schedule) ∧
    (q.graph.Lists q.graph.edges.toList → ∀ order,
      q.graph.ListSchedule [] order ↔ order = q.schedule) ∧
    ∀ q' : Queue, q.graph.Same q'.graph → q.schedule = q'.schedule := by
  refine ⟨drain_ofGraph_add q.graph q.selected, fun hg order => ?_, fun q' h => ?_⟩
  · have hschedule : q.graph.ListSchedule [] q.schedule := listSchedule_schedule hg q.selected
    constructor
    · exact fun h => h.unique hschedule
    · rintro rfl
      exact hschedule
  · exact schedule_eq h q.selected q'.selected

/-- In the sample only the model without parents and its test are scheduled, since another model
depends on itself; and the schedule is the same with the nodes and edges the other way round. -/
theorem schedule_spec_sample : ∃ order : List Text, order = ["orders", "unique"] ∧
    (ofGraph Sample.graph Sample.graph.nodes).schedule = order ∧
    Sample.graph.ListSchedule [] order ∧ (ofGraph Sample.reversed .empty).schedule = order := by
  let q := ofGraph Sample.graph Sample.graph.nodes
  obtain ⟨-, hlist, hsame⟩ := schedule_spec q
  have horder : q.schedule = ["orders", "unique"] := by
    decide +kernel
  refine ⟨_, horder, rfl, (hlist Sample.lists_edges q.schedule).2 rfl, ?_⟩
  exact (hsame (ofGraph Sample.reversed .empty) Sample.same_reversed).symm

/-- Over the graph with an edge from the identifier that is never listed to `b`, the schedule lists
`b` twice. -/
theorem schedule_unlisted :
    (ofGraph Sample.unlisted Sample.unlisted.nodes).schedule = [Text.voidKey, "b", "b"] ∧
    ¬ ∀ q : Queue, q.graph.ListSchedule [] q.schedule := by
  have htwice : (ofGraph Sample.unlisted Sample.unlisted.nodes).schedule =
      [Text.voidKey, "b", "b"] := by
    decide +kernel
  refine ⟨htwice, fun hall => ?_⟩
  have hlist := hall (ofGraph Sample.unlisted Sample.unlisted.nodes)
  rw [htwice] at hlist
  obtain _ | ⟨-, -, hlist⟩ := hlist
  obtain _ | ⟨-, -, hlist⟩ := hlist
  obtain _ | ⟨heligible, -, -⟩ := hlist
  exact absurd heligible.2.1 (by decide)

end Queue

end DagSelect
