import DagSelect.Proofs.Graph.OfManifest
import DagSelect.Proofs.Graph.Search
import DagSelect.Proofs.Queue.Invariant

/-!
# Runs of a queue

A queue is asked, in any order, to hand out a node or to note that one is done. Calls may fail, with
identifiers that are no nodes too, and any number of nodes may be running. Over a graph that lists
its edges, every node is at each moment in exactly one of four stages: it waits for a parent, is
ready, is running or is done. What is ready stands in order of the number of nodes below, then of
identifiers. No node is handed out twice, and each only after everything that it is reached from.

A graph with an edge from the identifier that is never listed shows what becomes of the rest: the
child of such an edge is handed out with its parent, and then a second time.
-/

namespace DagSelect

open Relation

/-- What can be asked of a queue: to hand out a node, or to note that one is done. -/
inductive Call where
  | next
  | finish (id : Text)

/-- The stages of a node: it lacks a parent, can be handed out, has been handed out, or is done. -/
inductive Stage where
  | waiting
  | ready
  | running
  | done

/-- The graph with an edge from the identifier that is never listed to another node. -/
def Sample.unlisted : Graph := .ofEdges [Text.voidKey, "b"] [(Text.voidKey, "b")]

namespace Queue

variable {q : Queue} {g : Graph} {id a : Text}

/-- What a queue answers to a call, and its state after it. A call that fails changes nothing. -/
def call (q : Queue) : Call → Except InternalError (Option Text) × Queue
  | .next =>
    match q.next? with
    | none => (.ok none, q)
    | some (id, started) => (.ok (some id), started)
  | .finish id =>
    match q.finish id with
    | .error error => (.error error, q)
    | .ok next => (.ok none, next)

/-- The state of a queue after calls. -/
def run (q : Queue) (calls : List Call) : Queue :=
  calls.foldl (fun q c => (q.call c).2) q

/-- The nodes that a queue hands out in the course of calls. -/
def handedOut (q : Queue) : List Call → List Text
  | [] => []
  | c :: calls =>
    match q.call c with
    | (.ok (some id), next) => id :: next.handedOut calls
    | (_, next) => next.handedOut calls

/-- Whether a node is in a stage. It waits while its task lacks a parent. -/
def InStage (q : Queue) (id : Text) : Stage → Prop
  | .waiting => ∃ t ∈ q.tasks, t.task.id = id ∧ t.lacking ≠ []
  | .ready => id ∈ q.ready.map Task.id
  | .running => id ∈ q.running
  | .done => id ∈ q.done

/-- Calls after calls are made on the state that these leave. -/
theorem run_append (q : Queue) (calls more : List Call) :
    q.run (calls ++ more) = (q.run calls).run more :=
  List.foldl_append

/-- A call hands out the first node that is ready, or notes that a running node is done, or changes
nothing. -/
theorem call_cases (q : Queue) (c : Call) :
    (∃ id next, c = .next ∧ q.next? = some (id, next) ∧ q.call c = (.ok (some id), next)) ∨
    (∃ id next, c = .finish id ∧ q.finish id = .ok next ∧ q.call c = (.ok none, next)) ∨
    (c = .next ∧ q.next? = none ∧ q.call c = (.ok none, q)) ∨
    ∃ id error, c = .finish id ∧ q.finish id = .error error ∧ q.call c = (.error error, q) := by
  cases c with
  | next =>
    cases h : q.next? with
    | none => exact .inr (.inr (.inl ⟨rfl, rfl, by rw [call, h]⟩))
    | some handed => exact .inl ⟨handed.1, handed.2, rfl, rfl, by rw [call, h]⟩
  | finish id =>
    cases h : q.finish id with
    | error e => exact .inr (.inr (.inr ⟨id, e, rfl, h, by rw [call, h]⟩))
    | ok next => exact .inr (.inl ⟨id, next, rfl, h, by rw [call, h]⟩)

/-- A call keeps a queue valid, and keeps its graph. -/
theorem Valid.call (hq : q.Valid) (c : Call) :
    (q.call c).2.Valid ∧ (q.call c).2.graph = q.graph := by
  rcases q.call_cases c with ⟨id, next, -, h, hcall⟩ | ⟨id, next, -, h, hcall⟩ | ⟨-, -, hcall⟩ |
    ⟨id, e, -, -, hcall⟩
  · rw [hcall]
    obtain ⟨task, rest, -, -, hnext⟩ := next?_eq_some_iff.1 h
    exact ⟨hq.next? h, by rw [hnext]⟩
  · rw [hcall]
    obtain ⟨-, hnext⟩ := finish_eq_ok_iff.1 h
    exact ⟨hq.finish h, by rw [hnext]⟩
  · rw [hcall]
    exact ⟨hq, rfl⟩
  · rw [hcall]
    exact ⟨hq, rfl⟩

/-- Calls keep a queue valid, and keep its graph. -/
theorem Valid.run (hq : q.Valid) (calls : List Call) :
    (q.run calls).Valid ∧ (q.run calls).graph = q.graph := by
  induction calls generalizing q with
  | nil => exact ⟨hq, rfl⟩
  | cons c calls ih =>
    obtain ⟨hvalid, hgraph⟩ := hq.call c
    obtain ⟨hvalid', hgraph'⟩ := ih hvalid
    exact ⟨hvalid', hgraph'.trans hgraph⟩

/-- A node waits exactly if a parent of it is not done. -/
theorem Valid.waiting_iff (hq : q.Valid) : q.InStage id .waiting ↔
    id ∈ q.graph.nodes ∧ ∃ p, q.graph.Edge p id ∧ p ∉ q.done := by
  have hlacking : (pending q.graph q.done id).lacking ≠ [] ↔
      ∃ p, q.graph.Edge p id ∧ p ∉ q.done := by
    rw [Ne, lacking_pending hq.lists]
    push Not
    rfl
  rw [InStage, hq.tasks_eq, ← hlacking]
  constructor
  · rintro ⟨t, ht, hid, hsome⟩
    obtain ⟨y, hy, rfl⟩ := List.mem_map.1 ht
    obtain rfl : y = id := hid
    exact ⟨hy, hsome⟩
  · rintro ⟨hid, hsome⟩
    exact ⟨_, List.mem_map_of_mem hid, rfl, hsome⟩

/-- Every node is in exactly one stage. -/
theorem Valid.existsUnique_stage (hq : q.Valid) (hid : id ∈ q.graph.nodes) :
    ∃! stage, q.InStage id stage := by
  let freed : Prop := ∀ p, q.graph.Edge p id → p ∈ q.done
  have hwaiting : q.InStage id .waiting ↔ ¬ freed := by
    simp [hq.waiting_iff, hid, freed]
  have hready : q.InStage id .ready ↔ id ∉ q.running ∧ id ∉ q.done ∧ freed :=
    (hq.mem_ready id).trans (and_iff_right hid)
  have hrunning : q.InStage id .running ↔ id ∈ q.running := Iff.rfl
  have hdone : q.InStage id .done ↔ id ∈ q.done := Iff.rfl
  -- A node that is running or done has no parent to wait for.
  have hrunfreed : id ∈ q.running → freed := fun h p hp => hq.running_parents id h p hp
  have hdonefreed : id ∈ q.done → freed := fun h p hp => hq.done_parents h hp
  have hapart : id ∈ q.running → id ∉ q.done := fun h => (hq.running_mem id h).2
  clear_value freed
  have hone : ∃ stage, q.InStage id stage := by
    by_cases hfreed : freed
    · by_cases hrun : id ∈ q.running
      · exact ⟨.running, hrun⟩
      · by_cases hin : id ∈ q.done
        · exact ⟨.done, hin⟩
        · exact ⟨.ready, hready.2 ⟨hrun, hin, hfreed⟩⟩
    · exact ⟨.waiting, hwaiting.2 hfreed⟩
  obtain ⟨stage, hstage⟩ := hone
  refine ⟨stage, hstage, fun other hother => ?_⟩
  cases stage <;> cases other <;> grind

/-- The nodes that remain are those that are not done. -/
theorem Valid.remaining_eq (hq : q.Valid) :
    q.remaining = (q.graph.nodes.toList.filter fun id => id ∉ q.done).length := by
  have hdone : (q.graph.nodes.toList.filter fun id => id ∈ q.done).Perm q.done.toList := by
    refine (List.perm_ext_iff_of_nodup (q.graph.nodes.nodup.filter _) q.done.nodup).2 fun id => ?_
    rw [List.mem_filter, decide_eq_true_eq, OrderedSet.mem_toList, OrderedSet.mem_toList]
    exact and_iff_right_of_imp (hq.done_mem id)
  have hsplit := List.length_eq_length_filter_add (l := q.graph.nodes.toList)
    fun id => decide (id ∈ q.done)
  rw [hdone.length_eq] at hsplit
  simp only [← decide_not] at hsplit
  change q.graph.nodes.toList.length - q.done.toList.length = _
  omega

/-- The ready nodes stand in order of the number of nodes below, then of identifiers. -/
theorem Valid.ready_ordered (hq : q.Valid) : (q.ready.map Task.id).Pairwise fun a b =>
    (q.graph.below b).ncard < (q.graph.below a).ncard ∨
      (q.graph.below a).ncard = (q.graph.below b).ncard ∧ Text.unitLE a b = true := by
  have hweight : ∀ t ∈ q.ready, t.weight = (q.graph.below t.id).ncard := by
    intro t ht
    rw [← hq.lists.size_reach, hq.ready_task t ht]
    rfl
  rw [List.pairwise_map]
  refine hq.ready_sorted.imp_of_mem fun {a b} ha hb hbefore => ?_
  rw [← hweight a ha, ← hweight b hb]
  exact Task.before_iff.1 hbefore

/-- Everything that a done node is reached from is done. -/
theorem Valid.done_ancestors (hq : q.Valid) (hid : id ∈ q.done) (ha : TransGen q.graph.Edge a id) :
    a ∈ q.done := by
  induction ha using TransGen.head_induction_on with
  | single h => exact hq.done_parents hid h
  | head h _ ih => exact hq.done_parents ih h

/-- A node is handed out only when everything that it is reached from is done. -/
theorem Valid.ancestors_of_next? (hq : q.Valid) {next : Queue} (h : q.next? = some (id, next))
    (ha : TransGen q.graph.Edge a id) : a ∈ q.done := by
  obtain ⟨-, -, -, hparents⟩ := hq.released_of_next? h
  obtain ⟨p, hap, hp⟩ := TransGen.tail'_iff.1 ha
  cases reflTransGen_iff_eq_or_transGen.1 hap with
  | inl heq => exact heq ▸ hparents p hp
  | inr hap => exact hq.done_ancestors (hparents p hp) hap

/-- What a queue hands out is handed out once, and was neither running nor done before. -/
theorem Valid.handedOut_spec (hq : q.Valid) (calls : List Call) : (q.handedOut calls).Nodup ∧
    ∀ id ∈ q.handedOut calls, id ∉ q.running ∧ id ∉ q.done := by
  induction calls generalizing q with
  | nil => exact ⟨List.nodup_nil, fun id hid => absurd hid List.not_mem_nil⟩
  | cons c calls ih =>
    have hstep := ih (hq.call c).1
    rw [handedOut]
    rcases q.call_cases c with ⟨id, next, -, h, hcall⟩ | ⟨id, next, -, h, hcall⟩ |
      ⟨-, -, hcall⟩ | ⟨id, e, -, -, hcall⟩
    · rw [hcall] at hstep ⊢
      obtain ⟨hnodup, hapart⟩ := hstep
      obtain ⟨-, hrun, hnew, -⟩ := hq.released_of_next? h
      obtain ⟨task, rest, -, rfl, rfl⟩ := next?_eq_some_iff.1 h
      constructor
      · refine List.nodup_cons.2 ⟨fun hmem => ?_, hnodup⟩
        exact (hapart _ hmem).1 (OrderedSet.mem_insert.2 (.inr rfl))
      · intro id hid
        cases List.mem_cons.1 hid with
        | inl heq => exact heq ▸ ⟨hrun, hnew⟩
        | inr hmem =>
          obtain ⟨hnotrun, hnotdone⟩ := hapart id hmem
          exact ⟨fun hr => hnotrun (OrderedSet.mem_insert.2 (.inl hr)), hnotdone⟩
    · rw [hcall] at hstep ⊢
      obtain ⟨hnodup, hapart⟩ := hstep
      obtain ⟨-, rfl⟩ := finish_eq_ok_iff.1 h
      refine ⟨hnodup, fun y hy => ?_⟩
      obtain ⟨hnotrun, hnotdone⟩ := hapart y hy
      have hne : y ≠ id := fun heq => hnotdone (OrderedSet.mem_insert.2 (.inr heq))
      exact ⟨fun hr => hnotrun (OrderedSet.mem_erase.2 ⟨hr, hne⟩),
        fun hd => hnotdone (OrderedSet.mem_insert.2 (.inl hd))⟩
    · rw [hcall] at hstep ⊢
      exact hstep
    · rw [hcall] at hstep ⊢
      exact hstep

/-- Whatever calls have been made on a queue over a graph that lists its edges, every node is in
exactly one stage; the ready nodes are those that are neither running nor done and have all parents
done, once each, in order of the number of nodes below and then of identifiers; what remains is
counted; nothing has been handed out twice, and what comes next has all that it is reached from
done; and a call for which there is nothing to do changes nothing. -/
theorem run_state (hg : g.Lists g.edges.toList) (selected : IdSet) (calls : List Call)
    {q : Queue} (hq : q = (ofGraph g selected).run calls) :
    (∀ id ∈ g.nodes, ∃! stage, q.InStage id stage) ∧
    (q.ready.map Task.id).Nodup ∧
    ((q.ready.map Task.id).Pairwise fun a b => (g.below b).ncard < (g.below a).ncard ∨
      (g.below a).ncard = (g.below b).ncard ∧ Text.unitLE a b = true) ∧
    (∀ id, id ∈ q.ready.map Task.id ↔
      id ∈ g.nodes ∧ id ∉ q.running ∧ id ∉ q.done ∧ ∀ p, g.Edge p id → p ∈ q.done) ∧
    q.remaining = (g.nodes.toList.filter fun id => id ∉ q.done).length ∧
    ((ofGraph g selected).handedOut calls).Nodup ∧
    (∀ id next, q.call .next = (.ok (some id), next) → ∀ a, TransGen g.Edge a id → a ∈ q.done) ∧
    (q.ready = [] → q.call .next = (.ok none, q)) ∧
    ∀ id, id ∉ q.running → q.call (.finish id) = (.error (.neverStarted id), q) := by
  have hfresh : (ofGraph g selected).Valid := valid_ofGraph hg selected
  obtain ⟨hvalid, hgraph⟩ := hfresh.run calls
  rw [← hq] at hvalid hgraph
  obtain rfl : q.graph = g := hgraph
  refine ⟨fun id hid => hvalid.existsUnique_stage hid, hvalid.ready_nodup, hvalid.ready_ordered,
    hvalid.mem_ready, hvalid.remaining_eq, (hfresh.handedOut_spec calls).1, ?_, ?_, ?_⟩
  · intro id next h a ha
    rcases q.call_cases .next with ⟨y, started, -, hnext, hcall⟩ | ⟨y, started, heq, -⟩ |
      ⟨-, -, hcall⟩ | ⟨y, e, heq, -⟩
    · rw [hcall] at h
      obtain rfl : y = id := by simpa using congrArg Prod.fst h
      exact hvalid.ancestors_of_next? hnext ha
    · contradiction
    · rw [hcall] at h
      simpa using congrArg Prod.fst h
    · contradiction
  · intro hready
    rw [call, next?_eq_none_iff.2 hready]
  · intro id hid
    rw [call, Queue.finish, if_neg hid]

/-- In the sample, after a call that hands out `orders`, one that fails and one that notes that
`orders` is done: nothing is ready twice, `stock`, which depends on itself, is in one stage, `unique`
is ready exactly if its parents are done, and `stock` cannot be noted as done. -/
theorem run_state_sample : ∃ q, q = (ofGraph Sample.graph Sample.graph.nodes).run
      [.next, .finish "stock", .finish "orders"] ∧
    (q.ready.map Task.id).Nodup ∧
    (∃! stage, q.InStage "stock" stage) ∧
    (("unique" : Text) ∈ q.ready.map Task.id ↔
      ("unique" : Text) ∈ Sample.graph.nodes ∧ ("unique" : Text) ∉ q.running ∧
        ("unique" : Text) ∉ q.done ∧ ∀ p, Sample.graph.Edge p "unique" → p ∈ q.done) ∧
    q.call (.finish "stock") = (.error (.neverStarted "stock"), q) := by
  obtain ⟨hstage, hnodup, -, hready, -, -, -, -, hfail⟩ :=
    run_state Sample.lists_edges Sample.graph.nodes [.next, .finish "stock", .finish "orders"] rfl
  exact ⟨_, rfl, hnodup, hstage "stock" (by decide +kernel), hready "unique",
    hfail "stock" (by decide +kernel)⟩

/-- Over the graph with an edge from the identifier that is never listed to `b`, a queue hands out
`b` while its parent is running, and once more when that is done. -/
theorem handedOut_unlisted :
    Sample.unlisted.Edge Text.voidKey "b" ∧
    (ofGraph Sample.unlisted Sample.unlisted.nodes).handedOut
      [.next, .next, .finish Text.voidKey, .next] = [Text.voidKey, "b", "b"] ∧
    ¬ ∀ (g : Graph) (selected : IdSet) (calls : List Call),
      ((ofGraph g selected).handedOut calls).Nodup := by
  have hedge : (Text.voidKey, ("b" : Text)) ∈ Sample.unlisted.edges := by decide +kernel
  have htwice : (ofGraph Sample.unlisted Sample.unlisted.nodes).handedOut
      [.next, .next, .finish Text.voidKey, .next] = [Text.voidKey, "b", "b"] := by
    decide +kernel
  refine ⟨hedge, htwice, fun hall => ?_⟩
  have hnodup := hall Sample.unlisted Sample.unlisted.nodes
    [.next, .next, .finish Text.voidKey, .next]
  rw [htwice] at hnodup
  exact absurd hnodup (by decide)

end Queue

end DagSelect
