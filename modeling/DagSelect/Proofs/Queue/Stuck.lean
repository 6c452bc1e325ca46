import DagSelect.Proofs.Queue.Run
import DagSelect.Proofs.Queue.Schedule

/-!
# Where runs of a queue end

A queue is stuck when nothing is ready and nothing is running. Any run over a graph that lists its
edges can be continued until it is stuck, and what is then not done are exactly the nodes on a cycle
or behind one. So all runs that end do the same nodes, and over a graph without cycles they do all
of them.

In a graph with an edge to the identifier that is never listed, that identifier is never released,
and a queue gets stuck although there is no cycle.
-/

namespace DagSelect

open Relation

/-- The graph with an edge to the identifier that is never listed. -/
def Sample.unreleased : Graph := .ofEdges [] [("a", Text.voidKey)]

namespace Queue

variable {q : Queue} {g : Graph} {id : Text}

/-- Whether nothing is ready and nothing is running. -/
def Stuck (q : Queue) : Prop :=
  q.ready = [] ∧ q.running = .empty

/-- A valid queue that is not stuck can do one more node, handing it out first if none is
running. -/
theorem Valid.exists_calls (hq : q.Valid) (h : ¬ q.Stuck) :
    ∃ calls, (q.run calls).Valid ∧ (q.run calls).remaining + 1 = q.remaining := by
  have hfinish : ∀ {q : Queue}, q.Valid → ∀ id ∈ q.running,
      (q.run [.finish id]).Valid ∧ (q.run [.finish id]).remaining + 1 = q.remaining := by
    intro q hq id hid
    obtain ⟨next, hnext⟩ : ∃ next, q.finish id = .ok next := ⟨_, finish_eq_ok_iff.2 ⟨hid, rfl⟩⟩
    have hrun : q.run [.finish id] = next := by
      simp [Queue.run, Queue.call, hnext]
    rw [hrun]
    exact ⟨hq.finish hnext, hq.remaining_finish hnext⟩
  by_cases hrunning : q.running = .empty
  · cases hready : q.ready with
    | nil => exact absurd ⟨hready, hrunning⟩ h
    | cons task rest =>
      let started := { q with ready := rest, running := q.running.insert task.id }
      have hnext : q.next? = some (task.id, started) :=
        next?_eq_some_iff.2 ⟨task, rest, hready, rfl, rfl⟩
      have hrun : q.run [.next, .finish task.id] = started.run [.finish task.id] := by
        simp [Queue.run, Queue.call, hnext]
      refine ⟨[.next, .finish task.id], ?_⟩
      rw [hrun]
      exact hfinish (hq.next? hnext) task.id (OrderedSet.mem_insert.2 (.inr rfl))
  · have hne : q.running.toList ≠ [] := fun heq => hrunning (OrderedSet.toList_inj.1 heq)
    obtain ⟨id, hid⟩ := List.exists_mem_of_ne_nil _ hne
    exact ⟨[.finish id], hfinish hq id hid⟩

/-- Calls can be made on a valid queue until it is stuck. -/
theorem Valid.exists_stuck (hq : q.Valid) : ∃ calls, (q.run calls).Stuck := by
  induction hsize : q.remaining using Nat.strong_induction_on generalizing q with
  | _ n ih =>
    by_cases hstuck : q.Stuck
    · exact ⟨[], hstuck⟩
    · obtain ⟨calls, hvalid, hremaining⟩ := hq.exists_calls hstuck
      obtain ⟨more, hmore⟩ := ih _ (by omega) hvalid rfl
      refine ⟨calls ++ more, ?_⟩
      rw [run_append]
      exact hmore

/-- Wherever a run over a graph that lists its edges is stuck, exactly the nodes that lie on a cycle
or are reached from one are not done. So all runs that are stuck have done the same nodes, over a
graph without cycles they have done all of them, and every run can be continued until it is
stuck. -/
theorem stuck_run (hg : g.Lists g.edges.toList) (selected : IdSet) :
    (∀ calls, ((ofGraph g selected).run calls).Stuck → ∀ id ∈ g.nodes,
      (id ∉ ((ofGraph g selected).run calls).done ↔
        ∃ c, TransGen g.Edge c c ∧ ReflTransGen g.Edge c id)) ∧
    (∀ calls calls', ((ofGraph g selected).run calls).Stuck →
      ((ofGraph g selected).run calls').Stuck → ∀ id,
        (id ∈ ((ofGraph g selected).run calls).done ↔
          id ∈ ((ofGraph g selected).run calls').done)) ∧
    ((∀ c, ¬ TransGen g.Edge c c) → ∀ calls, ((ofGraph g selected).run calls).Stuck →
      ((ofGraph g selected).run calls).isComplete = true) ∧
    ∀ calls, ∃ more, ((ofGraph g selected).run (calls ++ more)).Stuck := by
  have hvalid : ∀ calls, ((ofGraph g selected).run calls).Valid ∧
      ((ofGraph g selected).run calls).graph = g :=
    (valid_ofGraph hg selected).run
  have hleft : ∀ calls, ((ofGraph g selected).run calls).Stuck → ∀ id ∈ g.nodes,
      (id ∉ ((ofGraph g selected).run calls).done ↔
        ∃ c, TransGen g.Edge c c ∧ ReflTransGen g.Edge c id) := by
    intro calls hstuck id hid
    obtain ⟨hq, hgraph⟩ := hvalid calls
    have hiff := hq.not_mem_done_iff hstuck.1 hstuck.2 (hgraph ▸ hid)
    rw [hgraph] at hiff
    exact hiff.trans (exists_congr fun c => and_comm)
  have hnode : ∀ calls, ∀ id ∈ ((ofGraph g selected).run calls).done, id ∈ g.nodes := by
    intro calls id hid
    obtain ⟨hq, hgraph⟩ := hvalid calls
    exact hgraph ▸ hq.done_mem id hid
  refine ⟨hleft, ?_, ?_, ?_⟩
  · have hsub : ∀ calls calls', ((ofGraph g selected).run calls).Stuck →
        ((ofGraph g selected).run calls').Stuck → ∀ id,
          id ∈ ((ofGraph g selected).run calls).done →
            id ∈ ((ofGraph g selected).run calls').done := by
      intro calls calls' h h' id hid
      by_contra hno
      exact (hleft calls h id (hnode calls id hid)).2
        ((hleft calls' h' id (hnode calls id hid)).1 hno) hid
    exact fun calls calls' h h' id => ⟨hsub calls calls' h h' id, hsub calls' calls h' h id⟩
  · intro hacyclic calls hstuck
    obtain ⟨hq, hgraph⟩ := hvalid calls
    rw [isComplete, decide_eq_true_eq, hq.remaining_eq, List.length_eq_zero_iff, hgraph,
      List.filter_eq_nil_iff]
    intro id hid
    rw [decide_eq_true_eq, hleft calls hstuck id hid]
    rintro ⟨c, hcycle, -⟩
    exact hacyclic c hcycle
  · intro calls
    obtain ⟨more, hmore⟩ := (hvalid calls).1.exists_stuck
    refine ⟨more, ?_⟩
    rw [run_append]
    exact hmore

/-- In the sample, wherever a run is stuck, the node that depends on itself is not done. -/
theorem stuck_run_sample : ∃ calls,
    ((ofGraph Sample.graph Sample.graph.nodes).run calls).Stuck ∧
    ("stock" : Text) ∉ ((ofGraph Sample.graph Sample.graph.nodes).run calls).done := by
  obtain ⟨hleft, -, -, hmore⟩ := stuck_run Sample.lists_edges Sample.graph.nodes
  obtain ⟨calls, hstuck⟩ := hmore []
  have hloop : Sample.graph.Edge "stock" "stock" :=
    (by decide +kernel : (("stock" : Text), ("stock" : Text)) ∈ Sample.graph.edges)
  exact ⟨calls, hstuck, (hleft calls hstuck "stock" (by decide +kernel)).2
    ⟨"stock", .single hloop, .refl⟩⟩

/-- Over the graph whose edge leads to the identifier that is never listed, a queue gets stuck
before that identifier is done, although nothing lies on a cycle. -/
theorem stuck_unreleased :
    (∀ c, ¬ TransGen Sample.unreleased.Edge c c) ∧
    ((ofGraph Sample.unreleased Sample.unreleased.nodes).run [.next, .finish "a"]).Stuck ∧
    Text.voidKey ∈ Sample.unreleased.nodes ∧
    Text.voidKey ∉
      ((ofGraph Sample.unreleased Sample.unreleased.nodes).run [.next, .finish "a"]).done := by
  refine ⟨fun c hcycle => ?_, ⟨?_, ?_⟩, ?_, ?_⟩
  · have hedges : Sample.unreleased.edges.toList = [(("a" : Text), Text.voidKey)] := by
      decide +kernel
    have hends : ∀ {p c}, Sample.unreleased.Edge p c → p = "a" ∧ c = Text.voidKey := by
      intro p c h
      have hmem : (p, c) ∈ Sample.unreleased.edges.toList := h
      rw [hedges, List.mem_singleton] at hmem
      exact Prod.mk.inj hmem
    obtain ⟨b, hfirst, -⟩ := TransGen.head'_iff.1 hcycle
    obtain ⟨d, -, hlast⟩ := TransGen.tail'_iff.1 hcycle
    have hloop : ("a" : Text) = Text.voidKey := (hends hfirst).1.symm.trans (hends hlast).2
    exact absurd hloop (by decide)
  · decide +kernel
  · rw [← OrderedSet.toList_inj]
    decide +kernel
  · decide +kernel
  · decide +kernel

end Queue

end DagSelect
