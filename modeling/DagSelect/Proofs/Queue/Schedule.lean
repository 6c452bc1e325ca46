import DagSelect.Proofs.Queue.Invariant
import Mathlib.Data.List.Perm.Subperm

/-!
# The schedule of a graph

When nothing is ready and nothing is running, the nodes that are not done are exactly those on a
cycle or behind one. Handing out one node after another, each being done at once, comes to such a
state within as many steps as there are nodes left. So the schedule of a plain graph lists every
other node once, parents first.
-/

namespace DagSelect.Queue

open Relation

variable {q : Queue} {g : Graph} {id : Text} {task : Task} {rest : List Task}

/-- The queue after its first ready task has been handed out and is done. -/
def advance (q : Queue) (task : Task) (rest : List Task) : Queue :=
  let children := q.graph.neighbours .downstream task.id
  let tasks := strike task.id children q.tasks
  { q with
    tasks := tasks
    ready := Task.sort (rest ++ freed children tasks)
    running := (q.running.insert task.id).erase task.id
    done := q.done.insert task.id }

/-- What has just been handed out can be noted as done. -/
theorem finish_handedOut (q : Queue) (task : Task) (rest : List Task) :
    ({ q with ready := rest, running := q.running.insert task.id } : Queue).finish task.id =
      .ok (q.advance task rest) :=
  finish_eq_ok_iff.2 ⟨OrderedSet.mem_insert.2 (.inr rfl), rfl⟩

/-- While something is ready, the first of it is handed out and the queue advances. -/
theorem drain_of_ready (hready : q.ready = task :: rest) (steps : Nat) :
    drain (steps + 1) q = task.id :: drain steps (q.advance task rest) := by
  rw [drain, next?_eq_some_iff.2 ⟨task, rest, hready, rfl, rfl⟩]
  simp only [finish_handedOut]

/-- When nothing is ready nothing more is handed out. -/
theorem drain_of_ready_nil (hready : q.ready = []) (steps : Nat) : drain steps q = [] := by
  cases steps with
  | zero => rfl
  | succ steps => rw [drain, next?_eq_none_iff.2 hready]

/-- With nothing ready and nothing running, a node is not done exactly if it lies on a cycle or is
reached from one. -/
theorem Valid.not_mem_done_iff (hq : q.Valid) (hready : q.ready = [])
    (hrunning : q.running = .empty) (hid : id ∈ q.graph.nodes) :
    id ∉ q.done ↔ ∃ c, ReflTransGen q.graph.Edge c id ∧ TransGen q.graph.Edge c c := by
  constructor
  · intro hnew
    refine Graph.exists_cycle_of_parents (s := fun y => y ∈ q.graph.nodes ∧ y ∉ q.done)
      (fun _ => And.left) ?_ ⟨hid, hnew⟩
    intro y hy
    by_contra hno
    -- A node that is not done and has no such parent would be ready.
    have hreleased : q.Released y := by
      refine ⟨hy.1, by simp [hrunning], hy.2, fun p hp => ?_⟩
      by_contra hp'
      exact hno ⟨p, ⟨hp.parent_mem, hp'⟩, hp⟩
    have hmem := (hq.mem_ready y).2 hreleased
    simp [hready] at hmem
  · rintro ⟨c, hc, hcycle⟩ hdone
    exact hq.done_order.not_cyclic q.done.nodup hdone hc hcycle

/-- While a node is released, nodes remain to be done. -/
theorem Valid.remaining_pos (hq : q.Valid) (hid : q.Released id) : 0 < q.remaining := by
  have hnodup : (id :: q.done.toList).Nodup := List.nodup_cons.2 ⟨hid.2.2.1, q.done.nodup⟩
  have hsubset : id :: q.done.toList ⊆ q.graph.nodes.toList :=
    List.cons_subset.2 ⟨hid.1, hq.done_mem⟩
  have hlength := (hnodup.subperm hsubset).length_le
  rw [List.length_cons] at hlength
  exact Nat.sub_pos_of_lt hlength

/-- With every node that is done, one less remains. -/
theorem Valid.remaining_finish (hq : q.Valid) {next : Queue} (h : q.finish id = .ok next) :
    next.remaining + 1 = q.remaining := by
  obtain ⟨hrun, rfl⟩ := finish_eq_ok_iff.1 h
  obtain ⟨hnode, hnew⟩ := hq.running_mem id hrun
  have hnodup : (id :: q.done.toList).Nodup := List.nodup_cons.2 ⟨hnew, q.done.nodup⟩
  have hle := (hnodup.subperm (List.cons_subset.2 ⟨hnode, hq.done_mem⟩)).length_le
  have hdone : (q.done.insert id).toList = q.done.toList ++ [id] := by
    rw [OrderedSet.toList_insert]
    exact if_neg hnew
  have hsize : (q.done.insert id).size = q.done.size + 1 := by
    rw [OrderedSet.size, hdone, List.length_append]
    rfl
  change q.done.size + 1 ≤ q.graph.size at hle
  change q.graph.size - (q.done.insert id).size + 1 = q.graph.size - q.done.size
  omega

/-- A valid queue on which nothing runs is so after its first ready task has been done. That task
then stands after the done ones, and one node less remains. -/
theorem Valid.advance (hq : q.Valid) (hrunning : q.running = .empty)
    (hready : q.ready = task :: rest) :
    (q.advance task rest).Valid ∧ (q.advance task rest).running = .empty ∧
      (q.advance task rest).done.toList = q.done.toList ++ [task.id] ∧
      (q.advance task rest).remaining + 1 = q.remaining := by
  have hnext := next?_eq_some_iff.2 ⟨task, rest, hready, rfl, rfl⟩
  have hstarted := hq.next? hnext
  have hreleased : q.Released task.id := hq.released_of_next? hnext
  have hfinish := finish_handedOut q task rest
  refine ⟨hstarted.finish hfinish, ?_, ?_, hstarted.remaining_finish hfinish⟩
  · rw [Queue.advance, hrunning]
    simp [← OrderedSet.toList_inj, OrderedSet.erase, OrderedSet.toList_insert]
  · rw [Queue.advance, OrderedSet.toList_insert]
    exact if_neg hreleased.2.2.1

/-- Handing out one node after another, each being done at once, ends in a valid queue on which
nothing is ready, if there are steps enough. What was handed out then stands behind the nodes that
were done before. -/
theorem Valid.drain (hq : q.Valid) (hrunning : q.running = .empty) {steps : Nat}
    (hsteps : q.remaining ≤ steps) :
    ∃ last : Queue, last.Valid ∧ last.graph = q.graph ∧ last.running = .empty ∧ last.ready = [] ∧
      last.done.toList = q.done.toList ++ drain steps q := by
  induction steps generalizing q with
  | zero =>
    refine ⟨q, hq, rfl, hrunning, ?_, (List.append_nil _).symm⟩
    refine List.eq_nil_iff_forall_not_mem.2 fun task htask => ?_
    have hreleased := (hq.mem_ready task.id).1 (List.mem_map_of_mem htask)
    have hpos := hq.remaining_pos hreleased
    omega
  | succ steps ih =>
    cases hready : q.ready with
    | nil =>
      refine ⟨q, hq, rfl, hrunning, hready, ?_⟩
      rw [drain_of_ready_nil hready, List.append_nil]
    | cons task rest =>
      obtain ⟨hvalid, hrun, hdone, hremaining⟩ := hq.advance hrunning hready
      obtain ⟨last, hlast, hgraph, hlastRun, hlastReady, hlastDone⟩ := ih hvalid hrun (by omega)
      refine ⟨last, hlast, hgraph, hlastRun, hlastReady, ?_⟩
      rw [drain_of_ready hready, hlastDone, hdone, List.append_assoc, List.singleton_append]

/-- The schedule of a plain graph lists nodes, none twice and parents first, and leaves out exactly
those that lie on a cycle or are reached from one. -/
theorem schedule_ofGraph (hg : g.Plain) (selected : IdSet) :
    (ofGraph g selected).schedule.Nodup ∧ (∀ id ∈ (ofGraph g selected).schedule, id ∈ g.nodes) ∧
      g.ParentsFirst (ofGraph g selected).schedule ∧
      ∀ id ∈ g.nodes, id ∉ (ofGraph g selected).schedule ↔
        ∃ c, ReflTransGen g.Edge c id ∧ TransGen g.Edge c c := by
  have hsteps : (ofGraph g selected).remaining ≤ Nat.pow 2 g.size :=
    (Nat.sub_le _ _).trans Nat.lt_two_pow_self.le
  obtain ⟨last, hlast, hgraph, hrunning, hready, hdone⟩ :=
    (valid_ofGraph hg.lists selected).drain rfl hsteps
  have hschedule : (ofGraph g selected).schedule = last.done.toList := hdone.symm
  have hgraph' : last.graph = g := hgraph
  rw [hschedule]
  refine ⟨last.done.nodup, fun id hid => hgraph' ▸ hlast.done_mem id hid,
    hgraph' ▸ hlast.done_order, fun id hid => ?_⟩
  rw [← hgraph'] at hid ⊢
  exact hlast.not_mem_done_iff hready hrunning hid

end DagSelect.Queue
