import DagSelect.Proofs.Graph.Same
import DagSelect.Proofs.Queue.Schedule

/-!
# Schedules do not depend on order

The nodes and edges of a graph may be kept in any order: the tasks have the same weights and lack
the same parents, and of tasks that are ready together none is tied with another, as their
identifiers differ. So over graphs with the same nodes and edges two queues have the same ready
tasks in the same order after every step, and the schedules are equal.
-/

namespace DagSelect

/-- Tasks in any order are sorted to the same list. -/
theorem Task.sort_eq_of_perm {tasks tasks' : List Task} (h : tasks.Perm tasks') :
    sort tasks = sort tasks' := by
  have hperm : (sort tasks).Perm (sort tasks') :=
    (sort_perm tasks).trans (h.trans (sort_perm tasks').symm)
  exact hperm.eq_of_pairwise (fun _ _ _ _ => before_antisymm) (sort_sorted tasks)
    (sort_sorted tasks')

/-- Whether two tasks are the same and lack the same parents. -/
structure PendingTask.Same (t t' : PendingTask) : Prop where
  task_eq : t.task = t'.task
  mem_lacking : ∀ p, p ∈ t.lacking ↔ p ∈ t'.lacking

/-- Of two tasks that lack the same parents neither or both lack nothing. -/
theorem PendingTask.Same.isEmpty_eq {t t' : PendingTask} (h : t.Same t') :
    t.lacking.isEmpty = t'.lacking.isEmpty := by
  rw [Bool.eq_iff_iff, List.isEmpty_iff, List.isEmpty_iff]
  simp only [List.eq_nil_iff_forall_not_mem, h.mem_lacking]

namespace Queue

variable {q q' : Queue} {g g' : Graph}

/-- The tasks of all nodes are the same in whatever order the graph is kept. -/
theorem tasksOf_rearranged (h : g.Same g') :
    Rearranged PendingTask.Same (tasksOf g) (tasksOf g') := by
  have hsame : ∀ id, (taskOf g id).Same (taskOf g' id) := fun id =>
    ⟨congrArg (Task.mk id) (OrderedSet.size_eq_of_mem_iff fun _ => h.mem_reach),
      fun _ => h.mem_neighbours⟩
  have hnodes : Rearranged Eq g.nodes.toList g'.nodes.toList :=
    .of_perm (fun _ _ => rfl) (OrderedSet.perm_of_mem_iff h.mem_nodes)
  rw [tasksOf_eq_map, tasksOf_eq_map]
  refine hnodes.map ?_
  rintro id _ rfl
  exact hsame id

/-- Whether two queues are in the same state over graphs that differ in order only. -/
structure Alike (q q' : Queue) : Prop where
  graph : q.graph.Same q'.graph
  tasks : Rearranged PendingTask.Same q.tasks q'.tasks
  ready_eq : q.ready = q'.ready

/-- Fresh queues over graphs that differ in order only are in the same state. -/
theorem alike_ofGraph (h : g.Same g') (selected selected' : IdSet) :
    (ofGraph g selected).Alike (ofGraph g' selected') where
  graph := h
  tasks := tasksOf_rearranged h
  ready_eq := Task.sort_eq_of_perm ((tasksOf_rearranged h).map_filter_perm
    (fun _ _ ht => ht.isEmpty_eq) fun _ _ ht => ht.task_eq)

/-- Queues in the same state are so after their first ready task has been done. -/
theorem Alike.advance (h : q.Alike q') (task : Task) (rest : List Task) :
    (q.advance task rest).Alike (q'.advance task rest) := by
  have hchild : ∀ {t t' : PendingTask}, t.Same t' →
      (t.task.id ∈ q.graph.neighbours .downstream task.id ↔
        t'.task.id ∈ q'.graph.neighbours .downstream task.id) := by
    intro t t' ht
    rw [ht.task_eq, h.graph.mem_neighbours]
  have htasks : Rearranged PendingTask.Same
      (strike task.id (q.graph.neighbours .downstream task.id) q.tasks)
      (strike task.id (q'.graph.neighbours .downstream task.id) q'.tasks) := by
    refine h.tasks.map fun t t' ht => ?_
    simp only [hchild ht]
    split
    · exact ⟨ht.task_eq, fun p => by rw [List.mem_filter, List.mem_filter, ht.mem_lacking]⟩
    · exact ht
  refine ⟨h.graph, htasks, Task.sort_eq_of_perm (List.Perm.append_left rest ?_)⟩
  refine htasks.map_filter_perm (fun t t' ht => ?_) fun _ _ ht => ht.task_eq
  rw [ht.isEmpty_eq, decide_eq_decide.2 (hchild ht)]

/-- Queues in the same state hand out the same nodes in the same order. -/
theorem Alike.drain_eq (h : q.Alike q') (steps : Nat) : drain steps q = drain steps q' := by
  induction steps generalizing q q' with
  | zero => rfl
  | succ steps ih =>
    cases hready : q.ready with
    | nil => rw [drain_of_ready_nil hready, drain_of_ready_nil (h.ready_eq ▸ hready)]
    | cons task rest =>
      rw [drain_of_ready hready, drain_of_ready (h.ready_eq ▸ hready), ih (h.advance task rest)]

/-- Graphs that differ in order only have the same schedule. -/
theorem schedule_eq (h : g.Same g') (selected selected' : IdSet) :
    (ofGraph g selected).schedule = (ofGraph g' selected').schedule := by
  have hsize : (ofGraph g selected).graph.size = (ofGraph g' selected').graph.size := h.size_eq
  rw [schedule, schedule, hsize]
  exact (alike_ofGraph h selected selected').drain_eq _

end Queue

end DagSelect
