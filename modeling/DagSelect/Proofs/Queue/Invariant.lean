import DagSelect.Queue
import DagSelect.Proofs.Graph.ParentsFirst
import Mathlib.Data.List.Nodup

/-!
# What every state of a queue keeps

A task lacks exactly the parents of its node that are not done, the ready tasks are those of the
released nodes, once each and in the order in which they are handed out, and the nodes that are done
stand in an order that puts parents first. A fresh queue over a graph that lists its edges has this
property; handing out a node and noting that one is done keep it.
-/

namespace DagSelect.Queue

variable {q : Queue} {g : Graph} {id : Text}

/-- Whether a node waits to be handed out although all its parents are done. -/
def Released (q : Queue) (id : Text) : Prop :=
  id ∈ q.graph.nodes ∧ id ∉ q.running ∧ id ∉ q.done ∧ ∀ p, q.graph.Edge p id → p ∈ q.done

/-- The task of a node with those of its parents that are not done. -/
def pending (g : Graph) (done : IdSet) (id : Text) : PendingTask :=
  ⟨(taskOf g id).task, (g.neighbours .upstream id).filter fun p => p ∉ done⟩

/-- The task of a node carries its identifier. -/
@[simp] theorem id_pending (g : Graph) (done : IdSet) (id : Text) :
    (pending g done id).task.id = id := rfl

/-- In a graph that lists its edges a task lacks nothing exactly if all parents are done. -/
theorem lacking_pending (hg : g.Lists g.edges.toList) {done : IdSet} :
    (pending g done id).lacking = [] ↔ ∀ p, g.Edge p id → p ∈ done := by
  simp [pending, List.filter_eq_nil_iff, hg.mem_parents]

/-- What holds of every state that a queue over a graph that lists its edges gets into. -/
structure Valid (q : Queue) : Prop where
  lists : q.graph.Lists q.graph.edges.toList
  tasks_eq : q.tasks = q.graph.nodes.toList.map (pending q.graph q.done)
  ready_task : ∀ t ∈ q.ready, t = (taskOf q.graph t.id).task
  ready_sorted : q.ready.Pairwise fun a b => Task.before a b = true
  ready_nodup : (q.ready.map Task.id).Nodup
  mem_ready : ∀ id, id ∈ q.ready.map Task.id ↔ q.Released id
  running_mem : ∀ id ∈ q.running, id ∈ q.graph.nodes ∧ id ∉ q.done
  running_parents : ∀ id ∈ q.running, ∀ p, q.graph.Edge p id → p ∈ q.done
  done_mem : ∀ id ∈ q.done, id ∈ q.graph.nodes
  done_order : q.graph.ParentsFirst q.done.toList

/-- The parents of a node that is done are done. -/
theorem Valid.done_parents (hq : q.Valid) (hid : id ∈ q.done) {p : Text} (hp : q.graph.Edge p id) :
    p ∈ q.done := by
  obtain ⟨before, after, heq⟩ := List.append_of_mem hid
  have hmem : p ∈ before := hq.done_order before id after heq p hp
  change p ∈ q.done.toList
  rw [heq]
  exact List.mem_append_left _ hmem

/-- The tasks that pass a test are those of the nodes whose pending task does. -/
theorem map_task_filter_pending (done : IdSet) (test : PendingTask → Bool) (ids : List Text) :
    ((ids.map (pending g done)).filter test).map PendingTask.task =
      (ids.filter fun id => test (pending g done id)).map fun id => (taskOf g id).task := by
  rw [List.filter_map, List.map_map]
  rfl

/-- The identifiers of the tasks that pass a test are those of the nodes whose pending task does. -/
theorem map_id_filter_pending (done : IdSet) (test : PendingTask → Bool) (ids : List Text) :
    (((ids.map (pending g done)).filter test).map PendingTask.task).map Task.id =
      ids.filter fun id => test (pending g done id) := by
  rw [map_task_filter_pending, List.map_map]
  exact List.map_id _

/-- The tasks that pass a test are tasks of their nodes. -/
theorem eq_task_of_mem_filter_pending {done : IdSet} {test : PendingTask → Bool} {ids : List Text}
    {t : Task} (h : t ∈ ((ids.map (pending g done)).filter test).map PendingTask.task) :
    t = (taskOf g t.id).task := by
  rw [map_task_filter_pending] at h
  obtain ⟨y, -, rfl⟩ := List.mem_map.1 h
  rfl

/-- Sorting tasks permutes their identifiers. -/
theorem map_id_sort_perm (tasks : List Task) :
    ((Task.sort tasks).map Task.id).Perm (tasks.map Task.id) :=
  (Task.sort_perm tasks).map Task.id

/-- Before anything is done a task lacks all parents of its node. -/
theorem tasksOf_eq_map_pending (g : Graph) : tasksOf g = g.nodes.toList.map (pending g .empty) := by
  rw [tasksOf_eq_map]
  refine List.map_congr_left fun id _ => ?_
  simp [pending, taskOf]

/-- A fresh queue over a graph that lists its edges is valid. -/
theorem valid_ofGraph (hg : g.Lists g.edges.toList) (selected : IdSet) :
    (ofGraph g selected).Valid := by
  have hready : ((ofGraph g selected).ready.map Task.id).Perm
      (g.nodes.toList.filter fun id => (pending g .empty id).lacking.isEmpty) := by
    rw [← map_id_filter_pending .empty fun t => t.lacking.isEmpty, ← tasksOf_eq_map_pending]
    exact map_id_sort_perm _
  constructor
  case lists => exact hg
  case tasks_eq => exact tasksOf_eq_map_pending g
  case ready_task =>
    intro t ht
    have hmem := (Task.sort_perm _).mem_iff.1 ht
    rw [tasksOf_eq_map_pending] at hmem
    exact eq_task_of_mem_filter_pending hmem
  case ready_sorted => exact Task.sort_sorted _
  case ready_nodup => exact hready.nodup_iff.2 (g.nodes.nodup.filter _)
  case mem_ready =>
    intro id
    rw [hready.mem_iff, List.mem_filter, List.isEmpty_iff, lacking_pending hg]
    simp [Released, ofGraph, OrderedSet.mem_toList]
  case running_mem => simp [ofGraph]
  case running_parents => simp [ofGraph]
  case done_mem => simp [ofGraph]
  case done_order => exact .nil

/-- Handing out a node takes the first task off the ready ones and lets its node run. -/
theorem next?_eq_some_iff {next : Queue} : q.next? = some (id, next) ↔
    ∃ task rest, q.ready = task :: rest ∧ id = task.id ∧
      next = { q with ready := rest, running := q.running.insert task.id } := by
  rw [Queue.next?]
  split
  · rename_i hready
    simp [hready]
  · rename_i task rest hready
    simp only [hready, List.cons.injEq, Option.some.injEq, Prod.mk.injEq]
    constructor
    · rintro ⟨rfl, rfl⟩
      exact ⟨task, rest, ⟨rfl, rfl⟩, rfl, rfl⟩
    · rintro ⟨task, rest, ⟨rfl, rfl⟩, rfl, rfl⟩
      exact ⟨rfl, rfl⟩

/-- Nothing is handed out exactly if nothing is ready. -/
theorem next?_eq_none_iff : q.next? = none ↔ q.ready = [] := by
  rw [Queue.next?]
  cases q.ready <;> simp

/-- What is handed out was released. -/
theorem Valid.released_of_next? (hq : q.Valid) {next : Queue} (h : q.next? = some (id, next)) :
    q.Released id := by
  obtain ⟨task, rest, hready, rfl, -⟩ := next?_eq_some_iff.1 h
  refine (hq.mem_ready task.id).1 ?_
  simp [hready]

/-- Handing out a node keeps a queue valid. -/
theorem Valid.next? (hq : q.Valid) {next : Queue} (h : q.next? = some (id, next)) : next.Valid := by
  obtain ⟨hnode, hrun, hnew, hparents⟩ := hq.released_of_next? h
  obtain ⟨task, rest, hready, rfl, rfl⟩ := next?_eq_some_iff.1 h
  have hnodup : task.id ∉ rest.map Task.id ∧ (rest.map Task.id).Nodup := by
    simpa [hready] using hq.ready_nodup
  have hmem : ∀ y, y = task.id ∨ y ∈ rest.map Task.id ↔ q.Released y := fun y => by
    simpa [hready] using hq.mem_ready y
  constructor
  case lists => exact hq.lists
  case tasks_eq => exact hq.tasks_eq
  case ready_task => exact fun t ht => hq.ready_task t (hready ▸ List.mem_cons_of_mem _ ht)
  case ready_sorted => exact (List.pairwise_cons.1 (hready ▸ hq.ready_sorted)).2
  case ready_nodup => exact hnodup.2
  case mem_ready =>
    intro y
    constructor
    · intro hy
      obtain ⟨hynode, hyrun, hydone⟩ := (hmem y).1 (.inr hy)
      have hne : y ≠ task.id := fun heq => hnodup.1 (heq ▸ hy)
      exact ⟨hynode, fun h => (OrderedSet.mem_insert.1 h).elim hyrun hne, hydone⟩
    · rintro ⟨hynode, hyrun, hydone⟩
      have hold : q.Released y :=
        ⟨hynode, fun h => hyrun (OrderedSet.mem_insert.2 (.inl h)), hydone⟩
      exact ((hmem y).2 hold).resolve_left fun heq => hyrun (OrderedSet.mem_insert.2 (.inr heq))
  case running_mem =>
    intro y hy
    rcases OrderedSet.mem_insert.1 hy with hy | rfl
    · exact hq.running_mem y hy
    · exact ⟨hnode, hnew⟩
  case running_parents =>
    intro y hy
    rcases OrderedSet.mem_insert.1 hy with hy | rfl
    · exact hq.running_parents y hy
    · exact hparents
  case done_mem => exact hq.done_mem
  case done_order => exact hq.done_order

/-- Where every node is a child of its parents, striking a node that is done from what its children
lack leaves the tasks with the parents that are not done. -/
theorem strike_map_pending
    (hg : ∀ p c, p ∈ g.neighbours .upstream c → c ∈ g.neighbours .downstream p) (done : IdSet)
    (id : Text) (ids : List Text) :
    strike id (g.neighbours .downstream id) (ids.map (pending g done)) =
      ids.map (pending g (done.insert id)) := by
  rw [strike, List.map_map]
  refine List.map_congr_left fun y _ => ?_
  change (if y ∈ g.neighbours .downstream id then
    (⟨(pending g done y).task, (pending g done y).lacking.filter fun p => p ≠ id⟩ : PendingTask)
    else pending g done y) = _
  split
  · simp [pending, List.filter_filter, and_comm]
  · rename_i hchild
    have hparent : ∀ p ∈ g.neighbours .upstream y, p ≠ id := by
      rintro p hp rfl
      exact hchild (hg p y hp)
    rw [pending, pending]
    congr 1
    refine List.filter_congr fun p hp => ?_
    simp [hparent p hp]

/-- The identifiers of the freed tasks are those of the children all of whose parents are done. -/
theorem mem_freed (hg : g.Lists g.edges.toList) {done : IdSet} {x : Text} :
    id ∈ (freed (g.neighbours .downstream x) (g.nodes.toList.map (pending g done))).map Task.id ↔
      g.Edge x id ∧ ∀ p, g.Edge p id → p ∈ done := by
  rw [freed, map_id_filter_pending, List.mem_filter, Bool.and_eq_true, decide_eq_true_eq,
    List.isEmpty_iff, lacking_pending hg, id_pending, hg.mem_children]
  exact ⟨And.right, fun h => ⟨h.1.child_mem, h⟩⟩

/-- A node that is done is noted exactly if it was handed out, and it moves from the running nodes
to the end of the done ones. -/
theorem finish_eq_ok_iff {next : Queue} : q.finish id = .ok next ↔ id ∈ q.running ∧ next =
    { q with
      tasks := strike id (q.graph.neighbours .downstream id) q.tasks
      ready := Task.sort (q.ready ++ freed (q.graph.neighbours .downstream id)
        (strike id (q.graph.neighbours .downstream id) q.tasks))
      running := q.running.erase id
      done := q.done.insert id } := by
  rw [finish]
  split
  · rename_i h
    simp [h, eq_comm]
  · rename_i h
    simp [h]

/-- The children of a running node are neither running, nor done, nor ready. -/
theorem Valid.child_waits (hq : q.Valid) (hid : id ∈ q.running) {y : Text}
    (hy : q.graph.Edge id y) : y ∉ q.running ∧ y ∉ q.done ∧ ¬ q.Released y := by
  have hnew : id ∉ q.done := (hq.running_mem id hid).2
  exact ⟨fun h => hnew (hq.running_parents y h id hy), fun h => hnew (hq.done_parents h hy),
    fun h => hnew (h.2.2.2 id hy)⟩

/-- When a running node is done, the nodes released before stay so, and those of its children are
released all of whose parents are then done. -/
theorem Valid.released_iff_of_done (hq : q.Valid) (hid : id ∈ q.running) {next : Queue}
    (hgraph : next.graph = q.graph) (hrunning : next.running = q.running.erase id)
    (hdone : next.done = q.done.insert id) {y : Text} :
    next.Released y ↔ q.Released y ∨
      q.graph.Edge id y ∧ ∀ p, q.graph.Edge p y → p ∈ q.done.insert id := by
  simp only [Released, hgraph, hrunning, hdone, OrderedSet.mem_erase, OrderedSet.mem_insert]
  constructor
  · rintro ⟨hnode, hrun, hnew, hparents⟩
    obtain ⟨hnew, hne⟩ := not_or.1 hnew
    by_cases hedge : q.graph.Edge id y
    · exact .inr ⟨hedge, hparents⟩
    · refine .inl ⟨hnode, fun h => hrun ⟨h, hne⟩, hnew, fun p hp =>
        (hparents p hp).resolve_right ?_⟩
      rintro rfl
      exact hedge hp
  · rintro (⟨hnode, hrun, hnew, hparents⟩ | ⟨hedge, hparents⟩)
    · have hne : y ≠ id := fun heq => hrun (heq ▸ hid)
      exact ⟨hnode, fun h => hrun h.1, not_or.2 ⟨hnew, hne⟩, fun p hp => .inl (hparents p hp)⟩
    · obtain ⟨hrun, hnew, -⟩ := hq.child_waits hid hedge
      have hne : y ≠ id := fun heq => hrun (heq ▸ hid)
      exact ⟨hedge.child_mem, fun h => hrun h.1, not_or.2 ⟨hnew, hne⟩, hparents⟩

/-- Noting that a node is done keeps a queue valid. -/
theorem Valid.finish (hq : q.Valid) {next : Queue} (h : q.finish id = .ok next) : next.Valid := by
  obtain ⟨hid, hnext⟩ := finish_eq_ok_iff.1 h
  obtain ⟨hnode, hnew⟩ := hq.running_mem id hid
  have hgraph : next.graph = q.graph := by rw [hnext]
  have hrunning : next.running = q.running.erase id := by rw [hnext]
  have hdone : next.done = q.done.insert id := by rw [hnext]
  have hdoneList : next.done.toList = q.done.toList ++ [id] := by
    rw [hdone, OrderedSet.toList_insert]
    exact if_neg hnew
  have htasks : next.tasks = q.graph.nodes.toList.map (pending q.graph (q.done.insert id)) := by
    rw [hnext, ← strike_map_pending fun _ _ => hq.lists.mem_children_of_mem_parents, ← hq.tasks_eq]
  let released := (freed (q.graph.neighbours .downstream id) next.tasks).map Task.id
  have hreleased : ∀ y, y ∈ released ↔
      q.graph.Edge id y ∧ ∀ p, q.graph.Edge p y → p ∈ q.done.insert id := by
    intro y
    simp only [released, htasks]
    exact mem_freed hq.lists
  have hready : (next.ready.map Task.id).Perm (q.ready.map Task.id ++ released) := by
    rw [← List.map_append, hnext]
    exact map_id_sort_perm _
  have hnodup : released.Nodup := by
    simp only [released, htasks, freed, map_id_filter_pending]
    exact q.graph.nodes.nodup.filter _
  constructor
  case lists => exact hgraph ▸ hq.lists
  case tasks_eq => rw [htasks, hgraph, hdone]
  case ready_task =>
    intro t ht
    rw [hgraph]
    have hmem : t ∈ q.ready ++ freed (q.graph.neighbours .downstream id) next.tasks := by
      rw [hnext] at ht ⊢
      exact (Task.sort_perm _).mem_iff.1 ht
    rcases List.mem_append.1 hmem with hold | hnewly
    · exact hq.ready_task t hold
    · rw [htasks] at hnewly
      exact eq_task_of_mem_filter_pending hnewly
  case ready_sorted =>
    rw [hnext]
    exact Task.sort_sorted _
  case ready_nodup =>
    refine hready.nodup_iff.2
      (List.nodup_append.2 ⟨hq.ready_nodup, hnodup, fun y hy z hz heq => ?_⟩)
    have hedge : q.graph.Edge id y := heq ▸ ((hreleased z).1 hz).1
    exact (hq.child_waits hid hedge).2.2 ((hq.mem_ready y).1 hy)
  case mem_ready =>
    intro y
    rw [hready.mem_iff, List.mem_append, hq.mem_ready, hreleased,
      hq.released_iff_of_done hid hgraph hrunning hdone]
  case running_mem =>
    intro y hy
    rw [hrunning, OrderedSet.mem_erase] at hy
    rw [hgraph, hdone, OrderedSet.mem_insert, not_or]
    exact ⟨(hq.running_mem y hy.1).1, (hq.running_mem y hy.1).2, hy.2⟩
  case running_parents =>
    intro y hy p hp
    rw [hrunning, OrderedSet.mem_erase] at hy
    rw [hgraph] at hp
    rw [hdone, OrderedSet.mem_insert]
    exact .inl (hq.running_parents y hy.1 p hp)
  case done_mem =>
    intro y hy
    rw [hdone, OrderedSet.mem_insert] at hy
    rw [hgraph]
    rcases hy with hy | rfl
    · exact hq.done_mem y hy
    · exact hnode
  case done_order =>
    rw [hgraph, hdoneList]
    exact hq.done_order.concat fun p hp => hq.running_parents id hid p hp

end DagSelect.Queue
