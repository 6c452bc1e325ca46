import DagSelect.Graph.Reach
import DagSelect.Text.Order

/-!
# Execution queues

A queue hands out the nodes of a graph, each after all its parents are done. Of the nodes that are
ready it hands out the one with the most descendants first, and of these the one with the smallest
identifier. A node that is on a cycle, or behind one, never becomes ready.

Every task is kept with the parents that it still lacks. When a node is done it is struck from the
lists of its children, and the children whose list is empty join the ready tasks. That happens to a
child once, when the last of its parents is done; only a child of the node that is never listed as
a parent is ready before it, and joins again.
-/

namespace DagSelect

/-- A node to be run, with the number of its descendants. -/
structure Task where
  id : Text
  weight : Nat
  deriving DecidableEq, Repr

namespace Task

/-- Whether a task goes first: more descendants, or as many and an identifier that is not larger. -/
def before (a b : Task) : Bool :=
  b.weight < a.weight || (a.weight == b.weight && Text.unitLE a.id b.id)

/-- A task goes first if it has more descendants, or as many and no larger identifier. -/
theorem before_iff {a b : Task} : before a b = true ↔
    b.weight < a.weight ∨ a.weight = b.weight ∧ Text.unitLE a.id b.id = true := by
  simp [before]

/-- Of two tasks one goes first. -/
theorem before_total (a b : Task) : (before a b || before b a) = true := by
  have hid := Text.unitLE_total a.id b.id
  rw [Bool.or_eq_true] at hid ⊢
  rw [before_iff, before_iff]
  grind

/-- A task goes before whatever its successors go before. -/
theorem before_trans (a b c : Task) (h₁ : before a b = true) (h₂ : before b c = true) :
    before a c = true := by
  have hid := Text.unitLE_trans a.id b.id c.id
  rw [before_iff] at h₁ h₂ ⊢
  grind

/-- Two tasks that go before each other are equal. -/
theorem before_antisymm {a b : Task} (h₁ : before a b = true) (h₂ : before b a = true) :
    a = b := by
  rw [before_iff] at h₁ h₂
  have hweight : a.weight = b.weight := by omega
  have hid : a.id = b.id := by
    apply Text.unitLE_antisymm
    · exact (h₁.resolve_left (by omega)).2
    · exact (h₂.resolve_left (by omega)).2
  cases a
  cases b
  simp_all

/-- Tasks in the order in which they are handed out. -/
def sort (tasks : List Task) : List Task :=
  Sorting.sort before tasks

/-- Sorting loses no task and adds none. -/
theorem sort_perm (tasks : List Task) : (sort tasks).Perm tasks :=
  Sorting.sort_perm before tasks

/-- In sorted tasks each goes before all that follow it. -/
theorem sort_sorted (tasks : List Task) :
    (sort tasks).Pairwise (fun a b => before a b = true) :=
  Sorting.sort_pairwise before_trans before_total tasks

end Task

/-- A task with the parents that it still lacks. -/
structure PendingTask where
  task : Task
  lacking : List Text
  deriving DecidableEq, Repr

/-- The state of a queue over a graph. The selection that the graph was made for is kept beside
it. -/
structure Queue where
  graph : Graph
  selected : IdSet
  tasks : List PendingTask
  ready : List Task
  running : IdSet
  done : IdSet

namespace Queue

/-- The task of a node, with the parents that have to be done before it. -/
def taskOf (g : Graph) (id : Text) : PendingTask :=
  ⟨⟨id, (g.reach .downstream none id).size⟩, g.neighbours .upstream id⟩

/-- The tasks of all nodes, in the order of the nodes. -/
def tasksOf (g : Graph) : List PendingTask :=
  let down := g.adjacency .downstream
  let up := g.adjacency .upstream
  g.nodes.toList.map fun id => ⟨⟨id, (down.reach g.size id).size⟩, up.neighbours id⟩

/-- The tasks of all nodes are the tasks of each. -/
theorem tasksOf_eq_map (g : Graph) : tasksOf g = g.nodes.toList.map (taskOf g) := by
  simp only [tasksOf, Graph.neighbours_adjacency]
  rfl

/-- The queue over a graph before anything has been handed out. -/
def ofGraph (g : Graph) (selected : IdSet) : Queue :=
  let tasks := tasksOf g
  { graph := g
    selected := selected
    tasks := tasks
    ready := Task.sort ((tasks.filter (fun t => t.lacking.isEmpty)).map PendingTask.task)
    running := .empty
    done := .empty }

/-- The number of nodes that are not done. -/
def remaining (q : Queue) : Nat := q.graph.size - q.done.size

/-- Whether nothing is ready; nodes may still be running. -/
def noneReady (q : Queue) : Bool := q.ready.isEmpty

/-- Whether every node is done. -/
def isComplete (q : Queue) : Bool := q.remaining = 0

/-- Hand out the next node, if one is ready. -/
def next? (q : Queue) : Option (Text × Queue) :=
  match q.ready with
  | [] => none
  | task :: rest => some (task.id, { q with ready := rest, running := q.running.insert task.id })

/-- Strike a node that is done from what its children lack. -/
def strike (id : Text) (children : List Text) (tasks : List PendingTask) : List PendingTask :=
  tasks.map fun t =>
    if t.task.id ∈ children then ⟨t.task, t.lacking.filter (fun p => p ≠ id)⟩ else t

/-- The children among the tasks that lack nothing. -/
def freed (children : List Text) (tasks : List PendingTask) : List Task :=
  (tasks.filter (fun t => t.task.id ∈ children && t.lacking.isEmpty)).map PendingTask.task

/-- Note that a node that was handed out is done. -/
def finish (q : Queue) (id : Text) : Except InternalError Queue :=
  if id ∈ q.running then
    let children := q.graph.neighbours .downstream id
    let tasks := strike id children q.tasks
    .ok { q with
      tasks := tasks
      ready := Task.sort (q.ready ++ freed children tasks)
      running := q.running.erase id
      done := q.done.insert id }
  else .error (.neverStarted id)

/-- The nodes handed out, for at most a number of steps, when each is done at once. -/
def drain : Nat → Queue → List Text
  | 0, _ => []
  | steps + 1, q =>
    match q.next? with
    | none => []
    | some (id, started) =>
      match started.finish id with
      | .ok next => id :: drain steps next
      | .error _ => [id]

/-- The order in which the whole graph is run, one node at a time, from the start. A node is handed
out at most once for every chain of edges that leads to it, so two to the power of the number of
nodes bounds the steps. -/
def schedule (q : Queue) : List Text :=
  drain (Nat.pow 2 q.graph.size) (ofGraph q.graph q.selected)

end Queue

end DagSelect
