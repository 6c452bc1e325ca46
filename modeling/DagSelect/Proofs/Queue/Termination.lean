import DagSelect.Proofs.Graph.Search
import DagSelect.Proofs.Queue.Schedule
import Mathlib.Algebra.BigOperators.Group.Finset.Sigma
import Mathlib.Data.Finset.Powerset

/-!
# Schedules come to an end

Over any graph, handing out one node after another, each being done at once, comes to an end. Where
the identifier that is never listed is a parent, a node may be handed out more than once: whenever
one of its parents is done and it lacks none. But whatever is handed out is grounded, with no cycle
above it, so each time stands for a chain of grounded nodes that ends there. Below a node there are
fewer chains than sets of the grounded nodes below it. So two to the power of the number of these,
added up over the ready nodes, falls with every node that is handed out, and is less than two to the
power of the number of nodes at the start. Only nodes are handed out, since each has its task from
the start.
-/

namespace DagSelect

open Relation

namespace Graph

variable {g : Graph} {id x y : Text}

/-- Whether no endless chain of parents leads up from an identifier, along the edges to listed
children. -/
def Grounded (g : Graph) (id : Text) : Prop :=
  Acc (fun p c => c ∈ g.neighbours .downstream p) id

/-- An identifier is grounded if its listed parents are. -/
theorem Grounded.of_parents (h : ∀ p ∈ g.neighbours .upstream id, g.Grounded p) :
    g.Grounded id := by
  have hvoid : g.Grounded Text.voidKey :=
    ⟨_, fun p hp => absurd rfl (mem_neighbours_downstream.1 hp).2⟩
  refine ⟨_, fun p hp => ?_⟩
  by_cases hne : p = Text.voidKey
  · exact hne ▸ hvoid
  · exact h p (mem_neighbours_upstream.2 ⟨(mem_neighbours_downstream.1 hp).1, hne⟩)

/-- No chain leads from a grounded identifier back to it. -/
theorem Grounded.not_leads (h : g.Grounded id) : ¬ g.Leads .downstream id id := by
  have hacc : Acc (g.Leads .downstream) id := h.transGen
  clear h
  induction hacc with
  | intro x _ ih => exact fun hleads => ih x hleads hleads

open Classical in
/-- The grounded nodes that chains of listed children lead to from an identifier. -/
noncomputable def heirs (g : Graph) (id : Text) : Finset Text :=
  g.nodes.toList.toFinset.filter fun x => g.Leads .downstream id x ∧ g.Grounded x

/-- The heirs of an identifier are nodes. -/
theorem heirs_subset_nodes (g : Graph) (id : Text) : g.heirs id ⊆ g.nodes.toList.toFinset := by
  intro x hx
  simp only [heirs, Finset.mem_filter] at hx
  exact hx.1

/-- The heirs of an identifier are what is grounded of what it leads to. -/
theorem mem_heirs : x ∈ g.heirs id ↔ g.Leads .downstream id x ∧ g.Grounded x := by
  have hnode : g.Leads .downstream id x → x ∈ g.nodes := fun h => by
    obtain ⟨y, -, hy⟩ := TransGen.tail'_iff.1 h
    exact mem_nodes_of_mem_neighbours hy
  simp only [heirs, Finset.mem_filter, List.mem_toFinset, OrderedSet.mem_toList]
  exact and_iff_right_of_imp fun h => hnode h.1

/-- The heirs of an heir are heirs. -/
theorem heirs_subset (h : x ∈ g.heirs id) : g.heirs x ⊆ g.heirs id := by
  intro y hy
  obtain ⟨hxy, hground⟩ := mem_heirs.1 hy
  exact mem_heirs.2 ⟨(mem_heirs.1 h).1.trans hxy, hground⟩

/-- An identifier in front of some of its heirs determines both. -/
theorem eq_of_insert_heirs {s t : Finset Text} (hx : g.Grounded x) (hy : g.Grounded y)
    (hs : s ⊆ g.heirs x) (ht : t ⊆ g.heirs y) (h : insert x s = insert y t) : x = y ∧ s = t := by
  have hnot : ∀ {z : Text} {r : Finset Text}, g.Grounded z → r ⊆ g.heirs z → z ∉ r :=
    fun hz hr hmem => hz.not_leads (mem_heirs.1 (hr hmem)).1
  have heq : x = y := by
    by_contra hne
    -- Each would be an heir of the other.
    have hxt : x ∈ t := (Finset.mem_insert.1 (h ▸ Finset.mem_insert_self x s)).resolve_left hne
    have hys : y ∈ s :=
      (Finset.mem_insert.1 (h.symm ▸ Finset.mem_insert_self y t)).resolve_left (Ne.symm hne)
    exact hx.not_leads ((mem_heirs.1 (hs hys)).1.trans (mem_heirs.1 (ht hxt)).1)
  subst heq
  refine ⟨rfl, ?_⟩
  rw [← Finset.erase_insert (hnot hx hs), h, Finset.erase_insert (hnot hy ht)]

/-- Of several grounded identifiers in a set that has their heirs too, the heirs have fewer subsets
than that set. -/
theorem sum_heirs_lt {ids : List Text} {whole : Finset Text} (hnodup : ids.Nodup)
    (hground : ∀ id ∈ ids, g.Grounded id)
    (hwhole : ∀ id ∈ ids, id ∈ whole ∧ g.heirs id ⊆ whole) :
    (ids.map fun id => 2 ^ (g.heirs id).card).sum < 2 ^ whole.card := by
  let pairs := ids.toFinset.sigma fun id => (g.heirs id).powerset
  have hpairs : ∀ p ∈ pairs, p.1 ∈ ids ∧ p.2 ⊆ g.heirs p.1 := by
    intro p hp
    simpa [pairs] using hp
  have hmaps : ∀ p ∈ pairs, insert p.1 p.2 ∈ whole.powerset.erase ∅ := by
    intro p hp
    obtain ⟨hid, hsub⟩ := hpairs p hp
    obtain ⟨hmem, hheirs⟩ := hwhole p.1 hid
    exact Finset.mem_erase.2 ⟨Finset.insert_ne_empty _ _,
      Finset.mem_powerset.2 (Finset.insert_subset hmem (hsub.trans hheirs))⟩
  have hinj : Set.InjOn (fun p : (_ : Text) × Finset Text => insert p.1 p.2) pairs := by
    rintro ⟨x, s⟩ hp ⟨y, t⟩ hq heq
    obtain ⟨hx, hs⟩ := hpairs _ hp
    obtain ⟨hy, ht⟩ := hpairs _ hq
    obtain ⟨rfl, rfl⟩ := eq_of_insert_heirs (hground x hx) (hground y hy) hs ht heq
    rfl
  calc (ids.map fun id => 2 ^ (g.heirs id).card).sum
      = ∑ id ∈ ids.toFinset, 2 ^ (g.heirs id).card := (List.sum_toFinset _ hnodup).symm
    _ = pairs.card := by simp only [pairs, Finset.card_sigma, Finset.card_powerset]
    _ ≤ (whole.powerset.erase ∅).card := Finset.card_le_card_of_injOn _ hmaps hinj
    _ < whole.powerset.card := Finset.card_erase_lt_of_mem (Finset.empty_mem_powerset _)
    _ = 2 ^ whole.card := Finset.card_powerset _

end Graph

namespace Queue

variable {q : Queue} {g : Graph} {task : Task} {rest : List Task}

/-- What holds of a queue over any graph: its tasks are those of different nodes and lack the listed
parents that are not done, and what is done or ready is grounded. -/
structure Tracked (q : Queue) : Prop where
  tasks_nodup : (q.tasks.map fun t => t.task.id).Nodup
  lacking : ∀ t ∈ q.tasks, ∀ p ∈ q.graph.neighbours .upstream t.task.id,
    p ∈ t.lacking ∨ p ∈ q.done
  done_grounded : ∀ id ∈ q.done, q.graph.Grounded id
  ready_grounded : ∀ id ∈ q.ready.map Task.id, q.graph.Grounded id

/-- A bound on how many nodes are still handed out. -/
noncomputable def potential (q : Queue) : Nat :=
  ((q.ready.map Task.id).map fun id => 2 ^ (q.graph.heirs id).card).sum

/-- The tasks that pass a test are those of different nodes if all are. -/
theorem nodup_filter_tasks {tasks : List PendingTask} (h : (tasks.map fun t => t.task.id).Nodup)
    (test : PendingTask → Bool) :
    (((tasks.filter test).map PendingTask.task).map Task.id).Nodup := by
  rw [List.map_map]
  exact h.sublist (List.filter_sublist.map _)

/-- Striking a node changes what tasks lack, and not whose they are. -/
theorem map_id_strike (id : Text) (children : List Text) (tasks : List PendingTask) :
    ((strike id children tasks).map fun t => t.task.id) = tasks.map fun t => t.task.id := by
  rw [strike, List.map_map]
  refine List.map_congr_left fun t _ => ?_
  rw [Function.comp_apply]
  split <;> rfl

/-- A task that lacks nothing is that of a grounded node, if what is done is grounded. -/
theorem grounded_of_lacking {t : PendingTask} {done : IdSet}
    (hlacking : ∀ p ∈ g.neighbours .upstream t.task.id, p ∈ t.lacking ∨ p ∈ done)
    (hdone : ∀ p ∈ done, g.Grounded p) (hnone : t.lacking.isEmpty = true) :
    g.Grounded t.task.id := by
  refine .of_parents fun p hp => hdone p ((hlacking p hp).resolve_left ?_)
  rw [List.isEmpty_iff.1 hnone]
  exact List.not_mem_nil

/-- The tasks of a fresh queue are those of the nodes. -/
theorem map_id_tasksOf (g : Graph) :
    ((tasksOf g).map fun t => t.task.id) = g.nodes.toList := by
  rw [tasksOf_eq_map, List.map_map]
  exact List.map_id _

/-- What is ready from the start lacks nothing. -/
theorem exists_task_of_mem_ready {id : Text} {selected : IdSet}
    (hid : id ∈ (ofGraph g selected).ready.map Task.id) :
    ∃ t ∈ tasksOf g, t.lacking.isEmpty = true ∧ t.task.id = id := by
  have hmem := (map_id_sort_perm _).mem_iff.1 hid
  rw [List.map_map] at hmem
  obtain ⟨t, ht, rfl⟩ := List.mem_map.1 hmem
  obtain ⟨hin, hnone⟩ := List.mem_filter.1 ht
  exact ⟨t, hin, hnone, rfl⟩

/-- A fresh queue is tracked. -/
theorem tracked_ofGraph (g : Graph) (selected : IdSet) : (ofGraph g selected).Tracked := by
  have hlacking : ∀ t ∈ tasksOf g, ∀ p ∈ g.neighbours .upstream t.task.id, p ∈ t.lacking := by
    intro t ht p hp
    rw [tasksOf_eq_map] at ht
    obtain ⟨id, -, rfl⟩ := List.mem_map.1 ht
    exact hp
  have hdone : ∀ p ∈ (OrderedSet.empty : IdSet), g.Grounded p :=
    fun p hp => absurd hp (OrderedSet.not_mem_empty p)
  constructor
  case tasks_nodup => exact (map_id_tasksOf g).symm ▸ g.nodes.nodup
  case lacking => exact fun t ht p hp => .inl (hlacking t ht p hp)
  case done_grounded => exact hdone
  case ready_grounded =>
    intro id hid
    obtain ⟨t, ht, hnone, rfl⟩ := exists_task_of_mem_ready hid
    exact grounded_of_lacking (fun p hp => .inl (hlacking t ht p hp)) hdone hnone

/-- Less than two to the power of the number of nodes is handed out from the start. -/
theorem potential_ofGraph_lt (g : Graph) (selected : IdSet) :
    (ofGraph g selected).potential < 2 ^ g.size := by
  have hnodup : ((ofGraph g selected).ready.map Task.id).Nodup :=
    (map_id_sort_perm _).nodup_iff.2
      (nodup_filter_tasks ((map_id_tasksOf g).symm ▸ g.nodes.nodup) _)
  have hsize : g.nodes.toList.toFinset.card = g.size := List.toFinset_card_of_nodup g.nodes.nodup
  rw [← hsize]
  refine Graph.sum_heirs_lt hnodup (tracked_ofGraph g selected).ready_grounded fun id hid =>
    ⟨List.mem_toFinset.2 ?_, g.heirs_subset_nodes id⟩
  obtain ⟨t, ht, -, rfl⟩ := exists_task_of_mem_ready hid
  rw [← map_id_tasksOf]
  exact List.mem_map_of_mem ht

/-- The nodes that are freed when the first ready task has been done. -/
def freedBy (q : Queue) (task : Task) (rest : List Task) : List Text :=
  (freed (q.graph.neighbours .downstream task.id) (q.advance task rest).tasks).map Task.id

/-- After a task has been done, what was ready behind it and what is freed by it is ready. -/
theorem ready_advance_perm (q : Queue) (task : Task) (rest : List Task) :
    ((q.advance task rest).ready.map Task.id).Perm
      (rest.map Task.id ++ q.freedBy task rest) := by
  rw [freedBy, ← List.map_append]
  exact map_id_sort_perm _

namespace Tracked

/-- After a task has been done, the tasks still are those of different nodes. -/
theorem tasks_nodup_advance (hq : q.Tracked) (task : Task) (rest : List Task) :
    ((q.advance task rest).tasks.map fun t => t.task.id).Nodup :=
  (map_id_strike _ _ q.tasks).symm ▸ hq.tasks_nodup

/-- After a task has been done, the tasks still lack the listed parents that are not done. -/
theorem lacking_advance (hq : q.Tracked) (task : Task) (rest : List Task) :
    ∀ t ∈ (q.advance task rest).tasks, ∀ p ∈ q.graph.neighbours .upstream t.task.id,
      p ∈ t.lacking ∨ p ∈ (q.advance task rest).done := by
  intro t ht p hp
  obtain ⟨t, htold, rfl⟩ := List.mem_map.1 ht
  have hold := hq.lacking t htold p
  rw [Queue.advance, OrderedSet.mem_insert]
  by_cases heq : p = task.id
  · exact .inr (.inr heq)
  · by_cases hchild : t.task.id ∈ q.graph.neighbours .downstream task.id
    · rw [if_pos hchild] at hp ⊢
      exact (hold hp).imp (fun h => List.mem_filter.2 ⟨h, decide_eq_true heq⟩) .inl
    · rw [if_neg hchild] at hp ⊢
      exact (hold hp).imp id .inl

variable (hq : q.Tracked) (hready : q.ready = task :: rest)
include hq hready

/-- After a ready task has been done, what is done still is grounded. -/
theorem done_grounded_advance : ∀ id ∈ (q.advance task rest).done, q.graph.Grounded id := by
  intro id hid
  rcases OrderedSet.mem_insert.1 hid with hid | rfl
  · exact hq.done_grounded id hid
  · exact hq.ready_grounded _ (by rw [hready]; exact List.mem_cons_self)

/-- What is freed by a ready task are heirs of it. -/
theorem mem_heirs_of_mem_freedBy {id : Text} (hid : id ∈ q.freedBy task rest) :
    id ∈ q.graph.heirs task.id := by
  rw [freedBy, freed, List.map_map] at hid
  obtain ⟨t, ht, rfl⟩ := List.mem_map.1 hid
  obtain ⟨hin, htest⟩ := List.mem_filter.1 ht
  obtain ⟨hchild, hnone⟩ := Bool.and_eq_true_iff.1 htest
  exact Graph.mem_heirs.2 ⟨.single (of_decide_eq_true hchild),
    grounded_of_lacking (hq.lacking_advance task rest t hin) (hq.done_grounded_advance hready)
      hnone⟩

/-- A tracked queue is so after its first ready task has been done. -/
theorem advance : (q.advance task rest).Tracked where
  tasks_nodup := hq.tasks_nodup_advance task rest
  lacking := hq.lacking_advance task rest
  done_grounded := hq.done_grounded_advance hready
  ready_grounded := by
    intro id hid
    rcases List.mem_append.1 ((ready_advance_perm q task rest).mem_iff.1 hid) with hold | hnew
    · exact hq.ready_grounded id (by rw [hready]; exact List.mem_cons_of_mem _ hold)
    · exact (Graph.mem_heirs.1 (hq.mem_heirs_of_mem_freedBy hready hnew)).2

/-- With every task that is done the potential falls: its heirs have more subsets than the heirs of
all that it frees. -/
theorem potential_advance_lt : (q.advance task rest).potential < q.potential := by
  let chains : Text → Nat := fun id => 2 ^ (q.graph.heirs id).card
  have hold : q.potential = chains task.id + ((rest.map Task.id).map chains).sum := by
    rw [potential, hready, List.map_cons, List.map_cons, List.sum_cons]
  have hnew : (q.advance task rest).potential =
      ((rest.map Task.id).map chains).sum + ((q.freedBy task rest).map chains).sum := by
    rw [← List.sum_append, ← List.map_append]
    exact ((ready_advance_perm q task rest).map chains).sum_eq
  have hlt : ((q.freedBy task rest).map chains).sum < chains task.id := by
    have hheirs : ∀ id ∈ q.freedBy task rest, id ∈ q.graph.heirs task.id :=
      fun _ => hq.mem_heirs_of_mem_freedBy hready
    exact Graph.sum_heirs_lt (nodup_filter_tasks (hq.tasks_nodup_advance task rest) _)
      (fun id hid => (Graph.mem_heirs.1 (hheirs id hid)).2)
      fun id hid => ⟨hheirs id hid, Graph.heirs_subset (hheirs id hid)⟩
  omega

end Tracked

/-- With as many steps as its potential a tracked queue comes to an end: further steps hand out
nothing more. -/
theorem Tracked.drain_add (hq : q.Tracked) {steps : Nat} (hsteps : q.potential ≤ steps)
    (more : Nat) : drain (steps + more) q = drain steps q := by
  induction steps generalizing q with
  | zero =>
    cases hready : q.ready with
    | nil => rw [drain_of_ready_nil hready, drain_of_ready_nil hready]
    | cons task rest =>
      have hlt := hq.potential_advance_lt hready
      omega
  | succ steps ih =>
    cases hready : q.ready with
    | nil => rw [drain_of_ready_nil hready, drain_of_ready_nil hready]
    | cons task rest =>
      have hlt := hq.potential_advance_lt hready
      rw [Nat.succ_add, drain_of_ready hready, drain_of_ready hready,
        ih (hq.advance hready) (by omega)]

/-- The schedule of any graph is over within the steps that it is computed in. -/
theorem drain_ofGraph_add (g : Graph) (selected : IdSet) (more : Nat) :
    drain (Nat.pow 2 g.size + more) (ofGraph g selected) = (ofGraph g selected).schedule :=
  (tracked_ofGraph g selected).drain_add (potential_ofGraph_lt g selected).le more

/-- If all that is ready are nodes with a task, so is whatever is handed out. -/
theorem mem_tasks_of_mem_drain {steps : Nat} {id : Text}
    (hready : ∀ id ∈ q.ready.map Task.id, id ∈ q.tasks.map fun t => t.task.id)
    (h : id ∈ drain steps q) : id ∈ q.tasks.map fun t => t.task.id := by
  induction steps generalizing q with
  | zero => contradiction
  | succ steps ih =>
    cases hq : q.ready with
    | nil =>
      rw [drain_of_ready_nil hq] at h
      contradiction
    | cons task rest =>
      have htasks : ((q.advance task rest).tasks.map fun t => t.task.id) =
          q.tasks.map fun t => t.task.id := map_id_strike _ _ q.tasks
      rw [drain_of_ready hq] at h
      rcases List.mem_cons.1 h with rfl | h
      · exact hready _ (by rw [hq]; exact List.mem_cons_self)
      · refine htasks ▸ ih (fun x hx => ?_) h
        rcases List.mem_append.1 ((ready_advance_perm q task rest).mem_iff.1 hx) with hold | hnew
        · exact htasks ▸ hready x (by rw [hq]; exact List.mem_cons_of_mem _ hold)
        · rw [freedBy, freed, List.map_map] at hnew
          exact List.map_subset _ (List.filter_subset_self _) hnew

/-- The schedule of any graph lists nodes. -/
theorem mem_nodes_of_mem_schedule {selected : IdSet} {id : Text}
    (h : id ∈ (ofGraph g selected).schedule) : id ∈ g.nodes := by
  rw [← OrderedSet.mem_toList, ← map_id_tasksOf]
  refine mem_tasks_of_mem_drain (q := ofGraph g selected) (fun id hid => ?_) h
  obtain ⟨t, ht, -, rfl⟩ := exists_task_of_mem_ready hid
  exact List.mem_map_of_mem ht

end Queue

end DagSelect
