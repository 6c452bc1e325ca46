import Mathlib.Data.List.Forall2

/-!
# Steps that can fail

A sequence of steps succeeds exactly if each of them does, and so does a step that is made for
every item of a list. Whether steps succeed, and with which error they fail, is told by their
verdicts alone: a list fails with the error of its first item that fails.
-/

namespace DagSelect.Except

variable {ε ε' α β γ : Type}

/-- After a step that succeeds comes the next one on its result. -/
theorem ok_bind (a : α) (f : α → Except ε β) : Except.ok a >>= f = f a := rfl

/-- A step that succeeds does so whatever becomes of its errors. -/
theorem ok_mapError (a : α) (f : ε → ε') : (Except.ok a).mapError f = .ok a := rfl

/-- A step that succeeds has a result. -/
theorem exists_eq_ok {x : Except ε α} (h : x.isOk = true) : ∃ a, x = .ok a := by
  cases x with
  | error e => contradiction
  | ok a => exact ⟨a, rfl⟩

/-- A step after another succeeds exactly if the first does and the second does on its result. -/
theorem bind_eq_ok_iff {x : Except ε α} {f : α → Except ε β} {b : β} :
    x >>= f = .ok b ↔ ∃ a, x = .ok a ∧ f a = .ok b := by
  cases x with
  | error e => simp [bind, Except.bind]
  | ok a => simp [bind, Except.bind]

/-- Making something of the result of a step succeeds exactly if the step does. -/
theorem map_eq_ok_iff {x : Except ε α} {f : α → β} {b : β} :
    x.map f = .ok b ↔ ∃ a, x = .ok a ∧ f a = b := by
  cases x <;> simp [Except.map]

/-- A step for every item of a list succeeds exactly if it does for each. -/
theorem mapM_eq_ok_iff {f : α → Except ε β} {xs : List α} {ys : List β} :
    xs.mapM f = .ok ys ↔ List.Forall₂ (fun x y => f x = .ok y) xs ys := by
  induction xs generalizing ys with
  | nil => simp [pure, Except.pure, eq_comm]
  | cons x xs ih =>
    rw [List.mapM_cons, bind_eq_ok_iff]
    constructor
    · rintro ⟨y, hy, hrest⟩
      obtain ⟨zs, hzs, hpure⟩ := bind_eq_ok_iff.1 hrest
      obtain rfl : y :: zs = ys := Except.ok.inj hpure
      exact .cons hy (ih.1 hzs)
    · intro h
      cases h with
      | cons hy hzs => exact ⟨_, hy, bind_eq_ok_iff.2 ⟨_, ih.2 hzs, rfl⟩⟩

/-- Every result of a step for the items of a list comes from one of them. -/
theorem exists_of_mem_mapM {f : α → Except ε β} {xs : List α} {ys : List β}
    (h : xs.mapM f = .ok ys) {y : β} (hy : y ∈ ys) : ∃ x ∈ xs, f x = .ok y := by
  rw [mapM_eq_ok_iff] at h
  induction h with
  | nil => contradiction
  | cons hhead _ ih =>
    rcases List.mem_cons.1 hy with rfl | hy
    · exact ⟨_, List.mem_cons_self, hhead⟩
    · obtain ⟨x, hx, hxy⟩ := ih hy
      exact ⟨x, List.mem_cons_of_mem _ hx, hxy⟩

/-- A step that always succeeds, with a result or without one, gives its results in order. -/
theorem filterMapM_eq_ok_filterMap {f : α → Except ε (Option β)} {g : α → Option β} {xs : List α}
    (h : ∀ x ∈ xs, f x = .ok (g x)) : xs.filterMapM f = .ok (xs.filterMap g) := by
  induction xs with
  | nil => rfl
  | cons x xs ih =>
    have hrest := ih fun y hy => h y (List.mem_cons_of_mem _ hy)
    rw [List.filterMapM_cons, h x List.mem_cons_self, ok_bind, hrest, List.filterMap_cons]
    cases g x <;> rfl

/-- Changing the result of a step changes the results for a list. -/
theorem mapM_map {f : α → Except ε β} {g : β → γ} {xs : List α} :
    xs.mapM (fun x => (f x).map g) = (xs.mapM f).map (List.map g) := by
  induction xs with
  | nil => rfl
  | cons x xs ih =>
    rw [List.mapM_cons, List.mapM_cons, ih]
    cases f x with
    | error e => rfl
    | ok y => cases xs.mapM f <;> rfl

/-- Whether a step succeeds, and its error if it does not. -/
def verdict (x : Except ε α) : Except ε Unit := x.map fun _ => ()

/-- A step succeeds exactly if its verdict is a success. -/
theorem verdict_eq_ok_iff {x : Except ε α} : verdict x = .ok () ↔ ∃ a, x = .ok a := by
  cases x <;> simp [verdict, Except.map]

/-- A step fails as its verdict says. -/
theorem verdict_eq_error_iff {x : Except ε α} {e : ε} :
    verdict x = .error e ↔ x = .error e := by
  cases x <;> simp [verdict, Except.map]

/-- Making something of a result changes nothing about the verdict. -/
theorem verdict_bind_pure (x : Except ε α) (k : α → β) :
    verdict (x >>= fun a => pure (k a)) = verdict x := by
  cases x <;> rfl

/-- If the verdict on a second step is always the same, two steps are judged one after the other. -/
theorem verdict_bind {x : Except ε α} {k : α → Except ε β} {check : Except ε Unit}
    (h : ∀ a, verdict (k a) = check) : verdict (x >>= k) = verdict x >>= fun _ => check := by
  cases x with
  | error e => rfl
  | ok a => exact h a

/-- The verdict on a step for every item of a list is that on each of them, one after another. -/
theorem verdict_mapM (f : α → Except ε β) (xs : List α) :
    verdict (xs.mapM f) = forM xs fun x => verdict (f x) := by
  induction xs with
  | nil => rfl
  | cons x xs ih =>
    rw [List.mapM_cons, List.forM_cons, ← ih]
    cases f x with
    | error e => rfl
    | ok y => cases xs.mapM f <;> rfl

/-- Checks of the items of several lists are made list by list. -/
theorem forM_flatMap (xs : List α) (k : α → List β) (check : β → Except ε Unit) :
    forM (xs.flatMap k) check = forM xs fun x => forM (k x) check := by
  induction xs with
  | nil => rfl
  | cons x xs ih => rw [List.flatMap_cons, List.forM_append, List.forM_cons, ih]

/-- A list passes a check exactly if each of its items does. -/
theorem forM_eq_ok_iff {check : α → Except ε Unit} {xs : List α} :
    forM xs check = .ok () ↔ ∀ x ∈ xs, check x = .ok () := by
  induction xs with
  | nil => simp [pure, Except.pure]
  | cons x xs ih =>
    rw [List.forM_cons, List.forall_mem_cons, bind_eq_ok_iff, ← ih]
    exact ⟨fun ⟨(), hx, hxs⟩ => ⟨hx, hxs⟩, fun ⟨hx, hxs⟩ => ⟨(), hx, hxs⟩⟩

/-- If a step succeeds for all items of a list, it does for each. -/
theorem exists_eq_ok_of_mapM {f : α → Except ε β} {xs : List α} {ys : List β} {x : α}
    (h : xs.mapM f = .ok ys) (hx : x ∈ xs) : ∃ y, f x = .ok y := by
  have hverdict : verdict (xs.mapM f) = .ok () := verdict_eq_ok_iff.2 ⟨ys, h⟩
  rw [verdict_mapM, forM_eq_ok_iff] at hverdict
  exact verdict_eq_ok_iff.1 (hverdict x hx)

/-- A list fails a check with the error of its first item that does. -/
theorem forM_eq_error_iff {check : α → Except ε Unit} {xs : List α} {e : ε} :
    forM xs check = .error e ↔ ∃ before x after, xs = before ++ x :: after ∧
      (∀ y ∈ before, check y = .ok ()) ∧ check x = .error e := by
  induction xs with
  | nil => simp [pure, Except.pure]
  | cons x xs ih =>
    rw [List.forM_cons]
    constructor
    · intro h
      cases hx : check x with
      | error e' =>
        rw [hx] at h
        exact ⟨[], x, xs, rfl, by simp, hx.trans h⟩
      | ok u =>
        rw [hx] at h
        obtain ⟨before, y, after, rfl, hbefore, hy⟩ := ih.1 h
        exact ⟨x :: before, y, after, rfl, List.forall_mem_cons.2 ⟨hx, hbefore⟩, hy⟩
    · rintro ⟨before, y, after, hxs, hbefore, hy⟩
      cases before with
      | nil =>
        obtain ⟨rfl, rfl⟩ := List.cons.inj hxs
        rw [hy]
        rfl
      | cons z before =>
        obtain ⟨rfl, rfl⟩ := List.cons.inj hxs
        obtain ⟨hz, hbefore⟩ := List.forall_mem_cons.1 hbefore
        rw [hz, ok_bind]
        exact ih.2 ⟨before, y, after, rfl, hbefore, hy⟩

end DagSelect.Except
