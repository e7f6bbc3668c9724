import ConfigManager.Runs
import Mathlib.Algebra.Order.Ring.Nat
import Mathlib.Data.List.FinRange
import Mathlib.Data.List.Perm.Basic

/-! # Tasks behind a semaphore

All tasks are created at once, and each runs inside `async with semaphore`: they enter in
the order of their creation, as long as fewer than `limit` of them are inside.  A task runs
without interruption from one await to the next.  What its awaits come to is its own, so a
task alone comes to one result (`TaskCode.result`), and a schedule decides no more than the
order in which the tasks end (`results_of_ended`).

A run is no longer than what the tasks await (`length_run_le`), and it stops short of the
end of all tasks for want of a permit only (`exists_step`).
-/
namespace Py

open Runs

/-- The code of the tasks `ι`: they stand in a state of `σ` while they await something, and
return a value of `ρ`. -/
structure TaskCode (ι σ ρ : Type) where
  /-- To the first await, or to the end. -/
  enter : ι → σ ⊕ ρ
  /-- From an await to the next, or to the end. -/
  resume : ι → σ → σ ⊕ ρ
  /-- A bound on what is left to await. -/
  weight : σ → Nat
  weight_resume : ∀ i st st', resume i st = .inl st' → weight st' < weight st

namespace TaskCode

variable {ι σ ρ : Type} (code : TaskCode ι σ ρ)

/-- How many awaits are left, at most. -/
def left : σ ⊕ ρ → Nat
  | .inl st => code.weight st + 1
  | .inr _ => 0

theorem left_resume (i : ι) (st : σ) : code.left (code.resume i st) < code.left (.inl st) := by
  cases h : code.resume i st with
  | inl st' => exact Nat.succ_lt_succ (code.weight_resume i st st' h)
  | inr r => exact Nat.succ_pos _

/-- A task from some point on, alone. -/
def finish (i : ι) : σ ⊕ ρ → ρ
  | .inr r => r
  | .inl st => finish i (code.resume i st)
termination_by x => code.left x
decreasing_by exact code.left_resume i st

/-- What a task returns, alone. -/
def result (i : ι) : ρ := code.finish i (code.enter i)

@[simp] theorem finish_inr (i : ι) (r : ρ) : code.finish i (.inr r) = r := by rw [finish]

theorem finish_inl (i : ι) (st : σ) :
    code.finish i (.inl st) = code.finish i (code.resume i st) := by rw [finish]

end TaskCode

/-- The tasks of a pool. -/
structure TaskPool (ι σ ρ : Type) where
  /-- Those that wait for the semaphore, in the order of their creation. -/
  waiting : List ι
  running : List (ι × σ)
  /-- What was returned, in the order in which the tasks ended. -/
  results : List (ι × ρ)

namespace TaskPool

/-- What can happen: the next task is let in, or what the `k`-th of those inside awaits is
there. -/
inductive Label where
  | enter
  | wake (k : Nat)

variable {ι σ ρ : Type}

/-- The tasks, created. -/
def new (tasks : List ι) : TaskPool ι σ ρ := ⟨tasks, [], []⟩

/-- All tasks have returned. -/
def Ended (s : TaskPool ι σ ρ) : Prop := s.waiting = [] ∧ s.running = []

/-- A task comes to its next await, or to its end. -/
def settle (s : TaskPool ι σ ρ) (i : ι) : σ ⊕ ρ → TaskPool ι σ ρ
  | .inl st => { s with running := s.running ++ [(i, st)] }
  | .inr r => { s with results := s.results ++ [(i, r)] }

variable (code : TaskCode ι σ ρ) (limit : Nat)

def step (s : TaskPool ι σ ρ) : Label → Option (TaskPool ι σ ρ)
  | .enter =>
      match s.waiting with
      | [] => none
      | i :: waiting =>
          if s.running.length < limit then some ({ s with waiting }.settle i (code.enter i))
          else none
  | .wake k =>
      (s.running[k]?).map fun p =>
        { s with running := s.running.eraseIdx k }.settle p.1 (code.resume p.1 p.2)

/-- What holds of a pool of `tasks` at any time. -/
structure Inv (tasks : List ι) (s : TaskPool ι σ ρ) : Prop where
  tasks : (s.waiting ++ s.running.map Prod.fst ++ s.results.map Prod.fst).Perm tasks
  length : s.running.length ≤ limit
  running : ∀ p ∈ s.running, code.finish p.1 (.inl p.2) = code.result p.1
  results : ∀ p ∈ s.results, p.2 = code.result p.1

variable {code limit} {s t : TaskPool ι σ ρ} {tasks : List ι} {l : Label} {labels : List Label}

theorem inv_new (tasks : List ι) : Inv code limit tasks (new tasks) where
  tasks := by simp [new]
  length := Nat.zero_le _
  running := fun _ hp => nomatch hp
  results := fun _ hp => nomatch hp

/-- **Where a step leads**: a task is taken from the waiting or from the running ones, and
comes to an await or to its end. -/
theorem step_cases (h : step code limit s l = some t) :
    (∃ i waiting, s.waiting = i :: waiting ∧ s.running.length < limit ∧
        t = { s with waiting }.settle i (code.enter i)) ∨
      ∃ l₁ i st l₂, s.running = l₁ ++ (i, st) :: l₂ ∧
        t = { s with running := l₁ ++ l₂ }.settle i (code.resume i st) := by
  cases l with
  | enter =>
    rw [step] at h
    split at h
    · cases h
    next i waiting hw =>
      split at h
      next hlt =>
        cases h
        exact .inl ⟨i, waiting, hw, hlt, rfl⟩
      next => cases h
  | wake k =>
    obtain ⟨⟨i, st⟩, hk, rfl⟩ := Option.map_eq_some_iff.mp h
    obtain ⟨hlt, hget⟩ := List.getElem?_eq_some_iff.mp hk
    refine .inr ⟨s.running.take k, i, st, s.running.drop (k + 1), ?_, ?_⟩
    · rw [← hget, List.getElem_cons_drop, List.take_append_drop]
    · rw [List.eraseIdx_eq_take_drop_succ]

/-- A task that comes to an await or to its end keeps the invariant of those without it. -/
theorem inv_settle {i : ι} {x : σ ⊕ ρ} (hx : code.finish i x = code.result i)
    (htasks : (s.waiting ++ i :: s.running.map Prod.fst ++ s.results.map Prod.fst).Perm tasks)
    (hlength : s.running.length < limit)
    (hrunning : ∀ p ∈ s.running, code.finish p.1 (.inl p.2) = code.result p.1)
    (hresults : ∀ p ∈ s.results, p.2 = code.result p.1) :
    Inv code limit tasks (s.settle i x) := by
  cases x with
  | inl st =>
    refine ⟨?_, ?_, ?_, hresults⟩
    · refine List.Perm.trans ?_ htasks
      show (s.waiting ++ (s.running ++ [(i, st)]).map Prod.fst ++ _).Perm _
      rw [List.map_append]
      exact ((List.perm_append_singleton i _).append_left s.waiting).append_right _
    · show (s.running ++ [(i, st)]).length ≤ limit
      rw [List.length_append]
      exact hlength
    · show ∀ p ∈ s.running ++ [(i, st)], _
      rw [List.forall_mem_append, List.forall_mem_singleton]
      exact ⟨hrunning, hx⟩
  | inr r =>
    refine ⟨?_, hlength.le, hrunning, ?_⟩
    · refine List.Perm.trans ?_ htasks
      show (s.waiting ++ s.running.map Prod.fst ++ (s.results ++ [(i, r)]).map Prod.fst).Perm _
      have hend := List.perm_append_singleton i (s.running.map Prod.fst ++ s.results.map Prod.fst)
      rw [List.append_assoc] at hend
      rw [List.map_append, List.append_assoc, List.append_assoc]
      exact hend.append_left s.waiting
    · show ∀ p ∈ s.results ++ [(i, r)], _
      rw [List.forall_mem_append, List.forall_mem_singleton]
      exact ⟨hresults, by rw [← hx, TaskCode.finish_inr]⟩

/-- **A step keeps the invariant.** -/
theorem inv_step (hs : Inv code limit tasks s) (h : step code limit s l = some t) :
    Inv code limit tasks t := by
  rcases step_cases h with ⟨i, waiting, hw, hlt, rfl⟩ | ⟨l₁, i, st, l₂, hr, rfl⟩
  · refine inv_settle rfl (List.Perm.trans ?_ hs.tasks) hlt hs.running hs.results
    rw [hw, List.cons_append]
    exact List.perm_middle.append_right _
  · have hmem : ∀ p ∈ l₁ ++ l₂, p ∈ s.running := by
      intro p hp
      rw [hr]
      exact (List.sublist_cons_self (i, st) l₂).append_left l₁ |>.subset hp
    have hst := hs.running (i, st) (hr ▸ List.mem_append_right l₁ (List.mem_cons_self ..))
    have hlength := hs.length
    rw [hr] at hlength
    refine inv_settle ?_ (List.Perm.trans ?_ hs.tasks) ?_
      (fun p hp => hs.running p (hmem p hp)) hs.results
    · rw [← hst, TaskCode.finish_inl]
    · rw [hr, List.map_append, List.map_append, List.map_cons]
      exact (List.perm_middle.symm.append_left s.waiting).append_right _
    · show (l₁ ++ l₂).length < limit
      rw [List.length_append, List.length_cons] at hlength
      rw [List.length_append]
      omega

/-- **At any time** no more than `limit` tasks are inside, and no task is lost or there
twice. -/
theorem inv_visited (tasks : List ι) (labels : List Label) :
    ∀ s ∈ visited (step code limit) (new tasks) labels, Inv code limit tasks s :=
  visited_of_inv (C := fun _ _ => True) (fun _ _ _ hs _ h => inv_step hs h) (inv_new tasks)
    (meets_trivial _ _)

theorem inv_run (h : run (step code limit) (new tasks) labels = some s) :
    Inv code limit tasks s := inv_visited tasks labels s (mem_visited_last h)

/-- **When all tasks have returned**, each has returned what it returns alone. -/
theorem results_of_ended (hs : Inv code limit tasks s) (he : s.Ended) :
    ∃ order : List ι, order.Perm tasks ∧ s.results = order.map fun i => (i, code.result i) := by
  refine ⟨s.results.map Prod.fst, ?_, ?_⟩
  · have h := hs.tasks
    rw [he.1, he.2] at h
    exact h
  · rw [List.map_map]
    conv_lhs => rw [← List.map_id s.results]
    exact List.map_congr_left fun p hp => Prod.ext rfl (hs.results p hp)

/-- **No deadlock**: with a permit, a pool that has not ended goes on. -/
theorem exists_step (hlimit : 0 < limit) (he : ¬s.Ended) :
    ∃ l t, step code limit s l = some t := by
  by_cases hr : s.running = []
  · cases hw : s.waiting with
    | nil => exact absurd ⟨hw, hr⟩ he
    | cons i waiting =>
      refine ⟨.enter, { s with waiting }.settle i (code.enter i), ?_⟩
      rw [step, hw]
      exact if_pos (by rw [hr]; exact hlimit)
  · obtain ⟨p, running, hp⟩ := List.exists_cons_of_ne_nil hr
    refine ⟨.wake 0, { s with running := running }.settle p.1 (code.resume p.1 p.2), ?_⟩
    rw [step, hp]
    rfl

variable (code) in
/-- What is left to happen, at most. -/
def left (s : TaskPool ι σ ρ) : Nat :=
  (s.waiting.map fun i => code.left (code.enter i) + 1).sum +
    (s.running.map fun p => code.weight p.2 + 1).sum

theorem left_settle (i : ι) (x : σ ⊕ ρ) : left code (s.settle i x) = left code s + code.left x := by
  cases x with
  | inl st => simp [left, settle, TaskCode.left, Nat.add_assoc]
  | inr r => rfl

theorem left_step (h : step code limit s l = some t) : left code t < left code s := by
  rcases step_cases h with ⟨i, waiting, hw, -, rfl⟩ | ⟨l₁, i, st, l₂, hr, rfl⟩
  · rw [left_settle, left, left, hw, List.map_cons, List.sum_cons]
    dsimp only
    omega
  · have hlt := code.left_resume i st
    rw [TaskCode.left] at hlt
    rw [left_settle, left, left, hr]
    simp only [List.map_append, List.map_cons, List.sum_append, List.sum_cons]
    omega

/-- **A run is no longer than what its tasks await.** -/
theorem length_run_le (h : run (step code limit) (new tasks) labels = some s) :
    labels.length ≤ (tasks.map fun i => code.left (code.enter i) + 1).sum := by
  have hnew : left code (new tasks : TaskPool ι σ ρ) =
      (tasks.map fun i => code.left (code.enter i) + 1).sum := by simp [left, new]
  have hlength := length_of_measure (fun _ _ _ => left_step) h
  omega

/-- **Every pool can end**: whatever has happened so far, some schedule lets the tasks that
are left return. -/
theorem exists_run_ended (hlimit : 0 < limit) (s : TaskPool ι σ ρ) :
    ∃ labels t, run (step code limit) s labels = some t ∧ t.Ended := by
  induction hn : left code s using Nat.strong_induction_on generalizing s with
  | _ n ih =>
    subst hn
    by_cases he : s.Ended
    · exact ⟨[], s, rfl, he⟩
    · obtain ⟨l, t, ht⟩ : ∃ l t, step code limit s l = some t := exists_step hlimit he
      obtain ⟨labels, u, hu, hended⟩ := ih _ (left_step ht) t rfl
      refine ⟨l :: labels, u, ?_, hended⟩
      rw [run, ht]
      exact hu

end TaskPool
end Py
