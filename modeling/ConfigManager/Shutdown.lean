import ConfigManager.Broadcaster
import Mathlib.Algebra.Order.Ring.Nat

/-! # Shutting down (`main.post_shutdown`)

A process runs executions of `scraper_job` and the broadcaster's workers over one table
and one queue.  `post_shutdown` cancels the executions, puts a `None` on the queue and
cancels the workers.  The queue is in memory and ends with the process.

A row of the table is accounted for while its record has been sent, is on the queue, or
is still to be put there by an execution (`Accounted`).  Cancelling an execution between
its commit and its last `queue.put`, and ending the process with items on the queue, are
what loses one; without them nothing is missing at the end
(`published_iff_nothingPending`).  A row that is missing stays so: a later process finds
its hash in the table and does not enqueue it again (`not_republished`).
-/
namespace ConfigManager

open Py Runs

/-- A process. -/
structure Process where
  world : World
  jobs : List Job
  /-- The records whose items are on the queue. -/
  queued : List Record
  /-- The records whose items were passed to `send_message`. -/
  sent : List Record
  /-- `post_shutdown` has begun. -/
  stopping : Bool
  workersStopped : Bool
  /-- Shutdown is complete. -/
  down : Bool

namespace Process

/-- What can happen. -/
inductive Label where
  | launch
  | act (i : Nat) (l : JobLabel)
  /-- A worker takes an item and sends it. -/
  | take
  /-- `post_shutdown` is called. -/
  | shutdown
  /-- Execution `i` is cancelled at its await. -/
  | cancel (i : Nat)
  /-- `Broadcaster.stop`: its `None` finds a place, and the workers are cancelled. -/
  | stopWorkers
  | complete

/-- A process that has started over a table. -/
def new (table : Table) : Process := ⟨⟨table, []⟩, [], [], [], false, false, false⟩

/-- The queue has a place; a `None` of `stop` takes one too. -/
def hasPlace (s : Process) : Bool :=
  s.queued.length + (if s.workersStopped then 1 else 0) < publishQueueSize

/-- `queue.put`, which waits for a place. -/
def isPut : JobLabel → Bool
  | .put => true
  | _ => false

variable (env : Env)

/-- A step of a process that is up. -/
def move (s : Process) : Label → Option Process
  | .launch => if s.stopping then none else some { s with jobs := s.jobs ++ [.new] }
  | .act i l =>
      if isPut l && !s.hasPlace then none
      else (s.jobs[i]?).bind fun j => (j.step env s.world l).map fun (w', j') =>
        { s with
          world := w'
          jobs := s.jobs.set i j'
          queued := s.queued ++ w'.enqueued.drop s.world.enqueued.length }
  | .take =>
      if s.workersStopped then none
      else match s.queued with
        | [] => none
        | c :: queued => some { s with queued, sent := s.sent ++ [c] }
  | .shutdown => if s.stopping then none else some { s with stopping := true }
  | .cancel i =>
      if s.stopping then
        (s.jobs[i]?).map fun j => { s with jobs := s.jobs.set i ⟨j.validator, .done⟩ }
      else none
  | .stopWorkers =>
      if s.stopping ∧ !s.workersStopped ∧ s.hasPlace then some { s with workersStopped := true }
      else none
  | .complete =>
      if s.workersStopped ∧ s.jobs.all Job.isDone then some { s with queued := [], down := true }
      else none

def step (s : Process) (l : Label) : Option Process := if s.down then none else s.move env l

/-- A record is published, or still can be. -/
def InHand (s : Process) (c : Record) : Prop :=
  c ∈ s.sent ∨ c ∈ s.queued ∨ ∃ j ∈ s.jobs, c ∈ j.owed

/-- The row of a record. -/
def IsRowOf (row : Row) (c : Record) : Prop := ∃ source, Table.rowOf source c = row

/-- The rows of a table from a place on are those of records in hand. -/
def Accounted (s : Process) (rows : Table) : Prop :=
  ∀ row ∈ rows, ∃ c, IsRowOf row c ∧ s.InHand c

/-- A process over this table, in any environment, enqueues a record with this hash. -/
def Republished (table : Table) (configHash : Str) : Prop :=
  ∃ env labels s, run (step env) (new table) labels = some s ∧
    ∃ c ∈ s.world.enqueued, c.configHash = configHash

/-- A row was passed to `send_message`, or is enqueued again by a later process. -/
def Published (s : Process) (row : Row) : Prop :=
  (∃ c ∈ s.sent, IsRowOf row c) ∨ Republished s.world.table row.configHash

/-- No execution is cancelled between a commit and its last `queue.put`, and the process
does not end with items on its queue. -/
def NothingPending (s : Process) : Label → Prop
  | .cancel i => ∀ j ∈ s.jobs[i]?, j.owed = []
  | .complete => s.queued = []
  | _ => True

variable {env} {s t : Process} {l : Label} {old : Table}

/-! ## What a step can do -/

/-- The ways a process moves on. -/
inductive Moves (env : Env) (s : Process) : Label → Process → Prop
  | launch : Moves env s .launch { s with jobs := s.jobs ++ [.new] }
  | act {i : Nat} {l : JobLabel} {j j' : Job} {w' : World} (job : s.jobs[i]? = some j)
      (moved : j.step env s.world l = some (w', j')) :
      Moves env s (.act i l) { s with
        world := w'
        jobs := s.jobs.set i j'
        queued := s.queued ++ w'.enqueued.drop s.world.enqueued.length }
  | take {c : Record} {queued : List Record} (first : s.queued = c :: queued) :
      Moves env s .take { s with queued, sent := s.sent ++ [c] }
  | shutdown : Moves env s .shutdown { s with stopping := true }
  | cancel {i : Nat} {j : Job} (job : s.jobs[i]? = some j) :
      Moves env s (.cancel i) { s with jobs := s.jobs.set i ⟨j.validator, .done⟩ }
  | stopWorkers : Moves env s .stopWorkers { s with workersStopped := true }
  | complete (finished : s.jobs.all Job.isDone = true) :
      Moves env s .complete { s with queued := [], down := true }

/-- **What a step can do**, of a process that is up. -/
theorem step_cases (h : step env s l = some t) : s.down ≠ true ∧ Moves env s l t := by
  rw [step] at h
  split at h
  · cases h
  next hup =>
    refine ⟨hup, ?_⟩
    cases l with
    | launch =>
      simp only [move] at h
      split at h
      · cases h
      · cases h; exact .launch
    | act i l =>
      simp only [move] at h
      split at h
      · cases h
      · obtain ⟨j, hj, h⟩ := Option.bind_eq_some_iff.mp h
        obtain ⟨⟨w', j'⟩, hmoved, rfl⟩ := Option.map_eq_some_iff.mp h
        exact .act hj hmoved
    | take =>
      simp only [move] at h
      split at h
      · cases h
      · split at h
        · cases h
        next c queued hqueued => cases h; exact .take hqueued
    | shutdown =>
      simp only [move] at h
      split at h
      · cases h
      · cases h; exact .shutdown
    | cancel i =>
      simp only [move] at h
      split at h
      · obtain ⟨j, hj, rfl⟩ := Option.map_eq_some_iff.mp h
        exact .cancel hj
      · cases h
    | stopWorkers =>
      simp only [move] at h
      split at h
      · cases h; exact .stopWorkers
      · cases h
    | complete =>
      simp only [move] at h
      split at h
      next hdone => cases h; exact .complete hdone.2
      · cases h

/-! ## One step -/

/-- The table only grows, and the rows it grows by are in hand. -/
def Inv (old : Table) (s : Process) : Prop :=
  ∃ rows, s.world.table = old ++ rows ∧ s.Accounted rows

theorem inv_new (table : Table) : Inv table (new table) :=
  ⟨[], by simp [new], by simp [Accounted]⟩

theorem Accounted.mono {rows : Table} (h : s.Accounted rows)
    (hsub : ∀ c, s.InHand c → t.InHand c) : t.Accounted rows := fun row hrow => by
  obtain ⟨c, hc, hhand⟩ := h row hrow
  exact ⟨c, hc, hsub c hhand⟩

theorem owed_of_isDone {j : Job} (h : j.isDone = true) : j.owed = [] := by
  obtain ⟨v, phase⟩ := j
  obtain rfl := Job.phase_of_isDone h
  rfl

/-- What a job in the list is replaced by keeps what the others owe, and what it owes. -/
theorem owed_set {i : Nat} {j j' : Job} {c : Record} (hj : s.jobs[i]? = some j)
    (howed : c ∈ j.owed → c ∈ j'.owed) (h : ∃ k ∈ s.jobs, c ∈ k.owed) :
    ∃ k ∈ s.jobs.set i j', c ∈ k.owed := by
  obtain ⟨l₁, l₂, hsplit, hset⟩ := split_at hj
  obtain ⟨k, hk, hc⟩ := h
  rw [hset]
  rw [hsplit] at hk
  rcases List.mem_append.mp hk with hk | hk
  · exact ⟨k, List.mem_append_left _ hk, hc⟩
  · rcases List.mem_cons.mp hk with rfl | hk
    · exact ⟨j', by simp, howed hc⟩
    · exact ⟨k, List.mem_append_right _ (List.mem_cons_of_mem _ hk), hc⟩

/-- An execution that owes nothing goes on, and something is put on the queue: what is in
hand stays so. -/
theorem InHand.set {i : Nat} {j j' : Job} {w' : World} {put : List Record} {c : Record}
    (hj : s.jobs[i]? = some j) (howed : j.owed = []) (h : s.InHand c) :
    InHand { s with world := w', jobs := s.jobs.set i j', queued := s.queued ++ put } c := by
  rcases h with h | h | h
  · exact .inl h
  · exact .inr (.inl (List.mem_append_left _ h))
  · exact .inr (.inr (owed_set hj (fun ho => by simp [howed] at ho) h))

/-- **A step of an execution** loses nothing: what it commits it owes, and what it puts is
on the queue. -/
theorem Inv.act {i : Nat} {l : JobLabel} {j j' : Job} {w' : World} (hs : s.Inv old)
    (hj : s.jobs[i]? = some j) (hmoved : j.step env s.world l = some (w', j')) :
    Inv old { s with
      world := w'
      jobs := s.jobs.set i j'
      queued := s.queued ++ w'.enqueued.drop s.world.enqueued.length } := by
  obtain ⟨rows, htable, hrows⟩ := hs
  have hmem : j' ∈ s.jobs.set i j' :=
    List.mem_set (List.getElem?_eq_some_iff.mp hj).1 _
  cases Job.step_effect hmoved with
  | quiet _ howed _ _ => exact ⟨rows, htable, hrows.mono fun c hc => hc.set hj howed⟩
  | @commit source _ howed howed' _ =>
    refine ⟨rows ++ j.staged.map (Table.rowOf (some source)), ?_, ?_⟩
    · simp [Table.insert, htable]
    · intro row hrow
      rcases List.mem_append.mp hrow with hrow | hrow
      · obtain ⟨c, hc, hhand⟩ := hrows row hrow
        exact ⟨c, hc, hhand.set hj howed⟩
      · -- A row of this commit is that of a record the execution owes now.
        obtain ⟨c, hc, rfl⟩ := List.mem_map.mp hrow
        exact ⟨c, ⟨_, rfl⟩, .inr (.inr ⟨j', hmem, howed' ▸ hc⟩)⟩
  | @enqueue item _ howed _ =>
    have hdrop : (s.world.enqueued ++ [item]).drop s.world.enqueued.length = [item] :=
      List.drop_left
    refine ⟨rows, htable, hrows.mono fun c hc => ?_⟩
    simp only [InHand, hdrop, List.mem_append, List.mem_singleton]
    rcases hc with hc | hc | ⟨k, hk, hc⟩
    · exact .inl hc
    · exact .inr (.inl (.inl hc))
    · -- What the execution owed is the item put now, or still owed.
      by_cases hitem : c = item
      · exact .inr (.inl (.inr hitem))
      · refine .inr (.inr (owed_set hj (fun ho => ?_) ⟨k, hk, hc⟩))
        rw [howed] at ho
        exact (List.mem_cons.mp ho).resolve_left hitem

theorem inv_step (hs : s.Inv old) (hc : NothingPending s l) (h : step env s l = some t) :
    t.Inv old := by
  obtain ⟨-, hmoves⟩ := step_cases h
  cases hmoves with
  | act hj hmoved => exact hs.act hj hmoved
  | launch =>
    obtain ⟨rows, htable, hrows⟩ := hs
    refine ⟨rows, htable, hrows.mono fun c hhand => ?_⟩
    rcases hhand with hhand | hhand | ⟨j, hj, hhand⟩
    · exact .inl hhand
    · exact .inr (.inl hhand)
    · exact .inr (.inr ⟨j, List.mem_append_left _ hj, hhand⟩)
  | take hqueued =>
    obtain ⟨rows, htable, hrows⟩ := hs
    refine ⟨rows, htable, hrows.mono fun c hhand => ?_⟩
    rcases hhand with hhand | hhand | hhand
    · exact .inl (List.mem_append_left _ hhand)
    · rw [hqueued] at hhand
      rcases List.mem_cons.mp hhand with rfl | hhand
      · exact .inl (List.mem_append_right _ (List.mem_singleton_self _))
      · exact .inr (.inl hhand)
    · exact .inr (.inr hhand)
  | shutdown => exact hs
  | stopWorkers => exact hs
  | @cancel i j hj =>
    -- By the condition the cancelled execution owes nothing.
    have howed : j.owed = [] := hc j hj
    obtain ⟨rows, htable, hrows⟩ := hs
    refine ⟨rows, htable, hrows.mono fun c hhand => ?_⟩
    have hset : InHand { s with
        jobs := s.jobs.set i ⟨j.validator, .done⟩
        queued := s.queued ++ [] } c := hhand.set hj howed
    simpa only [List.append_nil] using hset
  | complete =>
    have hqueued : s.queued = [] := hc
    obtain ⟨rows, htable, hrows⟩ := hs
    refine ⟨rows, htable, hrows.mono fun c hhand => ?_⟩
    rwa [InHand, hqueued] at hhand

/-! ## A missing row stays missing -/

/-- What a process over a table enqueues, now or later, is not in the table. -/
structure Fresh (table : Table) (s : Process) : Prop where
  kept : ∀ h ∈ table.hashes, h ∈ s.world.table.hashes
  enqueued : ∀ c ∈ s.world.enqueued, c.configHash ∉ table.hashes
  pending : ∀ j ∈ s.jobs, ∀ c, c ∈ j.staged ∨ c ∈ j.owed → c.configHash ∉ table.hashes

theorem Fresh.act {table : Table} {i : Nat} {l : JobLabel} {j j' : Job} {w' : World}
    (hs : s.Fresh table) (hj : s.jobs[i]? = some j)
    (hmoved : j.step env s.world l = some (w', j')) :
    Fresh table { s with
      world := w'
      jobs := s.jobs.set i j'
      queued := s.queued ++ w'.enqueued.drop s.world.enqueued.length } := by
  have hjob : ∀ c, c ∈ j.staged ∨ c ∈ j.owed → c.configHash ∉ table.hashes :=
    hs.pending j (List.mem_of_getElem? hj)
  -- The other executions have what they had.
  have hjobs : (∀ c, c ∈ j'.staged ∨ c ∈ j'.owed → c.configHash ∉ table.hashes) →
      ∀ k ∈ s.jobs.set i j', ∀ c, c ∈ k.staged ∨ c ∈ k.owed → c.configHash ∉ table.hashes := by
    intro hnew k hk
    rcases List.mem_or_eq_of_mem_set hk with hk | rfl
    · exact hs.pending k hk
    · exact hnew
  cases Job.step_effect hmoved with
  | quiet _ _ howed' hstaged =>
    refine ⟨hs.kept, hs.enqueued, hjobs fun c hc hmem => ?_⟩
    rcases hc with hc | hc
    · -- What is staged now was looked up in the table, which has kept the old hashes.
      exact hstaged c hc (hs.kept _ hmem)
    · simp [howed'] at hc
  | commit _ howed' hstaged =>
    refine ⟨fun x hx => ?_, hs.enqueued, hjobs fun c hc => ?_⟩
    · rw [Table.hashes_insert]
      exact List.mem_append_left _ (hs.kept x hx)
    · rw [hstaged, howed'] at hc
      exact hjob c (.inl (hc.resolve_left List.not_mem_nil))
  | @enqueue item _ howed hstaged =>
    refine ⟨hs.kept, fun c hc => ?_, hjobs fun c hc => ?_⟩
    · rcases List.mem_append.mp hc with hc | hc
      · exact hs.enqueued c hc
      · rw [List.mem_singleton.mp hc]
        exact hjob item (.inr (howed ▸ List.mem_cons_self ..))
    · rw [hstaged] at hc
      exact hjob c (.inr (howed ▸ List.mem_cons_of_mem _ (hc.resolve_left List.not_mem_nil)))

theorem Fresh.step {table : Table} (hs : s.Fresh table) (h : step env s l = some t) :
    t.Fresh table := by
  obtain ⟨-, hmoves⟩ := step_cases h
  cases hmoves with
  | act hj hmoved => exact hs.act hj hmoved
  | launch =>
    refine ⟨hs.kept, hs.enqueued, fun k hk c hc => ?_⟩
    rcases List.mem_append.mp hk with hk | hk
    · exact hs.pending k hk c hc
    · rw [List.mem_singleton.mp hk] at hc
      rcases hc with hc | hc <;> cases hc
  | cancel =>
    refine ⟨hs.kept, hs.enqueued, fun k hk c hc => ?_⟩
    rcases List.mem_or_eq_of_mem_set hk with hk | rfl
    · exact hs.pending k hk c hc
    · rcases hc with hc | hc <;> cases hc
  | take => exact ⟨hs.kept, hs.enqueued, hs.pending⟩
  | shutdown => exact ⟨hs.kept, hs.enqueued, hs.pending⟩
  | stopWorkers => exact ⟨hs.kept, hs.enqueued, hs.pending⟩
  | complete => exact ⟨hs.kept, hs.enqueued, hs.pending⟩

/-- **A stored hash is never enqueued again**, by no process over the table. -/
theorem not_republished {table : Table} {configHash : Str} (h : configHash ∈ table.hashes) :
    ¬Republished table configHash := by
  rintro ⟨env, labels, s, hrun, c, hc, rfl⟩
  have hstart : (new table).Fresh table :=
    ⟨fun _ hx => hx, by simp [new], by simp [new]⟩
  have hfresh : s.Fresh table := last_of_inv (fun _ _ _ => Fresh.step) hstart hrun
  exact hfresh.enqueued c hc h

/-! ## Counting -/

/-- How many records are published, or still can be. -/
def inHandCount (s : Process) : Nat :=
  s.sent.length + s.queued.length + (s.jobs.map fun j => j.owed.length).sum

/-- What replacing a job does to the count of what the jobs owe. -/
theorem sum_owed_set {i : Nat} {j : Job} (hj : s.jobs[i]? = some j) (j' : Job) :
    ((s.jobs.set i j').map fun k => k.owed.length).sum + j.owed.length =
      (s.jobs.map fun k => k.owed.length).sum + j'.owed.length := by
  obtain ⟨l₁, l₂, hsplit, hset⟩ := split_at hj
  rw [hset, hsplit]
  simp only [List.map_append, List.map_cons, List.sum_append, List.sum_cons]
  omega

theorem count_act {i : Nat} {l : JobLabel} {j j' : Job} {w' : World}
    (hj : s.jobs[i]? = some j) (hmoved : j.step env s.world l = some (w', j')) :
    inHandCount { s with
      world := w'
      jobs := s.jobs.set i j'
      queued := s.queued ++ w'.enqueued.drop s.world.enqueued.length } + s.world.table.length =
    s.inHandCount + w'.table.length := by
  have hsum := sum_owed_set hj j'
  cases Job.step_effect hmoved with
  | quiet _ howed howed' _ =>
    rw [howed, howed'] at hsum
    simp only [inHandCount, List.drop_length, List.append_nil]
    simp only [List.length_nil] at hsum
    omega
  | commit howed howed' _ =>
    rw [howed, howed'] at hsum
    simp only [inHandCount, List.drop_length, List.append_nil, Table.insert, List.length_append,
      List.length_map]
    simp only [List.length_nil] at hsum
    omega
  | @enqueue item _ howed _ =>
    rw [howed] at hsum
    simp only [inHandCount, List.drop_left, List.length_append, List.length_singleton]
    simp only [List.length_cons] at hsum
    omega

/-- **No step wins back a record**, and one with something pending loses one. -/
theorem count_step (h : step env s l = some t) :
    t.inHandCount + s.world.table.length ≤ s.inHandCount + t.world.table.length ∧
      (¬NothingPending s l →
        t.inHandCount + s.world.table.length < s.inHandCount + t.world.table.length) := by
  obtain ⟨-, hmoves⟩ := step_cases h
  cases hmoves with
  | act hj hmoved => exact ⟨(count_act hj hmoved).le, fun hc => absurd trivial hc⟩
  | take hqueued =>
    refine ⟨?_, fun hc => absurd trivial hc⟩
    simp only [inHandCount, hqueued, List.length_append, List.length_cons, List.length_nil]
    omega
  | launch => exact ⟨by simp [inHandCount], fun hc => absurd trivial hc⟩
  | shutdown => exact ⟨le_rfl, fun hc => absurd trivial hc⟩
  | stopWorkers => exact ⟨le_rfl, fun hc => absurd trivial hc⟩
  | @cancel i j hj =>
    have hsum := sum_owed_set hj ⟨j.validator, .done⟩
    have hnone : (⟨j.validator, .done⟩ : Job).owed = [] := rfl
    rw [hnone, List.length_nil] at hsum
    simp only [inHandCount]
    refine ⟨by omega, fun hc => ?_⟩
    -- What is lost is what the cancelled execution owed.
    have howed : j.owed ≠ [] := fun h => hc fun k hk => by
      obtain rfl : j = k := Option.some.inj (hj.symm.trans hk)
      exact h
    have hpos := List.length_pos_of_ne_nil howed
    omega
  | complete =>
    simp only [inHandCount, List.length_nil]
    refine ⟨by omega, fun hc => ?_⟩
    -- What is lost is what the queue still held.
    have hpos := List.length_pos_of_ne_nil hc
    omega

theorem count_run {labels : List Label} (h : run (step env) s labels = some t) :
    t.inHandCount + s.world.table.length ≤ s.inHandCount + t.world.table.length := by
  induction labels generalizing s with
  | nil =>
    obtain rfl := Option.some.inj h
    exact le_rfl
  | cons l labels ih =>
    obtain ⟨u, hu, h⟩ := Option.bind_eq_some_iff.mp h
    have hone := (count_step hu).1
    have hrest := ih h
    omega

theorem count_run_lt {labels : List Label} (h : run (step env) s labels = some t)
    (hm : ¬Meets (step env) NothingPending s labels) :
    t.inHandCount + s.world.table.length < s.inHandCount + t.world.table.length := by
  induction labels generalizing s with
  | nil => exact absurd trivial hm
  | cons l labels ih =>
    obtain ⟨u, hu, h⟩ := Option.bind_eq_some_iff.mp h
    rw [meets_cons hu, not_and_or] at hm
    have hone := count_step hu
    rcases hm with hm | hm
    · have hlost := hone.2 hm
      have hrest := count_run h
      omega
    · have hrest := ih h hm
      have hkept := hone.1
      omega

/-! ## Runs -/

/-- What a process has when shutdown is complete: an empty queue, and no execution left. -/
def Ended (s : Process) : Prop := s.down = true → s.queued = [] ∧ s.jobs.all Job.isDone = true

theorem ended_step (h : step env s l = some t) : t.Ended := by
  obtain ⟨hup, hmoves⟩ := step_cases h
  intro hdown
  cases hmoves with
  | complete hdone => exact ⟨rfl, hdone⟩
  | _ => exact absurd hdown hup

/-- When shutdown is complete, only what was sent counts. -/
theorem Ended.count (h : s.Ended) (hdown : s.down = true) : s.inHandCount = s.sent.length := by
  obtain ⟨hqueued, hdone⟩ := h hdown
  have hsum : (s.jobs.map fun j => j.owed.length).sum = 0 := by
    have hnone : ∀ j ∈ s.jobs, j.owed.length = 0 := fun j hj => by
      rw [owed_of_isDone (List.all_eq_true.mp hdone j hj), List.length_nil]
    rw [List.map_congr_left hnone]
    simp
  rw [inHandCount, hsum, hqueued, List.length_nil]
  rfl

/-- When shutdown is complete, what is in hand has been sent. -/
theorem Inv.sent (hs : s.Inv old) (h : s.Ended) (hdown : s.down = true) :
    ∀ row ∈ s.world.table.drop old.length, ∃ c ∈ s.sent, IsRowOf row c := by
  intro row hrow
  obtain ⟨hqueued, hdone⟩ := h hdown
  obtain ⟨rows, htable, hrows⟩ := hs
  rw [htable, List.drop_left] at hrow
  obtain ⟨c, hc, hhand⟩ := hrows row hrow
  rcases hhand with hhand | hhand | ⟨j, hj, hhand⟩
  · exact ⟨c, hhand, hc⟩
  · simp [hqueued] at hhand
  · simp [owed_of_isDone (List.all_eq_true.mp hdone j hj)] at hhand

/-- If the rows have distinct hashes, they are all published only if as many items were
sent. -/
theorem length_le_sent {rows : Table} (hrows : ∀ row ∈ rows, row ∈ s.world.table)
    (hnodup : rows.hashes.Nodup) (h : ∀ row ∈ rows, Published s row) :
    rows.length ≤ s.sent.length := by
  have hsub : rows.hashes ⊆ s.sent.map Record.configHash := by
    intro x hx
    obtain ⟨row, hrow, rfl⟩ := List.mem_map.mp hx
    rcases h row hrow with ⟨c, hc, source, rfl⟩ | hlater
    · exact List.mem_map.mpr ⟨c, hc, rfl⟩
    · exact absurd hlater (not_republished (List.mem_map_of_mem (hrows row hrow)))
  have hlength := (List.Nodup.subperm hnodup hsub).length_le
  simpa [Table.hashes] using hlength

/-- **No stored config misses publication**, in a run that is never cancelled with records
owed and does not end with items on its queue; and in no other one, if the rows that are
committed have distinct hashes. -/
theorem published_iff_nothingPending (env : Env) (old : Table) (labels : List Label) (s : Process)
    (hrun : run (step env) (new old) labels = some s) (hdown : s.down = true) :
    (Meets (step env) NothingPending (new old) labels →
      ∀ row ∈ s.world.table.drop old.length, Published s row) ∧
    ((Table.hashes (s.world.table.drop old.length)).Nodup →
      (∀ row ∈ s.world.table.drop old.length, Published s row) →
        Meets (step env) NothingPending (new old) labels) := by
  have hended : s.Ended :=
    last_of_inv (fun _ _ _ _ h => ended_step h) (fun h => absurd h Bool.false_ne_true) hrun
  refine ⟨fun hm row hrow => ?_, fun hnodup hall => ?_⟩
  · have hinv : s.Inv old :=
      visited_of_inv (fun _ _ _ => inv_step) (inv_new old) hm s (mem_visited_last hrun)
    exact .inl (hinv.sent hended hdown row hrow)
  · by_contra hm
    have hcount := count_run_lt hrun hm
    have hstart : (new old).inHandCount = 0 := rfl
    have hold : (new old).world.table.length = old.length := rfl
    rw [hended.count hdown, hstart, hold] at hcount
    have hsent := length_le_sent (fun _ => List.mem_of_mem_drop) hnodup hall
    rw [List.length_drop] at hsent
    omega

/-- One execution scrapes one link and commits its record. -/
def untilCommitted : List Label :=
  .launch :: [JobLabel.scraped [("a".toList, [sampleLink])], .resume 0 .start,
    .resume 0 (.located (some "DE".toList)), .gathered, .queried, .committed].map (.act 0)

/-- Its item is sent before the process is stopped. -/
def sentFirst : List Label :=
  untilCommitted ++ [.act 0 .put, .take, .shutdown, .stopWorkers, .complete]

/-- It is cancelled before it puts the item. -/
def cancelledBetween : List Label :=
  untilCommitted ++ [.shutdown, .cancel 0, .stopWorkers, .complete]

variable (env old) in
/-- A run to the end of a process, looked at by a decidable test. -/
theorem exists_of_any (labels : List Label) (p : Process → Bool)
    (h : (run (step env) (new old) labels).any p = true) :
    ∃ s, run (step env) (new old) labels = some s ∧ p s = true := by
  cases he : run (step env) (new old) labels with
  | none => simp [he] at h
  | some s => exact ⟨s, rfl, by simpa [he] using h⟩

theorem published_sentFirst :
    ∃ s, run (step Env.sample) (new []) sentFirst = some s ∧ s.world.table.length = 1 ∧
      (Meets (step Env.sample) NothingPending (new []) sentFirst →
        ∀ row ∈ s.world.table.drop 0, Published s row) ∧
      ((Table.hashes (s.world.table.drop 0)).Nodup →
        (∀ row ∈ s.world.table.drop 0, Published s row) →
          Meets (step Env.sample) NothingPending (new []) sentFirst) := by
  obtain ⟨s, hrun, hs⟩ := exists_of_any Env.sample [] sentFirst
    (fun s => s.down && s.world.table.length = 1) (by decide +kernel)
  obtain ⟨hdown, hlength⟩ := (Bool.and_eq_true ..).mp hs
  exact ⟨s, hrun, by simpa using hlength,
    published_iff_nothingPending Env.sample [] sentFirst s hrun hdown⟩

/-- The row is stored, the process is down, and nobody will publish it. -/
theorem not_published_cancelledBetween :
    ∃ s, run (step Env.sample) (new []) cancelledBetween = some s ∧ s.down = true ∧
      ∃ row ∈ s.world.table.drop 0, ¬Published s row := by
  obtain ⟨s, hrun, hs⟩ := exists_of_any Env.sample [] cancelledBetween
    (fun s => s.down && s.sent.isEmpty && !s.world.table.isEmpty) (by decide +kernel)
  simp only [Bool.and_eq_true, List.isEmpty_iff, Bool.not_eq_true', List.isEmpty_eq_false_iff] at hs
  obtain ⟨⟨hdown, hsent⟩, htable⟩ := hs
  refine ⟨s, hrun, hdown, s.world.table.head htable, List.head_mem htable, fun h => ?_⟩
  rcases h with ⟨c, hc, -⟩ | hlater
  · simp [hsent] at hc
  · exact not_republished (List.mem_map_of_mem (List.head_mem htable)) hlater

end Process
end ConfigManager
