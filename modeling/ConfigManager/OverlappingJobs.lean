import ConfigManager.ScraperJob

/-! # Executions in flight together

`post_init` starts one execution of `scraper_job` at once and schedules others,
so two of them can be in flight together.  A `System` is the shared table and
queue and any number of executions, each of which may take a step.

A job filters its batch against the table at one await and commits at a later
one.  If another job has stored one of the batch's hashes in between, the hash is
stored twice; and that is the only way it can be: `safe_iff_commits_unstored`.
-/
namespace ConfigManager

open Py Runs

/-- The shared world and the executions launched so far. -/
structure System where
  world : World
  jobs : List Job

namespace System

inductive Label where
  /-- `create_task(scraper_job())`, or the scheduler's interval. -/
  | launch
  | act (i : Nat) (l : JobLabel)

/-- A table, an empty queue, and no execution yet. -/
def new (table : Table) : System := ⟨⟨table, []⟩, []⟩

variable (env : Env)

def step (s : System) : Label → Option System
  | .launch => some { s with jobs := s.jobs ++ [.new] }
  | .act i l =>
      (s.jobs[i]?).bind fun j => (j.step env s.world l).map fun (w', j') =>
        ⟨w', s.jobs.set i j'⟩

/-- Each hash is in at most one row and has been enqueued at most once. -/
structure Safe (s : System) : Prop where
  stored : s.world.table.hashes.Nodup
  enqueued : (s.world.enqueued.map Record.configHash).Nodup

instance (s : System) : Decidable s.Safe :=
  decidable_of_iff (s.world.table.hashes.Nodup ∧ (s.world.enqueued.map Record.configHash).Nodup)
    ⟨fun h => ⟨h.1, h.2⟩, fun h => ⟨h.1, h.2⟩⟩

/-- A job that commits finds none of its batch's hashes in the table. -/
def CommitsUnstored (s : System) : Label → Prop
  | .act i .committed =>
      ∀ j ∈ s.jobs[i]?, ∀ c ∈ j.staged, c.configHash ∉ s.world.table.hashes
  | _ => True

/-- What the jobs have stored and not enqueued yet. -/
def owed (s : System) : List Record := s.jobs.flatMap Job.owed

/-- The hashes enqueued and owed are distinct, and all in the table. -/
structure Inv (env : Env) (s : System) : Prop where
  valid : ∀ j ∈ s.jobs, j.Valid env
  stored : s.world.table.hashes.Nodup
  distinct : ((s.world.enqueued ++ s.owed).map Record.configHash).Nodup
  covered : ∀ c ∈ s.world.enqueued ++ s.owed, c.configHash ∈ s.world.table.hashes

variable {env} {s t : System} {l : Label} {table : Table}

variable (env) in
theorem inv_new (h : table.hashes.Nodup) : Inv env (new table) :=
  ⟨by simp [new], h, by simp [new, owed], by simp [new, owed]⟩

theorem Inv.safe (h : Inv env s) : s.Safe := by
  refine ⟨h.stored, ?_⟩
  have := h.distinct
  rw [List.map_append] at this
  exact (List.nodup_append.mp this).1

/-- The invariant depends on the records enqueued and owed up to their order. -/
theorem Inv.of_perm (h : Inv env s) {t : System} (hv : ∀ j ∈ t.jobs, j.Valid env)
    (ht : t.world.table = s.world.table)
    (hp : (t.world.enqueued ++ t.owed).Perm (s.world.enqueued ++ s.owed)) : Inv env t := by
  refine ⟨hv, ht ▸ h.stored, ?_, fun c hc => ?_⟩
  · exact (hp.map Record.configHash).nodup_iff.mpr h.distinct
  · rw [ht]
    exact h.covered c (hp.mem_iff.mp hc)

/-- What a step of job `i` is about. -/
theorem step_act {i : Nat} {l : JobLabel} (h : s.step env (.act i l) = some t) :
    ∃ j w' j', s.jobs[i]? = some j ∧ j.step env s.world l = some (w', j') ∧
      t = ⟨w', s.jobs.set i j'⟩ := by
  obtain ⟨j, hj, h⟩ := Option.bind_eq_some_iff.mp h
  obtain ⟨⟨w', j'⟩, hstep, rfl⟩ := Option.map_eq_some_iff.mp h
  exact ⟨j, w', j', hj, hstep, rfl⟩

/-- What is owed with and without a step of job `i`: the others' part is the same. -/
theorem owed_set {i : Nat} {j : Job} (hj : s.jobs[i]? = some j) :
    ∃ before after, s.owed = before ++ (j.owed ++ after) ∧
      ∀ w j', owed ⟨w, s.jobs.set i j'⟩ = before ++ (j'.owed ++ after) := by
  obtain ⟨l₁, l₂, hjobs, hset⟩ := split_at hj
  exact ⟨l₁.flatMap Job.owed, l₂.flatMap Job.owed, by simp [owed, hjobs],
    fun w j' => by simp [owed, hset]⟩

theorem Inv.valid_set (hs : Inv env s) {i : Nat} {j j' : Job} {w' : World} {l : JobLabel}
    (hj : s.jobs[i]? = some j) (hstep : j.step env s.world l = some (w', j')) :
    ∀ k ∈ s.jobs.set i j', k.Valid env := by
  intro k hk
  rcases List.mem_or_eq_of_mem_set hk with hk | rfl
  · exact hs.valid k hk
  · exact Job.valid_step (hs.valid j (List.mem_of_getElem? hj)) hstep

/-- A commit of hashes that are new moves records from staged to owed. -/
theorem Inv.commit (hs : Inv env s) {i : Nat} {j j' : Job} {source : Str}
    (hj : s.jobs[i]? = some j) (hvalid : ∀ k ∈ s.jobs.set i j', k.Valid env)
    (hfresh : ∀ c ∈ j.staged, c.configHash ∉ s.world.table.hashes) (howed : j.owed = [])
    (howed' : j'.owed = j.staged) :
    Inv env ⟨{ s.world with table := s.world.table.insert (some source) j.staged },
      s.jobs.set i j'⟩ := by
  obtain ⟨before, after, hold, hnew⟩ := owed_set hj
  have hstaged := Job.staged_nodup (hs.valid j (List.mem_of_getElem? hj))
  have hperm : (s.world.enqueued ++ (before ++ (j.staged ++ after))).Perm
      ((s.world.enqueued ++ s.owed) ++ j.staged) := by
    rw [hold, howed, List.nil_append, List.append_assoc, List.append_assoc]
    exact List.Perm.append_left _ (List.Perm.append_left _ List.perm_append_comm)
  refine ⟨hvalid, Table.nodup_insert.mpr ⟨hs.stored, hstaged, hfresh⟩, ?_, fun c hmem => ?_⟩
  · rw [hnew, howed']
    refine (hperm.map Record.configHash).nodup_iff.mpr ?_
    rw [List.map_append]
    -- Whatever was enqueued or owed before is in the table, and nothing staged is.
    refine hs.distinct.append hstaged fun h hbefore hstage => ?_
    obtain ⟨c, hcs, rfl⟩ := List.mem_map.mp hbefore
    obtain ⟨d, hds, hd⟩ := List.mem_map.mp hstage
    exact hfresh d hds (hd ▸ hs.covered c hcs)
  · rw [hnew, howed'] at hmem
    rw [Table.hashes_insert, List.mem_append]
    rcases List.mem_append.mp (hperm.mem_iff.mp hmem) with hbefore | hstage
    · exact Or.inl (hs.covered c hbefore)
    · exact Or.inr (List.mem_map_of_mem hstage)

theorem inv_step (hs : Inv env s) (hc : CommitsUnstored s l) (h : s.step env l = some t) :
    Inv env t := by
  cases l with
  | launch =>
    cases h
    refine hs.of_perm ?_ rfl (by simp [owed])
    intro j hj
    rcases List.mem_append.mp hj with hj | hj
    · exact hs.valid j hj
    · rw [List.mem_singleton.mp hj]
      exact Job.valid_new
  | act i l =>
    obtain ⟨j, w', j', hj, hstep, rfl⟩ := step_act h
    have hvalid := hs.valid_set hj hstep
    obtain ⟨before, after, hold, hnew⟩ := owed_set hj
    cases Job.step_effect hstep with
    | quiet _ howed howed' _ =>
      refine hs.of_perm hvalid rfl ?_
      rw [hnew, hold, howed, howed']
    | @enqueue item _ howed _ =>
      refine hs.of_perm hvalid rfl ?_
      rw [hnew, hold, howed, List.append_assoc]
      refine List.Perm.append_left _ ?_
      have hmiddle : (before ++ item :: (j'.owed ++ after)).Perm
          (item :: (before ++ (j'.owed ++ after))) := List.perm_middle
      simpa using hmiddle.symm
    | commit howed howed' _ => exact hs.commit hj hvalid (hc j hj) howed howed'

/-- A job that commits a hash the table has stores it a second time. -/
theorem not_safe_of_not (hc : ¬CommitsUnstored s l) (h : s.step env l = some t) : ¬t.Safe := by
  cases l with
  | launch => exact absurd trivial hc
  | act i l =>
    obtain ⟨j, w', j', hj, hstep, rfl⟩ := step_act h
    cases Job.step_effect hstep with
    | quiet hl _ _ _ => cases l <;> first | exact absurd trivial hc | exact absurd rfl hl
    | enqueue _ _ => exact absurd trivial hc
    | commit _ _ _ =>
      intro hsafe
      have hfresh := (Table.nodup_insert.mp hsafe.stored).2.2
      refine hc fun k hk => ?_
      cases hj.symm.trans hk
      exact hfresh

/-- **Exactly the interleavings that store and publish nothing twice**: those in
which every job that commits finds none of its batch's hashes in the table. -/
theorem safe_iff_commits_unstored (env : Env) (table : Table) (labels : List Label)
    (htable : table.hashes.Nodup) (hrun : IsRun (step env) (new table) labels) :
    (∀ s ∈ visited (step env) (new table) labels, s.Safe) ↔
      Meets (step env) CommitsUnstored (new table) labels :=
  safe_iff_meets (fun _ => Inv.safe) (fun _ _ _ => inv_step) (fun _ _ _ _ => not_safe_of_not)
    (inv_new env htable) hrun

/-- A job that has scraped one link, up to its commit. -/
def untilCommit : List JobLabel :=
  [.scraped [("a".toList, [sampleLink])], .resume 0 .start, .resume 0 (.located (some "DE".toList)),
    .gathered, .queried]

/-- The second job starts when the first one is through. -/
def sequentialRun : List Label :=
  [.launch] ++ untilCommit.map (.act 0) ++ [.act 0 .committed, .act 0 .put] ++ [.launch] ++
    untilCommit.map (.act 1)

/-- Both jobs ask for the hash before either commits. -/
def overlappingRun : List Label :=
  [.launch, .launch] ++ untilCommit.map (.act 0) ++ untilCommit.map (.act 1) ++
    [.act 0 .committed, .act 1 .committed, .act 0 .put, .act 1 .put]

theorem safe_iff_sequentialRun :
    (∀ s ∈ visited (step Env.sample) (new []) sequentialRun, s.Safe) ↔
      Meets (step Env.sample) CommitsUnstored (new []) sequentialRun :=
  safe_iff_commits_unstored Env.sample [] sequentialRun List.nodup_nil (by decide +kernel)

/-- The link is stored and published twice. -/
theorem not_safe_overlappingRun :
    IsRun (step Env.sample) (new []) overlappingRun ∧
      ¬∀ s ∈ visited (step Env.sample) (new []) overlappingRun, s.Safe := by
  decide +kernel

end System
end ConfigManager
