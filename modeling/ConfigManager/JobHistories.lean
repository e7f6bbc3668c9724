import ConfigManager.ScraperJob

/-! # Executions one after the other

While no two executions of `scraper_job` overlap, the table a job filters its
batch against is still the table it commits to, so the hashes stay distinct; and
every row a job inserts is enqueued by the same job, in the same order, before
the next batch.  `history_exact` puts this together over any number of
executions, whatever is scraped, rejected, or fails to commit.
-/
namespace ConfigManager

open Py Runs

/-- A step of the only job there is. -/
def soloStep (env : Env) (s : World × Job) (l : JobLabel) : Option (World × Job) :=
  s.2.step env s.1 l

/-- One execution of `scraper_job`, from its call to its end. -/
def Execution (env : Env) (w w' : World) : Prop :=
  ∃ labels v, run (soloStep env) (w, Job.new) labels = some (w', ⟨v, .done⟩)

/-- Any finite number of executions, one after the other. -/
def History (env : Env) : World → World → Prop := Relation.ReflTransGen (Execution env)

/-- The table is the old one and the records enqueued or owed, in this order, as
rows, with distinct hashes. -/
structure World.Exact (w : World) (old : Table) (owed : List Record) : Prop where
  distinct : w.table.hashes.Nodup
  rows : ∃ rows : Table, w.table = old ++ rows ∧
    rows.hashes = (w.enqueued ++ owed).map Record.configHash ∧
    rows.map (fun r => (r.watermarkedConfig, r.countryCode)) =
      (w.enqueued ++ owed).map fun c => (some c.watermarkedConfig, some c.countryCode)

variable {env : Env} {old : Table} {w w' : World} {j j' : Job} {l : JobLabel}

/-- The invariant of an execution.  What is staged is still not in the table, which
no other job has changed. -/
structure SoloInv (env : Env) (old : Table) (s : World × Job) : Prop where
  valid : s.2.Valid env
  exact : s.1.Exact old s.2.owed
  fresh : ∀ c ∈ s.2.staged, c.configHash ∉ s.1.table.hashes

theorem World.Exact.commit {source : Str} {items : List Record} (h : w.Exact old [])
    (hitems : (items.map Record.configHash).Nodup)
    (hfresh : ∀ c ∈ items, c.configHash ∉ w.table.hashes) :
    World.Exact { w with table := w.table.insert (some source) items } old items := by
  obtain ⟨rows, ht, hh, hi⟩ := h.rows
  refine ⟨Table.nodup_insert.mpr ⟨h.distinct, hitems, hfresh⟩,
    rows ++ items.map (Table.rowOf (some source)), ?_, ?_, ?_⟩
  · simp [Table.insert, ht]
  · have := Table.hashes_insert rows (some source) items
    rw [Table.insert] at this
    rw [this, hh]
    simp
  · rw [List.map_append, hi]
    simp [Table.rowOf]

theorem World.Exact.enqueue {item : Record} {items : List Record}
    (h : w.Exact old (item :: items)) :
    World.Exact { w with enqueued := w.enqueued ++ [item] } old items :=
  ⟨h.distinct, by simpa using h.rows⟩

theorem soloInv_step {s t : World × Job} (hs : SoloInv env old s) (h : soloStep env s l = some t) :
    SoloInv env old t := by
  obtain ⟨w, j⟩ := s
  obtain ⟨w', j'⟩ := t
  have hvalid := Job.valid_step hs.valid h
  cases Job.step_effect h with
  | quiet _ howed howed' hstaged =>
    refine ⟨hvalid, ?_, hstaged⟩
    have := hs.exact
    rw [howed] at this
    rwa [howed']
  | commit howed howed' hstaged =>
    refine ⟨hvalid, ?_, by simp [hstaged]⟩
    have := hs.exact
    rw [howed] at this
    rw [howed']
    exact this.commit (Job.staged_nodup hs.valid) hs.fresh
  | enqueue howed hstaged =>
    refine ⟨hvalid, ?_, by simp [hstaged]⟩
    have := hs.exact
    rw [howed] at this
    exact this.enqueue

theorem World.Exact.execution (h : w.Exact old []) (he : Execution env w w') : w'.Exact old [] := by
  obtain ⟨labels, v, hrun⟩ := he
  have hstart : SoloInv env old (w, Job.new) := ⟨Job.valid_new, h, by simp⟩
  exact (last_of_inv (fun _ _ _ => soloInv_step) hstart hrun).exact

/-- **Collect, store and publish, exactly.**  After any number of executions one
after the other, the hashes of the table are distinct; the queue has been given
exactly the rows inserted, in insertion order; and no hash has been enqueued
twice. -/
theorem history_exact (env : Env) (old : Table) (w : World) (hold : old.hashes.Nodup)
    (h : History env ⟨old, []⟩ w) :
    w.table.hashes.Nodup ∧
      ∃ rows : Table, w.table = old ++ rows ∧
        rows.map (fun r => (r.watermarkedConfig, r.countryCode)) =
          w.queue.map (fun i => (some i.config, some i.countryCode)) ∧
        rows.hashes = w.enqueued.map Record.configHash ∧
        (w.enqueued.map Record.configHash).Nodup := by
  have hexact : w.Exact old [] := by
    induction h with
    | refl => exact ⟨hold, [], by simp [Table.hashes]⟩
    | tail _ he ih => exact ih.execution he
  obtain ⟨rows, ht, hh, hi⟩ := hexact.rows
  rw [List.append_nil] at hh hi
  refine ⟨hexact.distinct, rows, ht, ?_, hh, ?_⟩
  · rw [hi, World.queue, List.map_map]
    rfl
  · have := hexact.distinct
    rw [ht, Table.hashes, List.map_append, ← Table.hashes, ← Table.hashes, hh] at this
    exact (List.nodup_append.mp this).2.1

/-- Two sources post the same link; the second one's copy is rejected when its
coroutine asks the seen hashes. -/
def sampleExecution : List JobLabel :=
  [.scraped [("a".toList, [sampleLink]), ("b".toList, [sampleLink])],
    .resume 0 .start, .resume 0 (.located (some "DE".toList)), .gathered, .queried, .committed,
    .put, .resume 0 .start, .gathered]

theorem history_exact_sample :
    ∃ w : World, w.table.length = 1 ∧ w.table.hashes.Nodup ∧
      ∃ rows : Table, w.table = [] ++ rows ∧
        rows.map (fun r => (r.watermarkedConfig, r.countryCode)) =
          w.queue.map (fun i => (some i.config, some i.countryCode)) ∧
        rows.hashes = w.enqueued.map Record.configHash ∧
        (w.enqueued.map Record.configHash).Nodup := by
  have hrun : (run (soloStep Env.sample) (⟨[], []⟩, Job.new) sampleExecution).any
      (fun s => s.2.isDone && s.1.table.length == 1) = true := by decide +kernel
  cases he : run (soloStep Env.sample) (⟨[], []⟩, Job.new) sampleExecution with
  | none => simp [he] at hrun
  | some s =>
    obtain ⟨w, v, phase⟩ := s
    simp only [he, Option.any_some, Bool.and_eq_true, beq_iff_eq] at hrun
    obtain rfl := Job.phase_of_isDone hrun.1
    exact ⟨w, hrun.2, history_exact Env.sample [] w List.nodup_nil
      (Relation.ReflTransGen.single ⟨sampleExecution, v, he⟩)⟩

end ConfigManager
