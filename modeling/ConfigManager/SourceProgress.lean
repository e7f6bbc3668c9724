import ConfigManager.BatchOutcome
import ConfigManager.JobHistories

/-! # Whether a long source is worked through

`scraper_job` validates the first twenty links of a source and filters out those that are
stored afterwards, so a source that begins with twenty stored links makes no progress,
whatever else it has.

An execution that is not cancelled and in which nothing raises stores exactly the hashes of
the acceptable links among the first twenty of the sources (`mem_hashes_iff`).  So a source
with something to store progresses exactly if one of its new hashes is that of an
acceptable link among these (`progresses_iff_reached`).
-/
namespace ConfigManager

open Py Runs

variable (env : Env) (L : Lookups env.floats)

/-- The batch a job awaits. -/
def Job.batch? (j : Job) : Option Batch :=
  match j.phase with
  | .validating _ batch _ => some batch
  | _ => none

/-- Nothing raises, and the country service answers what it knows. -/
def Undisturbed (s : World × Job) : JobLabel → Prop
  | .resume i wake =>
      ∀ batch ∈ s.2.batch?, ∀ t ∈ batch.tasks[i]?, AnswerKnown env L t.config wake
  | .raised => False
  | _ => True

instance (s : World × Job) : (l : JobLabel) → Decidable (Undisturbed env L s l)
  | .resume _ _ => inferInstanceAs (Decidable (∀ batch ∈ _, ∀ t ∈ _, _))
  | .raised => .isFalse id
  | .scraped _ | .aborted | .gathered | .queried | .committed | .put => .isTrue trivial

/-- The hash of an acceptable link that the job looks at in these sources. -/
def Reaches (sources : Scraped) (h : Str) : Prop :=
  ∃ s ∈ sources, ∃ c ∈ s.2.take scraperPublishLimit, accepts env L c = true ∧ configHash c = h

/-- A source has an acceptable link that is not stored. -/
def HasNew (table : Table) (configs : List Str) : Prop :=
  ∃ c ∈ configs, accepts env L c = true ∧ configHash c ∉ table.hashes

/-- **Progress**: a new hash of the source is stored, and enqueued. -/
def Progresses (table : Table) (configs : List Str) (w : World) : Prop :=
  ∃ c ∈ configs, configHash c ∉ table.hashes ∧ configHash c ∈ w.table.hashes ∧
    configHash c ∈ w.enqueued.map Record.configHash

instance (table : Table) (configs : List Str) : Decidable (HasNew env L table configs) :=
  inferInstanceAs (Decidable (∃ c ∈ configs, _))

instance (table : Table) (configs : List Str) (w : World) :
    Decidable (Progresses table configs w) :=
  inferInstanceAs (Decidable (∃ c ∈ configs, _))

variable {env L} {table : Table} {sources finished rest : Scraped} {w w' : World}
  {v : Validator} {j : Job} {s t : World × Job} {l : JobLabel}

theorem reaches_append {more : Scraped} {h : Str} :
    Reaches env L (finished ++ more) h ↔ Reaches env L finished h ∨ Reaches env L more h := by
  simp only [Reaches, List.mem_append, or_and_right, exists_or]

theorem reaches_singleton {source : Str} {configs : List Str} {h : Str} :
    Reaches env L [(source, configs)] h ↔
      ∃ c ∈ configs.take scraperPublishLimit, accepts env L c = true ∧ configHash c = h := by
  simp [Reaches]

/-- Of the sources, some are finished: what they reach has been seen, and is stored. -/
structure Between (env : Env) (L : Lookups env.floats) (table : Table) (sources finished : Scraped)
    (w : World) (v : Validator) (rest : Scraped) : Prop where
  split : sources = finished ++ rest
  stored : ∀ h, h ∈ w.table.hashes ↔ h ∈ table.hashes ∨ Reaches env L finished h
  seen : ∀ h, h ∈ v.seenHashes ↔ Reaches env L finished h
  cache : CacheKnown env L v

/-- The invariant of an execution over these sources. -/
def Progress (env : Env) (L : Lookups env.floats) (table : Table) (sources : Scraped)
    (s : World × Job) : Prop :=
  match s.2.phase with
  | .scraping => False
  | .validating source batch rest => ∃ finished configs seen,
      sources = finished ++ (source, configs) :: rest ∧
      (∀ h, h ∈ s.1.table.hashes ↔ h ∈ table.hashes ∨ Reaches env L finished h) ∧
      (∀ h, h ∈ seen ↔ Reaches env L finished h) ∧
      BatchInv env L seen s.2.validator batch ∧
      batch.tasks.map Task.config = configs.take scraperPublishLimit
  | .querying source validated rest => ∃ finished configs,
      sources = finished ++ (source, configs) :: rest ∧
      (∀ h, h ∈ s.1.table.hashes ↔ h ∈ table.hashes ∨ Reaches env L finished h) ∧
      (∀ h, h ∈ s.2.validator.seenHashes ↔ Reaches env L (finished ++ [(source, configs)]) h) ∧
      CacheKnown env L s.2.validator ∧
      ∀ h, h ∈ validated.map Record.configHash ↔
        ¬Reaches env L finished h ∧ Reaches env L [(source, configs)] h
  | .committing source new rest => ∃ finished configs,
      sources = finished ++ (source, configs) :: rest ∧
      (∀ h, h ∈ s.1.table.hashes ∨ h ∈ new.map Record.configHash ↔
        h ∈ table.hashes ∨ Reaches env L (finished ++ [(source, configs)]) h) ∧
      (∀ h, h ∈ s.2.validator.seenHashes ↔ Reaches env L (finished ++ [(source, configs)]) h) ∧
      CacheKnown env L s.2.validator
  | .putting _ rest => ∃ finished, Between env L table sources finished s.1 s.2.validator rest
  | .done => ∃ finished, Between env L table sources finished s.1 s.2.validator []

/-- The job goes on to the next source that has links. -/
theorem progress_next (hdistinct : Distinct sources) (finished : Scraped)
    (h : Between env L table sources finished w v rest) :
    Progress env L table sources (w, .next v rest) := by
  induction rest generalizing finished with
  | nil => exact ⟨finished, h⟩
  | cons s rest ih =>
      obtain ⟨source, configs⟩ := s
      rw [Job.next]
      split
      -- A source without links is passed over, and reaches nothing.
      next hempty =>
        subst hempty
        have hnone : ∀ x, Reaches env L (finished ++ [(source, [])]) x ↔
            Reaches env L finished x := by
          intro x
          rw [reaches_append, reaches_singleton]
          simp
        refine ih (finished ++ [(source, [])]) ⟨?_, ?_, ?_, h.cache⟩
        · rw [h.split, List.append_assoc]
          rfl
        · simpa only [hnone] using h.stored
        · simpa only [hnone] using h.seen
      next hsome =>
        have hconfigs : (configs.map configHash).Nodup :=
          hdistinct (source, configs) (by rw [h.split]; simp)
        refine ⟨finished, configs, v.seenHashes, h.split, h.stored, h.seen,
          batchInv_new 10 h.cache ?_, ?_⟩
        · rw [List.map_take]
          exact hconfigs.sublist (List.take_sublist ..)
        · simp [Batch.new, Function.comp_def]

/-- The hashes of the records that are not stored. -/
theorem mem_map_filter_hash {validated : List Record} {hashes : List Str} {h : Str} :
    h ∈ (validated.filter fun c => c.configHash ∉ hashes).map Record.configHash ↔
      h ∈ validated.map Record.configHash ∧ h ∉ hashes := by
  simp only [List.mem_map, List.mem_filter, decide_eq_true_eq]
  constructor
  · rintro ⟨c, ⟨hc, hnew⟩, rfl⟩
    exact ⟨⟨c, hc, rfl⟩, hnew⟩
  · rintro ⟨⟨c, hc, rfl⟩, hnew⟩
    exact ⟨c, ⟨hc, hnew⟩, rfl⟩

/-- The batch is done: its results are what the source reaches first. -/
theorem progress_gathered {source : Str} {batch : Batch}
    (hs : Progress env L table sources (w, ⟨v, .validating source batch rest⟩))
    (hdone : batch.done = true) :
    Progress env L table sources (w, ⟨v, .querying source batch.results rest⟩) := by
  obtain ⟨finished, configs, seen, hsplit, hstored, hseen, hbatch, htasks⟩ := hs
  refine ⟨finished, configs, hsplit, hstored, ?_, hbatch.cache, ?_⟩
  · intro x
    rw [hbatch.mem_seenHashes hdone, htasks, hseen, reaches_append, reaches_singleton]
  · intro x
    rw [hbatch.mem_results hdone, htasks, hseen, reaches_singleton]

/-- The hashes have been looked up: what is left is what is not stored. -/
theorem progress_queried {source : Str} {validated : List Record}
    (hs : Progress env L table sources (w, ⟨v, .querying source validated rest⟩)) :
    Progress env L table sources (w, ⟨v, .committing source
      (validated.filter fun c => c.configHash ∉ w.table.hashes) rest⟩) := by
  obtain ⟨finished, configs, hsplit, hstored, hseen, hcache, hvalidated⟩ := hs
  refine ⟨finished, configs, hsplit, ?_, hseen, hcache⟩
  intro x
  have hfilter : x ∈ (validated.filter fun c => c.configHash ∉ w.table.hashes).map
      Record.configHash ↔ x ∈ validated.map Record.configHash ∧ x ∉ w.table.hashes :=
    mem_map_filter_hash
  show x ∈ w.table.hashes ∨ _ ↔ _
  rw [hfilter, hvalidated, hstored, reaches_append]
  tauto

/-- Nothing of the source is left: it is finished without a commit. -/
theorem progress_noneNew {source : Str} {validated : List Record} (hdistinct : Distinct sources)
    (hs : Progress env L table sources (w, ⟨v, .querying source validated rest⟩))
    (hnone : (validated.filter fun c => c.configHash ∉ w.table.hashes) = []) :
    Progress env L table sources (w, .next v rest) := by
  obtain ⟨finished, configs, hsplit, hstored, hseen, hcache⟩ := progress_queried hs
  refine progress_next hdistinct (finished ++ [(source, configs)])
    ⟨by simp [hsplit], ?_, hseen, hcache⟩
  intro x
  have hold := hstored x
  rw [hnone] at hold
  simpa using hold

theorem progress_step (hdistinct : Distinct sources) (hs : Progress env L table sources s)
    (hc : Undisturbed env L s l) (h : soloStep env s l = some t) :
    Progress env L table sources t := by
  obtain ⟨w, j⟩ := s
  obtain ⟨w', j'⟩ := t
  cases Job.step_cases h with
  | scraped => exact absurd hs id
  | aborted => exact absurd hs id
  | @resume v v' source batch _ _ _ _ _ hresume =>
    obtain ⟨finished, configs, seen, hsplit, hstored, hseen, hbatch, htasks⟩ := hs
    refine ⟨finished, configs, seen, hsplit, hstored, hseen,
      batchInv_resume hbatch (hc batch rfl) hresume, ?_⟩
    rw [← htasks]
    exact configs_resume hresume
  | nonePassed hdone hnone =>
    -- No record has passed, so none of them is new.
    exact progress_noneNew hdistinct (progress_gathered hs hdone) (by rw [hnone]; rfl)
  | gathered hdone => exact progress_gathered hs hdone
  | noneNew hnone => exact progress_noneNew hdistinct hs hnone
  | queried => exact progress_queried hs
  | queryRaised => exact absurd hc id
  | committed =>
    obtain ⟨finished, configs, hsplit, hstored, hseen, hcache⟩ := hs
    refine ⟨finished ++ [(_, configs)], by simp [hsplit], ?_, hseen, hcache⟩
    intro x
    rw [← hstored, Table.hashes_insert, List.mem_append]
  | commitRaised => exact absurd hc id
  | lastPut =>
    obtain ⟨finished, hbetween⟩ := hs
    exact progress_next hdistinct finished
      ⟨hbetween.split, hbetween.stored, hbetween.seen, hbetween.cache⟩
  | put =>
    obtain ⟨finished, hbetween⟩ := hs
    exact ⟨finished, hbetween.split, hbetween.stored, hbetween.seen, hbetween.cache⟩

/-! ## A whole execution -/

/-- **What an execution stores**: exactly what the sources reach. -/
theorem mem_hashes_iff {labels : List JobLabel}
    (hrun : run (soloStep env) (⟨table, []⟩, .new) (.scraped sources :: labels) =
      some (w, ⟨v, .done⟩))
    (hm : Meets (soloStep env) (Undisturbed env L) (⟨table, []⟩, .new) (.scraped sources :: labels))
    (h : Str) : h ∈ w.table.hashes ↔ h ∈ table.hashes ∨ Reaches env L sources h := by
  obtain ⟨s, hs, hrun⟩ := Option.bind_eq_some_iff.mp hrun
  have hm := ((meets_cons hs).mp hm).2
  simp only [soloStep, Job.step, Job.new] at hs
  split at hs
  next hdistinct =>
    obtain rfl := Option.some.inj hs
    have hstart : Between env L table sources [] ⟨table, []⟩ .new sources :=
      ⟨rfl, by simp [Reaches], by simp [Validator.new, Reaches],
        by simp [CacheKnown, Validator.new]⟩
    obtain ⟨finished, hend⟩ : Progress env L table sources (w, ⟨v, .done⟩) :=
      visited_of_inv (fun _ _ _ => progress_step hdistinct) (progress_next hdistinct [] hstart) hm _
        (mem_visited_last hrun)
    rw [hend.stored, hend.split, List.append_nil]
  · cases hs

/-- What is stored meanwhile is enqueued, or owed. -/
def Recorded (table : Table) (s : World × Job) : Prop :=
  ∀ h ∈ s.1.table.hashes, h ∈ table.hashes ∨
    h ∈ (s.1.enqueued ++ s.2.owed).map Record.configHash

theorem recorded_step (hs : Recorded table s) (h : soloStep env s l = some t) :
    Recorded table t := by
  obtain ⟨w, j⟩ := s
  obtain ⟨w', j'⟩ := t
  intro x hx
  cases Job.step_effect h with
  | quiet _ howed howed' _ => simpa [howed, howed'] using hs x hx
  | @commit source _ howed howed' _ =>
      rw [Table.hashes_insert, List.mem_append] at hx
      rcases hx with hx | hx
      · have := hs x hx
        simp only [howed, List.append_nil] at this
        exact this.imp_right fun h => by simp only [List.map_append]; exact List.mem_append_left _ h
      · rw [howed', List.map_append]
        exact .inr (List.mem_append_right _ hx)
  | enqueue howed _ => simpa [howed] using hs x hx

/-- **Exactly when every source with something to store progresses**: each of them has a new
hash that is the hash of an acceptable link among the first twenty of some source. -/
theorem progresses_iff_reached (env : Env) (L : Lookups env.floats) (table : Table)
    (sources : Scraped) (labels : List JobLabel) (w : World) (v : Validator)
    (hrun : run (soloStep env) (⟨table, []⟩, .new) (.scraped sources :: labels) =
      some (w, ⟨v, .done⟩))
    (hm : Meets (soloStep env) (Undisturbed env L) (⟨table, []⟩, .new)
      (.scraped sources :: labels)) :
    (∀ s ∈ sources, HasNew env L table s.2 → Progresses table s.2 w) ↔
      ∀ s ∈ sources, HasNew env L table s.2 →
        ∃ c ∈ s.2, configHash c ∉ table.hashes ∧ Reaches env L sources (configHash c) := by
  have hrecorded : Recorded table (w, ⟨v, .done⟩) :=
    last_of_inv (fun _ _ _ => recorded_step) (fun h hh => .inl hh) hrun
  refine forall_congr' fun s => imp_congr_right fun _ => imp_congr_right fun _ =>
    exists_congr fun c => and_congr_right fun _ => and_congr_right fun hnew => ?_
  constructor
  · rintro ⟨hstored, -⟩
    exact ((mem_hashes_iff hrun hm _).mp hstored).resolve_left hnew
  · intro hreached
    have hstored : configHash c ∈ w.table.hashes := (mem_hashes_iff hrun hm _).mpr (.inr hreached)
    refine ⟨hstored, ?_⟩
    have henqueued := (hrecorded _ hstored).resolve_left hnew
    simpa [Job.owed] using henqueued

/-- A service that knows every country. -/
def Lookups.all (F : Json.Floats) : Lookups F := ⟨fun _ => true, fun _ _ _ => rfl⟩

/-- Two sources post the same link. -/
def sharedSources : Scraped := [("a".toList, [sampleLink]), ("b".toList, [sampleLink])]

def sharedLabels : List JobLabel :=
  [.resume 0 .start, .resume 0 (.located (some "DE".toList)), .gathered, .queried, .committed, .put,
    .resume 0 .start, .gathered]

theorem progresses_sharedSources :
    ∃ w v, run (soloStep Env.sample) (⟨[], []⟩, .new) (.scraped sharedSources :: sharedLabels) =
        some (w, ⟨v, .done⟩) ∧
      ((∀ s ∈ sharedSources, HasNew Env.sample (.all _) [] s.2 → Progresses [] s.2 w) ↔
        ∀ s ∈ sharedSources, HasNew Env.sample (.all _) [] s.2 → ∃ c ∈ s.2,
          configHash c ∉ Table.hashes [] ∧
            Reaches Env.sample (.all _) sharedSources (configHash c)) := by
  have hrun : (run (soloStep Env.sample) (⟨[], []⟩, .new)
      (.scraped sharedSources :: sharedLabels)).any (fun s => s.2.isDone) = true := by
    decide +kernel
  obtain ⟨⟨w, v, phase⟩, hs, hdone⟩ := (Option.any_eq_true ..).mp hrun
  obtain rfl := Job.phase_of_isDone hdone
  exact ⟨w, v, hs, progresses_iff_reached Env.sample (.all _) [] sharedSources sharedLabels w v hs
    (by decide +kernel)⟩

/-- Twenty-one links without a host. -/
def longSource : List Str :=
  "abcdefghijklmnopqrstu".toList.map fun c => "ss://".toList ++ [c]

/-- The first twenty of them are stored. -/
def storedTable : Table :=
  (longSource.take scraperPublishLimit).map fun c =>
    Table.rowOf none ⟨c, c, configHash c, "UN".toList, detectProtocol c,
      extractHost Env.sample.floats c⟩

def longLabels : List JobLabel :=
  (List.range scraperPublishLimit).map (.resume · .start) ++ [.gathered, .queried]

/-- The twenty-first is not stored, and the job does not look at it. -/
theorem not_progresses_longSource :
    ∃ w v, run (soloStep Env.sample) (⟨storedTable, []⟩, .new)
          (.scraped [("a".toList, longSource)] :: longLabels) = some (w, ⟨v, .done⟩) ∧
      Meets (soloStep Env.sample) (Undisturbed Env.sample (.all _)) (⟨storedTable, []⟩, .new)
          (.scraped [("a".toList, longSource)] :: longLabels) ∧
      HasNew Env.sample (.all _) storedTable longSource ∧
      ¬Progresses storedTable longSource w := by
  have hrun : (run (soloStep Env.sample) (⟨storedTable, []⟩, .new)
      (.scraped [("a".toList, longSource)] :: longLabels)).any
      (fun s => s.2.isDone && !decide (Progresses storedTable longSource s.1)) = true := by
    decide +kernel
  obtain ⟨⟨w, v, phase⟩, hs, htest⟩ := (Option.any_eq_true ..).mp hrun
  rw [Bool.and_eq_true, Bool.not_eq_true', decide_eq_false_iff_not] at htest
  obtain rfl := Job.phase_of_isDone htest.1
  exact ⟨w, v, hs, by decide +kernel, by decide +kernel, htest.2⟩

end ConfigManager
