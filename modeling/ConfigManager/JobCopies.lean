import ConfigManager.JobHistories

/-! # The copy of the scraper job in `services.bot_service`

`BotService._scraper_job` is a copy of `main.scraper_job` from a time when
`batch_save_configs` returned a number.  It returns a pair now, which the copy compares to
zero: this raises, after the rows are stored and before anything is enqueued, and the loop
over the sources catches it, as it catches a save that raises.

Both are given here as what one execution does to the table and the queue.  For
`main.scraper_job` this is what its steps do (`exists_outcomes_of_run`).  The two agree
exactly if there is nothing to store, or what there is cannot be (`copies_agree_iff`).
-/
namespace ConfigManager

open Py Runs

/-- What an execution has: its validator, the table, and what was put on the queue. -/
structure JobState (V : Type*) where
  validator : V
  table : Table
  queue : List PublishItem

/-- What `batch_save_configs` may return. -/
inductive PyValue where
  | int (n : Nat)
  | pair (n : Nat) (items : List Record)

/-- `value > 0`, `none` where it raises. -/
def PyValue.positive : PyValue → Option Bool
  | .int n => some (0 < n)
  | .pair _ _ => none

/-- `items[:value]`, `none` where it raises. -/
def PyValue.sliceTo (items : List Record) : PyValue → Option (List Record)
  | .int n => some (items.take n)
  | .pair _ _ => none

namespace JobState

variable {V : Type*} (driver : Driver) (validateBatch : V → List Str → V × List Record)

/-- `queue.put`, of every one of these. -/
def enqueue (s : JobState V) (items : List Record) : JobState V :=
  { s with queue := s.queue ++ items.map publishItem }

/-- The body of the loop of `main.scraper_job`; what the save raises is caught. -/
def mainProcess (s : JobState V) (src : Str × List Str) : JobState V :=
  if src.2 = [] then s
  else
    let (validator, validated) := validateBatch s.validator (src.2.take scraperPublishLimit)
    if validated = [] then { s with validator }
    else match s.table.batchSaveConfigs driver validated (some src.1) with
      | none => { s with validator }
      | some (table, newCount, newConfigs) =>
          if 0 < newCount then enqueue { s with validator, table } newConfigs
          else { s with validator, table }

/-- The body of the loop of `BotService._scraper_job`. -/
def botServiceProcess (s : JobState V) (src : Str × List Str) : JobState V :=
  if src.2 = [] then s
  else
    let (validator, validated) := validateBatch s.validator (src.2.take scraperPublishLimit)
    if validated = [] then { s with validator }
    else match s.table.batchSaveConfigs driver validated (some src.1) with
      | none => { s with validator }
      | some (table, count, newConfigs) =>
          let newCount := PyValue.pair count newConfigs
          match newCount.positive with
          | some true =>
              match newCount.sliceTo validated with
              | some items => enqueue { s with validator, table } items
              | none => { s with validator, table }
          | _ => { s with validator, table }

/-- `main.scraper_job`: the scraper may be disabled, and `scrape_all` may raise. -/
def mainScraperJob (scraperEnabled : Bool) (allSources : Option Scraped) (s : JobState V) :
    JobState V :=
  match scraperEnabled, allSources with
  | true, some sources => sources.foldl (mainProcess driver validateBatch) s
  | _, _ => s

/-- `BotService._scraper_job`. -/
def botServiceScraperJob (scraperEnabled : Bool) (allSources : Option Scraped) (s : JobState V) :
    JobState V :=
  match scraperEnabled, allSources with
  | true, some sources => sources.foldl (botServiceProcess driver validateBatch) s
  | _, _ => s

/-- The batches validated for the sources, one after the other. -/
def validations (v : V) : Scraped → List (Str × List Record)
  | [] => []
  | src :: sources =>
      if src.2 = [] then validations v sources
      else
        let (validator, validated) := validateBatch v (src.2.take scraperPublishLimit)
        (src.1, validated) :: validations validator sources

/-- What a save of this batch stores. -/
def stored (table : Table) (batch : Str × List Record) : List Record :=
  let new := batch.2.filter fun c => c.configHash ∉ table.hashes
  if ∀ c ∈ new, driver.binds (Table.rowOf (some batch.1) c) then new else []

/-- A batch is of no use to a table: all of it is stored there, or the driver cannot bind
one of the records that are not. -/
def Fruitless (table : Table) (batch : Str × List Record) : Prop :=
  (∀ c ∈ batch.2, c.configHash ∈ table.hashes) ∨
    ∃ c ∈ batch.2, c.configHash ∉ table.hashes ∧
      driver.binds (Table.rowOf (some batch.1) c) = false

variable {driver validateBatch} {s : JobState V} {src : Str × List Str} {source : Str}
  {validated : List Record}

/-! ## One source -/

theorem stored_eq_nil_iff {table : Table} {batch : Str × List Record} :
    stored driver table batch = [] ↔ Fruitless driver table batch := by
  rw [stored]
  split
  next hbinds =>
    have hall : ¬∃ c ∈ batch.2, c.configHash ∉ table.hashes ∧
        driver.binds (Table.rowOf (some batch.1) c) = false := by
      rintro ⟨c, hc, hnew, hunbound⟩
      have hbound := hbinds c (List.mem_filter.mpr ⟨hc, by simpa using hnew⟩)
      rw [hunbound] at hbound
      cases hbound
    rw [Fruitless, or_iff_left hall, List.filter_eq_nil_iff]
    simp
  next hunbound =>
    simp only [List.mem_filter, decide_eq_true_eq, not_forall, Bool.not_eq_true] at hunbound
    obtain ⟨c, ⟨hc, hnew⟩, hbinds⟩ := hunbound
    exact iff_of_true rfl (.inr ⟨c, hc, hnew, hbinds⟩)

/-- What the two bodies do: the same to the validator and the table, and only one of them
enqueues what is stored. -/
theorem process_eq (driver : Driver) (s : JobState V) (src : Str × List Str) (validator : V)
    (validated : List Record) (hsrc : src.2 ≠ [])
    (h : validateBatch s.validator (src.2.take scraperPublishLimit) = (validator, validated)) :
    mainProcess driver validateBatch s src = enqueue
        ⟨validator, s.table.insert (some src.1) (stored driver s.table (src.1, validated)),
          s.queue⟩
        (stored driver s.table (src.1, validated)) ∧
      botServiceProcess driver validateBatch s src =
        ⟨validator, s.table.insert (some src.1) (stored driver s.table (src.1, validated)),
          s.queue⟩ := by
  simp only [mainProcess, botServiceProcess, if_neg hsrc, h, Table.batchSaveConfigs_eq,
    Table.commit, stored]
  by_cases hvalidated : validated = []
  · subst hvalidated
    simp [enqueue]
  rw [if_neg hvalidated, if_neg hvalidated]
  generalize (validated.filter fun c => c.configHash ∉ s.table.hashes) = new
  by_cases hbinds : ∀ c ∈ new, driver.binds (Table.rowOf (some src.1) c) = true
  · simp only [if_pos hbinds, Option.map_some]
    refine ⟨?_, rfl⟩
    split
    · rfl
    next hnone =>
      have hempty : new = [] := List.length_eq_zero_iff.mp (Nat.eq_zero_of_not_pos hnone)
      rw [hempty]
      simp [enqueue]
  · simp only [if_neg hbinds, Option.map_none]
    simp [enqueue]

/-! ## All sources -/

/-- No batch that is validated is of use to the table. -/
def NothingStored (driver : Driver) (validateBatch : V → List Str → V × List Record)
    (s : JobState V) (sources : Scraped) : Prop :=
  ∀ batch ∈ validations validateBatch s.validator sources, Fruitless driver s.table batch

theorem nothingStored_cons {sources : Scraped} {validator : V} (hsrc : src.2 ≠ [])
    (h : validateBatch s.validator (src.2.take scraperPublishLimit) = (validator, validated)) :
    NothingStored driver validateBatch s (src :: sources) ↔
      stored driver s.table (src.1, validated) = [] ∧
        ∀ batch ∈ validations validateBatch validator sources, Fruitless driver s.table batch := by
  simp [NothingStored, validations, hsrc, h, stored_eq_nil_iff]

variable (driver validateBatch) in
/-- **The two loops**, from states that differ in their queues: the same table, and a queue
that one extends by what is stored, and the other leaves alone. -/
theorem foldl_process (sources : Scraped) (s t : JobState V) (hv : t.validator = s.validator)
    (ht : t.table = s.table) :
    (sources.foldl (botServiceProcess driver validateBatch) t).table =
        (sources.foldl (mainProcess driver validateBatch) s).table ∧
      (sources.foldl (botServiceProcess driver validateBatch) t).queue = t.queue ∧
      ∃ items, (sources.foldl (mainProcess driver validateBatch) s).queue = s.queue ++ items ∧
        (items = [] ↔ NothingStored driver validateBatch s sources) := by
  induction sources generalizing s t with
  | nil => exact ⟨ht, rfl, [], by simp, by simp [NothingStored, validations]⟩
  | cons src sources ih =>
      rw [List.foldl_cons, List.foldl_cons]
      by_cases hsrc : src.2 = []
      · have hmain : mainProcess driver validateBatch s src = s := if_pos hsrc
        have hbot : botServiceProcess driver validateBatch t src = t := if_pos hsrc
        rw [hmain, hbot]
        simpa only [NothingStored, validations, if_pos hsrc] using ih s t hv ht
      · obtain ⟨⟨validator, validated⟩, hval⟩ : ∃ result,
            validateBatch s.validator (src.2.take scraperPublishLimit) = result := ⟨_, rfl⟩
        obtain ⟨hmain, -⟩ := process_eq driver s src validator validated hsrc hval
        obtain ⟨-, hbot⟩ := process_eq driver t src validator validated hsrc (hv ▸ hval)
        rw [hmain, hbot, nothingStored_cons hsrc hval, ht]
        generalize stored driver s.table (src.1, validated) = new
        obtain ⟨htable, hqueue, items, hitems, hiff⟩ := ih
          (enqueue ⟨validator, s.table.insert (some src.1) new, s.queue⟩ new)
          ⟨validator, s.table.insert (some src.1) new, t.queue⟩ rfl rfl
        refine ⟨htable, hqueue, new.map publishItem ++ items, ?_, ?_⟩
        · rw [hitems, enqueue, List.append_assoc]
        · rw [List.append_eq_nil_iff, List.map_eq_nil_iff]
          by_cases hnone : new = []
          · -- Nothing of this source is stored, so the table is still the same one.
            subst hnone
            simpa [NothingStored, enqueue] using hiff
          · simp [hnone]

/-- **Exactly when the copies agree**: the scraper is disabled or scraping raises, or of every
batch that is validated either all is stored already, or a new record cannot be. -/
theorem copies_agree_iff (driver : Driver) (validateBatch : V → List Str → V × List Record)
    (scraperEnabled : Bool) (allSources : Option Scraped) (s : JobState V) :
    ((botServiceScraperJob driver validateBatch scraperEnabled allSources s).table =
        (mainScraperJob driver validateBatch scraperEnabled allSources s).table ∧
      (botServiceScraperJob driver validateBatch scraperEnabled allSources s).queue =
        (mainScraperJob driver validateBatch scraperEnabled allSources s).queue) ↔
      (scraperEnabled = true →
        ∀ sources ∈ allSources, NothingStored driver validateBatch s sources) := by
  cases scraperEnabled with
  | false => simp [botServiceScraperJob, mainScraperJob]
  | true =>
      cases allSources with
      | none => simp [botServiceScraperJob, mainScraperJob]
      | some sources =>
          obtain ⟨htable, hqueue, items, hitems, hiff⟩ :=
            foldl_process driver validateBatch sources s s rfl rfl
          simp only [botServiceScraperJob, mainScraperJob, htable, hqueue, hitems, true_and]
          simp [← hiff]

/-! ## What the steps of `main.scraper_job` do -/

/-- A validator that answers what it is told to. -/
def nextOutcome : List (List Record) → List Str → List (List Record) × List Record
  | [], _ => ([], [])
  | validated :: outcomes, _ => (outcomes, validated)

/-- With some outcomes of their validation, these sources lead to this table and queue. -/
def LeadsTo (driver : Driver) (old : Table) (sources : Scraped) (table : Table)
    (queue : List PublishItem) : Prop :=
  ∃ outcomes, ∀ more,
    sources.foldl (mainProcess driver nextOutcome) ⟨outcomes ++ more, old, []⟩ =
      ⟨more, table, queue⟩

variable {env : Env} {old table : Table} {queue : List PublishItem}
  {sources finished rest : Scraped} {configs : List Str} {w : World}
  {v : Validator} {a b : World × Job} {l : JobLabel}

theorem LeadsTo.skip (h : LeadsTo driver old finished table queue) (source : Str) :
    LeadsTo driver old (finished ++ [(source, [])]) table queue := by
  obtain ⟨outcomes, h⟩ := h
  refine ⟨outcomes, fun more => ?_⟩
  rw [List.foldl_append, h]
  rfl

theorem LeadsTo.saved (h : LeadsTo driver old finished table queue) (source : Str)
    (hconfigs : configs ≠ []) (validated : List Record) :
    LeadsTo driver old (finished ++ [(source, configs)])
      (table.insert (some source) (stored driver table (source, validated)))
      (queue ++ (stored driver table (source, validated)).map publishItem) := by
  obtain ⟨outcomes, h⟩ := h
  refine ⟨outcomes ++ [validated], fun more => ?_⟩
  rw [List.foldl_append, List.append_assoc, h]
  have hnext : nextOutcome (validated :: more) (configs.take scraperPublishLimit) =
      (more, validated) := rfl
  exact (process_eq driver ⟨validated :: more, table, queue⟩ (source, configs) more validated
    hconfigs hnext).1

/-- Nothing of a source is stored. -/
theorem LeadsTo.nothing (h : LeadsTo driver old finished table queue)
    (validated : List Record) (hconfigs : configs ≠ [])
    (hnone : Fruitless driver table (source, validated)) :
    LeadsTo driver old (finished ++ [(source, configs)]) table queue := by
  have hsaved := h.saved source hconfigs validated
  rw [stored_eq_nil_iff.mpr hnone] at hsaved
  simpa using hsaved

/-- The invariant of an execution over these sources. -/
def Follows (driver : Driver) (old : Table) (sources : Scraped) (s : World × Job) : Prop :=
  match s.2.phase with
  | .scraping => False
  | .validating source _ rest | .querying source _ rest => ∃ finished configs,
      sources = finished ++ (source, configs) :: rest ∧ configs ≠ [] ∧
      LeadsTo driver old finished s.1.table s.1.queue
  | .committing source new rest => ∃ finished configs, ∃ validated : List Record,
      sources = finished ++ (source, configs) :: rest ∧ configs ≠ [] ∧
      new = (validated.filter fun c : Record => c.configHash ∉ s.1.table.hashes) ∧
      LeadsTo driver old finished s.1.table s.1.queue
  | .putting items rest => ∃ finished, sources = finished ++ rest ∧
      LeadsTo driver old finished s.1.table (s.1.queue ++ items.map publishItem)
  | .done => LeadsTo driver old sources s.1.table s.1.queue

/-- The query returns, and the commit raises exactly if it has a record that the driver cannot
bind. -/
def Committed (driver : Driver) (s : World × Job) (l : JobLabel) : Prop :=
  match s.2.phase, l with
  | .querying _ _ _, .raised => False
  | .committing source new _, .raised =>
      ∃ c ∈ new, driver.binds (Table.rowOf (some source) c) = false
  | .committing source new _, .committed =>
      ∀ c ∈ new, driver.binds (Table.rowOf (some source) c) = true
  | _, _ => True

theorem follows_next (finished : Scraped) (hsplit : sources = finished ++ rest)
    (h : LeadsTo driver old finished w.table w.queue) :
    Follows driver old sources (w, .next v rest) := by
  induction rest generalizing finished with
  | nil =>
      rw [List.append_nil] at hsplit
      subst hsplit
      exact h
  | cons src rest ih =>
      obtain ⟨source, configs⟩ := src
      rw [Job.next]
      split
      next hempty =>
        subst hempty
        exact ih (finished ++ [(source, [])]) (by simp [hsplit]) (h.skip source)
      next hconfigs => exact ⟨finished, configs, hsplit, hconfigs, h⟩

theorem follows_step (hs : Follows driver old sources a) (hc : Committed driver a l)
    (h : soloStep env a l = some b) : Follows driver old sources b := by
  obtain ⟨w, j⟩ := a
  obtain ⟨w', j'⟩ := b
  cases Job.step_cases h with
  | scraped => exact absurd hs id
  | aborted => exact absurd hs id
  | resume => exact hs
  | @nonePassed _ source =>
    obtain ⟨finished, configs, hsplit, hconfigs, hleads⟩ := hs
    exact follows_next (finished ++ [(source, configs)]) (by simp [hsplit])
      (hleads.nothing [] hconfigs (.inl (List.forall_mem_nil _)))
  | gathered => exact hs
  | @noneNew _ source validated _ hnone =>
    obtain ⟨finished, configs, hsplit, hconfigs, hleads⟩ := hs
    refine follows_next (finished ++ [(source, configs)]) (by simp [hsplit])
      (hleads.nothing validated hconfigs (.inl fun c hc => ?_))
    simpa using List.filter_eq_nil_iff.mp hnone c hc
  | @queried _ _ validated =>
    obtain ⟨finished, configs, hsplit, hconfigs, hleads⟩ := hs
    exact ⟨finished, configs, validated, hsplit, hconfigs, rfl, hleads⟩
  | queryRaised => exact absurd hc id
  | @committed _ source new =>
    obtain ⟨finished, configs, validated, hsplit, hconfigs, hnew, hleads⟩ := hs
    obtain rfl : new = validated.filter fun c => c.configHash ∉ w.table.hashes := hnew
    have hstored : stored driver w.table (source, validated) =
        validated.filter fun c => c.configHash ∉ w.table.hashes := if_pos hc
    have hsaved := hleads.saved source hconfigs validated
    rw [hstored] at hsaved
    exact ⟨finished ++ [(source, configs)], by simp [hsplit], hsaved⟩
  | @commitRaised _ source new =>
    obtain ⟨finished, configs, validated, hsplit, hconfigs, hnew, hleads⟩ := hs
    obtain rfl : new = validated.filter fun c => c.configHash ∉ w.table.hashes := hnew
    obtain ⟨c, hmem, hunbound⟩ := hc
    obtain ⟨hvalidated, hfresh⟩ := List.mem_filter.mp hmem
    exact follows_next (finished ++ [(source, configs)]) (by simp [hsplit])
      (hleads.nothing _ hconfigs (.inr ⟨c, hvalidated, by simpa using hfresh, hunbound⟩))
  | @lastPut _ item =>
    obtain ⟨finished, hsplit, hleads⟩ := hs
    have hqueue : w.queue ++ [item].map publishItem =
        World.queue { w with enqueued := w.enqueued ++ [item] } := by
      simp [World.queue]
    rw [hqueue] at hleads
    exact follows_next finished hsplit hleads
  | @put _ item items =>
    obtain ⟨finished, hsplit, hleads⟩ := hs
    have hqueue : w.queue ++ (item :: items).map publishItem =
        World.queue { w with enqueued := w.enqueued ++ [item] } ++ items.map publishItem := by
      simp [World.queue]
    rw [hqueue] at hleads
    exact ⟨finished, hsplit, hleads⟩

/-- **The steps of an execution** over a table of this driver do what `mainScraperJob` does, for
what they have validated. -/
theorem exists_outcomes_of_run {labels : List JobLabel}
    (hrun : run (soloStep env) (⟨old, []⟩, .new) (.scraped sources :: labels) =
      some (w, ⟨v, .done⟩))
    (hm : Meets (soloStep env) (Committed driver) (⟨old, []⟩, .new) (.scraped sources :: labels)) :
    ∃ outcomes,
      (mainScraperJob driver nextOutcome true (some sources) ⟨outcomes, old, []⟩).table =
        w.table ∧
      (mainScraperJob driver nextOutcome true (some sources) ⟨outcomes, old, []⟩).queue =
        w.queue := by
  obtain ⟨s, hs, hrun⟩ := Option.bind_eq_some_iff.mp hrun
  have hm := ((meets_cons hs).mp hm).2
  simp only [soloStep, Job.step, Job.new] at hs
  split at hs
  · obtain rfl := Option.some.inj hs
    have hstart : LeadsTo driver old [] old [] := ⟨[], fun more => rfl⟩
    obtain ⟨outcomes, hend⟩ : Follows driver old sources (w, ⟨v, .done⟩) :=
      visited_of_inv (fun _ _ _ => follows_step) (follows_next [] rfl hstart) hm _
        (mem_visited_last hrun)
    have hend := hend []
    rw [List.append_nil] at hend
    exact ⟨outcomes, congrArg JobState.table hend, congrArg JobState.queue hend⟩
  · cases hs

/-- A validation that accepts every link, and finds no country. -/
def markAll (v : Unit) (configs : List Str) : Unit × List Record :=
  (v, configs.filterMap fun config => recordOf Env.sample config (some "UN".toList))

/-- What the two make of one source, from an empty table. -/
def bothJobs (configs : List Str) : JobState Unit × JobState Unit :=
  (botServiceScraperJob Driver.sample markAll true (some [("a".toList, configs)]) ⟨(), [], []⟩,
    mainScraperJob Driver.sample markAll true (some [("a".toList, configs)]) ⟨(), [], []⟩)

/-- One new link: both store it, and only `main.scraper_job` enqueues it. -/
theorem not_agree_newLink :
    (bothJobs [sampleLink]).1.table = (bothJobs [sampleLink]).2.table ∧
      (bothJobs [sampleLink]).1.queue ≠ (bothJobs [sampleLink]).2.queue := by
  decide +kernel

/-- With a link whose host is a list neither stores anything. -/
example : (bothJobs [sampleLink, "vmess://eyJhZGQiOltdLCJwb3J0IjoxfQ==".toList]).1.table = [] ∧
    (bothJobs [sampleLink, "vmess://eyJhZGQiOltdLCJwb3J0IjoxfQ==".toList]).2.queue = [] := by
  decide +kernel

end JobState
end ConfigManager
