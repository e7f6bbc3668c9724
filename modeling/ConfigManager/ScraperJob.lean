import ConfigManager.Validator
import ConfigManager.ScrapeAll

/-! # The scraper job (`main.scraper_job`)

One execution of the job scrapes all sources, and then validates, stores and
enqueues source by source.  It awaits the scraper, the coroutines of
`validate_batch`, the existence query of `batch_save_configs`, its commit, and
each `queue.put`; between two awaits it runs without interruption, so its state is
the await it stands at (`Phase`).

`Effect` says what a step can do to the table and the queue, and every invariant
of a job's runs is derived from it.  What is still to be stored is `staged`, what
is stored and still to be enqueued is `owed`.
-/
namespace ConfigManager

open Py

/-- `PublishItem`. -/
structure PublishItem where
  config : Str
  countryCode : Str
  deriving DecidableEq

/-- The item a stored record is published as. -/
def publishItem (item : Record) : PublishItem := ⟨item.watermarkedConfig, item.countryCode⟩

/-- What the jobs share. -/
structure World where
  table : Table
  /-- The records whose items were ever put on the publish queue, in order. -/
  enqueued : List Record
  deriving DecidableEq

/-- The items ever put on the publish queue. -/
def World.queue (w : World) : List PublishItem := w.enqueued.map publishItem

/-- Every source's configs have distinct hashes, as the scrapers return them. -/
def Distinct (sources : Scraped) : Prop := ∀ s ∈ sources, (s.2.map configHash).Nodup

instance (sources : Scraped) : Decidable (Distinct sources) :=
  inferInstanceAs (Decidable (∀ s ∈ sources, _))

theorem distinct_assign {results : Scraped} {name : Str} {configs : List Str}
    (hr : Distinct results) (hc : (configs.map configHash).Nodup) :
    Distinct (assign results name configs) := by
  intro s hs
  unfold assign at hs
  split at hs
  · obtain ⟨r, hmem, rfl⟩ := List.mem_map.mp hs
    split
    · exact hc
    · exact hr r hmem
  · rcases List.mem_append.mp hs with hs | hs
    · exact hr s hs
    · rw [List.mem_singleton.mp hs]
      exact hc

/-- If every source's configs have distinct hashes, so have those of `scrape_all`. -/
theorem distinct_scrapeAll {web : Web} (table : SourceTable) (readable : Bool)
    (h : ∀ kind url, (((web.scrape kind url).getD []).map configHash).Nodup) :
    Distinct (scrapeAll web table readable).results := by
  rw [results_scrapeAll]
  exact List.foldlRecOn (motive := Distinct) (scrapedSources table readable) (putSource web)
    (by simp [Distinct]) fun _ hr source _ => distinct_assign hr (h source.sourceType source.url)

/-- The await a job stands at. -/
inductive Phase where
  /-- `scrape_all`. -/
  | scraping
  /-- `validate_batch`. -/
  | validating (source : Str) (batch : Batch) (rest : Scraped)
  /-- The query of `batch_exists_hashes`. -/
  | querying (source : Str) (validated : List Record) (rest : Scraped)
  /-- The commit of `batch_save_configs`. -/
  | committing (source : Str) (new : List Record) (rest : Scraped)
  /-- `queue.put`, of the first of these records. -/
  | putting (items : List Record) (rest : Scraped)
  | done

/-- An execution of `scraper_job`, with its own validator. -/
structure Job where
  validator : Validator
  phase : Phase

/-- What can happen to a job next. -/
inductive JobLabel where
  /-- `scrape_all` returns. -/
  | scraped (sources : Scraped)
  /-- The scraper is disabled, or `scrape_all` raises. -/
  | aborted
  /-- A coroutine of `validate_batch` is woken up. -/
  | resume (i : Nat) (w : Wake)
  /-- `validate_batch` returns. -/
  | gathered
  | queried
  | committed
  /-- The query or the commit raises. -/
  | raised
  | put

namespace Job

/-- `scraper_job`, just called. -/
def new : Job := ⟨.new, .scraping⟩

/-- The rest of the loop over the sources, up to its next await. -/
def next (v : Validator) : Scraped → Job
  | [] => ⟨v, .done⟩
  | (source, configs) :: rest =>
      if configs = [] then next v rest
      else ⟨v, .validating source (.new (configs.take scraperPublishLimit) false 10) rest⟩

/-- A step of a job. -/
def step (env : Env) (w : World) (j : Job) (l : JobLabel) : Option (World × Job) :=
  match j.phase, l with
  | .scraping, .scraped sources =>
      if Distinct sources then some (w, next j.validator sources) else none
  | .scraping, .aborted => some (w, ⟨j.validator, .done⟩)
  | .validating source batch rest, .resume i wake =>
      (batch.resume env j.validator i wake).map fun (v', batch', _) =>
        (w, ⟨v', .validating source batch' rest⟩)
  | .validating source batch rest, .gathered =>
      if batch.done then
        if batch.results = [] then some (w, next j.validator rest)
        else some (w, ⟨j.validator, .querying source batch.results rest⟩)
      else none
  | .querying source validated rest, .queried =>
      let existing := w.table.batchExistsHashes (validated.map Record.configHash)
      let new := Table.newConfigs existing validated
      if new = [] then some (w, next j.validator rest)
      else some (w, ⟨j.validator, .committing source new rest⟩)
  | .querying _ _ rest, .raised => some (w, next j.validator rest)
  | .committing source new rest, .committed =>
      some ({ w with table := w.table.insert (some source) new },
        ⟨j.validator, .putting new rest⟩)
  | .committing _ _ rest, .raised => some (w, next j.validator rest)
  | .putting (item :: items) rest, .put =>
      some ({ w with enqueued := w.enqueued ++ [item] },
        if items = [] then next j.validator rest else ⟨j.validator, .putting items rest⟩)
  | _, _ => none

/-- The records waiting for their commit. -/
def staged (j : Job) : List Record :=
  match j.phase with
  | .committing _ new _ => new
  | _ => []

/-- The records stored and not enqueued yet. -/
def owed (j : Job) : List Record :=
  match j.phase with
  | .putting items _ => items
  | _ => []

/-- The job has returned. -/
def isDone (j : Job) : Bool :=
  match j.phase with
  | .done => true
  | _ => false

theorem phase_of_isDone {v : Validator} {phase : Phase} (h : isDone ⟨v, phase⟩ = true) :
    phase = .done := by
  cases phase with
  | done => rfl
  | _ => cases h

@[simp] theorem staged_new : new.staged = [] := rfl
@[simp] theorem owed_new : new.owed = [] := rfl

/-- A job between two sources, or at the end, has nothing staged and nothing owed. -/
@[simp] theorem staged_next (v : Validator) (rest : Scraped) : (next v rest).staged = [] := by
  induction rest with
  | nil => rfl
  | cons s rest ih =>
    rw [next]
    split
    · exact ih
    · rfl

@[simp] theorem owed_next (v : Validator) (rest : Scraped) : (next v rest).owed = [] := by
  induction rest with
  | nil => rfl
  | cons s rest ih =>
    rw [next]
    split
    · exact ih
    · rfl

/-! ## What a step can do -/

variable {env : Env} {w w' : World} {j j' : Job} {l : JobLabel}

/-- The ways a job moves from one await to the next. -/
inductive Moves (env : Env) (w : World) : Job → JobLabel → World → Job → Prop
  | scraped {v : Validator} {sources : Scraped} (distinct : Distinct sources) :
      Moves env w ⟨v, .scraping⟩ (.scraped sources) w (next v sources)
  | aborted {v : Validator} : Moves env w ⟨v, .scraping⟩ .aborted w ⟨v, .done⟩
  | resume {v v' : Validator} {source : Str} {batch batch' : Batch} {rest : Scraped} {i : Nat}
      {wake : Wake} {stage : Stage}
      (resumed : batch.resume env v i wake = some (v', batch', stage)) :
      Moves env w ⟨v, .validating source batch rest⟩ (.resume i wake) w
        ⟨v', .validating source batch' rest⟩
  | nonePassed {v : Validator} {source : Str} {batch : Batch} {rest : Scraped}
      (finished : batch.done = true) (none : batch.results = []) :
      Moves env w ⟨v, .validating source batch rest⟩ .gathered w (next v rest)
  | gathered {v : Validator} {source : Str} {batch : Batch} {rest : Scraped}
      (finished : batch.done = true) :
      Moves env w ⟨v, .validating source batch rest⟩ .gathered w
        ⟨v, .querying source batch.results rest⟩
  | noneNew {v : Validator} {source : Str} {validated : List Record} {rest : Scraped}
      (none : (validated.filter fun c => c.configHash ∉ w.table.hashes) = []) :
      Moves env w ⟨v, .querying source validated rest⟩ .queried w (next v rest)
  | queried {v : Validator} {source : Str} {validated : List Record} {rest : Scraped} :
      Moves env w ⟨v, .querying source validated rest⟩ .queried w
        ⟨v, .committing source (validated.filter fun c => c.configHash ∉ w.table.hashes) rest⟩
  | queryRaised {v : Validator} {source : Str} {validated : List Record} {rest : Scraped} :
      Moves env w ⟨v, .querying source validated rest⟩ .raised w (next v rest)
  | committed {v : Validator} {source : Str} {new : List Record} {rest : Scraped} :
      Moves env w ⟨v, .committing source new rest⟩ .committed
        { w with table := w.table.insert (some source) new } ⟨v, .putting new rest⟩
  | commitRaised {v : Validator} {source : Str} {new : List Record} {rest : Scraped} :
      Moves env w ⟨v, .committing source new rest⟩ .raised w (next v rest)
  | lastPut {v : Validator} {item : Record} {rest : Scraped} :
      Moves env w ⟨v, .putting [item] rest⟩ .put
        { w with enqueued := w.enqueued ++ [item] } (next v rest)
  | put {v : Validator} {item : Record} {items : List Record} {rest : Scraped} :
      Moves env w ⟨v, .putting (item :: items) rest⟩ .put
        { w with enqueued := w.enqueued ++ [item] } ⟨v, .putting items rest⟩

/-- **What a step can do**, once for every invariant of a job. -/
theorem step_cases (h : step env w j l = some (w', j')) : Moves env w j l w' j' := by
  obtain ⟨v, phase⟩ := j
  cases phase with
  | scraping =>
    cases l with
    | scraped sources =>
      simp only [step] at h
      split_ifs at h with hdistinct
      cases h
      exact .scraped hdistinct
    | aborted => cases h; exact .aborted
    | _ => cases h
  | validating source batch rest =>
    cases l with
    | resume i wake =>
      obtain ⟨⟨v', batch', stage⟩, hresume, he⟩ := Option.map_eq_some_iff.mp h
      cases he
      exact .resume hresume
    | gathered =>
      simp only [step] at h
      split_ifs at h with hdone hnone
      · cases h; exact .nonePassed hdone hnone
      · cases h; exact .gathered hdone
    | _ => cases h
  | querying source validated rest =>
    cases l with
    | queried =>
      simp only [step, Table.newConfigs_batchExistsHashes] at h
      split_ifs at h with hnone
      · cases h; exact .noneNew hnone
      · cases h; exact .queried
    | raised => cases h; exact .queryRaised
    | _ => cases h
  | committing source new rest =>
    cases l with
    | committed => cases h; exact .committed
    | raised => cases h; exact .commitRaised
    | _ => cases h
  | putting items rest =>
    cases items with
    | nil => cases l <;> cases h
    | cons item items =>
      cases l with
      | put =>
        simp only [step] at h
        cases h
        split_ifs with hlast
        · subst hlast
          exact .lastPut
        · exact .put
      | _ => cases h
  | done => cases l <;> cases h

/-! ## What a step does to the table and the queue -/

/-- A step leaves both alone, and may stage records that are not in the table now;
or it commits what is staged; or it enqueues the first record owed. -/
inductive Effect (w : World) (j : Job) : JobLabel → World → Job → Prop
  | quiet {l : JobLabel} {j' : Job} (hl : l ≠ .committed)
      (owed : j.owed = []) (owed' : j'.owed = [])
      (staged : ∀ c ∈ j'.staged, c.configHash ∉ w.table.hashes) : Effect w j l w j'
  | commit {source : Str} {j' : Job} (owed : j.owed = []) (owed' : j'.owed = j.staged)
      (staged : j'.staged = []) :
      Effect w j .committed { w with table := w.table.insert (some source) j.staged } j'
  | enqueue {item : Record} {j' : Job} (owed : j.owed = item :: j'.owed) (staged : j'.staged = []) :
      Effect w j .put { w with enqueued := w.enqueued ++ [item] } j'

theorem effect_next {l : JobLabel} {v : Validator} {rest : Scraped} (hl : l ≠ .committed)
    (h : j.owed = []) : Effect w j l w (next v rest) :=
  .quiet hl h (owed_next ..) (by simp)

/-- **What a step does to the table and the queue.** -/
theorem step_effect (h : step env w j l = some (w', j')) : Effect w j l w' j' := by
  cases step_cases h with
  | scraped => exact effect_next (by simp) rfl
  | aborted => exact .quiet (by simp) rfl rfl (by simp [staged])
  | resume => exact .quiet (by simp) rfl rfl (by simp [staged])
  | nonePassed => exact effect_next (by simp) rfl
  | gathered => exact .quiet (by simp) rfl rfl (by simp [staged])
  | noneNew => exact effect_next (by simp) rfl
  | queried =>
    refine .quiet (by simp) rfl rfl fun c hc => ?_
    simpa using (List.mem_filter.mp hc).2
  | queryRaised => exact effect_next (by simp) rfl
  | committed => exact .commit rfl rfl rfl
  | commitRaised => exact effect_next (by simp) rfl
  | lastPut => exact .enqueue (by rw [owed_next]; rfl) (staged_next ..)
  | put => exact .enqueue rfl rfl

/-! ## What a job stages has distinct hashes -/

/-- The configs in flight and to come have distinct hashes. -/
def Valid (env : Env) (j : Job) : Prop :=
  match j.phase with
  | .scraping | .done => True
  | .validating _ batch rest =>
      (∃ configs, Batch.Over env configs batch ∧ (configs.map configHash).Nodup) ∧ Distinct rest
  | .querying _ validated rest => (validated.map Record.configHash).Nodup ∧ Distinct rest
  | .committing _ new rest => (new.map Record.configHash).Nodup ∧ Distinct rest
  | .putting _ rest => Distinct rest

theorem valid_new : Valid env new := trivial

theorem valid_next {v : Validator} {rest : Scraped} (h : Distinct rest) :
    Valid env (next v rest) := by
  induction rest with
  | nil => trivial
  | cons s rest ih =>
    have hrest : Distinct rest := fun t ht => h t (List.mem_cons_of_mem _ ht)
    rw [next]
    split
    · exact ih hrest
    · refine ⟨⟨_, Batch.over_new .., ?_⟩, hrest⟩
      rw [List.map_take]
      exact (h s (List.mem_cons_self ..)).sublist (List.take_sublist ..)

theorem valid_step (hj : Valid env j) (h : step env w j l = some (w', j')) : Valid env j' := by
  cases step_cases h with
  | scraped hdistinct => exact valid_next hdistinct
  | aborted => trivial
  | resume hresume =>
    obtain ⟨⟨configs, hover, hnodup⟩, hrest⟩ := hj
    exact ⟨⟨configs, Batch.over_resume hover hresume, hnodup⟩, hrest⟩
  | nonePassed => exact valid_next hj.2
  | gathered =>
    obtain ⟨⟨configs, hover, hnodup⟩, hrest⟩ := hj
    exact ⟨hnodup.sublist (Batch.results_sublist hover), hrest⟩
  | noneNew => exact valid_next hj.2
  | queried => exact ⟨hj.1.sublist (List.Sublist.map _ List.filter_sublist), hj.2⟩
  | queryRaised => exact valid_next hj.2
  | committed => exact hj.2
  | commitRaised => exact valid_next hj.2
  | lastPut => exact valid_next hj
  | put => exact hj

theorem staged_nodup (h : Valid env j) : (j.staged.map Record.configHash).Nodup := by
  obtain ⟨v, phase⟩ := j
  cases phase with
  | committing source new rest => exact h.1
  | _ => exact List.nodup_nil

/-- The query and the commit of a job, on the same table, are `batch_save_configs` where the
driver can bind what is new. -/
theorem commit_eq_batchSaveConfigs {driver : Driver} {v : Validator} {source : Str}
    {validated new : List Record} {rest rest' : Scraped} {j' : Job}
    (hq : step env w ⟨v, .querying source validated rest⟩ .queried =
      some (w, ⟨v, .committing source new rest'⟩))
    (hbinds : ∀ c ∈ new, driver.binds (Table.rowOf (some source) c) = true)
    (hc : step env w ⟨v, .committing source new rest'⟩ .committed = some (w', j')) :
    w.table.batchSaveConfigs driver validated (some source) =
      some (w'.table, new.length, new) := by
  have hnew : new = validated.filter fun c => c.configHash ∉ w.table.hashes := by
    rw [← Table.newConfigs_batchExistsHashes]
    simp only [step] at hq
    split_ifs at hq
    · have : staged (next v rest) = new := by
        rw [(Prod.mk.inj (Option.some.inj hq)).2]
        rfl
      rename_i he
      rw [he, ← this, staged_next]
    · cases hq; rfl
  cases hc
  rw [Table.batchSaveConfigs_eq, ← hnew, Table.commit_of_binds hbinds]
  rfl

end Job
end ConfigManager
