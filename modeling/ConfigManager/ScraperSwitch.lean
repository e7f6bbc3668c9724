import ConfigManager.Conversations
import ConfigManager.JobHistories

/-! # The scraper switch of the panel

`scraper_toggle` changes a flag in `bot_data`, which the panel shows as the status of the
scraper.  `scraper_job` reads `SCRAPER_ENABLED` from the settings, which nothing changes
while the bot runs.  So an execution that starts while the panel shows the scraper as
switched off leaves the table and the queue alone if `SCRAPER_ENABLED` is false, and
otherwise it does what it always does: `offUnchanged_iff` says of any presses and launches
that the executions change nothing, whatever they come upon, exactly if each launch while the
scraper is shown as switched off is one with `SCRAPER_ENABLED=false`.
-/
namespace ConfigManager

open Py Runs

/-- An execution of `scraper_job`, with what the panel showed when it started. -/
structure SwitchedJob where
  enabledAtStart : Bool
  job : Job
  /-- It has changed the table or the queue. -/
  changed : Bool

/-- The bot, its settings, and the executions of the job. -/
structure Panel where
  /-- `SCRAPER_ENABLED`. -/
  scraperEnabled : Bool
  service : Service
  world : World
  jobs : List SwitchedJob

namespace Panel

inductive Label where
  /-- Somebody presses a button (`scraper_toggle` is one), or writes to the bot. -/
  | event (e : Service.Event)
  | launch
  | act (i : Nat) (l : JobLabel)

/-- A process that has started. -/
def new (scraperEnabled : Bool) (service : Service) (table : Table) : Panel :=
  ⟨scraperEnabled, service, ⟨table, []⟩, []⟩

/-- `scraper_is_enabled`. -/
def scraperIsEnabled (s : Panel) : Bool := s.service.bot.scraperEnabled

variable (env : Env)

def step (s : Panel) : Label → Option Panel
  | .event e => some { s with service := s.service.handle e }
  | .launch =>
      let job : Job := if s.scraperEnabled then .new else ⟨.new, .done⟩
      some { s with jobs := s.jobs ++ [⟨s.scraperIsEnabled, job, false⟩] }
  | .act i l =>
      (s.jobs[i]?).bind fun x => (x.job.step env s.world l).map fun (w', j') =>
        { s with
          world := w'
          jobs := s.jobs.set i { x with job := j', changed := x.changed || w' ≠ s.world } }

/-- **Switching off takes effect**: an execution that starts while the scraper is shown as
switched off leaves the table and the queue unchanged. -/
def OffUnchanged (s : Panel) : Prop :=
  ∀ x ∈ s.jobs, x.enabledAtStart = false → x.changed = false

instance (s : Panel) : Decidable s.OffUnchanged :=
  inferInstanceAs (Decidable (∀ x ∈ s.jobs, _))

/-- An execution starts while the scraper is shown as switched off only if the settings say so
too. -/
def LaunchedAsShown (s : Panel) : Label → Prop
  | .launch => s.scraperIsEnabled = false → s.scraperEnabled = false
  | _ => True

instance (s : Panel) : (l : Label) → Decidable (s.LaunchedAsShown l)
  | .launch => inferInstanceAs (Decidable (_ → _))
  | .event _ | .act _ _ => .isTrue trivial

/-- A press, a message or a launch, and no step of an execution. -/
def Label.ofPanel : Label → Bool
  | .event _ | .launch => true
  | .act _ _ => false

/-- A link that is not stored, and that is accepted when its host has been looked up. -/
structure Findable (env : Env) (table : Table) (config country : Str) : Prop where
  known : detectProtocol config ≠ .unknown
  truthy : truthy (extractHost env.floats config) = true
  hashable : hashable (extractHost env.floats config) = true
  accepted : (recordOf env config (some country)).isSome = true
  unstored : configHash config ∉ table.hashes

variable {env} {s s' t t' : Panel} {l : Label} {labels history : List Label} {table : Table}
  {config country : Str}

/-! ## What starts switched off does nothing -/

/-- What has started while the scraper was shown as switched off has returned at once. -/
def Inv (s : Panel) : Prop :=
  ∀ x ∈ s.jobs, x.enabledAtStart = false → x.job.isDone = true ∧ x.changed = false

/-- An execution that has returned takes no step. -/
theorem step_of_isDone {w : World} {j : Job} {l : JobLabel} (h : j.isDone = true) :
    j.step env w l = none := by
  obtain ⟨v, phase⟩ := j
  obtain rfl := Job.phase_of_isDone h
  cases l <;> rfl

/-- What a step of an execution does to it. -/
theorem act_cases {i : Nat} {l : JobLabel} (h : s.step env (.act i l) = some t) :
    ∃ x w' j', s.jobs[i]? = some x ∧ x.job.step env s.world l = some (w', j') ∧
      t = { s with
        world := w'
        jobs := s.jobs.set i { x with job := j', changed := x.changed || w' ≠ s.world } } := by
  obtain ⟨x, hx, h⟩ := Option.bind_eq_some_iff.mp h
  obtain ⟨⟨w', j'⟩, hstep, rfl⟩ := Option.map_eq_some_iff.mp h
  exact ⟨x, w', j', hx, hstep, rfl⟩

theorem inv_step (hs : s.Inv) (hc : s.LaunchedAsShown l) (h : s.step env l = some t) :
    t.Inv := by
  cases l with
  | event e =>
      obtain rfl := Option.some.inj h
      exact hs
  | launch =>
      obtain rfl := Option.some.inj h
      intro x hx hoff
      rcases List.mem_append.mp hx with hx | hx
      · exact hs x hx hoff
      · obtain rfl := List.mem_singleton.mp hx
        have hdisabled : s.scraperEnabled = false := hc hoff
        simp [hdisabled, Job.isDone]
  | act i l =>
      obtain ⟨x, w', j', hx, hstep, rfl⟩ := act_cases h
      intro y hy hoff
      rcases List.mem_or_eq_of_mem_set hy with hy | rfl
      · exact hs y hy hoff
      · have hdone := (hs x (List.mem_of_getElem? hx) hoff).1
        rw [step_of_isDone hdone] at hstep
        cases hstep

/-- **The condition is enough**, whatever the executions do. -/
theorem offUnchanged_of_meets (hs : s.Inv) (hm : Meets (step env) LaunchedAsShown s labels) :
    ∀ t ∈ visited (step env) s labels, t.OffUnchanged := fun t ht x hx hoff =>
  (visited_of_inv (fun _ _ _ => inv_step) hs hm t ht x hx hoff).2

/-- What does switch the scraper off: with `SCRAPER_ENABLED=false` no execution changes
anything, whatever the panel shows. -/
theorem world_of_disabled (env : Env) (service : Service) (table : Table) (labels : List Label) :
    ∀ s ∈ visited (step env) (new false service table) labels, s.world = ⟨table, []⟩ := by
  have hstep : ∀ (s : Panel) (l : Label) (t : Panel),
      (s.scraperEnabled = false ∧ s.world = ⟨table, []⟩ ∧ ∀ x ∈ s.jobs, x.job.isDone = true) →
      True → s.step env l = some t →
      t.scraperEnabled = false ∧ t.world = ⟨table, []⟩ ∧ ∀ x ∈ t.jobs, x.job.isDone = true := by
    rintro s l t ⟨hoff, hworld, hdone⟩ - h
    cases l with
    | event e =>
        obtain rfl := Option.some.inj h
        exact ⟨hoff, hworld, hdone⟩
    | launch =>
        obtain rfl := Option.some.inj h
        refine ⟨hoff, hworld, fun x hx => ?_⟩
        rcases List.mem_append.mp hx with hx | hx
        · exact hdone x hx
        · rw [List.mem_singleton.mp hx]
          simp only [hoff, Bool.false_eq_true, if_false]
          rfl
    | act i l =>
        obtain ⟨x, w', j', hx, hjob, -⟩ := act_cases h
        rw [step_of_isDone (hdone x (List.mem_of_getElem? hx))] at hjob
        cases hjob
  have hstart : (new false service table).scraperEnabled = false ∧
      (new false service table).world = ⟨table, []⟩ ∧
      ∀ x ∈ (new false service table).jobs, x.job.isDone = true := ⟨rfl, rfl, by simp [new]⟩
  exact fun s hs => (visited_of_inv hstep hstart (meets_trivial _ _) s hs).2.1

/-! ## Presses and launches -/

variable (env) in
/-- What is pressed and launched goes its way whatever the executions do. -/
theorem exists_panel_step (hl : l.ofPanel = true) (hs : s.scraperEnabled = s'.scraperEnabled)
    (hservice : s.service = s'.service) :
    ∃ t t', s.step env l = some t ∧ s'.step env l = some t' ∧
      t.scraperEnabled = t'.scraperEnabled ∧ t.service = t'.service ∧ t.world = s.world := by
  cases l with
  | event e =>
    exact ⟨_, _, rfl, rfl, hs, congrArg (·.handle e) hservice, rfl⟩
  | launch => exact ⟨_, _, rfl, rfl, hs, hservice, rfl⟩
  | act i l => cases hl

variable (env) in
/-- A history of presses and launches can happen from any state, and leaves the table and the
queue alone. -/
theorem exists_run_panel (hpanel : ∀ l ∈ history, l.ofPanel = true) (s : Panel) :
    ∃ t, run (step env) s history = some t ∧ t.world = s.world := by
  induction history generalizing s with
  | nil => exact ⟨s, rfl, rfl⟩
  | cons l history ih =>
    obtain ⟨hl, hrest⟩ := List.forall_mem_cons.mp hpanel
    obtain ⟨t, -, ht, -, -, -, hworld⟩ := exists_panel_step env (s := s) hl rfl rfl
    obtain ⟨u, hu, hworld'⟩ := ih hrest t
    refine ⟨u, ?_, hworld'.trans hworld⟩
    rw [run, ht]
    exact hu

/-- The condition is one on the presses and launches of a run. -/
theorem meets_of_history (hs : s.scraperEnabled = s'.scraperEnabled)
    (hservice : s.service = s'.service)
    (hm : Meets (step env) LaunchedAsShown s' (labels.filter Label.ofPanel)) :
    Meets (step env) LaunchedAsShown s labels := by
  induction labels generalizing s s' with
  | nil => trivial
  | cons l labels ih =>
    cases hl : l.ofPanel with
    | true =>
      rw [List.filter_cons_of_pos hl] at hm
      obtain ⟨t, t', ht, ht', hset, hserv, -⟩ := exists_panel_step env hl hs hservice
      refine (meets_cons ht).mpr ⟨?_, ih hset hserv ((meets_cons ht').mp hm).2⟩
      have hfirst := ((meets_cons ht').mp hm).1
      cases l with
      | launch =>
        rw [LaunchedAsShown, scraperIsEnabled, hs, hservice]
        exact hfirst
      | event | act => trivial
    | false =>
      rw [List.filter_cons_of_neg (by simp [hl])] at hm
      cases l with
      | act i l =>
        refine ⟨trivial, fun t ht => ?_⟩
        obtain ⟨x, w', j', -, -, rfl⟩ := act_cases ht
        exact ih hs hservice hm
      | event | launch => cases hl

/-! ## An execution that finds something -/

/-- An execution that scrapes one link, up to its commit. -/
def findJob (config country : Str) : List JobLabel :=
  [.scraped [("a".toList, [config])], .resume 0 .start, .resume 0 (.located (some country)),
    .gathered, .queried, .committed]

/-- It stores the link. -/
theorem exists_run_findJob (h : Findable env table config country) :
    ∃ w j, run (soloStep env) (⟨table, []⟩, .new) (findJob config country) = some (w, j) ∧
      w ≠ ⟨table, []⟩ := by
  obtain ⟨record, hrecord⟩ := Option.isSome_iff_exists.mp h.accepted
  have hhash : record.configHash = configHash config := recordOf_configHash hrecord
  have hstart : Validator.new.start env false config = (.new, .locating) := by
    simp [Validator.start, Validator.new, h.known, Validator.locate, Validator.knownCountry,
      Validator.cached, h.truthy, h.hashable]
  have hfinish : ((Validator.new.remember (extractHost env.floats config) (some country)).finish
      env config (some country)).2 = .finished (some record) := by
    simp [Validator.finish, hrecord]
  have hnew : Table.newConfigs (table.batchExistsHashes [record.configHash]) [record] =
      [record] := by
    have hfilter : ([record].filter fun c => c.configHash ∉ table.hashes) = [record] := by
      simp [hhash, h.unstored]
    rw [← List.map_singleton, Table.newConfigs_batchExistsHashes, hfilter]
  have hlimit : [config].take scraperPublishLimit = [config] := rfl
  refine ⟨⟨table.insert (some "a".toList) [record], []⟩, ?_, ?_, ?_⟩
  rotate_left
  · simp [findJob, run, soloStep, Job.step, Job.new, Job.next, Distinct, hlimit, Batch.new,
      Batch.resume, Batch.running, Validator.wake, hstart, hfinish, Batch.done, Batch.results,
      Stage.record?, hnew]
    rfl
  · intro hsame
    have hlength := congrArg (fun w => w.table.length) hsame
    simp [Table.insert] at hlength

/-- The steps of an execution, among all others: it is noticed if they change anything. -/
theorem exists_run_acts {i : Nat} {x : SwitchedJob} {acts : List JobLabel} {w : World} {j : Job}
    (hx : s.jobs[i]? = some x)
    (h : run (soloStep env) (s.world, x.job) acts = some (w, j)) :
    ∃ t y, run (step env) s (acts.map (.act i)) = some t ∧ t.jobs[i]? = some y ∧
      y.enabledAtStart = x.enabledAtStart ∧
      (x.changed = true ∨ w ≠ s.world → y.changed = true) := by
  induction acts generalizing s x with
  | nil =>
    obtain rfl := (Prod.mk.inj (Option.some.inj h)).1
    exact ⟨s, x, rfl, hx, rfl, fun hor => hor.resolve_right fun hne => hne rfl⟩
  | cons l acts ih =>
    obtain ⟨⟨w₁, j₁⟩, hstep, hrest⟩ := Option.bind_eq_some_iff.mp h
    rw [soloStep] at hstep
    have hact : s.step env (.act i l) = some { s with
        world := w₁
        jobs := s.jobs.set i { x with job := j₁, changed := x.changed || w₁ ≠ s.world } } := by
      rw [step, hx, Option.bind_some, hstep]
      rfl
    obtain ⟨t, y, hrun, hy, hoff, hchanged⟩ := ih (s := { s with
        world := w₁
        jobs := s.jobs.set i { x with job := j₁, changed := x.changed || w₁ ≠ s.world } })
      (List.getElem?_set_self (List.getElem?_eq_some_iff.mp hx).1) hrest
    refine ⟨t, y, ?_, hy, hoff, fun hor => hchanged ?_⟩
    · rw [List.map_cons, run, hact]
      exact hrun
    · -- If nothing has changed by this step, it is a later one that changes something.
      by_cases hsame : w₁ = s.world
      · exact hor.imp (fun hc => Bool.or_eq_true_iff.mpr (.inl hc)) fun hne he =>
          hne (he.trans hsame)
      · exact .inl (Bool.or_eq_true_iff.mpr (.inr (decide_eq_true hsame)))

/-- **A launch that the condition excludes** may end in a change: by an execution that finds a
link. -/
theorem exists_changed (hlink : Findable env table config country) (hs : s.world = ⟨table, []⟩)
    (hc : ¬s.LaunchedAsShown l) :
    ∃ acts t, run (step env) s (l :: acts) = some t ∧ acts.filter Label.ofPanel = [] ∧
      ¬t.OffUnchanged := by
  cases l with
  | launch =>
    obtain ⟨hoff, henabled⟩ : s.scraperIsEnabled = false ∧ s.scraperEnabled = true := by
      simpa [LaunchedAsShown] using hc
    obtain ⟨w, j, hjob, hne⟩ := exists_run_findJob hlink
    have hx : (s.jobs ++ [⟨s.scraperIsEnabled, .new, false⟩])[s.jobs.length]? =
        some ⟨s.scraperIsEnabled, .new, false⟩ := List.getElem?_concat_length
    obtain ⟨t, y, hrun, hy, hstart, hchanged⟩ := exists_run_acts
      (s := { s with jobs := s.jobs ++ [⟨s.scraperIsEnabled, .new, false⟩] }) hx
      (by rw [hs]; exact hjob)
    refine ⟨(findJob config country).map (.act s.jobs.length), t, ?_, ?_, fun hsame => ?_⟩
    · have hlaunch : s.step env .launch =
          some { s with jobs := s.jobs ++ [⟨s.scraperIsEnabled, .new, false⟩] } := by
        simp only [step, if_pos henabled]
      rw [run, hlaunch]
      exact hrun
    · exact List.filter_eq_nil_iff.mpr fun l hl => by
        obtain ⟨act, -, rfl⟩ := List.mem_map.mp hl
        simp [Label.ofPanel]
    · have hkept := hsame y (List.mem_of_getElem? hy) (hstart.trans hoff)
      rw [hchanged (.inr (hs ▸ hne))] at hkept
      cases hkept
  | event | act => exact absurd trivial hc

/-- **Exactly the presses and launches for which switching off takes effect**, whatever the
executions come upon: those in which no execution starts while the scraper is shown as switched
off, unless `SCRAPER_ENABLED` is false. -/
theorem offUnchanged_iff (env : Env) (scraperEnabled : Bool) (service : Service) (table : Table)
    (hlink : ∃ config country, Findable env table config country) (history : List Label)
    (hpanel : ∀ l ∈ history, l.ofPanel = true) :
    (∀ labels, IsRun (step env) (new scraperEnabled service table) labels →
        labels.filter Label.ofPanel = history →
        ∀ s ∈ visited (step env) (new scraperEnabled service table) labels, s.OffUnchanged) ↔
      Meets (step env) LaunchedAsShown (new scraperEnabled service table) history := by
  have hfresh : (new scraperEnabled service table).Inv := by simp [new, Inv]
  constructor
  · intro hall
    by_contra hnot
    obtain ⟨config, country, hlink⟩ := hlink
    obtain ⟨last, hhistory, -⟩ := exists_run_panel env hpanel
      (new scraperEnabled service table)
    obtain ⟨before, l, after, t, -, rfl, hbefore, -, hc, -⟩ :=
      exists_first_not (Option.isSome_iff_exists.mpr ⟨last, hhistory⟩) hnot
    have hfirst : ∀ l ∈ before, l.ofPanel = true := fun l hl =>
      hpanel l (List.mem_append_left _ hl)
    have hlater : ∀ l ∈ after, l.ofPanel = true := fun l hl =>
      hpanel l (List.mem_append_right _ (List.mem_cons_of_mem _ hl))
    obtain ⟨t', ht', hworld⟩ := exists_run_panel env hfirst
      (new scraperEnabled service table)
    obtain rfl : t' = t := Option.some.inj (ht'.symm.trans hbefore)
    -- The execution goes all its way before anything else happens.
    obtain ⟨acts, u, hacts, hnone, hchanged⟩ := exists_changed hlink hworld hc
    obtain ⟨v, hv, -⟩ := exists_run_panel env hlater u
    have hprefix : run (step env) (new scraperEnabled service table) (before ++ l :: acts) =
        some u := by
      rw [run_append, hbefore]
      exact hacts
    have hrun : run (step env) (new scraperEnabled service table)
        ((before ++ l :: acts) ++ after) = some v := by
      rw [run_append, hprefix]
      exact hv
    refine hchanged (hall _ (Option.isSome_iff_exists.mpr ⟨v, hrun⟩) ?_ u
      (mem_visited_append hprefix))
    rw [List.filter_append, List.filter_append, List.filter_cons, hnone,
      List.filter_eq_self.mpr hfirst, List.filter_eq_self.mpr hlater]
    have hl : l.ofPanel = true := hpanel l (List.mem_append_right _ (List.mem_cons_self ..))
    simp [hl]
  · rintro hm labels - rfl
    exact offUnchanged_of_meets hfresh (meets_of_history rfl rfl hm)

/-- A bot owned by user 1, with the scraper switched on. -/
def sampleService : Service := .new ⟨1, ∅, ∅, [1], [], [], true, [], []⟩ []

/-- The owner switches the scraper off and on again while executions are launched. -/
def offAndOn : List Label :=
  [.launch, .event (.press 1 .scraperToggle), .event (.press 1 .scraperToggle), .launch]

theorem findable_sampleLink : Findable Env.sample [] sampleLink "DE".toList :=
  ⟨by decide +kernel, by decide +kernel, by decide +kernel, by decide +kernel, by decide +kernel⟩

/-- Both executions start while the scraper is shown as switched on. -/
theorem offUnchanged_offAndOn :
    IsRun (step Env.sample) (new true sampleService []) offAndOn ∧
      ∀ labels, IsRun (step Env.sample) (new true sampleService []) labels →
        labels.filter Label.ofPanel = offAndOn →
        ∀ s ∈ visited (step Env.sample) (new true sampleService []) labels, s.OffUnchanged :=
  ⟨by decide +kernel,
    (offUnchanged_iff Env.sample true sampleService [] ⟨_, _, findable_sampleLink⟩ offAndOn
      (by decide +kernel)).mpr (by decide +kernel)⟩

/-- The owner switches the scraper off before an execution starts, which scrapes one link,
stores it and enqueues it. -/
def offBefore : List Label :=
  [.event (.press 1 .scraperToggle), .launch] ++
    (findJob sampleLink "DE".toList ++ [JobLabel.put]).map (.act 0)

/-- It stores and enqueues the link all the same. -/
theorem not_offUnchanged_offBefore :
    IsRun (step Env.sample) (new true sampleService []) offBefore ∧
      ¬∀ s ∈ visited (step Env.sample) (new true sampleService []) offBefore, s.OffUnchanged := by
  decide +kernel

end Panel
end ConfigManager
