import ConfigManager.Broadcaster

/-! # Workers that survive

A worker should outlive every item and every answer of the endpoint, and leave its loop
only for a `stop` that came after the `start` that created it.  Three things end it
otherwise.

`send_message` catches what the client raises.  It does not catch what reading the
response raises: a body that is no JSON, or no object, or that its charset does not
decode.  And it sleeps as long as it is told, for ever if the number is infinite.

`stop` puts its `None` on the queue and cancels the pool at once, so nobody takes the
`None`.  The queue is kept, and the next pool finds it there.

And a worker that is cancelled while it sends does not call `task_done` for its item.

`workersSurvive_iff` says that there is nothing else; and that there is no worker that leaves
its loop cancelled exactly if, moreover, `stop` finds no pool running.
-/
namespace ConfigManager

open Py Runs

/-- `format_message` does not raise. -/
theorem formatMessage_isSome {env : Env} (hU : env.unicode.LettersLow) (item : PublishItem) :
    (formatMessage env item).isSome = true := by
  rw [formatMessage, Option.isSome_map]
  exact getFlag_isSome hU _

/-! ## Responses that can be read -/

/-- `send_message` reads the response: of a refusal that asks for patience, a finite number
of seconds; of any other failure, a text. -/
def Response.Readable (F : Json.Floats) (retries : Nat) (r : Response) : Prop :=
  if r.status = 429 ∧ retries < publishMaxRetries then
    r.isJson = true → ∃ data delay, r.json F = some data ∧ retryAfter data = some delay ∧
      sleeps delay = true ∧ endless delay = false
  else r.status = 200 ∨ (r.decode r.body).isSome = true

def Reply.Readable (F : Json.Floats) (retries : Nat) : Reply → Prop
  | .response r => r.Readable F retries
  | .timeout | .clientError => True

/-- **What an attempt does not survive**: a response it cannot read. -/
theorem sendMessage_lost_iff {F : Json.Floats} {retries : Nat} {r : Reply} :
    sendMessage F retries r = .raised ∨ sendMessage F retries r = .asleep ↔
      ¬r.Readable F retries := by
  cases r with
  | timeout | clientError =>
      simp only [sendMessage, Reply.Readable, not_true_eq_false, iff_false]
      split <;> simp
  | response r =>
      simp only [sendMessage, Reply.Readable, Response.Readable]
      by_cases hpatience : r.status = 429 ∧ retries < publishMaxRetries
      · rw [if_pos hpatience, if_pos hpatience]
        cases hjson : r.isJson with
        | false => simp
        | true =>
            cases hdata : r.json F with
            | none => simp
            | some data =>
                cases hdelay : retryAfter data with
                | none => simp [hdelay]
                | some delay =>
                    cases hsleeps : sleeps delay <;> cases hendless : endless delay <;>
                      simp [hdelay, hsleeps, hendless]
      · rw [if_neg hpatience, if_neg hpatience]
        by_cases hok : r.status = 200
        · simp [hok]
        · cases r.decode r.body <;> simp [hok]

/-- It tries again only so often. -/
theorem lt_of_again {F : Json.Floats} {retries : Nat} {r : Reply}
    (h : sendMessage F retries r = .again) : retries < publishMaxRetries := by
  cases r with
  | timeout | clientError =>
      simp only [sendMessage] at h
      split at h
      next hlt => exact hlt
      · cases h
  | response r =>
      simp only [sendMessage] at h
      split at h
      next hpatience => exact hpatience.2
      · split at h
        · cases h
        · split at h <;> cases h

/-! ## Workers -/

/-- A worker has called `task_done` once for everything it took, but for what it is
sending, which it tries at most `publishMaxRetries` times more; it has left only for a
later `stop`, and was cancelled only with nothing in hand. -/
def Worker.Survives (w : Worker) : Prop :=
  match w.stage with
  | .waiting | .pausing | .cancelled => w.tasksDone = w.taken
  | .sending _ retries => retries ≤ publishMaxRetries ∧ w.tasksDone + 1 = w.taken
  | .left call => w.startedBy < call ∧ w.tasksDone = w.taken
  | .asleep | .died => False

instance (w : Worker) : Decidable w.Survives :=
  match w with
  | ⟨_, .waiting, _, _⟩ | ⟨_, .pausing, _, _⟩ | ⟨_, .cancelled, _, _⟩ =>
      inferInstanceAs (Decidable (_ = _))
  | ⟨_, .sending _ _, _, _⟩ => inferInstanceAs (Decidable (_ ∧ _))
  | ⟨_, .left _, _, _⟩ => inferInstanceAs (Decidable (_ ∧ _))
  | ⟨_, .asleep, _, _⟩ | ⟨_, .died, _, _⟩ => inferInstanceAs (Decidable False)

namespace Pool

/-- **The workers survive**, and between a `start` and the next `stop` all of them are
there. -/
structure WorkersSurvive (s : Pool) : Prop where
  survive : ∀ w ∈ s.workers, w.Survives
  complete : s.started = true → s.workers.countP Worker.live = publishConcurrency

instance (s : Pool) : Decidable s.WorkersSurvive :=
  decidable_of_iff ((∀ w ∈ s.workers, w.Survives) ∧
      (s.started = true → s.workers.countP Worker.live = publishConcurrency))
    ⟨fun h => ⟨h.1, h.2⟩, fun h => ⟨h.1, h.2⟩⟩

/-- No worker is cancelled. -/
def Uncancelled (s : Pool) : Prop := ∀ w ∈ s.workers, w.stage ≠ .cancelled

/-- `stop` finds no worker with an item in hand. -/
def StopsIdle (s : Pool) : Label → Prop
  | .stop => ∀ w ∈ s.workers, w.tasksDone = w.taken
  | _ => True

/-- `stop` finds no pool running. -/
def StopsNothing (s : Pool) : Label → Prop
  | .stop => s.running = false
  | _ => True

variable (env : Env)

/-- No worker is given a `None`, or a response it cannot read. -/
def Undisturbed (s : Pool) : Label → Prop
  | .take _ => ∀ call, s.queue.head? ≠ some (.none call)
  | .reply i r => ∀ w ∈ s.workers[i]?, ∀ text retries, w.stage = .sending text retries →
      r.Readable env.floats retries
  | _ => True

/-- Workers are at work or cancelled; those at work are the pool started last, and every
`None` on the queue is older. -/
structure Inv (s : Pool) : Prop where
  survive : ∀ w ∈ s.workers, w.Survives
  stage : ∀ w ∈ s.workers, w.live = true ∨ w.stage = .cancelled
  current : ∀ w ∈ s.workers, w.live = true → s.started = true ∧ s.ofTask w = true
  complete : s.started = true → s.workers.countP Worker.live = publishConcurrency
  old : ∀ call, .none call ∈ s.queue → call ≤ s.calls ∧
    ∀ w ∈ s.workers, w.live = true → call < w.startedBy

variable {env} {s t : Pool} {l : Label} {w : Worker} {i : Nat}

theorem inv_new : Inv new := by
  constructor <;> simp [new]

/-- A pool whose task is not running has nobody at work. -/
theorem Inv.idle (hs : s.Inv) (h : s.running = false) : ∀ w ∈ s.workers, w.live = false := by
  intro w hw
  by_contra hlive
  rw [Bool.not_eq_false] at hlive
  obtain ⟨-, htask⟩ := hs.current w hw hlive
  have hsome : s.task.isSome = true := by
    rw [ofTask, decide_eq_true_eq] at htask
    simp [htask]
  have hany : s.workers.any (fun w => s.ofTask w && w.live) = true :=
    List.any_eq_true.mpr ⟨w, hw, by simp [htask, hlive]⟩
  have hnone : s.workers.any (fun w => s.ofTask w && w.hasDied) = false := by
    refine List.any_eq_false.mpr fun v hv => ?_
    rcases hs.stage v hv with hl | hc
    · obtain ⟨_, stage, _, _⟩ := v
      cases stage <;> simp_all [Worker.live, Worker.hasDied]
    · simp [Worker.hasDied, hc]
  simp [running, hsome, hany, hnone] at h

/-- A worker that is not at work has nothing in hand. -/
theorem Inv.settled (hs : s.Inv) (hw : w ∈ s.workers) (hlive : w.live = false) :
    w.tasksDone = w.taken := by
  have hsurvives := hs.survive w hw
  obtain ⟨startedBy, stage, taken, tasksDone⟩ := w
  cases stage with
  | waiting | pausing | sending text retries => cases hlive
  | asleep | died => exact hsurvives.elim
  | left call => exact hsurvives.2
  | cancelled => exact hsurvives

/-- **A worker goes on**: the pool stays as it is. -/
theorem Inv.set (hs : s.Inv) (w' : Worker) (hw : s.workers[i]? = some w) (hlive : w.live = true)
    (hlive' : w'.live = true) (hsame : w'.startedBy = w.startedBy) (hsurvive : w'.Survives)
    {queue : List Entry} (hqueue : ∀ e ∈ queue, e ∈ s.queue) :
    Inv { s with queue := queue, workers := s.workers.set i w' } := by
  obtain ⟨l₁, l₂, hsplit, hset⟩ := split_at hw
  have hmem : w ∈ s.workers := List.mem_of_getElem? hw
  -- The others are as they were, so only the new state of this worker is looked at.
  have hcases : ∀ v ∈ s.workers.set i w', v ∈ s.workers ∨ v = w' := fun v hv =>
    List.mem_or_eq_of_mem_set hv
  constructor
  · intro v hv
    rcases hcases v hv with hv | rfl
    · exact hs.survive v hv
    · exact hsurvive
  · intro v hv
    rcases hcases v hv with hv | rfl
    · exact hs.stage v hv
    · exact .inl hlive'
  · intro v hv hl
    rcases hcases v hv with hv | rfl
    · exact hs.current v hv hl
    · have hcur := hs.current w hmem hlive
      rw [ofTask, ← hsame] at hcur
      exact hcur
  · intro hstarted
    have hcount := hs.complete hstarted
    rw [hsplit, List.countP_append, List.countP_cons, hlive] at hcount
    rw [hset, List.countP_append, List.countP_cons, hlive']
    exact hcount
  · intro call hcall
    obtain ⟨hle, hlt⟩ := hs.old call (hqueue _ hcall)
    refine ⟨hle, fun v hv hl => ?_⟩
    rcases hcases v hv with hv | rfl
    · exact hlt v hv hl
    · rw [hsame]
      exact hlt w hmem hlive

/-- A new pool, where nobody is at work: it is the one started last. -/
theorem Inv.create (hs : s.Inv) (hidle : ∀ w ∈ s.workers, w.live = false) :
    Inv { s with
      calls := s.calls + 1
      workers := s.workers ++ List.replicate publishConcurrency ⟨s.calls + 1, .waiting, 0, 0⟩
      task := some (s.calls + 1)
      started := true } := by
  have hcases : ∀ v ∈ s.workers ++ List.replicate publishConcurrency
      ⟨s.calls + 1, .waiting, 0, 0⟩, v ∈ s.workers ∨ v = ⟨s.calls + 1, .waiting, 0, 0⟩ := by
    intro v hv
    rcases List.mem_append.mp hv with hv | hv
    · exact .inl hv
    · exact .inr (List.eq_of_mem_replicate hv)
  constructor
  · intro v hv
    rcases hcases v hv with hv | rfl
    · exact hs.survive v hv
    · exact rfl
  · intro v hv
    rcases hcases v hv with hv | rfl
    · exact hs.stage v hv
    · exact .inl rfl
  · intro v hv hl
    rcases hcases v hv with hv | rfl
    · rw [hidle v hv] at hl
      cases hl
    · exact ⟨rfl, by simp [ofTask]⟩
  · intro _
    have hnone : s.workers.countP Worker.live = 0 :=
      List.countP_eq_zero.mpr fun w hw => by simp [hidle w hw]
    rw [List.countP_append, hnone, List.countP_replicate]
    rfl
  · -- Every `None` on the queue is of an earlier call than this one.
    intro call hcall
    obtain ⟨hle, -⟩ := hs.old call hcall
    refine ⟨Nat.le_succ_of_le hle, fun v hv hl => ?_⟩
    rcases hcases v hv with hv | rfl
    · rw [hidle v hv] at hl
      cases hl
    · exact Nat.lt_succ_of_le hle

/-- `start` leaves a running pool alone, and otherwise creates one. -/
theorem Inv.start (hs : s.Inv) (h : step env s .start = some t) : t.Inv := by
  simp only [step] at h
  split at h
  next hrunning =>
    obtain rfl := Option.some.inj h
    have hlive : ∃ w ∈ s.workers, w.live = true := by
      simp only [running, Bool.and_eq_true, List.any_eq_true] at hrunning
      obtain ⟨w, hw, -, hl⟩ := hrunning.1.2
      exact ⟨w, hw, hl⟩
    obtain ⟨w, hw, hl⟩ := hlive
    have hstarted : s.started = true := (hs.current w hw hl).1
    refine ⟨hs.survive, hs.stage, fun v hv hv' => ⟨rfl, (hs.current v hv hv').2⟩,
      fun _ => hs.complete hstarted, fun call hcall => ?_⟩
    obtain ⟨hle, hlt⟩ := hs.old call hcall
    exact ⟨Nat.le_succ_of_le hle, hlt⟩
  next hrunning =>
    obtain rfl := Option.some.inj h
    exact hs.create (hs.idle (by simpa using hrunning))

/-- `stop` leaves nobody at work. -/
theorem Inv.stop (hs : s.Inv) (hc : StopsIdle s .stop) (h : step env s .stop = some t) :
    t.Inv := by
  simp only [step] at h
  split at h
  · obtain rfl := Option.some.inj h
    -- A worker at work is of the running pool, so it is cancelled; the others were idle.
    have hcancel : ∀ v ∈ (if s.running then s.workers.map s.cancel else s.workers),
        v.Survives ∧ v.live = false ∧ (v.live = true ∨ v.stage = .cancelled) := by
      intro v hv
      split at hv
      · obtain ⟨w, hw, rfl⟩ := List.mem_map.mp hv
        rw [cancel]
        split
        · exact ⟨hc w hw, rfl, .inr rfl⟩
        next hno =>
          have hl : w.live = false := by
            by_contra hl
            rw [Bool.not_eq_false] at hl
            simp [(hs.current w hw hl).2, hl] at hno
          exact ⟨hs.survive w hw, hl, hs.stage w hw⟩
      next hrunning =>
        exact ⟨hs.survive v hv, hs.idle (by simpa using hrunning) v hv, hs.stage v hv⟩
    have hidle : ∀ v ∈ (if s.running then s.workers.map s.cancel else s.workers),
        v.live ≠ true := fun v hv => by simp [(hcancel v hv).2.1]
    refine ⟨fun v hv => (hcancel v hv).1, fun v hv => (hcancel v hv).2.2,
      fun v hv hl => absurd hl (hidle v hv), (absurd · Bool.false_ne_true),
      fun call hcall => ⟨?_, fun v hv hl => absurd hl (hidle v hv)⟩⟩
    rcases List.mem_append.mp hcall with hcall | hcall
    · exact Nat.le_succ_of_le (hs.old call hcall).1
    · obtain rfl : call = s.calls + 1 := by simpa using hcall
      exact Nat.le_refl _
  · cases h

theorem Inv.put {item : PublishItem} (hs : s.Inv) (h : step env s (.put item) = some t) :
    t.Inv := by
  simp only [step] at h
  split at h
  · obtain rfl := Option.some.inj h
    refine ⟨hs.survive, hs.stage, hs.current, hs.complete, fun call hcall => hs.old call ?_⟩
    simpa using hcall
  · cases h

/-- What a step of worker `i` is about. -/
theorem step_take (h : step env s (.take i) = some t) :
    ∃ w entry queue, s.workers[i]? = some w ∧ s.queue = entry :: queue ∧ w.stage = .waiting ∧
      t = { s with queue := queue, workers := s.workers.set i (w.take env entry) } := by
  simp only [step] at h
  split at h
  next w entry queue hw hqueue =>
    split at h
    next hstage => exact ⟨w, entry, queue, hw, hqueue, hstage, (Option.some.inj h).symm⟩
    · cases h
  · cases h

theorem step_reply {r : Reply} (h : step env s (.reply i r) = some t) :
    ∃ w text retries, s.workers[i]? = some w ∧ w.stage = .sending text retries ∧
      t = { s with workers :=
        s.workers.set i (w.answer text retries (sendMessage env.floats retries r)) } := by
  obtain ⟨w, hw, h⟩ := Option.bind_eq_some_iff.mp h
  split at h
  next text retries hstage => exact ⟨w, text, retries, hw, hstage, (Option.some.inj h).symm⟩
  · cases h

/-- Under the condition a worker takes an item, which can be formatted. -/
theorem Inv.take (hU : env.unicode.LettersLow) (hs : s.Inv) (hc : Undisturbed env s (.take i))
    (h : step env s (.take i) = some t) : t.Inv := by
  obtain ⟨w, entry, queue, hw, hqueue, hstage, rfl⟩ := step_take h
  have hlive : w.live = true := by simp [Worker.live, hstage]
  have hdone : w.tasksDone = w.taken := by
    have := hs.survive w (List.mem_of_getElem? hw)
    simpa [Worker.Survives, hstage] using this
  cases entry with
  | none call => exact absurd (by rw [hqueue]; rfl) (hc call)
  | item item =>
      obtain ⟨text, htext⟩ := Option.isSome_iff_exists.mp (formatMessage_isSome hU item)
      have htake : w.take env (.item item) =
          { w with stage := .sending text 0, taken := w.taken + 1 } := by
        simp only [Worker.take, htext]
      rw [htake]
      exact hs.set { w with stage := .sending text 0, taken := w.taken + 1 } hw hlive rfl rfl
        ⟨Nat.zero_le _, congrArg (· + 1) hdone⟩ fun e he => hqueue ▸ List.mem_cons_of_mem _ he

/-- A response that can be read does not end the worker. -/
theorem Inv.reply {r : Reply} (hs : s.Inv) (hc : Undisturbed env s (.reply i r))
    (h : step env s (.reply i r) = some t) : t.Inv := by
  obtain ⟨w, text, retries, hw, hstage, rfl⟩ := step_reply h
  have hlive : w.live = true := by simp [Worker.live, hstage]
  have hdone : w.tasksDone + 1 = w.taken := by
    have := hs.survive w (List.mem_of_getElem? hw)
    simp only [Worker.Survives, hstage] at this
    exact this.2
  cases hattempt : sendMessage env.floats retries r with
  | returned ok =>
      exact hs.set { w with stage := .pausing, tasksDone := w.tasksDone + 1 } hw hlive rfl rfl
        hdone fun _ he => he
  | again =>
      exact hs.set { w with stage := .sending text (retries + 1) } hw hlive rfl rfl
        ⟨lt_of_again hattempt, hdone⟩ fun _ he => he
  | asleep =>
      exact absurd (hc w hw text retries hstage) (sendMessage_lost_iff.mp (.inr hattempt))
  | raised =>
      exact absurd (hc w hw text retries hstage) (sendMessage_lost_iff.mp (.inl hattempt))

theorem Inv.wake (hs : s.Inv) (h : step env s (.wake i) = some t) : t.Inv := by
  obtain ⟨w, hw, h⟩ := Option.bind_eq_some_iff.mp h
  split at h
  next hstage =>
    obtain rfl := Option.some.inj h
    have hdone : w.tasksDone = w.taken := by
      have := hs.survive w (List.mem_of_getElem? hw)
      simpa [Worker.Survives, hstage] using this
    exact hs.set { w with stage := .waiting } hw (by simp [Worker.live, hstage]) rfl rfl hdone
      fun _ he => he
  · cases h

theorem inv_step (hU : env.unicode.LettersLow) (hs : s.Inv)
    (hc : Undisturbed env s l ∧ StopsIdle s l) (h : step env s l = some t) : t.Inv := by
  cases l with
  | start => exact hs.start h
  | stop => exact hs.stop hc.2 h
  | put item => exact hs.put h
  | take i => exact hs.take hU hc.1 h
  | reply i r => exact hs.reply hc.1 h
  | wake i => exact hs.wake h

/-- A worker given an old `None`, or a response it cannot read, does not survive it. -/
theorem not_survive (hs : s.Inv) (hc : ¬Undisturbed env s l) (h : step env s l = some t) :
    ¬t.WorkersSurvive := by
  intro hsafe
  cases l with
  | take i =>
      obtain ⟨w, entry, queue, hw, hqueue, hstage, rfl⟩ := step_take h
      have hmem : w ∈ s.workers := List.mem_of_getElem? hw
      have hlive : w.live = true := by simp [Worker.live, hstage]
      cases entry with
      | item item => exact hc fun call hhead => by simp [hqueue] at hhead
      | none call =>
          have hold : call < w.startedBy :=
            (hs.old call (hqueue ▸ List.mem_cons_self ..)).2 w hmem hlive
          have hleft : (w.take env (.none call)).Survives := hsafe.survive _
            (List.mem_set (List.getElem?_eq_some_iff.mp hw).1 _)
          exact absurd hleft.1 (by simp only [Worker.take]; omega)
  | reply i r =>
      obtain ⟨w, text, retries, hw, hstage, rfl⟩ := step_reply h
      have hunreadable : ¬r.Readable env.floats retries := by
        refine fun hr => hc fun v hv text' retries' hstage' => ?_
        obtain rfl : w = v := Option.some.inj (hw.symm.trans hv)
        rw [hstage] at hstage'
        cases hstage'
        exact hr
      have hsurvives := hsafe.survive _ (List.mem_set (List.getElem?_eq_some_iff.mp hw).1 _)
      rcases sendMessage_lost_iff.mpr hunreadable with hraised | hasleep
      · rw [hraised] at hsurvives
        exact hsurvives
      · rw [hasleep] at hsurvives
        exact hsurvives
  | start | stop | put | wake => exact hc trivial

/-- A `stop` of a running pool cancels its workers. -/
theorem cancelled_of_stop (h : step env s .stop = some t) (hrunning : s.running = true)
    (hw : w ∈ s.workers) (hlive : w.live = true) (htask : s.ofTask w = true) :
    { w with stage := .cancelled } ∈ t.workers := by
  simp only [step, hrunning, if_true] at h
  split at h
  · obtain rfl := Option.some.inj h
    have hcancel : s.cancel w = { w with stage := .cancelled } := by simp [cancel, htask, hlive]
    exact hcancel ▸ List.mem_map_of_mem hw
  · cases h

/-- A worker that is stopped with an item in hand does not survive it. -/
theorem not_survive_of_stop (hs : s.Inv) (hc : ¬StopsIdle s l) (h : step env s l = some t) :
    ¬t.WorkersSurvive := by
  intro hsafe
  cases l with
  | stop =>
    obtain ⟨w, hw, hhand⟩ : ∃ w ∈ s.workers, w.tasksDone ≠ w.taken := by
      simpa only [StopsIdle, not_forall, exists_prop] using hc
    have hlive : w.live = true := by
      by_contra hidle
      exact hhand (hs.settled hw (by simpa using hidle))
    have hrunning : s.running = true := by
      by_contra hidle
      have hnone := hs.idle (by simpa using hidle) w hw
      rw [hlive] at hnone
      cases hnone
    exact hhand (hsafe.survive _ (cancelled_of_stop h hrunning hw hlive (hs.current w hw hlive).2))
  | start | put | take | reply | wake => exact hc trivial

theorem not_survive_of_not (hs : s.Inv) (hc : ¬(Undisturbed env s l ∧ StopsIdle s l))
    (h : step env s l = some t) : ¬t.WorkersSurvive := by
  by_cases hundisturbed : Undisturbed env s l
  · exact not_survive_of_stop hs (fun hidle => hc ⟨hundisturbed, hidle⟩) h
  · exact not_survive hs hundisturbed h

/-- Only a `stop` of a running pool cancels a worker. -/
theorem uncancelled_step (hs : s.Uncancelled) (hc : StopsNothing s l)
    (h : step env s l = some t) : t.Uncancelled := by
  have hset : ∀ {i : Nat} {w' : Worker}, w'.stage ≠ .cancelled →
      ∀ w ∈ s.workers.set i w', w.stage ≠ .cancelled := fun hw' w hw => by
    rcases List.mem_or_eq_of_mem_set hw with hw | rfl
    · exact hs w hw
    · exact hw'
  cases l with
  | start =>
    simp only [step] at h
    split at h
    · cases h
      exact hs
    · cases h
      intro w hw
      rcases List.mem_append.mp hw with hw | hw
      · exact hs w hw
      · rw [List.eq_of_mem_replicate hw]
        intro hcancelled
        cases hcancelled
  | stop =>
    have hidle : s.running = false := hc
    simp only [step, hidle, Bool.false_eq_true, if_false] at h
    split at h
    · cases h
      exact hs
    · cases h
  | put item =>
    simp only [step] at h
    split at h
    · cases h
      exact hs
    · cases h
  | take i =>
    obtain ⟨w, entry, queue, -, -, -, rfl⟩ := step_take h
    refine hset fun hcancelled => ?_
    cases entry with
    | none call => cases hcancelled
    | item item =>
      rw [Worker.take] at hcancelled
      split at hcancelled <;> cases hcancelled
  | reply i r =>
    obtain ⟨w, text, retries, -, -, rfl⟩ := step_reply h
    refine hset fun hcancelled => ?_
    cases hreply : sendMessage env.floats retries r <;> rw [hreply] at hcancelled <;>
      cases hcancelled
  | wake i =>
    obtain ⟨w, -, h⟩ := Option.bind_eq_some_iff.mp h
    split at h
    · cases h
      refine hset fun hcancelled => ?_
      cases hcancelled
    · cases h

/-- A `stop` that finds no pool running finds no item in hand. -/
theorem Inv.stopsIdle (hs : s.Inv) (hc : StopsNothing s l) : StopsIdle s l := by
  cases l with
  | stop => exact fun w hw => hs.settled hw (hs.idle hc w hw)
  | start | put | take | reply | wake => trivial

theorem not_uncancelled (hc : ¬StopsNothing s l) (h : step env s l = some t) :
    ¬t.Uncancelled := by
  cases l with
  | stop =>
    have hrunning : s.running = true := by simpa [StopsNothing] using hc
    obtain ⟨w, hw, hboth⟩ : ∃ w ∈ s.workers, (s.ofTask w && w.live) = true := by
      have hany := hrunning
      rw [running, Bool.and_eq_true, Bool.and_eq_true, List.any_eq_true] at hany
      exact hany.1.2
    obtain ⟨htask, hlive⟩ := Bool.and_eq_true_iff.mp hboth
    exact fun hnone => hnone _ (cancelled_of_stop h hrunning hw hlive htask) rfl
  | start | put | take | reply | wake => exact absurd trivial hc

/-- **Exactly the runs in which every worker survives**: those in which no worker is given
a `None` that an earlier `stop` has left on the queue, every response that `send_message`
reads can be read, and `stop` finds no item in hand.  No worker is cancelled either exactly
if, moreover, `stop` finds no pool running. -/
theorem workersSurvive_iff (env : Env) (hU : env.unicode.LettersLow) (labels : List Label)
    (hrun : IsRun (step env) new labels) :
    ((∀ s ∈ visited (step env) new labels, s.WorkersSurvive) ↔
        Meets (step env) (fun s l => Undisturbed env s l ∧ StopsIdle s l) new labels) ∧
      ((∀ s ∈ visited (step env) new labels, s.WorkersSurvive ∧ s.Uncancelled) ↔
        Meets (step env) (fun s l => Undisturbed env s l ∧ StopsNothing s l) new labels) := by
  constructor
  · exact safe_iff_meets (fun _ hs => ⟨hs.survive, hs.complete⟩) (fun _ _ _ => inv_step hU)
      (fun _ _ _ => not_survive_of_not) inv_new hrun
  · refine safe_iff_meets
      (fun s (hs : s.Inv ∧ s.Uncancelled) => ⟨⟨hs.1.survive, hs.1.complete⟩, hs.2⟩)
      (fun _ _ _ hs hc h => ⟨inv_step hU hs.1 ⟨hc.1, hs.1.stopsIdle hc.2⟩ h,
        uncancelled_step hs.2 hc.2 h⟩)
      (fun s l _ hs hc h hsafe => ?_) ⟨inv_new, by simp [new, Uncancelled]⟩ hrun
    by_cases hnothing : StopsNothing s l
    · exact not_survive_of_not hs.1 (fun hboth => hc ⟨hboth.1, hnothing⟩) h hsafe.1
    · exact not_uncancelled hnothing h hsafe.2

/-- An item of the sample link. -/
def sampleItem : PublishItem := ⟨sampleLink, "DE".toList⟩

/-- A response with a JSON body. -/
def jsonResponse (status : Nat) (body : Str) : Reply :=
  .response ⟨status, true, Utf8.encode body, Utf8.decode⟩

/-- The body of an answer that asks for patience. -/
def retryBody (retryAfter : String) : Str :=
  ("\x7b\"parameters\":\x7b\"retry_after\":" ++ retryAfter ++ "\x7d\x7d").toList

/-- An item is sent at the second attempt. -/
def sentRun : List Label :=
  [.start, .put sampleItem, .take 0,
    .reply 0 (jsonResponse 429 (retryBody "3")), .reply 0 (jsonResponse 200 []), .wake 0, .stop]

theorem workersSurvive_sentRun :
    (∀ s ∈ visited (step Env.sample) new sentRun, s.WorkersSurvive) ↔
      Meets (step Env.sample) (fun s l => Undisturbed Env.sample s l ∧ StopsIdle s l) new
        sentRun :=
  (workersSurvive_iff Env.sample lettersLow_sample sentRun (by decide +kernel)).1

/-- The endpoint asks for patience and does not say how long. -/
def nullDelayRun : List Label :=
  [.start, .put sampleItem, .take 0, .reply 0 (jsonResponse 429 (retryBody "null"))]

/-- The broadcaster is stopped and started again. -/
def restartRun : List Label := [.start, .stop, .start, .take 3]

/-- The broadcaster is stopped while a worker sends. -/
def stopWhileSendingRun : List Label := [.start, .put sampleItem, .take 0, .stop]

/-- Each of these ends a worker. -/
theorem not_workersSurvive :
    (IsRun (step Env.sample) new nullDelayRun ∧
        ¬∀ s ∈ visited (step Env.sample) new nullDelayRun, s.WorkersSurvive) ∧
      (IsRun (step Env.sample) new restartRun ∧
        ¬∀ s ∈ visited (step Env.sample) new restartRun, s.WorkersSurvive) ∧
      IsRun (step Env.sample) new stopWhileSendingRun ∧
        ¬∀ s ∈ visited (step Env.sample) new stopWhileSendingRun, s.WorkersSurvive := by
  decide +kernel

end Pool
end ConfigManager
