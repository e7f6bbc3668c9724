import ConfigManager.WorkersSurvive
import Mathlib.Data.List.Perm.Basic

/-! # What becomes of the items on the publish queue

A ledger is kept beside the broadcaster: which items were put on the queue, which were taken
off it, which of these a worker holds, and what `send_message` returned for the others.
Whatever is started and stopped, and whatever the endpoint answers, items are taken in the
order in which they were put, one worker holds one item, and every item is on the queue, or
held, or answered, once: `ledger_of_run`.

An item is held for good by a worker that has died, that sleeps for ever, or that `stop` has
cancelled.  Where none of this happens the worker that holds an item is sending it.
-/
namespace ConfigManager

open Py Runs

/-- The item of an entry. -/
def itemOf : Entry → Option PublishItem
  | .item item => some item
  | .none _ => none

/-- A worker that has taken this item, and has not been answered. -/
def Worker.Holds (env : Env) (w : Worker) (item : PublishItem) : Prop :=
  match w.stage with
  | .sending text _ => formatMessage env item = some text
  | .asleep | .died | .cancelled => True
  | .waiting | .pausing | .left _ => False

def Worker.isSending (w : Worker) : Bool :=
  match w.stage with
  | .sending _ _ => true
  | _ => false

namespace Pool

/-- What became of the items so far. -/
structure Ledger where
  put : List PublishItem
  taken : List PublishItem
  /-- The items that were taken and not answered, with the numbers of their workers. -/
  held : List (Nat × PublishItem)
  /-- The others, with what `send_message` returned. -/
  answered : List (PublishItem × Bool)

namespace Ledger

def empty : Ledger := ⟨[], [], [], []⟩

/-- Worker `i` takes an item. -/
def take (L : Ledger) (i : Nat) (item : PublishItem) : Ledger :=
  { L with taken := L.taken ++ [item], held := L.held ++ [(i, item)] }

/-- An attempt of worker `i` ends. -/
def attempt (L : Ledger) (i : Nat) : Attempt → Ledger
  | .returned ok => { L with
      held := L.held.filter fun p => p.1 ≠ i
      answered := L.answered ++ (L.held.filter fun p => p.1 = i).map fun p => (p.2, ok) }
  | .again | .asleep | .raised => L

/-- What a step adds. -/
def note (env : Env) (s : Pool) (L : Ledger) : Label → Ledger
  | .put item => { L with put := L.put ++ [item] }
  | .take i =>
      match s.queue with
      | .item item :: _ => L.take i item
      | _ => L
  | .reply i r =>
      match s.workers[i]? with
      | some ⟨_, .sending _ retries, _, _⟩ => L.attempt i (sendMessage env.floats retries r)
      | _ => L
  | .start | .stop | .wake _ => L

end Ledger

/-- The ledger of a run. -/
def ledger (env : Env) (s : Pool) (L : Ledger) : List Label → Ledger
  | [] => L
  | l :: labels =>
      match step env s l with
      | some t => ledger env t (L.note env s l) labels
      | none => L

/-- The item a label puts on the queue. -/
def Label.item? : Label → Option PublishItem
  | .put item => some item
  | _ => none

/-- The ledger is right. -/
structure Recorded (env : Env) (s : Pool) (L : Ledger) : Prop where
  queue : L.put = L.taken ++ s.queue.filterMap itemOf
  room : s.queue.length ≤ publishQueueSize
  taken : L.taken.Perm (L.held.map Prod.snd ++ L.answered.map Prod.fst)
  numbers : (L.held.map Prod.fst).Nodup
  holds : ∀ p ∈ L.held, ∃ w, s.workers[p.1]? = some w ∧ w.Holds env p.2
  sending : ∀ (i : Nat) w, s.workers[i]? = some w → w.isSending = true → i ∈ L.held.map Prod.fst

variable {env : Env} {s t : Pool} {L : Ledger} {l : Label} {w w' : Worker} {i : Nat}

theorem recorded_new : Recorded env new .empty := by
  constructor <;> simp [new, Ledger.empty]

/-- **What does not concern the items**: the workers go on holding what they held, and nobody
begins to send. -/
theorem Recorded.frame (hs : Recorded env s L)
    (hqueue : t.queue.filterMap itemOf = s.queue.filterMap itemOf)
    (hroom : t.queue.length ≤ publishQueueSize)
    (hholds : ∀ (i : Nat) w, s.workers[i]? = some w →
      ∃ w', t.workers[i]? = some w' ∧ ∀ item, w.Holds env item → w'.Holds env item)
    (hsending : ∀ (i : Nat) w', t.workers[i]? = some w' → w'.isSending = true →
      ∃ w, s.workers[i]? = some w ∧ w.isSending = true) : Recorded env t L where
  queue := by rw [hqueue, hs.queue]
  room := hroom
  taken := hs.taken
  numbers := hs.numbers
  holds p hp := by
    obtain ⟨w, hw, hold⟩ := hs.holds p hp
    obtain ⟨w', hw', hkeeps⟩ := hholds p.1 w hw
    exact ⟨w', hw', hkeeps p.2 hold⟩
  sending i w' hw' hsend := by
    obtain ⟨w, hw, hsend⟩ := hsending i w' hw' hsend
    exact hs.sending i w hw hsend

theorem getElem?_set_self {ws : List Worker} (hw : ws[i]? = some w) : (ws.set i w')[i]? = some w' :=
  List.getElem?_set_self (List.getElem?_eq_some_iff.mp hw).1

/-- A worker goes on that holds what it held. -/
theorem Recorded.set (hs : Recorded env s L) (w' : Worker) (hw : s.workers[i]? = some w)
    (hholds : ∀ item, w.Holds env item → w'.Holds env item)
    (hsending : w'.isSending = true → w.isSending = true)
    {queue : List Entry} (hqueue : queue.filterMap itemOf = s.queue.filterMap itemOf)
    (hroom : queue.length ≤ publishQueueSize) :
    Recorded env { s with queue := queue, workers := s.workers.set i w' } L := by
  refine hs.frame hqueue hroom (fun j v hv => ?_) fun j v' hv' hsend => ?_
  · by_cases hij : i = j
    · subst hij
      cases hw.symm.trans hv
      exact ⟨w', getElem?_set_self hw, hholds⟩
    · exact ⟨v, (List.getElem?_set_ne hij).trans hv, fun _ h => h⟩
  · by_cases hij : i = j
    · subst hij
      cases (getElem?_set_self hw).symm.trans hv'
      exact ⟨w, hw, hsending hsend⟩
    · exact ⟨v', (List.getElem?_set_ne hij).symm.trans hv', hsend⟩

theorem Recorded.start (hs : Recorded env s L) (h : step env s .start = some t) :
    Recorded env t L := by
  simp only [step] at h
  split at h
  · cases h
    exact hs.frame rfl hs.room (fun i w hw => ⟨w, hw, fun _ h => h⟩) fun i w hw hsend =>
      ⟨w, hw, hsend⟩
  · cases h
    refine hs.frame rfl hs.room (fun i w hw => ⟨w, ?_, fun _ h => h⟩) fun i w hw hsend => ?_
    · rw [List.getElem?_append_left (List.getElem?_eq_some_iff.mp hw).1]
      exact hw
    · rcases Nat.lt_or_ge i s.workers.length with hi | hi
      · rw [List.getElem?_append_left hi] at hw
        exact ⟨w, hw, hsend⟩
      · rw [List.getElem?_append_right hi] at hw
        rw [List.eq_of_mem_replicate (List.mem_of_getElem? hw)] at hsend
        cases hsend

theorem holds_cancel (w : Worker) {item : PublishItem} (h : w.Holds env item) :
    (s.cancel w).Holds env item := by
  rw [cancel]
  split
  · trivial
  · exact h

theorem isSending_of_cancel (h : (s.cancel w).isSending = true) : w.isSending = true := by
  rw [cancel] at h
  split at h
  · cases h
  · exact h

theorem Recorded.stop (hs : Recorded env s L) (h : step env s .stop = some t) :
    Recorded env t L := by
  simp only [step] at h
  split at h
  next hplace =>
    cases h
    refine hs.frame (by simp [itemOf]) (by simpa using Nat.succ_le_of_lt hplace)
      (fun i w hw => ?_) fun i w' hw' hsend => ?_
    · show ∃ w', (if s.running then s.workers.map s.cancel else s.workers)[i]? = some w' ∧ _
      split
      · exact ⟨s.cancel w, by rw [List.getElem?_map, hw]; rfl, fun _ => holds_cancel w⟩
      · exact ⟨w, hw, fun _ h => h⟩
    · have hw' : (if s.running then s.workers.map s.cancel else s.workers)[i]? = some w' := hw'
      split at hw'
      · rw [List.getElem?_map] at hw'
        obtain ⟨w, hw, rfl⟩ := Option.map_eq_some_iff.mp hw'
        exact ⟨w, hw, isSending_of_cancel hsend⟩
      · exact ⟨w', hw', hsend⟩
  · cases h

theorem Recorded.put (hs : Recorded env s L) {item : PublishItem}
    (h : step env s (.put item) = some t) : Recorded env t (L.note env s (.put item)) := by
  simp only [step] at h
  split at h
  next hplace =>
    cases h
    exact {
      queue := by
        show L.put ++ [item] = L.taken ++ (s.queue ++ [Entry.item item]).filterMap itemOf
        rw [hs.queue, List.filterMap_append, List.append_assoc]
        rfl
      room := by simpa using Nat.succ_le_of_lt hplace
      taken := hs.taken
      numbers := hs.numbers
      holds := hs.holds
      sending := hs.sending }
  · cases h

/-- A worker that holds nothing takes an item. -/
theorem Recorded.takeItem (hs : Recorded env s L) {item : PublishItem} {queue : List Entry}
    (hw : s.workers[i]? = some w) (hqueue : s.queue = .item item :: queue)
    (hfree : ∀ item, ¬w.Holds env item) (hholds : w'.Holds env item) :
    Recorded env { s with queue := queue, workers := s.workers.set i w' } (L.take i item) := by
  have hnew : i ∉ L.held.map Prod.fst := by
    intro hmem
    obtain ⟨p, hp, rfl⟩ := List.mem_map.mp hmem
    obtain ⟨v, hv, hold⟩ := hs.holds p hp
    cases hw.symm.trans hv
    exact hfree _ hold
  refine ⟨?_, ?_, ?_, ?_, fun p hp => ?_, fun j v hv hsend => ?_⟩
  · show L.put = L.taken ++ [item] ++ queue.filterMap itemOf
    rw [hs.queue, hqueue, List.append_assoc, List.filterMap_cons]
    rfl
  · have hroom := hs.room
    rw [hqueue] at hroom
    exact Nat.le_of_succ_le hroom
  · show (L.taken ++ [item]).Perm ((L.held ++ [(i, item)]).map Prod.snd ++ L.answered.map Prod.fst)
    rw [List.map_append, List.append_assoc]
    refine (hs.taken.append_right [item]).trans ?_
    rw [List.append_assoc]
    exact List.perm_append_comm.append_left _
  · show ((L.held ++ [(i, item)]).map Prod.fst).Nodup
    rw [List.map_append]
    exact hs.numbers.append (List.nodup_singleton i) (by simpa using hnew)
  · rcases List.mem_append.mp hp with hp | hp
    · obtain ⟨v, hv, hold⟩ := hs.holds p hp
      have hij : i ≠ p.1 := fun hij => hnew (hij ▸ List.mem_map_of_mem hp)
      exact ⟨v, (List.getElem?_set_ne hij).trans hv, hold⟩
    · rw [List.mem_singleton.mp hp]
      exact ⟨w', getElem?_set_self hw, hholds⟩
  · show j ∈ (L.held ++ [(i, item)]).map Prod.fst
    rw [List.map_append, List.mem_append]
    by_cases hij : i = j
    · exact .inr (by simp [hij])
    · exact .inl (hs.sending j v ((List.getElem?_set_ne hij).symm.trans hv) hsend)

theorem not_holds_of_waiting (hstage : w.stage = .waiting) (item : PublishItem) :
    ¬w.Holds env item := by
  rw [Worker.Holds, hstage]
  exact id

theorem Recorded.takeEntry (hs : Recorded env s L) (h : step env s (.take i) = some t) :
    Recorded env t (L.note env s (.take i)) := by
  obtain ⟨w, entry, queue, hw, hqueue, hstage, rfl⟩ := step_take h
  have hfree : ∀ item, ¬w.Holds env item := not_holds_of_waiting hstage
  cases entry with
  | none call =>
    rw [Ledger.note, hqueue]
    have hroom := hs.room
    rw [hqueue] at hroom
    refine hs.set (w.take env (.none call)) hw (fun item hold => absurd hold (hfree item))
      (fun h => absurd h Bool.false_ne_true) ?_
      (Nat.le_of_succ_le hroom)
    rw [hqueue, List.filterMap_cons]
    rfl
  | item item =>
    rw [Ledger.note, hqueue]
    refine hs.takeItem hw hqueue hfree ?_
    rw [Worker.take]
    cases hformat : formatMessage env item with
    | none => trivial
    | some text => exact hformat

theorem Recorded.reply (hs : Recorded env s L) {r : Reply} (h : step env s (.reply i r) = some t) :
    Recorded env t (L.note env s (.reply i r)) := by
  obtain ⟨w, text, retries, hw, hstage, rfl⟩ := step_reply h
  obtain ⟨startedBy, stage, taken, tasksDone⟩ := w
  subst hstage
  rw [Ledger.note, hw]
  show Recorded env _ (L.attempt i (sendMessage env.floats retries r))
  cases sendMessage env.floats retries r with
  | returned ok =>
    have hother : ∀ p ∈ L.held.filter (fun p => p.1 ≠ i), p ∈ L.held ∧ i ≠ p.1 := fun p hp =>
      ⟨(List.mem_filter.mp hp).1, fun hi => of_decide_eq_true (List.mem_filter.mp hp).2 hi.symm⟩
    refine ⟨hs.queue, hs.room, ?_, ?_, fun p hp => ?_, fun j v hv hsend => ?_⟩
    · -- The answered item moves from the one list to the other.
      have hsplit : ((L.held.filter fun p => p.1 = i) ++ L.held.filter fun p => p.1 ≠ i).Perm
          L.held := by
        simpa using List.filter_append_perm (fun p : Nat × PublishItem => p.1 = i) L.held
      have hmap := hsplit.map Prod.snd
      rw [List.map_append] at hmap
      refine hs.taken.trans ?_
      show List.Perm _ (List.map Prod.snd _ ++ List.map Prod.fst (L.answered ++ List.map _ _))
      rw [List.map_append, List.map_map, ← List.append_assoc]
      refine (hmap.symm.append_right _).trans ?_
      rw [List.append_assoc]
      exact List.perm_append_comm
    · exact hs.numbers.sublist (List.filter_sublist.map Prod.fst)
    · obtain ⟨hp, hij⟩ := hother p hp
      obtain ⟨v, hv, hold⟩ := hs.holds p hp
      exact ⟨v, (List.getElem?_set_ne hij).trans hv, hold⟩
    · by_cases hij : i = j
      · subst hij
        cases (getElem?_set_self hw).symm.trans hv
        cases hsend
      · have hmem := hs.sending j v ((List.getElem?_set_ne hij).symm.trans hv) hsend
        obtain ⟨p, hp, rfl⟩ := List.mem_map.mp hmem
        exact List.mem_map_of_mem (List.mem_filter.mpr ⟨hp, by simpa using Ne.symm hij⟩)
  | again =>
    exact hs.set ⟨startedBy, .sending text (retries + 1), taken, tasksDone⟩ hw (fun _ hold => hold)
      (fun _ => rfl) rfl hs.room
  | asleep =>
    exact hs.set ⟨startedBy, .asleep, taken, tasksDone⟩ hw (fun _ _ => trivial)
      (fun h => nomatch h) rfl hs.room
  | raised =>
    exact hs.set ⟨startedBy, .died, taken, tasksDone⟩ hw (fun _ _ => trivial)
      (fun h => nomatch h) rfl hs.room

theorem Recorded.wake (hs : Recorded env s L) (h : step env s (.wake i) = some t) :
    Recorded env t L := by
  obtain ⟨w, hw, h⟩ := Option.bind_eq_some_iff.mp h
  split at h
  next hstage =>
    cases h
    refine hs.set { w with stage := .waiting } hw (fun item hold => ?_) (fun h => nomatch h) rfl
      hs.room
    rw [Worker.Holds, hstage] at hold
    exact hold.elim
  · cases h

/-- **A step keeps the ledger right.** -/
theorem Recorded.step (hs : Recorded env s L) (h : step env s l = some t) :
    Recorded env t (L.note env s l) := by
  cases l with
  | start => exact hs.start h
  | stop => exact hs.stop h
  | put item => exact hs.put h
  | take i => exact hs.takeEntry h
  | reply i r => exact hs.reply h
  | wake i => exact hs.wake h

theorem recorded_run {labels : List Label} (hs : Recorded env s L)
    (h : run (step env) s labels = some t) : Recorded env t (ledger env s L labels) := by
  induction labels generalizing s L with
  | nil =>
    cases h
    exact hs
  | cons l labels ih =>
    obtain ⟨u, hu, h⟩ := Option.bind_eq_some_iff.mp h
    rw [ledger, hu]
    exact ih (hs.step hu) h

/-- What was put is what the labels put. -/
theorem put_ledger {labels : List Label} (h : run (step env) s labels = some t) :
    (ledger env s L labels).put = L.put ++ labels.filterMap Label.item? := by
  induction labels generalizing s L with
  | nil => simp [ledger]
  | cons l labels ih =>
    obtain ⟨u, hu, h⟩ := Option.bind_eq_some_iff.mp h
    have hattempt : ∀ (i : Nat) (a : Attempt), (L.attempt i a).put = L.put := fun i a => by
      cases a <;> rfl
    have hnote : (L.note env s l).put = L.put ++ l.item?.toList := by
      cases l with
      | put item => rfl
      | start | stop | wake => exact (List.append_nil _).symm
      | take i =>
        rw [Ledger.note]
        split <;> exact (List.append_nil _).symm
      | reply i r =>
        rw [Ledger.note]
        split
        · exact (hattempt ..).trans (List.append_nil _).symm
        · exact (List.append_nil _).symm
    rw [ledger, hu, ih h, hnote, List.append_assoc, List.filterMap_cons]
    cases l.item? <;> rfl

/-! ## Undisturbed workers -/

/-- **Undisturbed workers send what they hold**, until somebody calls `stop`. -/
theorem sending_of_undisturbed (hU : env.unicode.LettersLow) {labels : List Label}
    (h : run (step env) new labels = some s) (hstop : ∀ l ∈ labels, l ≠ .stop)
    (hm : Meets (step env) (Undisturbed env) new labels) (hw : w ∈ s.workers) {item : PublishItem}
    (hold : w.Holds env item) :
    ∃ text retries, w.stage = .sending text retries ∧ formatMessage env item = some text := by
  have hlast := mem_visited_last h
  have hstops : ∀ (s : Pool) (l : Label), l ≠ .stop → StopsIdle s l ∧ StopsNothing s l := by
    intro s l hl
    cases l <;> first | exact absurd rfl hl | exact ⟨trivial, trivial⟩
  have hidle : Meets (step env) StopsIdle new labels :=
    (meets_of_forall new hstop).imp fun s l hl => (hstops s l hl).1
  have hinv : s.Inv := visited_of_inv (fun _ _ _ => inv_step hU) inv_new (hm.and hidle) s hlast
  have hnew : Uncancelled new := fun _ hw => absurd hw List.not_mem_nil
  have hstep : ∀ s l t, Uncancelled s → l ≠ .stop → step env s l = some t → Uncancelled t :=
    fun s l _ hs hl => uncancelled_step hs (hstops s l hl).2
  have hnone : s.Uncancelled :=
    visited_of_inv hstep hnew (meets_of_forall new hstop) s hlast
  have hlive := (hinv.stage w hw).resolve_right (hnone w hw)
  have hsurvives := hinv.survive w hw
  obtain ⟨startedBy, stage, taken, tasksDone⟩ := w
  cases stage with
  | sending text retries => exact ⟨text, retries, rfl, hold⟩
  | waiting | pausing => exact hold.elim
  | asleep => exact hsurvives.elim
  | left call => exact hold.elim
  | died | cancelled => cases hlive

/-! ## All items -/

/-- **What becomes of the items** in any run: they are taken in the order in which they were
put, and there is room for five hundred; each item that was taken is held by one worker, which
holds nothing else, or was answered, once; and if nobody has called `stop`, no worker has been
given a `None` and every response could be read, the workers that hold one are sending it. -/
theorem ledger_of_run (env : Env) (hU : env.unicode.LettersLow) (labels : List Label) (s : Pool)
    (h : run (step env) new labels = some s) :
    (ledger env new .empty labels).put = labels.filterMap Label.item? ∧
      (ledger env new .empty labels).put =
        (ledger env new .empty labels).taken ++ s.queue.filterMap itemOf ∧
      s.queue.length ≤ 500 ∧
      (ledger env new .empty labels).taken.Perm
        ((ledger env new .empty labels).held.map Prod.snd ++
          (ledger env new .empty labels).answered.map Prod.fst) ∧
      ((ledger env new .empty labels).held.map Prod.fst).Nodup ∧
      (∀ p ∈ (ledger env new .empty labels).held,
        ∃ w, s.workers[p.1]? = some w ∧ w.Holds env p.2) ∧
      ((∀ l ∈ labels, l ≠ .stop) → Meets (step env) (Undisturbed env) new labels →
        ∀ p ∈ (ledger env new .empty labels).held, ∃ w text retries, s.workers[p.1]? = some w ∧
          w.stage = .sending text retries ∧ formatMessage env p.2 = some text) := by
  have hrecorded := recorded_run recorded_new h
  refine ⟨(put_ledger h).trans (List.nil_append _), hrecorded.queue, hrecorded.room,
    hrecorded.taken, hrecorded.numbers, hrecorded.holds, fun hstop hm p hp => ?_⟩
  obtain ⟨w, hw, hold⟩ := hrecorded.holds p hp
  obtain ⟨text, retries, hstage, htext⟩ :=
    sending_of_undisturbed hU h hstop hm (List.mem_of_getElem? hw) hold
  exact ⟨w, text, retries, hw, hstage, htext⟩

/-- Of two items one is answered, and the other is being sent again. -/
def twoItemsRun : List Label :=
  [.start, .put sampleItem, .put ⟨sampleLink, "NL".toList⟩, .take 1, .take 0,
    .reply 1 (jsonResponse 200 []), .reply 0 .timeout]

theorem ledger_of_twoItemsRun :
    ∃ s, run (step Env.sample) new twoItemsRun = some s ∧
      (ledger Env.sample new .empty twoItemsRun).put =
        (ledger Env.sample new .empty twoItemsRun).taken ++ s.queue.filterMap itemOf ∧
      (ledger Env.sample new .empty twoItemsRun).taken.Perm
        ((ledger Env.sample new .empty twoItemsRun).held.map Prod.snd ++
          (ledger Env.sample new .empty twoItemsRun).answered.map Prod.fst) ∧
      ∀ p ∈ (ledger Env.sample new .empty twoItemsRun).held,
        ∃ w text retries, s.workers[p.1]? = some w ∧
          w.stage = .sending text retries ∧ formatMessage Env.sample p.2 = some text := by
  have hrun : (run (step Env.sample) new twoItemsRun).isSome = true := by decide +kernel
  obtain ⟨s, hs⟩ := Option.isSome_iff_exists.mp hrun
  have hstop : ∀ l ∈ twoItemsRun, l ≠ .stop := by simp [twoItemsRun]
  -- Every worker survives this run, so none is disturbed.
  have hm : Meets (step Env.sample) (Undisturbed Env.sample) new twoItemsRun :=
    ((safe_iff_meets (fun _ hs => ⟨hs.survive, hs.complete⟩)
      (fun _ _ _ => inv_step lettersLow_sample) (fun _ _ _ => not_survive_of_not) inv_new
        hrun).mp (by decide +kernel)).imp fun _ _ h => h.1
  have hledger := ledger_of_run Env.sample lettersLow_sample twoItemsRun s hs
  exact ⟨s, hs, hledger.2.1, hledger.2.2.2.1, hledger.2.2.2.2.2.2 hstop hm⟩

end Pool
end ConfigManager
