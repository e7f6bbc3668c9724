import ConfigManager.Runs
import Mathlib.Algebra.BigOperators.Group.List.Basic
import Mathlib.Algebra.Order.Ring.Nat
import Mathlib.Data.List.Nodup
import Mathlib.Data.List.Perm.Basic
import Mathlib.Logic.Function.Basic

/-! # Messages between services (`services.message_queue`)

Messages are put on a queue, and tasks of `process_messages` take them off it and call the
callbacks that have subscribed to their type, one after the other.  The loop over the
subscribers comes upon those that subscribe while it waits for a callback.  A callback that
raises has come back like any other; one that does not come back stops its task, not the
others.

`delivered` says who is called with what, however the tasks, the callbacks and those who put
messages and subscribe interleave.
-/
namespace ConfigManager

open Runs

inductive MessageType where
  | configScraped
  | configValidated
  | configPublished
  | errorOccurred
  | userAction
  deriving DecidableEq

/-- A message. -/
structure QueuedMessage (δ : Type) where
  type : MessageType
  data : δ
  /-- How many messages were put before. -/
  number : Nat
  /-- How many callbacks had subscribed to its type when it was put. -/
  heard : Nat

/-- A message that a task is at: this many callbacks were called with it, and the last has not
come back. -/
structure Delivery (δ : Type) where
  message : QueuedMessage δ
  called : Nat

/-- A call, of the callback at this place among the subscribers. -/
structure Call (δ : Type) where
  message : QueuedMessage δ
  place : Nat

/-- A call of an earlier message, or of the same for a callback further in front. -/
def Call.Precedes {δ : Type} (a b : Call δ) : Prop :=
  a.message.number < b.message.number ∨ a.message = b.message ∧ a.place < b.place

/-- The queue, what is around it, and what has happened. -/
structure MessageQueue (δ γ : Type) where
  queue : List (QueuedMessage δ)
  subscribers : MessageType → List γ
  /-- The tasks; one that is at no message waits for the queue. -/
  tasks : List (Option (Delivery δ))
  /-- All messages that were put. -/
  sent : List (QueuedMessage δ)
  calls : List (Call δ)

namespace MessageQueue

variable {δ γ : Type}

/-- What can happen. -/
inductive Label (δ γ : Type) where
  | put (type : MessageType) (data : δ)
  | subscribe (type : MessageType) (callback : γ)
  | startProcessing
  /-- Task `i` is given what comes next. -/
  | get (i : Nat)
  /-- The callback that task `i` has called comes back, or raises. -/
  | back (i : Nat)

/-- The message a label puts on the queue. -/
def Label.message? : Label δ γ → Option (MessageType × δ)
  | .put type data => some (type, data)
  | _ => none

/-- The callback a label subscribes to a type. -/
def Label.callback? (type : MessageType) : Label δ γ → Option γ
  | .subscribe type' callback => if type' = type then some callback else none
  | _ => none

/-- `MessageQueue()`. -/
def new : MessageQueue δ γ := ⟨[], fun _ => [], [], [], []⟩

/-- The loop of task `i` over the subscribers goes on. -/
def deliver (s : MessageQueue δ γ) (i : Nat) (d : Delivery δ) : MessageQueue δ γ :=
  if d.called < (s.subscribers d.message.type).length then
    { s with
      tasks := s.tasks.set i (some { d with called := d.called + 1 })
      calls := s.calls ++ [⟨d.message, d.called⟩] }
  else { s with tasks := s.tasks.set i none }

def step (s : MessageQueue δ γ) : Label δ γ → Option (MessageQueue δ γ)
  | .put type data =>
      let message := ⟨type, data, s.sent.length, (s.subscribers type).length⟩
      some { s with queue := s.queue ++ [message], sent := s.sent ++ [message] }
  | .subscribe type callback =>
      some { s with
        subscribers := Function.update s.subscribers type (s.subscribers type ++ [callback]) }
  | .startProcessing => some { s with tasks := s.tasks ++ [none] }
  | .get i =>
      match s.tasks[i]?, s.queue with
      | some none, message :: queue => some ({ s with queue }.deliver i ⟨message, 0⟩)
      | _, _ => none
  | .back i =>
      match s.tasks[i]? with
      | some (some d) => some (s.deliver i d)
      | _ => none

/-- The messages that tasks are at. -/
def deliveries (s : MessageQueue δ γ) : List (Delivery δ) := s.tasks.filterMap id

/-- Nothing is left to do. -/
def Quiet (s : MessageQueue δ γ) : Prop := s.queue = [] ∧ ∀ task ∈ s.tasks, task = none

/-- What holds at any time, with `active` the messages that tasks are at. -/
structure Kept (s : MessageQueue δ γ) (active : List (Delivery δ)) : Prop where
  numbered : s.sent.map QueuedMessage.number = List.range s.sent.length
  queue : s.queue <:+ s.sent
  taken : ∀ d ∈ active, d.message ∈ s.sent ∧ d.message ∉ s.queue
  distinct : (active.map Delivery.message).Nodup
  call : ∀ c ∈ s.calls, c.message ∈ s.sent ∧ c.message ∉ s.queue ∧
    c.place < (s.subscribers c.message.type).length
  once : s.calls.Nodup
  before : ∀ c ∈ s.calls, ∀ d ∈ active, c.message = d.message → c.place < d.called
  called : ∀ d ∈ active, ∀ j < d.called, ⟨d.message, j⟩ ∈ s.calls
  heard : ∀ m ∈ s.sent, m.heard ≤ (s.subscribers m.type).length
  finished : ∀ m ∈ s.sent, m ∈ s.queue ∨ m ∈ active.map Delivery.message ∨
    ∀ j < m.heard, ⟨m, j⟩ ∈ s.calls

variable {s t : MessageQueue δ γ} {l : Label δ γ} {d : Delivery δ} {active : List (Delivery δ)}

theorem kept_new : (new : MessageQueue δ γ).Kept [] := by
  constructor <;> simp [new]

/-- The order of the active messages does not matter. -/
theorem Kept.perm (hs : s.Kept active) {active' : List (Delivery δ)} (h : active'.Perm active) :
    s.Kept active' where
  numbered := hs.numbered
  queue := hs.queue
  taken d hd := hs.taken d (h.mem_iff.mp hd)
  distinct := (h.map Delivery.message).nodup_iff.mpr hs.distinct
  call := hs.call
  once := hs.once
  before c hc d hd := hs.before c hc d (h.mem_iff.mp hd)
  called d hd := hs.called d (h.mem_iff.mp hd)
  heard := hs.heard
  finished m hm := (hs.finished m hm).imp_right fun hm =>
    hm.imp_left (h.map Delivery.message).mem_iff.mpr

/-- No message is sent twice. -/
theorem Kept.nodup_sent (hs : s.Kept active) : s.sent.Nodup := by
  have h : (s.sent.map QueuedMessage.number).Nodup := by
    rw [hs.numbered]
    exact List.nodup_range
  exact h.of_map

/-- **A message is put**: it is none of those there were. -/
theorem Kept.put (hs : s.Kept active) (type : MessageType) (data : δ) :
    ({ s with
      queue := s.queue ++ [⟨type, data, s.sent.length, (s.subscribers type).length⟩]
      sent := s.sent ++ [⟨type, data, s.sent.length, (s.subscribers type).length⟩] } :
        MessageQueue δ γ).Kept active := by
  generalize hmessage :
      (⟨type, data, s.sent.length, (s.subscribers type).length⟩ : QueuedMessage δ) =
        message
  have hnumber : message.number = s.sent.length := by rw [← hmessage]
  have hheard : message.heard = (s.subscribers message.type).length := by rw [← hmessage]
  have hnew : message ∉ s.sent := fun hmem => by
    have hlt := List.mem_map_of_mem (f := QueuedMessage.number) hmem
    rw [hs.numbered, hnumber, List.mem_range] at hlt
    exact Nat.lt_irrefl _ hlt
  have hold : ∀ m, m ∈ s.sent ∧ m ∉ s.queue → m ∈ s.sent ++ [message] ∧ m ∉ s.queue ++ [message] :=
    fun m ⟨hsent, hqueue⟩ => ⟨List.mem_append_left _ hsent, fun h =>
      (List.mem_append.mp h).elim hqueue fun h => hnew (List.mem_singleton.mp h ▸ hsent)⟩
  exact {
    numbered := by
      show (s.sent ++ [message]).map QueuedMessage.number = List.range (s.sent ++ [message]).length
      rw [List.map_append, hs.numbered, List.length_append, List.map_singleton, hnumber]
      exact List.range_succ.symm
    queue := by
      obtain ⟨before, hbefore⟩ := hs.queue
      exact ⟨before, by rw [← List.append_assoc, hbefore]⟩
    taken := fun d hd => hold _ (hs.taken d hd)
    distinct := hs.distinct
    call := fun c hc => by
      obtain ⟨hsent, hqueue, hplace⟩ := hs.call c hc
      exact ⟨(hold _ ⟨hsent, hqueue⟩).1, (hold _ ⟨hsent, hqueue⟩).2, hplace⟩
    once := hs.once
    before := hs.before
    called := hs.called
    heard := fun m hm => by
      rcases List.mem_append.mp hm with hm | hm
      · exact hs.heard m hm
      · rw [List.mem_singleton.mp hm]
        exact hheard.le
    finished := fun m hm => by
      rcases List.mem_append.mp hm with hm | hm
      · exact (hs.finished m hm).imp_left fun h => List.mem_append_left _ h
      · exact .inl (List.mem_append_right _ hm) }

theorem Kept.subscribe (hs : s.Kept active) (type : MessageType) (callback : γ) :
    ({ s with
      subscribers := Function.update s.subscribers type (s.subscribers type ++ [callback]) } :
        MessageQueue δ γ).Kept active := by
  have hle : ∀ type', (s.subscribers type').length ≤
      (Function.update s.subscribers type (s.subscribers type ++ [callback]) type').length := by
    intro type'
    by_cases h : type' = type
    · subst h
      simp
    · rw [Function.update_of_ne h]
  exact { hs with
    call := fun c hc => by
      obtain ⟨hsent, hqueue, hplace⟩ := hs.call c hc
      exact ⟨hsent, hqueue, hplace.trans_le (hle _)⟩
    heard := fun m hm => (hs.heard m hm).trans (hle _) }

/-- A message is taken off the queue. -/
theorem Kept.take (hs : s.Kept active) {message : QueuedMessage δ} {queue : List (QueuedMessage δ)}
    (hqueue : s.queue = message :: queue) :
    ({ s with queue } : MessageQueue δ γ).Kept (⟨message, 0⟩ :: active) := by
  have hsuffix : message :: queue <:+ s.sent := hqueue ▸ hs.queue
  have hsent : message ∈ s.sent := hsuffix.mem (List.mem_cons_self ..)
  have hnodup : (message :: queue).Nodup := hs.nodup_sent.sublist hsuffix.sublist
  have hqueued : ∀ {m}, m ∉ s.queue → m ∉ queue := fun h hm =>
    h (hqueue ▸ List.mem_cons_of_mem _ hm)
  have hmessage : ∀ {m}, m ∉ s.queue → m ≠ message := fun h heq =>
    h (hqueue ▸ heq ▸ List.mem_cons_self ..)
  exact {
    numbered := hs.numbered
    queue := (List.suffix_cons message queue).trans hsuffix
    taken := fun d hd => by
      rcases List.mem_cons.mp hd with rfl | hd
      · exact ⟨hsent, (List.nodup_cons.mp hnodup).1⟩
      · exact ⟨(hs.taken d hd).1, hqueued (hs.taken d hd).2⟩
    distinct := by
      refine List.nodup_cons.mpr ⟨fun hmem => ?_, hs.distinct⟩
      obtain ⟨d, hd, heq⟩ := List.mem_map.mp hmem
      exact hmessage (hs.taken d hd).2 heq
    call := fun c hc => ⟨(hs.call c hc).1, hqueued (hs.call c hc).2.1, (hs.call c hc).2.2⟩
    once := hs.once
    before := fun c hc d hd heq => by
      rcases List.mem_cons.mp hd with rfl | hd
      · exact absurd heq (hmessage (hs.call c hc).2.1)
      · exact hs.before c hc d hd heq
    called := fun d hd j hj => by
      rcases List.mem_cons.mp hd with rfl | hd
      · exact absurd hj (Nat.not_lt_zero j)
      · exact hs.called d hd j hj
    heard := hs.heard
    finished := fun m hm => by
      rcases hs.finished m hm with h | h | h
      · rw [hqueue] at h
        rcases List.mem_cons.mp h with rfl | h
        · exact .inr (.inl (List.mem_cons_self ..))
        · exact .inl h
      · exact .inr (.inl (List.mem_cons_of_mem _ h))
      · exact .inr (.inr h) }

/-- **The loop over the subscribers goes on** with a message in hand. -/
theorem Kept.call_next (hs : s.Kept (d :: active))
    (hlt : d.called < (s.subscribers d.message.type).length) (tasks : List (Option (Delivery δ))) :
    ({ s with tasks, calls := s.calls ++ [⟨d.message, d.called⟩] } : MessageQueue δ γ).Kept
      ({ d with called := d.called + 1 } :: active) := by
  have hd := hs.taken d (List.mem_cons_self ..)
  have hother : ∀ e ∈ active, d.message ≠ e.message := fun e he heq =>
    (List.nodup_cons.mp hs.distinct).1 (heq ▸ List.mem_map_of_mem he)
  exact {
    numbered := hs.numbered
    queue := hs.queue
    taken := fun e he => by
      rcases List.mem_cons.mp he with rfl | he
      · exact hd
      · exact hs.taken e (List.mem_cons_of_mem _ he)
    distinct := hs.distinct
    call := fun c hc => by
      rcases List.mem_append.mp hc with hc | hc
      · exact hs.call c hc
      · rw [List.mem_singleton.mp hc]
        exact ⟨hd.1, hd.2, hlt⟩
    once := by
      refine hs.once.append (List.nodup_singleton _) ?_
      rw [List.disjoint_singleton]
      exact fun hmem => Nat.lt_irrefl _ (hs.before _ hmem d (List.mem_cons_self ..) rfl)
    before := fun c hc e he heq => by
      rcases List.mem_append.mp hc with hc | hc
      · rcases List.mem_cons.mp he with rfl | he
        · exact (hs.before c hc d (List.mem_cons_self ..) heq).trans (Nat.lt_succ_self _)
        · exact hs.before c hc e (List.mem_cons_of_mem _ he) heq
      · rw [List.mem_singleton.mp hc] at heq ⊢
        rcases List.mem_cons.mp he with rfl | he
        · exact Nat.lt_succ_self _
        · exact absurd heq (hother e he)
    called := fun e he j hj => by
      rcases List.mem_cons.mp he with rfl | he
      · rcases Nat.lt_succ_iff_lt_or_eq.mp hj with hj | rfl
        · exact List.mem_append_left _ (hs.called d (List.mem_cons_self ..) j hj)
        · exact List.mem_append_right _ (List.mem_singleton_self _)
      · exact List.mem_append_left _ (hs.called e (List.mem_cons_of_mem _ he) j hj)
    heard := hs.heard
    finished := fun m hm => (hs.finished m hm).imp_right fun h =>
      h.imp_right fun h j hj => List.mem_append_left _ (h j hj) }

/-- The loop has come to the end of the subscribers. -/
theorem Kept.end_loop (hs : s.Kept (d :: active))
    (hle : (s.subscribers d.message.type).length ≤ d.called)
    (tasks : List (Option (Delivery δ))) :
    ({ s with tasks } : MessageQueue δ γ).Kept active := by
  have hd := hs.taken d (List.mem_cons_self ..)
  exact {
    numbered := hs.numbered
    queue := hs.queue
    taken := fun e he => hs.taken e (List.mem_cons_of_mem _ he)
    distinct := (List.nodup_cons.mp hs.distinct).2
    call := hs.call
    once := hs.once
    before := fun c hc e he => hs.before c hc e (List.mem_cons_of_mem _ he)
    called := fun e he => hs.called e (List.mem_cons_of_mem _ he)
    heard := hs.heard
    finished := fun m hm => by
      rcases hs.finished m hm with h | h | h
      · exact .inl h
      · rcases List.mem_cons.mp h with rfl | h
        · -- All who had subscribed when it was put were called by now.
          exact .inr (.inr fun j hj => hs.called d (List.mem_cons_self ..) j
            (hj.trans_le ((hs.heard _ hm).trans hle)))
        · exact .inr (.inl h)
      · exact .inr (.inr h) }

/-! ## One step -/

/-- The deliveries, apart from that of one task. -/
theorem deliveries_set {i : Nat} {task : Option (Delivery δ)} (h : s.tasks[i]? = some task) :
    ∃ rest, s.deliveries.Perm (task.toList ++ rest) ∧
      ∀ task', ((s.tasks.set i task').filterMap id).Perm (task'.toList ++ rest) := by
  obtain ⟨l₁, l₂, hl, hset⟩ := split_at h
  have hperm : ∀ task' : Option (Delivery δ), ((l₁ ++ task' :: l₂).filterMap id).Perm
      (task'.toList ++ (l₁.filterMap id ++ l₂.filterMap id)) := by
    intro task'
    rw [List.filterMap_append, List.filterMap_cons]
    cases task' with
    | none => exact List.Perm.refl _
    | some d => exact List.perm_middle
  refine ⟨l₁.filterMap id ++ l₂.filterMap id, ?_, fun task' => ?_⟩
  · rw [deliveries, hl]
    exact hperm task
  · rw [hset]
    exact hperm task'

theorem Kept.deliver (hs : s.Kept (d :: active)) {i : Nat}
    (htasks : ∀ task, ((s.tasks.set i task).filterMap id).Perm (task.toList ++ active)) :
    (s.deliver i d).Kept (s.deliver i d).deliveries := by
  unfold MessageQueue.deliver
  split
  next hlt => exact (hs.call_next hlt _).perm (htasks (some { d with called := d.called + 1 }))
  next hle => exact (hs.end_loop (Nat.le_of_not_lt hle) _).perm (htasks none)

theorem length_tasks_deliver (s : MessageQueue δ γ) (i : Nat) (d : Delivery δ) :
    (s.deliver i d).tasks.length = s.tasks.length := by
  unfold MessageQueue.deliver
  split <;> exact List.length_set

/-- What `get` and `back` are about. -/
theorem step_get {i : Nat} (h : step s (.get i) = some t) :
    ∃ message queue, s.tasks[i]? = some none ∧ s.queue = message :: queue ∧
      t = ({ s with queue } : MessageQueue δ γ).deliver i ⟨message, 0⟩ := by
  simp only [step] at h
  split at h
  next message queue htask hqueue =>
    exact ⟨message, queue, htask, hqueue, (Option.some.inj h).symm⟩
  · cases h

theorem step_back {i : Nat} (h : step s (.back i) = some t) :
    ∃ d, s.tasks[i]? = some (some d) ∧ t = s.deliver i d := by
  simp only [step] at h
  split at h
  next d htask => exact ⟨d, htask, (Option.some.inj h).symm⟩
  · cases h

/-- What holds at any time. -/
def Sound (s : MessageQueue δ γ) : Prop := s.Kept s.deliveries

theorem sound_step (hs : s.Sound) (h : step s l = some t) : t.Sound := by
  cases l with
  | put type data =>
    cases h
    exact hs.put type data
  | subscribe type callback =>
    cases h
    exact hs.subscribe type callback
  | startProcessing =>
    cases h
    have hsame : (s.tasks ++ [none]).filterMap id = s.deliveries := by
      rw [List.filterMap_append]
      exact List.append_nil _
    rw [Sound, deliveries, hsame]
    exact { hs with }
  | get i =>
    obtain ⟨message, queue, htask, hqueue, rfl⟩ := step_get h
    obtain ⟨rest, hrest, hset⟩ := deliveries_set htask
    have hsame : rest.Perm s.deliveries := hrest.symm
    exact Kept.deliver ((hs.take hqueue).perm (hsame.cons _)) hset
  | back i =>
    obtain ⟨d, htask, rfl⟩ := step_back h
    obtain ⟨rest, hrest, hset⟩ := deliveries_set htask
    exact (hs.perm hrest.symm).deliver hset

/-! ## One task -/

/-- The calls are in order. -/
structure Ordered (s : MessageQueue δ γ) : Prop where
  calls : s.calls.Pairwise Call.Precedes
  last : ∀ c ∈ s.calls, ∀ d ∈ s.deliveries, c.message.number ≤ d.message.number

variable {m message : QueuedMessage δ}

theorem Kept.number_inj (hs : s.Kept active) {m₁ m₂ : QueuedMessage δ} (h₁ : m₁ ∈ s.sent)
    (h₂ : m₂ ∈ s.sent) (h : m₁.number = m₂.number) : m₁ = m₂ := by
  refine List.inj_on_of_nodup_map ?_ h₁ h₂ h
  rw [hs.numbered]
  exact List.nodup_range

/-- The first message on the queue is newer than those that were taken. -/
theorem Kept.number_lt (hs : s.Kept active) {queue : List (QueuedMessage δ)}
    (hqueue : s.queue = message :: queue) (hsent : m ∈ s.sent) (htaken : m ∉ s.queue) :
    m.number < message.number := by
  have hsorted : s.sent.Pairwise fun a b => a.number < b.number := by
    have h : (s.sent.map QueuedMessage.number).Pairwise (· < ·) := by
      rw [hs.numbered]
      exact List.pairwise_lt_range
    exact List.pairwise_map.mp h
  obtain ⟨before, hbefore⟩ := hs.queue
  rw [← hbefore] at hsorted hsent
  have hm : m ∈ before := (List.mem_append.mp hsent).resolve_right htaken
  exact (List.pairwise_append.mp hsorted).2.2 m hm message (hqueue ▸ List.mem_cons_self ..)

/-- The loop of the only task goes on. -/
theorem Ordered.deliver (hs : s.Kept (d :: active)) (hcalls : s.calls.Pairwise Call.Precedes)
    (hlast : ∀ c ∈ s.calls, c.message.number ≤ d.message.number) {task : Option (Delivery δ)}
    (htasks : s.tasks = [task]) : (s.deliver 0 d).Ordered := by
  have hd := hs.taken d (List.mem_cons_self ..)
  unfold MessageQueue.deliver
  split
  next hlt =>
    refine ⟨List.pairwise_append.mpr ⟨hcalls, List.pairwise_singleton .., fun c hc c' hc' => ?_⟩,
      fun c hc e he => ?_⟩
    · rw [List.mem_singleton.mp hc']
      rcases Nat.lt_or_eq_of_le (hlast c hc) with hlt | heq
      · exact .inl hlt
      · have heq := hs.number_inj (hs.call c hc).1 hd.1 heq
        exact .inr ⟨heq, hs.before c hc d (List.mem_cons_self ..) heq⟩
    · have he : e = { d with called := d.called + 1 } := by
        simpa [deliveries, htasks] using he
      rw [he]
      rcases List.mem_append.mp hc with hc | hc
      · exact hlast c hc
      · rw [List.mem_singleton.mp hc]
  next =>
    exact ⟨hcalls, fun c _ e he => by simp [deliveries, htasks] at he⟩

/-- **One task keeps the order.** -/
theorem ordered_step (hs : s.Sound) (ho : s.tasks.length ≤ 1 → s.Ordered)
    (h : step s l = some t) (htasks : t.tasks.length ≤ 1) : t.Ordered := by
  have honly : ∀ {i : Nat} {task}, s.tasks.length ≤ 1 → s.tasks[i]? = some task →
      i = 0 ∧ s.tasks = [task] := by
    intro i task hlen htask
    obtain ⟨hi, hget⟩ := List.getElem?_eq_some_iff.mp htask
    obtain rfl : i = 0 := by omega
    obtain ⟨a, ha⟩ := List.length_eq_one_iff.mp (show s.tasks.length = 1 by omega)
    rw [ha, List.getElem?_cons_zero] at htask
    cases htask
    exact ⟨rfl, ha⟩
  cases l with
  | put type data =>
    cases h
    exact ⟨(ho htasks).calls, (ho htasks).last⟩
  | subscribe type callback =>
    cases h
    exact ⟨(ho htasks).calls, (ho htasks).last⟩
  | startProcessing =>
    cases h
    have hlen : s.tasks.length ≤ 1 := by
      rw [List.length_append] at htasks
      exact Nat.le_trans (Nat.le_add_right _ _) htasks
    have hsame : (s.tasks ++ [none]).filterMap id = s.deliveries := by
      rw [List.filterMap_append]
      exact List.append_nil _
    refine ⟨(ho hlen).calls, fun c hc d hd => (ho hlen).last c hc d ?_⟩
    rwa [deliveries, hsame] at hd
  | get i =>
    obtain ⟨message, queue, htask, hqueue, rfl⟩ := step_get h
    rw [length_tasks_deliver] at htasks
    obtain ⟨rfl, honetask⟩ := honly htasks htask
    refine Ordered.deliver (hs.take hqueue) (ho htasks).calls (fun c hc => ?_) honetask
    obtain ⟨hsent, htaken, -⟩ := hs.call c hc
    exact (hs.number_lt hqueue hsent htaken).le
  | back i =>
    obtain ⟨d, htask, rfl⟩ := step_back h
    rw [length_tasks_deliver] at htasks
    obtain ⟨rfl, honetask⟩ := honly htasks htask
    have hone : s.deliveries = [d] := by rw [deliveries, honetask]; rfl
    have hs : s.Kept [d] := hone ▸ hs
    refine Ordered.deliver hs (ho htasks).calls (fun c hc => ?_) honetask
    exact (ho htasks).last c hc d (hone ▸ List.mem_singleton_self d)

/-- What holds at any time, with the order that one task keeps. -/
structure Regular (s : MessageQueue δ γ) : Prop where
  sound : s.Sound
  ordered : s.tasks.length ≤ 1 → s.Ordered

theorem regular_run {labels : List (Label δ γ)} (h : run step new labels = some s) :
    s.Regular := by
  have hnew : (new : MessageQueue δ γ).Regular := ⟨kept_new, fun _ => ⟨List.Pairwise.nil, nofun⟩⟩
  have hstep : ∀ (s : MessageQueue δ γ) l t, s.Regular → step s l = some t → t.Regular :=
    fun _ _ _ hs h => ⟨sound_step hs.sound h, ordered_step hs.sound hs.ordered h⟩
  exact last_of_inv hstep hnew h

/-! ## To the end -/

/-- What the tasks do by themselves, if the callbacks come back. -/
def Label.isProcessing : Label δ γ → Bool
  | .get _ | .back _ => true
  | _ => false

/-- How many calls are left for a delivery, and its end. -/
def steps (s : MessageQueue δ γ) (d : Delivery δ) : Nat :=
  (s.subscribers d.message.type).length - d.called + 1

/-- How many steps of the tasks are left. -/
def left (s : MessageQueue δ γ) : Nat :=
  (s.queue.map fun m => s.steps ⟨m, 0⟩).sum + (s.deliveries.map s.steps).sum

/-- A step of the loop is one step less. -/
theorem left_deliver {i : Nat}
    (htasks : ∀ task, ((s.tasks.set i task).filterMap id).Perm (task.toList ++ active)) :
    (s.deliver i d).left + 1 ≤
      (s.queue.map fun m => s.steps ⟨m, 0⟩).sum + ((d :: active).map s.steps).sum := by
  unfold MessageQueue.deliver
  rw [List.map_cons, List.sum_cons]
  split
  next hlt =>
    have hsum : (((s.tasks.set i (some { d with called := d.called + 1 })).filterMap id).map
        s.steps).sum = s.steps { d with called := d.called + 1 } + (active.map s.steps).sum := by
      rw [((htasks _).map s.steps).sum_eq]
      rfl
    show (s.queue.map fun m => s.steps ⟨m, 0⟩).sum +
      (((s.tasks.set i (some { d with called := d.called + 1 })).filterMap id).map
        s.steps).sum + 1 ≤ _
    have hone : s.steps { d with called := d.called + 1 } + 1 = s.steps d := by
      show (s.subscribers d.message.type).length - (d.called + 1) + 1 + 1 =
        (s.subscribers d.message.type).length - d.called + 1
      omega
    omega
  next =>
    have hsum : (((s.tasks.set i none).filterMap id).map s.steps).sum =
        (active.map s.steps).sum := by
      rw [((htasks none).map s.steps).sum_eq]
      rfl
    show (s.queue.map fun m => s.steps ⟨m, 0⟩).sum +
      (((s.tasks.set i none).filterMap id).map s.steps).sum + 1 ≤ _
    have hone : 1 ≤ s.steps d := Nat.le_add_left ..
    omega

/-- While something is left to do, a task can go on. -/
theorem exists_step (htasks : s.tasks ≠ []) (h : ¬s.Quiet) :
    ∃ l t, l.isProcessing = true ∧ step s l = some t ∧ t.left < s.left := by
  by_cases hidle : ∀ task ∈ s.tasks, task = none
  · obtain ⟨message, queue, hqueue⟩ := List.exists_cons_of_ne_nil fun hq => h ⟨hq, hidle⟩
    obtain ⟨task, tasks, hcons⟩ := List.exists_cons_of_ne_nil htasks
    have htask : s.tasks[0]? = some none := by
      rw [hcons, List.getElem?_cons_zero, hidle task (hcons ▸ List.mem_cons_self ..)]
    obtain ⟨rest, hrest, hset⟩ := deliveries_set htask
    refine ⟨.get 0, ({ s with queue } : MessageQueue δ γ).deliver 0 ⟨message, 0⟩, rfl, ?_, ?_⟩
    · simp only [step, htask, hqueue]
    · have hle : (({ s with queue } : MessageQueue δ γ).deliver 0 ⟨message, 0⟩).left + 1 ≤
          (queue.map fun m => s.steps ⟨m, 0⟩).sum + ((⟨message, 0⟩ :: rest).map s.steps).sum :=
        left_deliver hset
      have hsum : (s.deliveries.map s.steps).sum = (rest.map s.steps).sum :=
        (hrest.map s.steps).sum_eq
      have hleft : s.left = s.steps ⟨message, 0⟩ + (queue.map fun m => s.steps ⟨m, 0⟩).sum +
          (rest.map s.steps).sum := by
        rw [left, hqueue, hsum, List.map_cons, List.sum_cons]
      rw [List.map_cons, List.sum_cons] at hle
      omega
  · obtain ⟨task, htask, hne⟩ : ∃ task ∈ s.tasks, task ≠ none := by simpa using hidle
    obtain ⟨d, rfl⟩ := Option.ne_none_iff_exists'.mp hne
    obtain ⟨i, hi⟩ := List.getElem?_of_mem htask
    obtain ⟨rest, hrest, hset⟩ := deliveries_set hi
    refine ⟨.back i, s.deliver i d, rfl, ?_, ?_⟩
    · simp only [step, hi]
    · have hle := left_deliver (d := d) hset
      have hsum : (s.deliveries.map s.steps).sum = ((d :: rest).map s.steps).sum :=
        (hrest.map s.steps).sum_eq
      have hleft : s.left =
          (s.queue.map fun m => s.steps ⟨m, 0⟩).sum + ((d :: rest).map s.steps).sum := by
        rw [left, hsum]
      exact hleft ▸ hle

/-- **The tasks come to an end**, where there is one. -/
theorem exists_run_quiet (s : MessageQueue δ γ) (htasks : s.tasks ≠ []) :
    ∃ labels t, (∀ l ∈ labels, l.isProcessing = true) ∧ run step s labels = some t ∧ t.Quiet := by
  induction hleft : s.left using Nat.strong_induction_on generalizing s with
  | _ n ih =>
    by_cases hquiet : s.Quiet
    · exact ⟨[], s, nofun, rfl, hquiet⟩
    · obtain ⟨l, t, hl, ht, hlt⟩ := exists_step htasks hquiet
      have htasks' : t.tasks ≠ [] := by
        intro hnil
        have hlen : t.tasks.length = s.tasks.length := by
          cases l with
          | get i =>
            obtain ⟨message, queue, -, -, rfl⟩ := step_get ht
            exact length_tasks_deliver _ i _
          | back i =>
            obtain ⟨d, -, rfl⟩ := step_back ht
            exact length_tasks_deliver s i d
          | put | subscribe | startProcessing => cases hl
        rw [hnil] at hlen
        exact htasks (List.eq_nil_of_length_eq_zero hlen.symm)
      obtain ⟨labels, u, hlabels, hu, hquiet⟩ := ih t.left (hleft ▸ hlt) t htasks' rfl
      refine ⟨l :: labels, u, List.forall_mem_cons.mpr ⟨hl, hlabels⟩, ?_, hquiet⟩
      rw [run, ht]
      exact hu

/-! ## All messages -/

theorem deliver_log (s : MessageQueue δ γ) (i : Nat) (d : Delivery δ) :
    (s.deliver i d).sent = s.sent ∧ (s.deliver i d).subscribers = s.subscribers := by
  unfold MessageQueue.deliver
  split <;> exact ⟨rfl, rfl⟩

/-- What a step adds to the messages and the subscribers. -/
theorem step_log (h : step s l = some t) :
    t.sent.map (fun m => (m.type, m.data)) =
        s.sent.map (fun m => (m.type, m.data)) ++ l.message?.toList ∧
      ∀ type, t.subscribers type = s.subscribers type ++ (l.callback? type).toList := by
  cases l with
  | put type data =>
    cases h
    exact ⟨List.map_append, fun _ => (List.append_nil _).symm⟩
  | subscribe type callback =>
    cases h
    refine ⟨(List.append_nil _).symm, fun type' => ?_⟩
    show Function.update s.subscribers type _ type' =
      _ ++ (if type = type' then some callback else none).toList
    by_cases htype : type = type'
    · subst htype
      rw [Function.update_self, if_pos rfl]
      rfl
    · rw [Function.update_of_ne (Ne.symm htype), if_neg htype]
      exact (List.append_nil _).symm
  | startProcessing =>
    cases h
    exact ⟨(List.append_nil _).symm, fun _ => (List.append_nil _).symm⟩
  | get i =>
    obtain ⟨message, queue, -, -, rfl⟩ := step_get h
    obtain ⟨hsent, hsubscribers⟩ := deliver_log ({ s with queue }) i ⟨message, 0⟩
    rw [hsent, hsubscribers]
    exact ⟨(List.append_nil _).symm, fun _ => (List.append_nil _).symm⟩
  | back i =>
    obtain ⟨d, -, rfl⟩ := step_back h
    obtain ⟨hsent, hsubscribers⟩ := deliver_log s i d
    rw [hsent, hsubscribers]
    exact ⟨(List.append_nil _).symm, fun _ => (List.append_nil _).symm⟩

theorem run_log {labels : List (Label δ γ)} (h : run step s labels = some t) :
    t.sent.map (fun m => (m.type, m.data)) =
        s.sent.map (fun m => (m.type, m.data)) ++ labels.filterMap Label.message? ∧
      ∀ type, t.subscribers type =
        s.subscribers type ++ labels.filterMap (Label.callback? type) := by
  induction labels generalizing s with
  | nil =>
    cases h
    exact ⟨(List.append_nil _).symm, fun _ => (List.append_nil _).symm⟩
  | cons l labels ih =>
    obtain ⟨u, hu, h⟩ := Option.bind_eq_some_iff.mp h
    obtain ⟨hsent, hsubscribers⟩ := ih h
    obtain ⟨hsent', hsubscribers'⟩ := step_log hu
    refine ⟨?_, fun type => ?_⟩
    · rw [hsent, hsent', List.append_assoc, List.filterMap_cons]
      cases l.message? <;> rfl
    · rw [hsubscribers, hsubscribers', List.append_assoc, List.filterMap_cons]
      cases l.callback? type <;> rfl

/-- The second callback subscribes while the first is called. -/
def lateSubscriber : List (Label Nat Nat) :=
  [.startProcessing, .subscribe .errorOccurred 7, .put .errorOccurred 1, .put .userAction 2,
    .get 0, .subscribe .errorOccurred 8, .back 0, .back 0, .get 0]

end MessageQueue
end ConfigManager
