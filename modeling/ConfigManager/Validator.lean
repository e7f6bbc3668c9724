import ConfigManager.Watermark
import ConfigManager.ConfigTable
import ConfigManager.Runs

/-! # The validator (`processor.validator`)

`validate_one` is a coroutine.  It runs without interruption between its awaits,
which are the connection test and the country lookup, so one call is a `Task`
that is woken up (`Validator.wake`): when the semaphore lets it in, when its test
has answered, and when its country is there.  What a coroutine keeps in local
variables over an await is a function of its link.

`validate_batch` is a `Batch` of such tasks over one shared `Validator`; its
results are the records of the finished tasks, in the order of the links.
-/
namespace ConfigManager

open Py

/-- What a country lookup answers; `none` is an answer that is not a text, which
`get_flag` raises on. -/
abbrev Country := Option Str

/-- The numbers, as Python compares them: `True == 1`. -/
def numeric : Json → Option (Int ⊕ Str)
  | .bool b => some (.inl (if b then 1 else 0))
  | .int n => some (.inl n)
  | .float t => some (.inr t)
  | _ => none

/-- Whether two hashable values are the same dictionary key. -/
def sameKey (F : Json.Floats) (a b : Json) : Bool :=
  match numeric a, numeric b with
  | some (.inl m), some (.inl n) => m = n
  | some (.inl m), some (.inr t) => F.eqInt t m
  | some (.inr t), some (.inl n) => F.eqInt t n
  | some (.inr s), some (.inr t) => s = t ∧ s ≠ "NaN".toList ∨ F.eqInt s 0 ∧ F.eqInt t 0
  | none, none => a = b
  | _, _ => false

/-- Lists and dictionaries are not hashable. -/
def hashable : Json → Bool
  | .arr _ | .obj _ => false
  | _ => true

/-- The state of a `ConfigValidator`. -/
structure Validator where
  seenHashes : Finset Str
  countryCache : List (Json × Country)

/-- Where a call of `validate_one` stands. -/
inductive Stage where
  /-- Not let in by the semaphore yet. -/
  | waiting
  /-- Awaiting `ping_host`. -/
  | pinging
  /-- Awaiting `fetch_country_code`. -/
  | locating
  /-- Returned a record, or returned `None` or raised. -/
  | finished (outcome : Option Record)
  deriving DecidableEq

/-- A call of `validate_one`. -/
structure Task where
  config : Str
  stage : Stage
  deriving DecidableEq

/-- What wakes a task up. -/
inductive Wake where
  | start
  | pinged (alive : Bool)
  | located (country : Country)

/-- The record a stage has returned. -/
def Stage.record? : Stage → Option Record
  | .finished outcome => outcome
  | _ => none

section
variable (env : Env)

/-- The dictionary of a valid link, `none` where its watermark raises. -/
def recordOf (config : Str) (country : Country) : Option Record :=
  country.bind fun countryCode => (injectWatermark env config countryCode).map fun watermarked =>
    { rawConfig := config
      watermarkedConfig := watermarked
      configHash := configHash config
      countryCode := countryCode
      protocol := detectProtocol config
      host := extractHost env.floats config }

namespace Validator

/-- `ConfigValidator()`. -/
def new : Validator := ⟨∅, []⟩

/-- `reset_cache`. -/
def resetCache (v : Validator) : Validator := { v with seenHashes := ∅ }

/-- `self._country_cache[host]`, if the host is there. -/
def cached (v : Validator) (host : Json) : Option Country :=
  (v.countryCache.find? fun entry => sameKey env.floats entry.1 host).map Prod.snd

/-- `self._country_cache[host] = country`. -/
def remember (v : Validator) (host : Json) (country : Country) : Validator :=
  { v with countryCache := (host, country) :: v.countryCache }

/-- The country, where it takes no lookup. -/
def knownCountry (v : Validator) (host : Json) : Option Country :=
  if truthy host then if hashable host then v.cached env host else none
  else some (some "UN".toList)

/-- From the watermark on. -/
def finish (v : Validator) (config : Str) (country : Country) : Validator × Stage :=
  match recordOf env config country with
  | some record => ({ v with seenHashes := insert (configHash config) v.seenHashes },
      .finished (some record))
  | none => (v, .finished none)

/-- From the country on; `host in self._country_cache` raises on a host that is
not hashable. -/
def locate (v : Validator) (config : Str) : Validator × Stage :=
  let host := extractHost env.floats config
  match v.knownCountry env host with
  | some country => v.finish env config country
  | none => (v, if hashable host then .locating else .finished none)

/-- `validate_one`, up to its first await. -/
def start (v : Validator) (checkPing : Bool) (config : Str) : Validator × Stage :=
  if detectProtocol config = .unknown then (v, .finished none)
  else if configHash config ∈ v.seenHashes then (v, .finished none)
  else
    let port := extractPort env.floats config
    if checkPing && truthy (extractHost env.floats config) && port.any (· ≠ 0) then (v, .pinging)
    else v.locate env config

/-- A task is woken up and runs to its next await. -/
def wake (v : Validator) (checkPing : Bool) (task : Task) : Wake → Option (Validator × Stage)
  | .start => if task.stage = .waiting then some (v.start env checkPing task.config) else none
  | .pinged alive =>
      if task.stage = .pinging then
        some (if alive then v.locate env task.config else (v, .finished none))
      else none
  | .located country =>
      if task.stage = .locating then
        some ((v.remember (extractHost env.floats task.config) country).finish env task.config
          country)
      else none

end Validator

/-- A call of `validate_batch`. -/
structure Batch where
  checkPing : Bool
  maxConcurrent : Nat
  tasks : List Task

namespace Batch

/-- `validate_batch`, with every coroutine still to be let in. -/
def new (configs : List Str) (checkPing : Bool) (maxConcurrent : Nat) : Batch :=
  ⟨checkPing, maxConcurrent, configs.map (⟨·, .waiting⟩)⟩

/-- How many coroutines hold the semaphore. -/
def running (b : Batch) : Nat := b.tasks.countP fun t => t.stage = .pinging ∨ t.stage = .locating

/-- Task `i` is woken up; to be let in it needs a place. -/
def resume (v : Validator) (b : Batch) (i : Nat) (w : Wake) : Option (Validator × Batch × Stage) :=
  (b.tasks[i]?).bind fun task =>
    if w matches .start ∧ b.maxConcurrent ≤ b.running then none
    else (v.wake env b.checkPing task w).map fun (v', stage) =>
      (v', { b with tasks := b.tasks.set i { task with stage } }, stage)

/-- `gather` has all outcomes. -/
def done (b : Batch) : Bool := b.tasks.all fun t => match t.stage with
  | .finished _ => true
  | _ => false

/-- The results of `validate_batch`. -/
def results (b : Batch) : List Record := b.tasks.filterMap fun t => t.stage.record?

end Batch
end

/-! ## What a wake-up can do -/

section
variable {env : Env} {v v' : Validator} {config : Str} {country : Country} {stage : Stage}

theorem recordOf_configHash {record : Record} (h : recordOf env config country = some record) :
    record.configHash = configHash config := by
  obtain ⟨_, -, h⟩ := Option.bind_eq_some_iff.mp h
  obtain ⟨_, -, rfl⟩ := Option.map_eq_some_iff.mp h
  rfl

/-- The two ways a stretch of `validate_one` ends: with a record, whose hash it
adds, or without one and with the same hashes. -/
inductive Outcome (env : Env) (v : Validator) (config : Str) (country : Option Country) :
    Validator → Stage → Prop
  | passed {w : Validator} {c : Country} {record : Record} (hc : country = some c)
      (hr : recordOf env config c = some record)
      (hs : w.seenHashes = insert (configHash config) v.seenHashes) :
      Outcome env v config country w (.finished (some record))
  | quiet {w : Validator} {stage : Stage} (hr : stage.record? = none)
      (hs : w.seenHashes = v.seenHashes) (hc : ∀ c ∈ country, recordOf env config c = none) :
      Outcome env v config country w stage

namespace Validator

variable (env) in
theorem finish_outcome (v : Validator) (config : Str) (country : Country) :
    Outcome env v config (some country) (v.finish env config country).1
      (v.finish env config country).2 := by
  unfold finish
  split
  · rename_i record h
    exact .passed rfl h rfl
  · rename_i h
    exact .quiet rfl rfl (by rintro c ⟨⟩; exact h)

variable (env) in
theorem locate_outcome (v : Validator) (config : Str) :
    Outcome env v config (v.knownCountry env (extractHost env.floats config))
      (v.locate env config).1 (v.locate env config).2 := by
  unfold locate
  simp only
  split
  · rename_i country h
    rw [h]
    exact finish_outcome env v config country
  · rename_i h
    rw [h]
    refine .quiet ?_ rfl (by simp)
    split <;> rfl

variable (env) in
/-- A coroutine that is let in asks the seen hashes itself. -/
theorem start_outcome (v : Validator) (checkPing : Bool) (config : Str) :
    ∃ country, Outcome env v config country (v.start env checkPing config).1
        (v.start env checkPing config).2 ∧
      (country.isSome → configHash config ∉ v.seenHashes) := by
  have quiet : ∀ stage : Stage, stage.record? = none → Outcome env v config none v stage :=
    fun stage h => .quiet h rfl (by simp)
  unfold start
  simp only
  split_ifs with hp hseen hping
  · exact ⟨none, quiet _ rfl, by simp⟩
  · exact ⟨none, quiet _ rfl, by simp⟩
  · exact ⟨none, quiet _ rfl, by simp⟩
  · exact ⟨_, locate_outcome env v config, fun _ => hseen⟩

/-- The country a coroutine comes back with from an await. -/
def answer (env : Env) (v : Validator) (task : Task) : Wake → Option Country
  | .start => none
  | .pinged alive =>
      if alive then v.knownCountry env (extractHost env.floats task.config) else none
  | .located country => some country

/-- **What a wake-up can do.**  It returns at most one record, of its own link; it
goes by the answer it has been waiting for, or has just asked the seen hashes. -/
theorem wake_outcome {checkPing : Bool} {task : Task} {w : Wake}
    (h : v.wake env checkPing task w = some (v', stage)) :
    ∃ country, Outcome env v task.config country v' stage ∧
      (country = v.answer env task w ∨
        v.answer env task w = none ∧ (country.isSome → configHash task.config ∉ v.seenHashes)) := by
  cases w with
  | start =>
    simp only [wake] at h
    split_ifs at h
    have he := Option.some.inj h
    obtain ⟨country, ho, hs⟩ := start_outcome env v checkPing task.config
    rw [he] at ho
    exact ⟨country, ho, Or.inr ⟨rfl, hs⟩⟩
  | pinged alive =>
    simp only [wake] at h
    split_ifs at h with hstage halive
    · have he := Option.some.inj h
      have ho := locate_outcome env v task.config
      rw [he] at ho
      exact ⟨_, ho, Or.inl (by simp [answer, halive])⟩
    · cases h
      exact ⟨none, .quiet rfl rfl (by simp), Or.inl (by simp [answer, halive])⟩
  -- The answer is kept in the cache first, which leaves the seen hashes alone.
  | located country =>
    simp only [wake] at h
    split_ifs at h
    have he := Option.some.inj h
    have ho := finish_outcome env (v.remember (extractHost env.floats task.config) country)
      task.config country
    rw [he] at ho
    refine ⟨some country, ?_, Or.inl rfl⟩
    cases ho with
    | passed hc hr hs => exact .passed hc hr hs
    | quiet hr hs hc => exact .quiet hr hs hc

end Validator

namespace Batch

variable {b b' : Batch} {i : Nat} {w : Wake}

/-- Resuming a task is waking it up and noting where it stands. -/
theorem resume_eq_some (h : b.resume env v i w = some (v', b', stage)) :
    ∃ task, b.tasks[i]? = some task ∧ v.wake env b.checkPing task w = some (v', stage) ∧
      b' = { b with tasks := b.tasks.set i { task with stage } } := by
  obtain ⟨task, ht, h⟩ := Option.bind_eq_some_iff.mp h
  split_ifs at h
  obtain ⟨⟨v'', stage'⟩, hw, he⟩ := Option.map_eq_some_iff.mp h
  cases he
  exact ⟨task, ht, hw, rfl⟩

variable (env) in
/-- A batch over `configs`: one task for each, and every record is one of its own
link. -/
structure Over (configs : List Str) (b : Batch) : Prop where
  tasks : b.tasks.map Task.config = configs
  records : ∀ t ∈ b.tasks, ∀ r ∈ t.stage.record?, ∃ country, recordOf env t.config country = some r

theorem over_new (configs : List Str) (checkPing : Bool) (maxConcurrent : Nat) :
    Over env configs (new configs checkPing maxConcurrent) := by
  refine ⟨by simp [new, Function.comp_def], ?_⟩
  rintro t ht r hr
  obtain ⟨c, -, rfl⟩ := List.mem_map.mp ht
  cases hr

theorem over_resume {configs : List Str} (hb : Over env configs b)
    (h : b.resume env v i w = some (v', b', stage)) : Over env configs b' := by
  obtain ⟨task, ht, hw, rfl⟩ := resume_eq_some h
  obtain ⟨l₁, l₂, hl, hset⟩ := Runs.split_at ht
  refine ⟨?_, ?_⟩
  · rw [← hb.tasks, hset, hl]
    simp
  · intro t hmem r hr
    rcases List.mem_or_eq_of_mem_set hmem with hmem | rfl
    · exact hb.records t hmem r hr
    · obtain ⟨country, ho, -⟩ := Validator.wake_outcome hw
      cases ho with
      | quiet hnone => simp [hnone] at hr
      | @passed c record hc hrec =>
        cases hr
        exact ⟨c, hrec⟩

/-- The hashes of the results are hashes of the batch's links, in their order. -/
theorem results_sublist {configs : List Str} (hb : Over env configs b) :
    (b.results.map Record.configHash).Sublist (configs.map configHash) := by
  -- A task returns no record, or one of its own link.
  have key : ∀ ts : List Task, (∀ t ∈ ts, ∀ r ∈ t.stage.record?,
      ∃ country, recordOf env t.config country = some r) →
      ((ts.filterMap fun t => t.stage.record?).map Record.configHash).Sublist
        (ts.map fun t => configHash t.config) := by
    intro ts
    induction ts with
    | nil => simp
    | cons t ts ih =>
      intro hts
      have ih := ih fun u hu => hts u (List.mem_cons_of_mem _ hu)
      cases hr : t.stage.record? with
      | none =>
        simp only [List.filterMap_cons, hr]
        exact ih.cons _
      | some r =>
        obtain ⟨country, hrec⟩ := hts t (List.mem_cons_self ..) r hr
        simp only [List.filterMap_cons, hr, List.map_cons, recordOf_configHash hrec]
        exact ih.cons_cons _
  have hmap : configs.map configHash = b.tasks.map fun t => configHash t.config := by
    rw [← hb.tasks, List.map_map]
    rfl
  rw [hmap]
  exact key b.tasks hb.records

end Batch
end
end ConfigManager
