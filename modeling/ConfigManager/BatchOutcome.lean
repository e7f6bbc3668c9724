import ConfigManager.Validator

/-! # What a batch passes

Whether `validate_one` returns a record for a link depends on the link, on the hashes seen
before, and on what is answered about its host.  Take what the country service knows as
given (`Lookups`): then a batch of links with distinct hashes passes exactly the links that
are acceptable and whose hash has not been seen, in whatever order its coroutines are woken
up (`BatchInv`).
-/
namespace ConfigManager

open Py

variable (env : Env)

/-- A country whose flag can be put into a link. -/
def usable (country : Country) : Bool := (country.bind (watermark env)).isSome

theorem recordOf_isSome (config : Str) (country : Country) :
    (recordOf env config country).isSome = usable env country := by
  cases country with
  | none => rfl
  | some code => simp [recordOf, usable, injectWatermark]

/-- For which hosts a usable country is looked up.  Two hosts that are one key of the
country cache are one host. -/
structure Lookups (F : Json.Floats) where
  found : Json → Bool
  sameKey : ∀ a b, sameKey F a b = true → found a = found b

/-- **Validation accepts a link**, if its hash is new: its protocol is known, and its host
is missing or has a usable country. -/
def accepts (L : Lookups env.floats) (config : Str) : Bool :=
  let host := extractHost env.floats config
  detectProtocol config ≠ .unknown &&
    if truthy host then hashable host && L.found host else usable env (some "UN".toList)

variable (L : Lookups env.floats)

/-- The answer a coroutine is woken up with is that of the country service. -/
def AnswerKnown (config : Str) : Wake → Prop
  | .located country => usable env country = L.found (extractHost env.floats config)
  | _ => True

instance (config : Str) : (w : Wake) → Decidable (AnswerKnown env L config w)
  | .located _ => inferInstanceAs (Decidable (_ = _))
  | .start | .pinged _ => .isTrue trivial

/-- Where a coroutine may stand, in a batch that was started with these hashes seen and
tests no connection. -/
def TaskOk (seen : Finset Str) (t : Task) : Prop :=
  match t.stage with
  | .waiting => True
  | .pinging => False
  | .locating => configHash t.config ∉ seen ∧
      accepts env L t.config = L.found (extractHost env.floats t.config)
  | .finished outcome =>
      (outcome.isSome = true ↔ accepts env L t.config = true ∧ configHash t.config ∉ seen) ∧
        ∀ r ∈ outcome, r.configHash = configHash t.config

/-- The country cache holds answers of the country service. -/
def CacheKnown (v : Validator) : Prop :=
  ∀ entry ∈ v.countryCache, usable env entry.2 = L.found entry.1

variable {env L} {v v' : Validator} {seen : Finset Str} {config : Str} {stage : Stage}

/-! ## A coroutine -/

/-- What a wake-up leads to. -/
structure Woken (env : Env) (L : Lookups env.floats) (seen : Finset Str) (v : Validator)
    (config : Str) (v' : Validator) (stage : Stage) : Prop where
  ok : TaskOk env L seen ⟨config, stage⟩
  cache : CacheKnown env L v'
  hashes : ∀ h, h ∈ v'.seenHashes ↔
    h ∈ v.seenHashes ∨ stage.record?.isSome = true ∧ h = configHash config

theorem woken_finish {country : Country} (hcache : CacheKnown env L v)
    (hnew : configHash config ∉ seen)
    (hcountry : usable env country = accepts env L config) :
    Woken env L seen v config (v.finish env config country).1
      (v.finish env config country).2 := by
  have hsome := recordOf_isSome env config country
  rw [hcountry] at hsome
  cases hr : recordOf env config country with
  | none =>
      rw [hr] at hsome
      simp only [Validator.finish, hr]
      refine ⟨⟨?_, by simp⟩, hcache, by simp [Stage.record?]⟩
      simp [← hsome]
  | some r =>
      rw [hr] at hsome
      simp only [Validator.finish, hr]
      refine ⟨⟨?_, ?_⟩, hcache, fun h => ?_⟩
      · simp [← hsome, hnew]
      · rintro _ ⟨⟩
        exact recordOf_configHash hr
      · simp [Stage.record?, or_comm]

/-- A coroutine that returns without a record, of a link that is not to be passed. -/
theorem woken_rejected (hcache : CacheKnown env L v)
    (h : ¬(accepts env L config = true ∧ configHash config ∉ seen)) :
    Woken env L seen v config v (.finished none) :=
  ⟨⟨by simp [h], by simp⟩, hcache, by simp [Stage.record?]⟩

theorem CacheKnown.cached (hcache : CacheKnown env L v) {host : Json} {country : Country}
    (h : v.cached env host = some country) : usable env country = L.found host := by
  obtain ⟨entry, hfind, rfl⟩ := Option.map_eq_some_iff.mp h
  have hkey : sameKey env.floats entry.1 host = true := by simpa using List.find?_some hfind
  rw [hcache entry (List.mem_of_find?_eq_some hfind), L.sameKey _ _ hkey]

theorem woken_locate (hcache : CacheKnown env L v) (hnew : configHash config ∉ seen)
    (hprotocol : detectProtocol config ≠ .unknown) :
    Woken env L seen v config (v.locate env config).1 (v.locate env config).2 := by
  have haccepts : accepts env L config = if truthy (extractHost env.floats config) then
      hashable (extractHost env.floats config) && L.found (extractHost env.floats config)
      else usable env (some "UN".toList) := by
    simp [accepts, hprotocol]
  simp only [Validator.locate, Validator.knownCountry]
  by_cases htruthy : truthy (extractHost env.floats config) = true
  · rw [if_pos htruthy] at haccepts
    rw [if_pos htruthy]
    by_cases hhash : hashable (extractHost env.floats config) = true
    · rw [hhash, Bool.true_and] at haccepts
      rw [if_pos hhash, if_pos hhash]
      cases hcached : v.cached env (extractHost env.floats config) with
      | none =>
          -- The country is looked up.
          exact ⟨⟨hnew, haccepts⟩, hcache, by simp [Stage.record?]⟩
      | some country => exact woken_finish hcache hnew (by rw [hcache.cached hcached, haccepts])
    · rw [if_neg hhash, if_neg hhash]
      exact woken_rejected hcache (by simp [haccepts, hhash])
  · rw [if_neg htruthy] at haccepts
    rw [if_neg htruthy]
    exact woken_finish hcache hnew haccepts.symm

/-- Only a coroutine that has not returned is woken up. -/
theorem unfinished_of_wake {checkPing : Bool} {task : Task} {w : Wake}
    (h : v.wake env checkPing task w = some (v', stage)) : task.stage.record? = none := by
  cases w <;> simp only [Validator.wake] at h <;> split at h
  case start.isTrue hstage | pinged.isTrue hstage | located.isTrue hstage => rw [hstage]; rfl
  all_goals cases h

/-- A coroutine that is let in. -/
theorem woken_start (hcache : CacheKnown env L v)
    (hseen : configHash config ∈ v.seenHashes ↔ configHash config ∈ seen) :
    Woken env L seen v config (v.start env false config).1 (v.start env false config).2 := by
  simp only [Validator.start, Bool.false_and, Bool.false_eq_true, if_false]
  by_cases hprotocol : detectProtocol config = .unknown
  · rw [if_pos hprotocol]
    exact woken_rejected hcache (by simp [accepts, hprotocol])
  · rw [if_neg hprotocol]
    by_cases hold : configHash config ∈ v.seenHashes
    · rw [if_pos hold]
      exact woken_rejected hcache fun hnew => hnew.2 (hseen.mp hold)
    · rw [if_neg hold]
      exact woken_locate hcache (fun hold' => hold (hseen.mpr hold')) hprotocol

/-- A coroutine whose country has been looked up. -/
theorem woken_located {country : Country} (hok : TaskOk env L seen ⟨config, .locating⟩)
    (hcache : CacheKnown env L v) (hanswer : AnswerKnown env L config (.located country)) :
    let v' := v.remember (extractHost env.floats config) country
    Woken env L seen v config (v'.finish env config country).1
      (v'.finish env config country).2 := by
  obtain ⟨hnew, haccepts⟩ := hok
  have hremember : CacheKnown env L (v.remember (extractHost env.floats config) country) := by
    intro entry hentry
    rcases List.mem_cons.mp hentry with rfl | hentry
    · exact hanswer
    · exact hcache entry hentry
  have hwoken := woken_finish hremember hnew (hanswer.trans haccepts.symm)
  exact ⟨hwoken.ok, hwoken.cache, hwoken.hashes⟩

/-- **A wake-up**, of a coroutine whose hash has been seen only if it had been before. -/
theorem woken_wake {task : Task} {w : Wake} (hok : TaskOk env L seen task)
    (hcache : CacheKnown env L v)
    (hseen : configHash task.config ∈ v.seenHashes ↔ configHash task.config ∈ seen)
    (hanswer : AnswerKnown env L task.config w)
    (h : v.wake env false task w = some (v', stage)) :
    Woken env L seen v task.config v' stage := by
  obtain ⟨config, before⟩ := task
  cases w with
  | start =>
      simp only [Validator.wake] at h
      split at h
      · have hwoken := woken_start hcache hseen
        rw [Option.some.inj h] at hwoken
        exact hwoken
      · cases h
  | pinged alive =>
      simp only [Validator.wake] at h
      split at h
      next hpinging =>
        -- A batch without pings has no coroutine that waits for one.
        obtain rfl : before = .pinging := hpinging
        exact absurd hok id
      · cases h
  | located country =>
      simp only [Validator.wake] at h
      split at h
      next hlocating =>
        obtain rfl : before = .locating := hlocating
        have hwoken := woken_located hok hcache hanswer
        simp only at hwoken
        rw [Option.some.inj h] at hwoken
        exact hwoken
      · cases h

/-! ## A batch -/

/-- The hashes of a batch's links are distinct; a hash has been seen if it had been before,
or if its coroutine has returned a record. -/
structure BatchInv (env : Env) (L : Lookups env.floats) (seen : Finset Str) (v : Validator)
    (b : Batch) : Prop where
  noPing : b.checkPing = false
  distinct : (b.tasks.map fun t => configHash t.config).Nodup
  tasks : ∀ t ∈ b.tasks, TaskOk env L seen t
  cache : CacheKnown env L v
  hashes : ∀ h, h ∈ v.seenHashes ↔
    h ∈ seen ∨ ∃ t ∈ b.tasks, t.stage.record?.isSome = true ∧ h = configHash t.config

theorem batchInv_new {configs : List Str} (n : Nat) (hcache : CacheKnown env L v)
    (hconfigs : (configs.map configHash).Nodup) :
    BatchInv env L v.seenHashes v (.new configs false n) := by
  refine ⟨rfl, ?_, ?_, hcache, ?_⟩
  · simpa [Batch.new, Function.comp_def] using hconfigs
  · intro t ht
    obtain ⟨c, -, rfl⟩ := List.mem_map.mp ht
    trivial
  · intro h
    simp [Batch.new, Stage.record?]

/-- The hash of a coroutine that has not returned a record was not seen in this batch: no
other link has it. -/
theorem BatchInv.mem_seen_of_none {b : Batch} {i : Nat} {task : Task}
    (hb : BatchInv env L seen v b) (ht : b.tasks[i]? = some task)
    (hnone : task.stage.record? = none) :
    configHash task.config ∈ v.seenHashes ↔ configHash task.config ∈ seen := by
  rw [hb.hashes]
  refine or_iff_left ?_
  rintro ⟨t, hmem, hrecord, heq⟩
  -- The coroutine with this hash is this one.
  obtain rfl := List.inj_on_of_nodup_map hb.distinct hmem (List.mem_of_getElem? ht) heq.symm
  rw [hnone] at hrecord
  cases hrecord

theorem batchInv_resume {b b' : Batch} {i : Nat} {w : Wake} (hb : BatchInv env L seen v b)
    (hanswer : ∀ t ∈ b.tasks[i]?, AnswerKnown env L t.config w)
    (h : b.resume env v i w = some (v', b', stage)) : BatchInv env L seen v' b' := by
  obtain ⟨task, ht, hwake, rfl⟩ := Batch.resume_eq_some h
  obtain ⟨l₁, l₂, hl, hset⟩ := Runs.split_at ht
  rw [hb.noPing] at hwake
  have hnone : task.stage.record? = none := unfinished_of_wake hwake
  have hwoken := woken_wake (hb.tasks task (List.mem_of_getElem? ht)) hb.cache
    (hb.mem_seen_of_none ht hnone) (hanswer task ht) hwake
  refine ⟨hb.noPing, ?_, ?_, hwoken.cache, ?_⟩
  · have hdistinct := hb.distinct
    rw [hl, List.map_append, List.map_cons] at hdistinct
    rw [hset, List.map_append, List.map_cons]
    exact hdistinct
  · intro t ht
    rcases List.mem_or_eq_of_mem_set ht with ht | rfl
    · exact hb.tasks t ht
    · exact hwoken.ok
  · intro h
    rw [hwoken.hashes, hb.hashes, hset, hl]
    simp only [List.mem_append, List.mem_cons]
    -- A hash seen in the batch is that of another coroutine, or of this one just now.
    constructor
    · rintro ((hold | ⟨t, ht | rfl | ht, hrecord, rfl⟩) | ⟨hrecord, rfl⟩)
      · exact .inl hold
      · exact .inr ⟨t, .inl ht, hrecord, rfl⟩
      · rw [hnone] at hrecord
        cases hrecord
      · exact .inr ⟨t, .inr (.inr ht), hrecord, rfl⟩
      · exact .inr ⟨_, .inr (.inl rfl), hrecord, rfl⟩
    · rintro (hold | ⟨t, ht | rfl | ht, hrecord, rfl⟩)
      · exact .inl (.inl hold)
      · exact .inl (.inr ⟨t, .inl ht, hrecord, rfl⟩)
      · exact .inr ⟨hrecord, rfl⟩
      · exact .inl (.inr ⟨t, .inr (.inr ht), hrecord, rfl⟩)

theorem configs_resume {b b' : Batch} {i : Nat} {w : Wake}
    (h : b.resume env v i w = some (v', b', stage)) :
    b'.tasks.map Task.config = b.tasks.map Task.config := by
  obtain ⟨task, ht, -, rfl⟩ := Batch.resume_eq_some h
  obtain ⟨l₁, l₂, hl, hset⟩ := Runs.split_at ht
  rw [hset, hl]
  simp

/-- What the coroutines have returned when they are done. -/
theorem BatchInv.returned {b : Batch} (hb : BatchInv env L seen v b) (hdone : b.done = true)
    {t : Task} (ht : t ∈ b.tasks) :
    (t.stage.record?.isSome = true ↔
        accepts env L t.config = true ∧ configHash t.config ∉ seen) ∧
      ∀ r ∈ t.stage.record?, r.configHash = configHash t.config := by
  have hfinished := List.all_eq_true.mp hdone t ht
  have hok := hb.tasks t ht
  obtain ⟨config, stage⟩ := t
  cases stage with
  | finished outcome => exact hok
  | _ => cases hfinished

/-- **What a batch has passed when it is done**: the links that are acceptable and whose
hash had not been seen. -/
theorem BatchInv.mem_results {b : Batch} (hb : BatchInv env L seen v b) (hdone : b.done = true)
    (h : Str) : h ∈ b.results.map Record.configHash ↔
      h ∉ seen ∧ ∃ c ∈ b.tasks.map Task.config, accepts env L c = true ∧ configHash c = h := by
  simp only [Batch.results, List.mem_map, List.mem_filterMap]
  constructor
  · rintro ⟨r, ⟨t, ht, hr⟩, rfl⟩
    obtain ⟨hiff, hhash⟩ := hb.returned hdone ht
    obtain ⟨haccepts, hnew⟩ := hiff.mp (by rw [hr]; rfl)
    rw [hhash r hr]
    exact ⟨hnew, t.config, ⟨t, ht, rfl⟩, haccepts, rfl⟩
  · rintro ⟨hnew, _, ⟨t, ht, rfl⟩, haccepts, rfl⟩
    obtain ⟨hiff, hhash⟩ := hb.returned hdone ht
    obtain ⟨r, hr⟩ := Option.isSome_iff_exists.mp (hiff.mpr ⟨haccepts, hnew⟩)
    exact ⟨r, ⟨t, ht, hr⟩, hhash r hr⟩

/-- What has been seen when a batch is done. -/
theorem BatchInv.mem_seenHashes {b : Batch} (hb : BatchInv env L seen v b)
    (hdone : b.done = true) (h : Str) : h ∈ v.seenHashes ↔
      h ∈ seen ∨ ∃ c ∈ b.tasks.map Task.config, accepts env L c = true ∧ configHash c = h := by
  rw [hb.hashes]
  constructor
  · rintro (hold | ⟨t, ht, hrecord, rfl⟩)
    · exact .inl hold
    · obtain ⟨haccepts, -⟩ := (hb.returned hdone ht).1.mp hrecord
      exact .inr ⟨t.config, List.mem_map_of_mem ht, haccepts, rfl⟩
  · rintro (hold | ⟨c, hc, haccepts, rfl⟩)
    · exact .inl hold
    · by_cases hold : configHash c ∈ seen
      · exact .inl hold
      · obtain ⟨t, ht, rfl⟩ := List.mem_map.mp hc
        exact .inr ⟨t, ht, (hb.returned hdone ht).1.mpr ⟨haccepts, hold⟩, rfl⟩

end ConfigManager
