import ConfigManager.Validator

/-! # A validator passes a config once, or not

The seen hashes are asked when a coroutine is let in and extended when it
returns, and between the two it may await a connection test and a country lookup.
A `Session` is a validator with any number of `validate_batch` calls in flight
and the records its coroutines have returned since the last `reset_cache`.

The seen hashes are those of the records returned (`Session.Inv`).  So a hash is
returned twice exactly when a coroutine comes back from an await, with a country
its link can be marked with, and its hash has been seen meanwhile:
`passedOnce_iff`.
-/
namespace ConfigManager

open Py Runs

/-- A validator at work. -/
structure Session where
  validator : Validator
  batches : List Batch
  /-- The records returned since the last `reset_cache`. -/
  passed : List Record

namespace Session

/-- What can happen next. -/
inductive Label where
  | validateBatch (configs : List Str) (checkPing : Bool) (maxConcurrent : Nat)
  | resume (b i : Nat) (w : Wake)
  | resetCache

/-- A validator that has done nothing yet. -/
def new : Session := ⟨.new, [], []⟩

/-- The hashes of the records returned. -/
def hashes (s : Session) : List Str := s.passed.map Record.configHash

variable (env : Env)

def step (s : Session) : Label → Option Session
  | .validateBatch configs checkPing maxConcurrent =>
      some { s with batches := s.batches ++ [.new configs checkPing maxConcurrent] }
  | .resume b i w =>
      (s.batches[b]?).bind fun batch => (batch.resume env s.validator i w).map
        fun (v', batch', stage) =>
          { validator := v'
            batches := s.batches.set b batch'
            passed := s.passed ++ stage.record?.toList }
  | .resetCache => some { s with validator := s.validator.resetCache, passed := [] }

/-- A coroutine that comes back from an await with a country its link can be marked
with finds its hash unseen. -/
def AnswersUnseen (s : Session) : Label → Prop
  | .resume b i w =>
      ∀ batch ∈ s.batches[b]?, ∀ task ∈ batch.tasks[i]?,
        ∀ country ∈ s.validator.answer env task w, (recordOf env task.config country).isSome →
          configHash task.config ∉ s.validator.seenHashes
  | _ => True

/-- No `config_hash` has been returned twice. -/
def PassedOnce (s : Session) : Prop := s.hashes.Nodup

instance (s : Session) : Decidable s.PassedOnce := inferInstanceAs (Decidable (List.Nodup _))

/-- The seen hashes are the hashes returned, and these are distinct. -/
structure Inv (s : Session) : Prop where
  once : s.PassedOnce
  seen : ∀ h, h ∈ s.validator.seenHashes ↔ h ∈ s.hashes

variable {env} {s t : Session} {l : Label}

theorem inv_new : Inv new := ⟨List.nodup_nil, by simp [new, Validator.new, hashes]⟩

/-- What a resumed coroutine does to the session: nothing to the hashes, or it adds
its own to those seen and those returned. -/
theorem resume_cases {b i : Nat} {w : Wake} (h : s.step env (.resume b i w) = some t) :
    t.hashes = s.hashes ∧ t.validator.seenHashes = s.validator.seenHashes ∧
      AnswersUnseen env s (.resume b i w) ∨
    ∃ config, t.hashes = s.hashes ++ [configHash config] ∧
      t.validator.seenHashes = insert (configHash config) s.validator.seenHashes ∧
      (configHash config ∉ s.validator.seenHashes ↔ AnswersUnseen env s (.resume b i w)) := by
  obtain ⟨batch, hb, h⟩ := Option.bind_eq_some_iff.mp h
  obtain ⟨⟨v', batch', stage⟩, hr, rfl⟩ := Option.map_eq_some_iff.mp h
  obtain ⟨task, ht, hw, -⟩ := Batch.resume_eq_some hr
  obtain ⟨country, ho, hfrom⟩ := Validator.wake_outcome hw
  have hcond : AnswersUnseen env s (.resume b i w) ↔
      ∀ c ∈ s.validator.answer env task w, (recordOf env task.config c).isSome →
        configHash task.config ∉ s.validator.seenHashes := by
    simp [AnswersUnseen, hb, ht]
  cases ho with
  | quiet hnone hs hc =>
    refine Or.inl ⟨by simp [hashes, hnone], hs, hcond.mpr fun c hm hsome => ?_⟩
    rcases hfrom with rfl | ⟨hnone, -⟩
    · simp [hc c hm] at hsome
    · simp [hnone] at hm
  | @passed c record hc hrec hs =>
    refine Or.inr ⟨task.config, by simp [hashes, Stage.record?, recordOf_configHash hrec], hs, ?_⟩
    rw [hcond]
    rcases hfrom with rfl | ⟨hnone, hunseen⟩
    · simp [hc, hrec]
    · simp [hnone, hunseen (by simp [hc])]

theorem inv_step (hs : s.Inv) (hc : AnswersUnseen env s l) (h : s.step env l = some t) : t.Inv := by
  cases l with
  | validateBatch configs checkPing maxConcurrent => cases h; exact ⟨hs.once, hs.seen⟩
  | resetCache => cases h; exact ⟨List.nodup_nil, by simp [Validator.resetCache, hashes]⟩
  | resume b i w =>
    rcases resume_cases h with ⟨hh, hv, -⟩ | ⟨config, hh, hv, hiff⟩
    · exact ⟨by rw [PassedOnce, hh]; exact hs.once, fun x => by rw [hh, hv]; exact hs.seen x⟩
    · have hnew : configHash config ∉ s.hashes := fun hm =>
        hiff.mpr hc ((hs.seen _).mpr hm)
      refine ⟨?_, fun x => ?_⟩
      · rw [PassedOnce, hh]
        exact List.Nodup.append hs.once (List.nodup_singleton _) (by simpa using hnew)
      · rw [hh, hv, Finset.mem_insert, hs.seen, List.mem_append, List.mem_singleton, or_comm]

/-- A coroutine that does not find its hash unseen returns it a second time. -/
theorem repeats_of_not (hs : s.Inv) (hc : ¬AnswersUnseen env s l) (h : s.step env l = some t) :
    ¬t.PassedOnce := by
  cases l with
  | validateBatch configs checkPing maxConcurrent => exact absurd trivial hc
  | resetCache => exact absurd trivial hc
  | resume b i w =>
    rcases resume_cases h with ⟨-, -, hholds⟩ | ⟨config, hh, -, hiff⟩
    · exact absurd hholds hc
    · have hold : configHash config ∈ s.hashes := by
        rw [← hs.seen]
        by_contra hm
        exact hc (hiff.mp hm)
      rw [PassedOnce, hh, List.nodup_append]
      rintro ⟨-, -, hdisj⟩
      exact hdisj _ hold _ (List.mem_singleton_self _) rfl

/-- **Exactly the runs in which no config is passed twice**: those in which every
coroutine that comes back from an await with a usable country finds its hash
unseen. -/
theorem passedOnce_iff (env : Env) (labels : List Label)
    (h : IsRun (step env) new labels) :
    (∀ s ∈ visited (step env) new labels, s.PassedOnce) ↔
      Meets (step env) (AnswersUnseen env) new labels :=
  safe_iff_meets (fun _ hs => hs.once) (fun _ _ _ => inv_step) (fun _ _ _ => repeats_of_not)
    inv_new h

/-- One coroutine looks its country up and returns. -/
def singleRun : List Label :=
  [.validateBatch [sampleLink] false 10, .resume 0 0 .start,
    .resume 0 0 (.located (some "DE".toList))]

/-- Two coroutines of one batch look up the country of the same link. -/
def doubleRun : List Label :=
  [.validateBatch [sampleLink, sampleLink] false 10, .resume 0 0 .start, .resume 0 1 .start,
    .resume 0 0 (.located (some "DE".toList)), .resume 0 1 (.located (some "DE".toList))]

theorem passedOnce_singleRun :
    (∀ s ∈ visited (step Env.sample) new singleRun, s.PassedOnce) ↔
      Meets (step Env.sample) (AnswersUnseen Env.sample) new singleRun :=
  passedOnce_iff Env.sample singleRun (by decide +kernel)

/-- Both return a record. -/
theorem not_passedOnce_doubleRun :
    IsRun (step Env.sample) new doubleRun ∧
      ¬∀ s ∈ visited (step Env.sample) new doubleRun, s.PassedOnce := by
  decide +kernel

end Session
end ConfigManager
