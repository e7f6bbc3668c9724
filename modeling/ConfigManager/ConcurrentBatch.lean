import ConfigManager.CountryLookup
import ConfigManager.SequentialBatch
import Mathlib.Algebra.Order.Ring.Nat

/-! # A batch in every order

`validate_batch` starts the calls for its links together, and `gather` puts what they
return into the order of the links.  With the services' answers given, a step of a batch is
the choice of the coroutine that is woken up (`turn`), and an interleaving is a list of
such choices.  The calls share the seen hashes and the country cache; what they leave
there adds up to the same in every order (`Partway`), so a batch returns what the calls
return one after the other (`concurrent_eq_sequential`).  The cache takes `1` and `true` for one
host, and so does the lookup, which has no country for what is no text.
-/
namespace ConfigManager

open Py

variable (env : Env) (S : Services)

namespace Services

/-- The connection tests, and `fetch_country_code` on a network that answers each request
always alike. -/
def ofGeo (T : Cases env.unicode) (geo : Geo) (ping : Json → Option Int → Option Bool) :
    Services where
  ping := ping
  lookup host := some (ConfigManager.countryOf (fetchCountryCode env T geo host))
  lookup_other host h := by
    rw [fetchCountryCode_other env T geo h]
    rfl

/-- What a coroutine is woken up with, `none` where that is an exception. -/
def wakeOf (config : Str) : Stage → Option Wake
  | .waiting => some .start
  | .pinging => (S.ping (hostOf env config) (extractPort env.floats config)).map .pinged
  | .locating => (S.lookup (hostOf env config)).map .located
  | .finished _ => none

/-- Coroutine `i` of a batch is woken up, if it can be; `gather` keeps its exception. -/
def turn (s : Validator × Batch) (i : Nat) : Option (Validator × Batch) :=
  (s.2.tasks[i]?).bind fun task =>
    if task.stage.rank = 0 then none
    else match S.wakeOf env task.config task.stage with
      | some w => (s.2.resume env s.1 i w).map fun (v, b, _) => (v, b)
      | none =>
          some (s.1, { s.2 with tasks := s.2.tasks.set i { task with stage := .finished none } })

/-- A batch in the middle of an interleaving: the links whose calls have come to their end
have left in the validator what they leave in any order. -/
structure Partway (v : Validator) (b₀ : Batch) (configs : List Str) (s : Validator × Batch) :
    Prop where
  checkPing : s.2.checkPing = b₀.checkPing
  maxConcurrent : s.2.maxConcurrent = b₀.maxConcurrent
  tasks : s.2.tasks.map Task.config = configs
  stages : ∀ t ∈ s.2.tasks, S.StageOk env b₀.checkPing t.config t.stage
  settled : S.Settled env b₀.checkPing v (s.2.tasks.flatMap fun t => t.stage.returned t.config) s.1

variable {env S} {v v' : Validator} {checkPing : Bool} {config : Str} {configs : List Str}
  {stage : Stage} {b₀ : Batch} {s s' : Validator × Batch} {i : Nat} {w : Wake}

/-! ## A step -/

/-- A coroutine that is woken up with its answer. -/
theorem wake_eq_advance {task : Task} (h : S.wakeOf env task.config task.stage = some w) :
    v.wake env checkPing task w = some (S.advance env checkPing v task.config task.stage) := by
  obtain ⟨config, stage⟩ := task
  cases stage with
  | waiting =>
    cases h
    rfl
  | pinging =>
    obtain ⟨alive, hping, rfl⟩ := Option.map_eq_some_iff.mp h
    simp only at hping
    simp only [Validator.wake, ↓reduceIte, advance, hping, Option.some.injEq]
  | locating =>
    obtain ⟨country, hlookup, rfl⟩ := Option.map_eq_some_iff.mp h
    simp only at hlookup
    simp only [Validator.wake, ↓reduceIte, advance, hlookup]
    rfl
  | finished outcome => cases h

/-- A coroutine that is woken up with an exception. -/
theorem advance_of_wakeOf (h : S.wakeOf env config stage = none) (hrank : stage.rank ≠ 0) :
    S.advance env checkPing v config stage = (v, .finished none) := by
  cases stage with
  | waiting => cases h
  | pinging => rw [advance, Option.map_eq_none_iff.mp h]; rfl
  | locating => rw [advance, Option.map_eq_none_iff.mp h]
  | finished outcome => exact absurd rfl hrank

/-- **What a step does**: one coroutine that has not come to its end advances. -/
theorem turn_eq_some (h : S.turn env s i = some s') :
    ∃ task, s.2.tasks[i]? = some task ∧ task.stage.rank ≠ 0 ∧
      s' = ((S.advance env s.2.checkPing s.1 task.config task.stage).1,
        { s.2 with tasks := s.2.tasks.set i { task with
          stage := (S.advance env s.2.checkPing s.1 task.config task.stage).2 } }) := by
  obtain ⟨task, ht, h⟩ := Option.bind_eq_some_iff.mp h
  split_ifs at h with hrank
  refine ⟨task, ht, hrank, ?_⟩
  cases hw : S.wakeOf env task.config task.stage with
  | some w =>
    rw [hw] at h
    obtain ⟨⟨v', b', stage⟩, hresume, rfl⟩ := Option.map_eq_some_iff.mp h
    obtain ⟨task', ht', hwake, rfl⟩ := Batch.resume_eq_some hresume
    obtain rfl : task' = task := Option.some.inj (ht'.symm.trans ht)
    rw [wake_eq_advance hw, Option.some_inj] at hwake
    rw [hwake]
  | none =>
    rw [hw] at h
    rw [advance_of_wakeOf hw hrank]
    exact (Option.some.inj h).symm

/-! ## An interleaving -/

theorem Partway.mem_configs (hs : Partway env S v b₀ configs s) {t : Task} (ht : t ∈ s.2.tasks) :
    t.config ∈ configs := hs.tasks ▸ List.mem_map_of_mem ht

theorem Partway.returned_subset (hs : Partway env S v b₀ configs s) :
    ∀ c ∈ s.2.tasks.flatMap fun t => t.stage.returned t.config, c ∈ configs := by
  intro c hc
  obtain ⟨t, ht, hmem⟩ := List.mem_flatMap.mp hc
  rw [Stage.eq_of_mem_returned hmem]
  exact hs.mem_configs ht

/-- The hash of a link whose call has not come to its end is still new. -/
theorem Partway.notMem_seenHashes (hs : Partway env S v b₀ configs s)
    (hdistinct : (configs.map configHash).Nodup) (hnew : ∀ c ∈ configs, configHash c ∉ v.seenHashes)
    {task : Task} (ht : s.2.tasks[i]? = some task) (hrank : task.stage.rank ≠ 0) :
    configHash task.config ∉ s.1.seenHashes := by
  rw [hs.settled.hashes]
  rintro (hold | ⟨c, hc, -, heq⟩)
  · exact hnew _ (hs.mem_configs (List.mem_of_getElem? ht)) hold
  · obtain ⟨t, hmem, hreturned⟩ := List.mem_flatMap.mp hc
    obtain rfl := Stage.eq_of_mem_returned hreturned
    rw [← hs.tasks, List.map_map] at hdistinct
    -- The link with this hash is the link of this call.
    obtain rfl := List.inj_on_of_nodup_map hdistinct hmem (List.mem_of_getElem? ht) heq
    rw [Stage.returned_of_rank hrank] at hreturned
    exact List.not_mem_nil hreturned

variable (env S) in
theorem partway_new (v : Validator) (configs : List Str) (checkPing : Bool) (n : Nat) :
    Partway env S v (Batch.new configs checkPing n) configs (v, Batch.new configs checkPing n) := by
  refine ⟨rfl, rfl, by simp [Batch.new, Function.comp_def], fun t ht => ?_, ?_⟩
  · obtain ⟨c, -, rfl⟩ := List.mem_map.mp ht
    trivial
  · have hnone : (Batch.new configs checkPing n).tasks.flatMap
        (fun t => t.stage.returned t.config) = [] := by
      simp [Batch.new, Stage.returned]
    rw [hnone]
    exact .refl v

/-- **A step keeps what there is to keep**, whichever coroutine is woken up. -/
theorem partway_turn (hF : KeyLaws env.floats) (hagrees : S.Agrees env configs v)
    (hdistinct : (configs.map configHash).Nodup) (hnew : ∀ c ∈ configs, configHash c ∉ v.seenHashes)
    (hs : Partway env S v b₀ configs s) (h : S.turn env s i = some s') :
    Partway env S v b₀ configs s' := by
  obtain ⟨task, ht, hrank, rfl⟩ := turn_eq_some h
  obtain ⟨l₁, l₂, hl, hset⟩ := Runs.split_at ht
  have hmem := List.mem_of_getElem? ht
  have hadvanced := advanced_advance hF (hagrees.settled hF hs.settled)
    (hs.mem_configs hmem) (hs.notMem_seenHashes hdistinct hnew ht hrank) (hs.stages task hmem) hrank
  rw [hs.checkPing]
  refine ⟨hs.checkPing, hs.maxConcurrent, ?_, fun t hmem' => ?_, ?_⟩
  · rw [← hs.tasks, hset, hl]
    simp
  · rcases List.mem_or_eq_of_mem_set hmem' with hmem' | rfl
    · exact hs.stages t hmem'
    · exact hadvanced.ok
  · have hsettled := hs.settled.trans hF hadvanced.settled
    refine hsettled.of_mem fun c => ?_
    rw [hset, hl]
    simp only [List.flatMap_append, List.flatMap_cons, Stage.returned_of_rank hrank,
      List.mem_append, List.not_mem_nil, false_or, or_assoc]
    rw [or_comm (a := c ∈ List.flatMap _ l₂)]

/-! ## The end of an interleaving -/

theorem done_iff (b : Batch) : b.done = true ↔ ∀ t ∈ b.tasks, t.stage.rank = 0 := by
  rw [Batch.done, List.all_eq_true]
  refine forall₂_congr fun t _ => ?_
  cases t.stage <;> simp [Stage.rank]

/-- **What a batch returns**: what becomes of its links, in their order. -/
theorem Partway.results (hs : Partway env S v b₀ configs s) (hdone : s.2.done = true) :
    s.2.results = configs.filterMap (S.outcome env b₀.checkPing) := by
  rw [done_iff] at hdone
  rw [Batch.results, ← hs.tasks, List.filterMap_map]
  refine List.filterMap_congr fun t ht => ?_
  have hok := hs.stages t ht
  have hrank := hdone t ht
  obtain ⟨config, stage⟩ := t
  cases stage with
  | finished outcome => exact hok
  | waiting | pinging | locating => cases hrank

/-- What a batch leaves in the validator. -/
theorem Partway.settled_configs (hs : Partway env S v b₀ configs s) (hdone : s.2.done = true) :
    S.Settled env b₀.checkPing v configs s.1 := by
  rw [done_iff] at hdone
  refine hs.settled.of_mem fun c => ⟨hs.returned_subset c, fun hc => ?_⟩
  rw [← hs.tasks] at hc
  obtain ⟨t, ht, rfl⟩ := List.mem_map.mp hc
  refine List.mem_flatMap.mpr ⟨t, ht, ?_⟩
  have hrank := hdone t ht
  obtain ⟨config, stage⟩ := t
  cases stage with
  | finished outcome => exact List.mem_singleton_self config
  | waiting | pinging | locating => cases hrank

theorem resume_isSome {b : Batch} {task : Task} (ht : b.tasks[i]? = some task)
    (hwake : (v.wake env b.checkPing task w).isSome = true)
    (hplace : w = .start → b.running < b.maxConcurrent) : (b.resume env v i w).isSome = true := by
  cases w with
  | start =>
    rw [Batch.resume, ht, Option.bind_some, if_neg fun hfull => Nat.not_lt.mpr hfull.2 (hplace rfl),
      Option.isSome_map, hwake]
  | pinged alive | located country => simpa [Batch.resume, ht] using hwake

/-- A coroutine is woken up, unless it waits for a place. -/
theorem turn_isSome {task : Task} (ht : s.2.tasks[i]? = some task) (hrank : task.stage.rank ≠ 0)
    (hplace : task.stage = .waiting → s.2.running < s.2.maxConcurrent) :
    (S.turn env s i).isSome = true := by
  rw [turn, ht, Option.bind_some, if_neg hrank]
  cases hw : S.wakeOf env task.config task.stage with
  | none => rfl
  | some w =>
    have hwake : (s.1.wake env s.2.checkPing task w).isSome = true := by
      rw [wake_eq_advance hw]
      rfl
    have hresume : (s.2.resume env s.1 i w).isSome = true := by
      refine resume_isSome ht hwake fun hstart => hplace ?_
      subst hstart
      -- Only a coroutine that waits is let in.
      cases hstage : task.stage with
      | waiting => rfl
      | pinging =>
        rw [hstage] at hw
        obtain ⟨alive, -, h⟩ := Option.map_eq_some_iff.mp hw
        cases h
      | locating =>
        rw [hstage] at hw
        obtain ⟨country, -, h⟩ := Option.map_eq_some_iff.mp hw
        cases h
      | finished outcome =>
        rw [hstage] at hw
        cases hw
    simpa using hresume

/-- **A batch does not get stuck**, if it has a place. -/
theorem exists_turn (hplaces : 1 ≤ s.2.maxConcurrent) (hdone : s.2.done = false) :
    ∃ i, (S.turn env s i).isSome = true := by
  by_cases hrunning : s.2.running = 0
  · -- Every place is free, and there is a coroutine that has not come to its end.
    have hnot : ¬∀ t ∈ s.2.tasks, t.stage.rank = 0 := by
      rw [← done_iff, hdone]
      exact Bool.false_ne_true
    obtain ⟨t, ht, hrank⟩ : ∃ t ∈ s.2.tasks, t.stage.rank ≠ 0 := by
      simpa only [not_forall, exists_prop] using hnot
    obtain ⟨i, hi⟩ := List.mem_iff_getElem?.mp ht
    exact ⟨i, turn_isSome hi hrank fun _ => by omega⟩
  · -- A coroutine that holds a place gets its answer.
    obtain ⟨t, ht, hstage⟩ := List.countP_pos_iff.mp (Nat.pos_of_ne_zero hrunning)
    obtain ⟨i, hi⟩ := List.mem_iff_getElem?.mp ht
    rw [decide_eq_true_eq] at hstage
    refine ⟨i, turn_isSome hi (fun hrank => ?_) fun hwaiting => ?_⟩
    · rcases hstage with h | h
      · rw [h] at hrank
        cases hrank
      · rw [h] at hrank
        cases hrank
    · rcases hstage with h | h
      · rw [h] at hwaiting
        cases hwaiting
      · rw [h] at hwaiting
        cases hwaiting

/-- How many stretches are left of the calls of a batch, at most. -/
def work (b : Batch) : Nat := (b.tasks.map fun t => t.stage.rank).sum

theorem work_turn (h : S.turn env s i = some s') : work s'.2 < work s.2 := by
  obtain ⟨task, ht, hrank, rfl⟩ := turn_eq_some h
  obtain ⟨l₁, l₂, hl, hset⟩ := Runs.split_at ht
  have hless :
      (S.advance env s.2.checkPing s.1 task.config task.stage).2.rank ≤ task.stage.rank - 1 :=
    rank_advance s.1 task.config task.stage
  rw [work, work, hset, hl]
  simp only [List.map_append, List.map_cons, List.sum_append, List.sum_cons]
  omega

end Services

variable {env S} {v : Validator} {checkPing : Bool} {configs : List Str}

/-- **A batch in every order** returns what the calls return one after the other, and leaves
the same hashes and the same countries. -/
theorem concurrent_eq_sequential (hF : KeyLaws env.floats)
    (hagrees : S.Agrees env configs v) (hdistinct : (configs.map configHash).Nodup)
    (hnew : ∀ c ∈ configs, configHash c ∉ v.seenHashes) {n : Nat} (hplaces : 1 ≤ n)
    (order : List Nat) (s : Validator × Batch)
    (h : Runs.run (S.turn env) (v, Batch.new configs checkPing n) order = some s) :
    order.length ≤ 3 * configs.length ∧
    (s.2.done = false → ∃ i, (S.turn env s i).isSome = true) ∧
    (s.2.done = true →
      s.2.results = (S.validateAll env checkPing v configs).2 ∧
      s.1.seenHashes = (S.validateAll env checkPing v configs).1.seenHashes ∧
      ∀ host, s.1.cached env host = (S.validateAll env checkPing v configs).1.cached env host) := by
  have hs : Services.Partway env S v (Batch.new configs checkPing n) configs s :=
    Runs.last_of_inv (fun _ _ _ hs => Services.partway_turn hF hagrees hdistinct hnew hs)
      (Services.partway_new env S v configs checkPing n) h
  refine ⟨?_, fun hdone => Services.exists_turn (by rw [hs.maxConcurrent]; exact hplaces) hdone,
    fun hdone => ?_⟩
  · have hlength := Runs.length_of_measure (fun _ _ _ h => Services.work_turn h) h
    have hwork : Services.work (Batch.new configs checkPing n) = 3 * configs.length := by
      simp [Services.work, Batch.new, Function.comp_def, Stage.rank, Nat.mul_comm]
    exact Nat.le_trans (Nat.le_add_right _ _) (hwork ▸ hlength)
  · obtain ⟨hsequential, hrecords⟩ := Services.settled_validateAll hF hagrees (fun _ hc => hc)
      hdistinct hnew
    rw [hs.results hdone, hrecords]
    exact ⟨rfl, (hs.settled_configs hdone).unique hsequential⟩

/-- Two vmess links, with the hosts `1` and `true`, which are one key, and one with a name. -/
def keyLinks : List Str :=
  ["vmess://eyJhZGQiOjF9".toList, "vmess://eyJhZGQiOnRydWV9".toList, sampleLink]

/-- Every host answers, and every name is in Germany. -/
def germany : Services :=
  .ofGeo Env.sample Cases.sample
    ⟨fun _ => none, fun _ => some (jsonResponse 200 "\x7b\"country_code\": \"de\"\x7d")⟩
    fun _ _ => some true

/-- All calls are let in, and the last one gets its country first. -/
def crossed : Option (Validator × Batch) :=
  Runs.run (germany.turn Env.sample) (.new, .new keyLinks false 3) [0, 1, 2, 2, 1, 0]

/-- Where the crossed calls end. -/
def crossedEnd : Validator × Batch := crossed.get (by decide +kernel)

theorem keyLaws_sample : KeyLaws Env.sample.floats :=
  ⟨fun _ _ _ h => absurd h Bool.false_ne_true, fun _ _ _ h => absurd h Bool.false_ne_true,
    fun _ => rfl⟩

theorem concurrent_eq_sequential_sample :
    crossedEnd.2.results.map Record.countryCode = ["UN".toList, "UN".toList, "DE".toList] ∧
      crossedEnd.2.results = (germany.validateAll Env.sample false .new keyLinks).2 ∧
      crossedEnd.1.seenHashes =
        (germany.validateAll Env.sample false .new keyLinks).1.seenHashes ∧
      ∀ host, crossedEnd.1.cached Env.sample host =
        (germany.validateAll Env.sample false .new keyLinks).1.cached Env.sample host := by
  have hagrees : germany.Agrees Env.sample keyLinks .new := fun _ _ _ h => nomatch h
  have hnew : ∀ c ∈ keyLinks, configHash c ∉ Validator.new.seenHashes :=
    fun _ _ => Finset.notMem_empty _
  have hrun : crossed = some crossedEnd := (Option.some_get _).symm
  exact ⟨by decide +kernel, (concurrent_eq_sequential keyLaws_sample hagrees (by decide +kernel)
    hnew (n := 3) (by decide) [0, 1, 2, 2, 1, 0] crossedEnd hrun).2.2 (by decide +kernel)⟩

end ConfigManager
