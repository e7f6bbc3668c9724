import ConfigManager.ConfigTable
import ConfigManager.PerfRanking
import ConfigManager.Py.TaskPool
import Mathlib.Algebra.BigOperators.Group.List.Basic
import Mathlib.Algebra.Order.BigOperators.Group.List

/-! # Testing configs (`core.white_configs_perf_tester._perf_for_one`)

A task tests its row behind a semaphore.  A row without a server is dead.  Where the row
holds JSON, xray is run with it: its port is polled until it opens, and three requests go
through it.  Anything else raises a `ValueError` there and is tested by three connections to
its server instead, and is alive if one of them succeeds.

The tasks run in any order, at most as many together as the semaphore lets in, and each can
fail on its own.  A task's result is its outcome in the ranking (`perfResult_result`), so what
comes back is a top-n of all rows for every schedule (`top_of_schedule`).

What a test comes upon is a `Probe`.  A free port is always found, and the details that are
handed through with a result are left out.
-/
namespace ConfigManager

open Py Runs

/-- A row of `processed_configs`, with its id. -/
structure StoredConfig where
  id : Int
  row : Row

/-- What the test of a row comes upon. -/
structure Probe where
  /-- xray is started. -/
  started : Bool
  /-- How often its port is polled in vain, before it opens or the time is up. -/
  polls : Nat
  opens : Bool
  /-- The time that a round takes, if it succeeds. -/
  round : Nat → Option ℚ
  round_nonneg : ∀ i, ∀ ms ∈ round i, 0 ≤ ms

/-- The fields of a `PerfResult` that the ranking does not look at, and those it does. -/
structure PerfReport where
  result : PerfResult
  protocol : Option Protocol
  server : Json
  configLink : Str

/-- The await a test stands at. -/
inductive PerfStage where
  /-- The sleep after a poll; this many are to come. -/
  | polling (left : Nat)
  /-- The sleep before a round. -/
  | gap (fallback : Bool) (i : Nat) (samples : List ℚ)
  /-- A round. -/
  | testing (fallback : Bool) (i : Nat) (samples : List ℚ)

section
variable (env : Env) (config : StoredConfig) (probe : Probe)

/-- `row.host or extract_host(row.raw_config)`. -/
def StoredConfig.server : Json :=
  if truthy config.row.host then config.row.host else extractHost env.floats config.row.rawConfig

/-- `(row.watermarked_config or row.raw_config).strip() if row.raw_config else ""`. -/
def StoredConfig.link : Str := if config.row.rawConfig = [] then [] else strip config.row.text

/-- `cfg_text.startswith("{")`. -/
def StoredConfig.isJson : Bool := (strip config.row.rawConfig).head? = some '\x7b'

/-- `sum(samples) / len(samples) if samples else None`. -/
def average (samples : List ℚ) : Option ℚ :=
  if samples = [] then none else some (samples.sum / samples.length)

/-- A `PerfResult`. -/
def perfReport (alive : Bool) (samples : List ℚ) (protocol : Option Protocol) : PerfReport where
  result :=
    { configId := config.id
      alive := alive
      avgTtfbMs := average samples
      stabilitySuccess := samples.length
      stability := (toString samples.length ++ "/" ++ toString stabilityRounds).toList
      score := finalScore (average samples) samples.length alive }
  protocol := protocol
  server := if truthy (config.server env) then config.server env else .null
  configLink := config.link

/-- What is returned where nothing was measured. -/
def deadReport : PerfReport := perfReport env config false [] config.row.protocol

/-- What is returned after the rounds. -/
def measuredReport (fallback : Bool) (samples : List ℚ) : PerfReport :=
  if fallback then
    perfReport env config (samples.length > 0) samples
      (config.row.protocol.or (some (detectProtocol config.link)))
  else perfReport env config true samples config.row.protocol

/-- A poll of the port. -/
def poll (left : Nat) : PerfStage ⊕ PerfReport :=
  if left = 0 then
    if probe.opens then .inl (.testing false 0 []) else .inr (deadReport env config)
  else .inl (.polling (left - 1))

/-- `_perf_for_one`, up to its first await. -/
def perfEnter : PerfStage ⊕ PerfReport :=
  if truthy (config.server env) then
    if config.isJson then
      if probe.started then poll env config probe probe.polls else .inr (deadReport env config)
    else .inl (.testing true 0 [])
  else .inr (deadReport env config)

/-- `_perf_for_one`, from an await to the next. -/
def perfResume : PerfStage → PerfStage ⊕ PerfReport
  | .polling left => poll env config probe left
  | .gap fallback i samples => .inl (.testing fallback i samples)
  | .testing fallback i samples =>
      let samples := samples ++ (probe.round i).toList
      if i + 1 < stabilityRounds then .inl (.gap fallback (i + 1) samples)
      else .inr (measuredReport env config fallback samples)

/-- How many awaits are to come, at most. -/
def PerfStage.weight : PerfStage → Nat
  | .polling left => left + 7
  | .gap _ i _ => 2 * (stabilityRounds - i) + 1
  | .testing _ i _ => 2 * (stabilityRounds - i)

end

variable {env : Env} {config : StoredConfig} {probe : Probe}

theorem weight_perfResume {st st' : PerfStage} (h : perfResume env config probe st = .inl st') :
    st'.weight < st.weight := by
  cases st with
  | polling left =>
    simp only [perfResume, poll] at h
    split_ifs at h with hleft hopens
    · cases h
      simp [PerfStage.weight, stabilityRounds]
    · cases h
      simp only [PerfStage.weight]
      omega
  | gap fallback i samples =>
    cases h
    exact Nat.lt_succ_self _
  | testing fallback i samples =>
    simp only [perfResume] at h
    split_ifs at h with hi
    cases h
    simp only [PerfStage.weight]
    omega

/-! ## A task alone -/

/-- The times of the rounds that succeed. -/
def Probe.samples (probe : Probe) : List ℚ := (List.range stabilityRounds).filterMap probe.round

/-- The rounds are run. -/
def StoredConfig.measured (env : Env) (config : StoredConfig) (probe : Probe) : Bool :=
  truthy (config.server env) && (!config.isJson || probe.started && probe.opens)

/-- What a test returns. -/
def perfResult (env : Env) (config : StoredConfig) (probe : Probe) : PerfReport :=
  if config.measured env probe then measuredReport env config (!config.isJson) probe.samples
  else deadReport env config

theorem samples_nonneg (probe : Probe) : ∀ ms ∈ probe.samples, 0 ≤ ms := by
  intro ms hms
  obtain ⟨i, -, hi⟩ := List.mem_filterMap.mp hms
  exact probe.round_nonneg i ms hi

theorem length_samples_le (probe : Probe) : probe.samples.length ≤ stabilityRounds :=
  (List.length_filterMap_le _ _).trans (List.length_range).le

theorem average_nonneg {samples : List ℚ} (h : ∀ ms ∈ samples, 0 ≤ ms) :
    ∀ ms ∈ average samples, 0 ≤ ms := by
  intro ms hms
  unfold average at hms
  split at hms
  · cases hms
  rw [← Option.mem_some_iff.mp hms]
  exact div_nonneg (List.sum_nonneg h) (Nat.cast_nonneg _)

/-- What comes of the tests of a row. -/
def perfOutcome (env : Env) (config : StoredConfig) (probe : Probe) : PerfOutcome :=
  if config.measured env probe then
    { alive := config.isJson || probe.samples.length > 0
      successes := probe.samples.length
      avgTtfbMs := average probe.samples
      successes_le := length_samples_le probe
      avgTtfbMs_nonneg := average_nonneg (samples_nonneg probe) }
  else
    { alive := false
      successes := 0
      avgTtfbMs := none
      successes_le := Nat.zero_le _
      avgTtfbMs_nonneg := nofun }

/-- A row, with what comes of its tests. -/
def perfRow (env : Env) (config : StoredConfig) (probe : Probe) : PerfRow :=
  ⟨config.id, perfOutcome env config probe⟩

/-- **A test returns its outcome**, as the ranking has it. -/
theorem perfResult_result (env : Env) (config : StoredConfig) (probe : Probe) :
    (perfResult env config probe).result = perfForOne (perfRow env config probe) := by
  unfold perfResult perfRow perfOutcome perfForOne
  split
  · cases hjson : config.isJson <;> simp [measuredReport, perfReport, PerfRow.score]
  · simp [deadReport, perfReport, average, PerfRow.score]

theorem score_perfResult (env : Env) (config : StoredConfig) (probe : Probe) :
    (perfResult env config probe).result.score = (perfRow env config probe).score := by
  rw [perfResult_result]
  rfl

/-- What only a link's test can add to what its row says: the protocol. -/
theorem perfResult_configLink (env : Env) (config : StoredConfig) (probe : Probe) :
    (perfResult env config probe).configLink = config.link := by
  unfold perfResult measuredReport
  split
  · split <;> rfl
  · rfl

/-! ## The tasks -/

section
variable (env : Env) (configs : List StoredConfig) (probes : Nat → Probe)

/-- The tasks of `evaluate_white_configs`, by the places of their rows. -/
def perfTasks : TaskCode (Fin configs.length) PerfStage PerfReport where
  enter i := perfEnter env configs[i] (probes i)
  resume i st := perfResume env configs[i] (probes i) st
  weight := PerfStage.weight
  weight_resume _ _ _ := weight_perfResume

end

variable {configs : List StoredConfig} {probes : Nat → Probe}

/-- A round that is not the last one. -/
theorem finish_round (i : Fin configs.length) (fallback : Bool) {k : Nat} (samples : List ℚ)
    (hk : k + 1 < stabilityRounds) :
    (perfTasks env configs probes).finish i (.inl (.testing fallback k samples)) =
      (perfTasks env configs probes).finish i
        (.inl (.testing fallback (k + 1) (samples ++ ((probes i).round k).toList))) := by
  rw [TaskCode.finish_inl]
  show (perfTasks env configs probes).finish i (if k + 1 < stabilityRounds then _ else _) = _
  rw [if_pos hk, TaskCode.finish_inl]
  rfl

theorem finish_testing (i : Fin configs.length) (fallback : Bool) :
    (perfTasks env configs probes).finish i (.inl (.testing fallback 0 [])) =
      measuredReport env configs[i] fallback (probes i).samples := by
  have hsamples : (probes i).samples =
      (([] ++ ((probes i).round 0).toList) ++ ((probes i).round 1).toList) ++
        ((probes i).round 2).toList := by
    show List.filterMap _ [0, 1, 2] = _
    cases h₀ : (probes i).round 0 <;> cases h₁ : (probes i).round 1 <;>
      cases h₂ : (probes i).round 2 <;> simp [h₀, h₁, h₂]
  rw [hsamples, finish_round i fallback [] (by decide), finish_round i fallback _ (by decide),
    TaskCode.finish_inl]
  show (perfTasks env configs probes).finish i (.inr (measuredReport env configs[i] fallback _)) = _
  rw [TaskCode.finish_inr]

theorem finish_poll (i : Fin configs.length) (left : Nat) :
    (perfTasks env configs probes).finish i (poll env configs[i] (probes i) left) =
      if (probes i).opens then measuredReport env configs[i] false (probes i).samples
      else deadReport env configs[i] := by
  induction left with
  | zero =>
    rw [poll, if_pos rfl]
    split
    · exact finish_testing i false
    · rw [TaskCode.finish_inr]
  | succ left ih =>
    rw [poll, if_neg (Nat.succ_ne_zero left), TaskCode.finish_inl]
    exact ih

/-- **What a task returns, alone.** -/
theorem result_perfTasks (i : Fin configs.length) :
    (perfTasks env configs probes).result i = perfResult env configs[i] (probes i) := by
  show (perfTasks env configs probes).finish i (perfEnter env configs[i] (probes i)) = _
  unfold perfEnter perfResult StoredConfig.measured
  cases hserver : truthy (configs[i].server env) with
  | false => simp
  | true =>
    cases hjson : configs[i].isJson with
    | false => simpa using finish_testing i true
    | true =>
      cases hstarted : (probes i).started with
      | false => simp
      | true => simpa using finish_poll i (probes i).polls

/-! ## All tasks -/

/-- `MAX_CONCURRENT_DEFAULT`. -/
def maxConcurrentDefault : Nat := 50

section
variable (env : Env) (configs : List StoredConfig) (probes : Nat → Probe)

/-- The tasks while they run. -/
abbrev PerfPool := TaskPool (Fin configs.length) PerfStage PerfReport

def perfStep : PerfPool configs → TaskPool.Label → Option (PerfPool configs) :=
  TaskPool.step (perfTasks env configs probes) maxConcurrentDefault

/-- `evaluate_white_configs`, with its tasks created. -/
def perfStart : PerfPool configs := .new (List.finRange configs.length)

/-- What comes of the tests of a row. -/
def outcomeAt (i : Fin configs.length) : PerfOutcome := perfOutcome env configs[i] (probes i)

def scoreAt (i : Fin configs.length) : ℚ := (perfRow env configs[i] (probes i)).score

/-- What the task of a row returns. -/
def reportAt (i : Fin configs.length) : PerfReport := perfResult env configs[i] (probes i)

/-- The rows, with what comes of their tests. -/
def perfRows : List PerfRow :=
  (List.finRange configs.length).map fun i : Fin configs.length => perfRow env configs[i] (probes i)

end

/-- What `evaluate_white_configs` makes of the results. -/
def topResults (topN : Nat) (reports : List PerfReport) : List PerfReport :=
  (sortDesc (fun r => r.result.score) reports).take topN

/-- What `evaluate_white_configs` returns when all tasks have. -/
def evaluated (topN : Nat) (s : PerfPool configs) : List PerfReport :=
  topResults topN (s.results.map Prod.snd)

/-- The tasks in their order. -/
def Completion.sequential (n : Nat) : Completion n := ⟨List.finRange n, List.Perm.refl _⟩

theorem scoreAt_eq :
    scoreAt env configs probes = fun i => (reportAt env configs probes i).result.score :=
  funext fun _ => (score_perfResult ..).symm

theorem length_perfRows : configs.length = (perfRows env configs probes).length := by
  simp [perfRows]

theorem map_cast_finRange {m n : Nat} (h : m = n) :
    (List.finRange m).map (Fin.cast h) = List.finRange n := by
  subst h
  exact List.map_id _

/-- The tasks with the best scores, in the order of their results. -/
def perfPicks (env : Env) (probes : Nat → Probe) (order : List (Fin configs.length))
    (topN : Nat) : List (Fin configs.length) :=
  (sortDesc (scoreAt env configs probes) order).take topN

/-- What is returned are the results of the tasks with the best scores. -/
theorem evaluated_eq_map {labels : List TaskPool.Label} {s : PerfPool configs}
    (h : run (perfStep env configs probes) (perfStart configs) labels = some s) (he : s.Ended) :
    ∃ order : List (Fin configs.length), order.Perm (List.finRange configs.length) ∧
      ∀ topN, evaluated topN s =
        (perfPicks env probes order topN).map (reportAt env configs probes) := by
  obtain ⟨order, hperm, hresults⟩ := TaskPool.results_of_ended (TaskPool.inv_run h) he
  refine ⟨order, hperm, fun topN => ?_⟩
  have hmap : s.results.map Prod.snd = order.map (reportAt env configs probes) := by
    rw [hresults, List.map_map]
    exact List.map_congr_left fun i _ => result_perfTasks i
  rw [evaluated, topResults, hmap, perfPicks, List.map_take, scoreAt_eq]
  exact congrArg (List.take topN) (map_sortDesc (fun r : PerfReport => r.result.score)
    (reportAt env configs probes) order).symm

/-- **The tests refine the ranking**: what is returned is what the ranking makes of the rows'
outcomes, in the order in which the tasks ended. -/
theorem evaluated_eq {labels : List TaskPool.Label} {s : PerfPool configs}
    (h : run (perfStep env configs probes) (perfStart configs) labels = some s) (he : s.Ended)
    (topN : Nat) :
    ∃ c : Completion (perfRows env configs probes).length,
      (evaluated topN s).map PerfReport.result =
        evaluateWhiteConfigs (perfRows env configs probes) c topN := by
  obtain ⟨order, hperm, hevaluated⟩ := evaluated_eq_map h he
  have hlength : configs.length = (perfRows env configs probes).length := length_perfRows
  have hcast := hperm.map (Fin.cast hlength)
  rw [map_cast_finRange] at hcast
  refine ⟨⟨_, hcast⟩, ?_⟩
  have hone : ∀ i, (reportAt env configs probes i).result =
      perfForOne (perfRows env configs probes)[Fin.cast hlength i] := by
    intro i
    rw [reportAt, perfResult_result]
    simp only [perfRows, Fin.getElem_fin, List.getElem_map, List.getElem_finRange]
    rfl
  have hmap : (order.map (Fin.cast hlength)).map
      (fun i => perfForOne (perfRows env configs probes)[i]) =
        order.map fun i => (reportAt env configs probes i).result := by
    rw [List.map_map]
    exact List.map_congr_left fun i _ => (hone i).symm
  rw [hevaluated, List.map_map, evaluateWhiteConfigs, hmap, perfPicks, List.map_take, scoreAt_eq]
  exact congrArg (List.take topN) (map_sortDesc PerfResult.score
    (fun i => (reportAt env configs probes i).result) order)

/-- A test awaits its polls, its rounds and the gaps between them. -/
theorem left_perfEnter (i : Fin configs.length) :
    (perfTasks env configs probes).left ((perfTasks env configs probes).enter i) ≤
      (probes i).polls + 7 := by
  show (perfTasks env configs probes).left (perfEnter env configs[i] (probes i)) ≤ _
  rw [perfEnter]
  split_ifs
  · rw [poll]
    split_ifs
    · exact Nat.le_add_left ..
    · exact Nat.zero_le _
    · show (probes i).polls - 1 + 7 + 1 ≤ _
      omega
  · exact Nat.zero_le _
  · exact Nat.le_add_left ..
  · exact Nat.zero_le _

/-- **Whatever the schedule**, no more than fifty tests run together, they are through after so
many awaits, every run can be brought to its end, and then the results are a top-n of all
rows, with the scores that the tests would have come to one after the other. -/
theorem top_of_schedule (env : Env) (configs : List StoredConfig) (probes : Nat → Probe)
    (topN : Nat) (labels : List TaskPool.Label) (s : PerfPool configs)
    (h : run (perfStep env configs probes) (perfStart configs) labels = some s) :
    (∀ t ∈ visited (perfStep env configs probes) (perfStart configs) labels,
        t.running.length ≤ 50) ∧
      labels.length ≤ ((List.finRange configs.length).map fun i : Fin configs.length =>
        (probes i).polls + 8).sum ∧
      (∃ more t, run (perfStep env configs probes) s more = some t ∧ t.Ended) ∧
      (s.Ended →
        (∃ picks rest, TopN (perfRows env configs probes) topN
          ((evaluated topN s).map PerfReport.result) picks rest) ∧
        (evaluated topN s).map (fun r => r.result.score) =
          (evaluateWhiteConfigs (perfRows env configs probes) (.sequential _) topN).map
            PerfResult.score) := by
  refine ⟨fun t ht => (TaskPool.inv_visited _ labels t ht).length,
    (TaskPool.length_run_le h).trans ?_, TaskPool.exists_run_ended (by decide) s, fun he => ?_⟩
  · exact List.sum_le_sum fun i _ => Nat.succ_le_succ (left_perfEnter i)
  obtain ⟨c, hc⟩ := evaluated_eq h he topN
  refine ⟨⟨_, _, hc ▸ topN_ranking (perfRows env configs probes) c topN⟩, ?_⟩
  rw [← scores_eq (perfRows env configs probes) c, ← hc, List.map_map]
  rfl

/-- A link, and a row that names no server. -/
def samplePerfConfigs : List StoredConfig := [⟨1, rowOfLink sampleLink⟩, ⟨2, rowOfLink "a".toList⟩]

/-- The second of three rounds fails. -/
def sampleProbe : Probe where
  started := false
  polls := 0
  opens := false
  round i := if i = 1 then none else some 20
  round_nonneg i ms h := by
    split at h
    · cases h
    · rw [← Option.mem_some_iff.mp h]
      norm_num

/-- The second row's test ends while the first one's runs. -/
def samplePerfLabels : List TaskPool.Label :=
  [.enter, .wake 0, .enter, .wake 0, .wake 0, .wake 0, .wake 0]

theorem top_of_samplePerfLabels :
    ∃ s : PerfPool samplePerfConfigs, s.Ended ∧
      (∃ picks rest, TopN (perfRows Env.sample samplePerfConfigs fun _ => sampleProbe) 1
        ((evaluated 1 s).map PerfReport.result) picks rest) ∧
      (evaluated 1 s).map (fun r => r.result.score) =
        (evaluateWhiteConfigs (perfRows Env.sample samplePerfConfigs fun _ => sampleProbe)
          (.sequential _) 1).map PerfResult.score := by
  have hrun : (run (perfStep Env.sample samplePerfConfigs fun _ => sampleProbe)
      (perfStart samplePerfConfigs) samplePerfLabels).any
        (fun s => s.waiting.isEmpty && s.running.isEmpty) = true := by decide +kernel
  obtain ⟨s, hs, hended⟩ := (Option.any_eq_true _ _).mp hrun
  rw [Bool.and_eq_true, List.isEmpty_iff, List.isEmpty_iff] at hended
  exact ⟨s, hended, (top_of_schedule Env.sample samplePerfConfigs (fun _ => sampleProbe) 1
    samplePerfLabels s hs).2.2.2 hended⟩

end ConfigManager
