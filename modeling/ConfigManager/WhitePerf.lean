import ConfigManager.LinkShapes
import ConfigManager.PerfTest

/-! # The white configs command (`app.handlers.admin.handle_admin_text`)

An admin types how many configs are wanted, and is sent a file of the best alive ones among
the five hundred newest.  The rows are ordered by the time they were stored, the database
orders rows of one time as it likes (`TopBy`), and the tests may run in any schedule; for every
one of them the file can be read, and what is found in it are the best (`best_of_whitePerf`).

The operator in the header is always `white-perf`: the buttons that would set another one are
not reached.
-/
namespace ConfigManager

open Py Regex Runs

/-! ## The file -/

/-- A time as `strftime` writes it. -/
structure Stamp where
  text : Str
  noSlash : '/' ∉ text

/-- The header of the file. -/
def perfHeader (operator : Str) (generatedAt : Stamp) : List Str :=
  ["# white-configs-perf".toList,
    "# operator: ".toList ++ operator,
    "# generated_at: ".toList ++ generatedAt.text,
    "━━━━━━━━━━━━━━━━━━━━".toList,
    "# each line is a raw config link (v2ray/vless compatible)".toList]

/-- The links of the alive results. -/
def perfLines (results : List PerfReport) : List Str :=
  ((results.filter fun r => strip r.configLink ≠ [] ∧ r.result.alive).map PerfReport.configLink).map
    strip

/-- `export_perf_results_to_txt`. -/
def exportPerfResultsToTxt (operator : Str) (generatedAt : Stamp) (results : List PerfReport) :
    Str :=
  "\n".toList.intercalate (perfHeader operator generatedAt ++ perfLines results) ++ "\n".toList

/-! ## The command -/

/-- A row with the time at which it was stored. -/
structure DatedConfig extends StoredConfig where
  createdAt : Nat

/-- The number an admin has typed, from 100 to 1000. -/
def perfCount (message : Str) : Option Nat :=
  let count := (int (strip message)).getD 0
  if count < 100 ∨ 1000 < count then none else some count.toNat

/-- What an admin is sent. -/
inductive PerfAnswer where
  | invalidCount
  | noXray
  | noConfigs
  | document (text : Str)

/-- The command, over all orders of the rows and all schedules of their tests. -/
inductive WhitePerf (env : Env) (stored : List DatedConfig) (probes : Nat → Probe)
    (hasXray : Bool) (generatedAt : Stamp) (message : Str) : PerfAnswer → Prop
  | invalidCount (hcount : perfCount message = none) :
      WhitePerf env stored probes hasXray generatedAt message .invalidCount
  | noXray (hxray : hasXray = false) :
      WhitePerf env stored probes hasXray generatedAt message .noXray
  | noConfigs (hrows : TopBy DatedConfig.createdAt 500 (stored.filter fun c => c.row.isValid) []) :
      WhitePerf env stored probes hasXray generatedAt message .noConfigs
  | document {count : Nat} {rows : List DatedConfig} {labels : List TaskPool.Label}
      {s : PerfPool (rows.map DatedConfig.toStoredConfig)}
      (hcount : perfCount message = some count) (hxray : hasXray = true)
      (hrows : TopBy DatedConfig.createdAt 500 (stored.filter fun c => c.row.isValid) rows)
      (hrun : run (perfStep env _ probes) (perfStart _) labels = some s) (hended : s.Ended) :
      WhitePerf env stored probes hasXray generatedAt message
        (.document (exportPerfResultsToTxt "white-perf".toList generatedAt (evaluated count s)))

/-! ## What is found in the file -/

theorem findall_perfHeader {operator : Str} (h : '/' ∉ operator) (generatedAt : Stamp) :
    (perfHeader operator generatedAt).flatMap (findall configPattern) = [] := by
  rw [List.flatMap_eq_nil_iff]
  have hlast : findall configPattern
      "# each line is a raw config link (v2ray/vless compatible)".toList = [] := by decide +kernel
  have hfront : ∀ a b : Str, '/' ∉ a → '/' ∉ b → findall configPattern (a ++ b) = [] :=
    fun a b ha hb => findall_of_noSlash (by simp [ha, hb])
  simp only [perfHeader, List.forall_mem_cons]
  refine ⟨findall_of_noSlash (by decide), hfront _ _ (by decide) h,
    hfront _ _ (by decide) generatedAt.noSlash, findall_of_noSlash (by decide), hlast, nofun⟩

/-- **The file can be read**: what is found in it are the links of the alive results. -/
theorem findall_exportPerfResultsToTxt {operator : Str} (h : '/' ∉ operator)
    (generatedAt : Stamp) {results : List PerfReport}
    (hlinks : ∀ r ∈ results, FullMatch configPattern r.configLink) :
    findall configPattern (exportPerfResultsToTxt operator generatedAt results) =
      (results.filter fun r => r.result.alive).map PerfReport.configLink := by
  have hstrip : ∀ r ∈ results, strip r.configLink = r.configLink := fun r hr =>
    strip_of_noSpace (noSpace_of_fullMatch (hlinks r hr))
  have hlines : perfLines results =
      (results.filter fun r => r.result.alive).map PerfReport.configLink := by
    have hfilter : (results.filter fun r => strip r.configLink ≠ [] ∧ r.result.alive) =
        results.filter fun r => r.result.alive := List.filter_congr fun r hr => by
      have hne := ne_nil_of_fullMatch (hlinks r hr)
      rw [← hstrip r hr] at hne
      simp [hne]
    rw [perfLines, hfilter, List.map_map]
    exact List.map_congr_left fun r hr => hstrip r (List.mem_filter.mp hr).1
  have halive : ∀ c ∈ (results.filter fun r => r.result.alive).map PerfReport.configLink,
      FullMatch configPattern c := by
    intro c hc
    obtain ⟨r, hr, rfl⟩ := List.mem_map.mp hc
    exact hlinks r (List.mem_filter.mp hr).1
  show findall configPattern (_ ++ ['\n']) = _
  rw [findall_concat (by decide), findall_intercalate local_configPattern text_ne_nil (by decide)
    (by decide), List.flatMap_append, findall_perfHeader h generatedAt, List.nil_append, hlines,
    flatMap_findall halive]

/-! ## Which links are found -/

section
variable (env : Env) (configs : List StoredConfig) (probes : Nat → Probe)

/-- **The best alive ones**: an alive row is left out only if there are enough others, none of
which scores less. -/
structure BestOf (count : Nat) (picks : List (Fin configs.length)) : Prop where
  different : picks.Nodup
  length : picks.length ≤ count
  alive : ∀ i ∈ picks, (outcomeAt env configs probes i).alive = true
  sorted : picks.Pairwise fun i j => scoreAt env configs probes j ≤ scoreAt env configs probes i
  best : ∀ j, (outcomeAt env configs probes j).alive = true → j ∉ picks →
    picks.length = count ∧ ∀ i ∈ picks, scoreAt env configs probes j ≤ scoreAt env configs probes i

end

variable {env : Env} {configs : List StoredConfig} {probes : Nat → Probe}

theorem mem_perfPicks_or_drop {order : List (Fin configs.length)}
    (hperm : order.Perm (List.finRange configs.length)) (count : Nat) (j : Fin configs.length) :
    j ∈ perfPicks env probes order count ∨
      j ∈ (sortDesc (scoreAt env configs probes) order).drop count := by
  have hj : j ∈ sortDesc (scoreAt env configs probes) order :=
    (sortDesc_perm _ _).mem_iff.mpr (hperm.mem_iff.mpr (List.mem_finRange j))
  rw [← List.take_append_drop count (sortDesc (scoreAt env configs probes) order)] at hj
  exact List.mem_append.mp hj

theorem bestOf_filter {order : List (Fin configs.length)}
    (hperm : order.Perm (List.finRange configs.length)) (count : Nat) :
    BestOf env configs probes count ((perfPicks env probes order count).filter fun i =>
      (outcomeAt env configs probes i).alive) := by
  have hnodup : (sortDesc (scoreAt env configs probes) order).Nodup :=
    (((sortDesc_perm _ _).trans hperm).nodup_iff).mpr (List.nodup_finRange _)
  have hsorted : (sortDesc (scoreAt env configs probes) order).Pairwise fun i j =>
      scoreAt env configs probes j ≤ scoreAt env configs probes i := pairwise_sortDesc _ _
  have hsub : ((perfPicks env probes order count).filter fun i =>
      (outcomeAt env configs probes i).alive).Sublist
        (sortDesc (scoreAt env configs probes) order) :=
    List.filter_sublist.trans (List.take_sublist _ _)
  refine ⟨hnodup.sublist hsub, ?_, fun i hi => (List.mem_filter.mp hi).2, hsorted.sublist hsub,
    fun j hj hmem => ?_⟩
  · exact (List.length_filter_le _ _).trans (List.length_take_le _ _)
  -- A row behind the picks scores no more than they do, so they are alive with it.
  · have hdrop : j ∈ (sortDesc (scoreAt env configs probes) order).drop count :=
      (mem_perfPicks_or_drop hperm count j).resolve_left fun hp =>
        hmem (List.mem_filter.mpr ⟨hp, hj⟩)
    have hle : ∀ i ∈ perfPicks env probes order count,
        scoreAt env configs probes j ≤ scoreAt env configs probes i := fun i hi =>
      key_le_of_mem_drop (scoreAt env configs probes) hi hdrop
    have hall : ∀ i ∈ perfPicks env probes order count,
        (outcomeAt env configs probes i).alive = true := by
      intro i hi
      by_contra hdead
      have hlt : (perfRow env (configs.get i) (probes i)).score <
          (perfRow env (configs.get j) (probes j)).score :=
        score_lt (Bool.eq_false_iff.mpr hdead) hj
      exact absurd hlt (not_lt.mpr (hle i hi))
    rw [List.filter_eq_self.mpr hall]
    refine ⟨?_, hle⟩
    have hlength := List.length_pos_of_mem hdrop
    rw [List.length_drop] at hlength
    rw [perfPicks, List.length_take]
    exact Nat.min_eq_left (by omega)

/-- A row that can be exported: its text is a link. -/
def StoredConfig.Exportable (config : StoredConfig) : Prop :=
  config.row.rawConfig ≠ [] ∧ FullMatch configPattern config.row.text

theorem link_of_exportable {config : StoredConfig} (h : config.Exportable) :
    config.link = config.row.text := by
  rw [StoredConfig.link, if_neg h.1, strip_of_noSpace (noSpace_of_fullMatch h.2)]

theorem configLink_reportAt {i : Fin configs.length} (h : (configs.get i).Exportable) :
    (reportAt env configs probes i).configLink = (configs.get i).row.text :=
  (perfResult_configLink ..).trans (link_of_exportable h)

theorem alive_reportAt (i : Fin configs.length) :
    (reportAt env configs probes i).result.alive = (outcomeAt env configs probes i).alive := by
  rw [reportAt, perfResult_result]
  rfl

/-- What is found in the file of a schedule. -/
theorem findall_evaluated {labels : List TaskPool.Label} {s : PerfPool configs} {operator : Str}
    (hconfigs : ∀ c ∈ configs, c.Exportable) (hoperator : '/' ∉ operator)
    (h : run (perfStep env configs probes) (perfStart configs) labels = some s) (he : s.Ended)
    (generatedAt : Stamp) (count : Nat) :
    ∃ picks, BestOf env configs probes count picks ∧
      findall configPattern (exportPerfResultsToTxt operator generatedAt (evaluated count s)) =
        picks.map fun i => (configs.get i).row.text := by
  obtain ⟨order, hperm, hevaluated⟩ := evaluated_eq_map h he
  have hlink : ∀ i, (configs.get i).Exportable := fun i => hconfigs _ (List.get_mem configs i)
  have hreports : ∀ r ∈ evaluated count s, FullMatch configPattern r.configLink := by
    intro r hr
    rw [hevaluated] at hr
    obtain ⟨i, -, rfl⟩ := List.mem_map.mp hr
    rw [configLink_reportAt (hlink i)]
    exact (hlink i).2
  refine ⟨_, bestOf_filter hperm count, ?_⟩
  rw [findall_exportPerfResultsToTxt hoperator generatedAt hreports, hevaluated, List.filter_map,
    List.map_map]
  have hfilter : ((perfPicks env probes order count).filter
      ((fun r => r.result.alive) ∘ reportAt env configs probes)) =
      (perfPicks env probes order count).filter fun i => (outcomeAt env configs probes i).alive :=
    List.filter_congr fun i _ => alive_reportAt i
  rw [hfilter]
  exact List.map_congr_left fun i _ => configLink_reportAt (hlink i)

/-- **The file holds the best.**  Whatever the order of rows of one time, and whatever the
schedule of the tests, the file holds nothing but the links of the best alive rows among the
five hundred newest valid ones, from the best on, and no more than were asked for. -/
theorem best_of_whitePerf (env : Env) (stored : List DatedConfig) (probes : Nat → Probe)
    (hasXray : Bool) (generatedAt : Stamp) (message text : Str)
    (hstored : ∀ c ∈ stored, c.Exportable)
    (h : WhitePerf env stored probes hasXray generatedAt message (.document text)) :
    ∃ count rows, perfCount message = some count ∧
      TopBy DatedConfig.createdAt 500 (stored.filter fun c => c.row.isValid) rows ∧
      ∃ picks, BestOf env (rows.map DatedConfig.toStoredConfig) probes count picks ∧
        findall configPattern text =
          picks.map fun i : Fin (rows.map DatedConfig.toStoredConfig).length =>
            (rows.map DatedConfig.toStoredConfig)[i].row.text := by
  cases h with
  | @document count rows labels s hcount hxray hrows hrun hended =>
    have hconfigs : ∀ c ∈ rows.map DatedConfig.toStoredConfig, c.Exportable := by
      intro c hc
      obtain ⟨d, hd, rfl⟩ := List.mem_map.mp hc
      exact hstored d (List.mem_filter.mp (mem_of_topBy hrows hd)).1
    exact ⟨count, rows, hcount, hrows,
      findall_evaluated hconfigs (by decide) hrun hended generatedAt count⟩

/-- A link that is too slow, one that is dead, and the newest. -/
def sampleStored : List DatedConfig :=
  [{ id := 1, row := rowOfLink "vless://u@g:443#c".toList, createdAt := 5 },
    { id := 2, row := rowOfLink "trojan://p@h:1#b".toList, createdAt := 6 },
    { id := 3, row := rowOfLink sampleLink, createdAt := 7 }]

/-- Every round takes this long, or fails. -/
def steadyProbe (ms : Option ℕ) : Probe where
  started := false
  polls := 0
  opens := false
  round _ := ms.map Nat.cast
  round_nonneg _ _ h := by
    obtain ⟨n, -, rfl⟩ := Option.map_eq_some_iff.mp h
    exact Nat.cast_nonneg n

/-- The tests of the three links, from the newest on. -/
def sampleProbes (i : Nat) : Probe :=
  steadyProbe (([some 20, none, some 400] : List (Option ℕ))[i]?.join)

/-- The oldest link is tested first, and the newest last. -/
def sampleSchedule : List TaskPool.Label :=
  List.replicate 3 .enter ++ List.replicate 5 (.wake 2) ++ List.replicate 5 (.wake 1) ++
    List.replicate 5 (.wake 0)

/-- Time, for examples. -/
def sampleStamp : Stamp := ⟨"2024-01-01 00:00:00 UTC".toList, by decide⟩

/-- The faster link comes first, and the dead one not at all. -/
theorem best_of_sampleStored :
    ∃ text, WhitePerf Env.sample sampleStored sampleProbes true sampleStamp
        "100".toList (.document text) ∧
      findall configPattern text = [sampleLink, "vless://u@g:443#c".toList] := by
  have hnewest : TopBy DatedConfig.createdAt 500 (sampleStored.filter fun c => c.row.isValid)
      sampleStored.reverse :=
    topBy_of_sorted (List.reverse_perm sampleStored) (by decide) (by decide)
  have hrun : (run (perfStep Env.sample (sampleStored.reverse.map DatedConfig.toStoredConfig)
      sampleProbes) (perfStart _) sampleSchedule).any
        (fun s => s.waiting.isEmpty && s.running.isEmpty) = true := by decide +kernel
  obtain ⟨s, hs, hended⟩ := (Option.any_eq_true _ _).mp hrun
  rw [Bool.and_eq_true, List.isEmpty_iff, List.isEmpty_iff] at hended
  have hcount : perfCount "100".toList = some 100 := by decide +kernel
  have hperf : WhitePerf Env.sample sampleStored sampleProbes true sampleStamp
      "100".toList (.document _) := .document hcount rfl hnewest hs hended
  have hstored : ∀ c ∈ sampleStored, c.Exportable := by
    unfold StoredConfig.Exportable
    decide +kernel
  obtain ⟨count, rows, hcount', hrows, picks, hbest, hfound⟩ :=
    best_of_whitePerf Env.sample sampleStored sampleProbes true sampleStamp "100".toList _
      hstored hperf
  obtain rfl : rows = sampleStored.reverse :=
    eq_of_topBy hrows (List.reverse_perm sampleStored) (by decide)
  obtain rfl := Option.some.inj (hcount'.symm.trans hcount)
  have halive : ∀ i, (outcomeAt Env.sample (sampleStored.reverse.map DatedConfig.toStoredConfig)
      sampleProbes i).alive = true ↔ i ∈ [⟨0, by decide⟩, ⟨2, by decide⟩] := by decide +kernel
  -- There is room for all alive ones.
  have hall : ∀ i, i ∈ picks ↔ i ∈ [⟨0, by decide⟩, ⟨2, by decide⟩] := by
    intro i
    rw [← halive]
    refine ⟨hbest.alive i, fun hi => ?_⟩
    by_contra hmem
    have hfull := (hbest.best i hi hmem).1
    have htwo := (List.subperm_of_subset hbest.different fun j hj =>
      (halive j).mp (hbest.alive j hj)).length_le
    simp only [hfull, List.length_cons, List.length_nil] at htwo
    omega
  have hpicks : picks = [⟨0, by decide⟩, ⟨2, by decide⟩] :=
    eq_of_sorted ((List.perm_ext_iff_of_nodup hbest.different (by decide)).mpr hall)
      hbest.sorted (by decide +kernel)
  refine ⟨_, hperf, ?_⟩
  rw [hfound, hpicks]
  rfl

end ConfigManager
