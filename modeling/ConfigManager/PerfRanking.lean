import ConfigManager.Py.Sorting
import ConfigManager.Py.Text
import Mathlib.Algebra.Order.Field.Rat
import Mathlib.Tactic.Linarith

/-! # Ranking configs (`core.white_configs_perf_tester`)

Every row is tested by a task of its own.  The results are collected in the order in which
the tasks complete, sorted by score and cut off.  The sort is stable, so which of two equal
results is kept depends on that order; the scores that are kept do not (`ranked`).

A score weighs the average time to the first byte, in steps, against how many of the three
rounds were successful.  Scores are rational, and `details` and the texts that are handed
through with a result are left out.
-/
namespace ConfigManager

open Py

/-- `STABILITY_ROUNDS`. -/
def stabilityRounds : Nat := 3

/-- What comes of the tests of a row. -/
structure PerfOutcome where
  alive : Bool
  successes : Nat
  avgTtfbMs : Option ℚ
  successes_le : successes ≤ stabilityRounds
  avgTtfbMs_nonneg : ∀ ms ∈ avgTtfbMs, 0 ≤ ms

/-- `PerfResult`. -/
structure PerfResult where
  configId : Int
  alive : Bool
  avgTtfbMs : Option ℚ
  stabilitySuccess : Nat
  stability : Str
  score : ℚ
  deriving DecidableEq

/-- `_stability_score`. -/
def stabilityScore (successes : Nat) : Nat :=
  (List.lookup successes [(3, 100), (2, 60), (1, 20)]).getD 0

/-- `_ttfb_score`. -/
def ttfbScore : Option ℚ → Nat
  | none => 10
  | some avgMs =>
      if avgMs < 150 then 100
      else if avgMs ≤ 300 then 80
      else if avgMs ≤ 600 then 60
      else if avgMs ≤ 1000 then 40
      else 10

/-- `_final_score`. -/
def finalScore (avgTtfbMs : Option ℚ) (stabilitySuccess : Nat) (alive : Bool) : ℚ :=
  if alive then ttfbScore avgTtfbMs * (7 / 10) + stabilityScore stabilitySuccess * (3 / 10) else 0

/-- A row's id, and what comes of its tests. -/
structure PerfRow where
  id : Int
  outcome : PerfOutcome

/-- The score of a row. -/
def PerfRow.score (row : PerfRow) : ℚ :=
  finalScore row.outcome.avgTtfbMs row.outcome.successes row.outcome.alive

/-- `_perf_for_one`. -/
def perfForOne (row : PerfRow) : PerfResult where
  configId := row.id
  alive := row.outcome.alive
  avgTtfbMs := row.outcome.avgTtfbMs
  stabilitySuccess := row.outcome.successes
  stability := (toString row.outcome.successes ++ "/" ++ toString stabilityRounds).toList
  score := row.score

/-- The order in which `n` tasks complete. -/
structure Completion (n : Nat) where
  order : List (Fin n)
  perm : order.Perm (List.finRange n)

/-- `evaluate_white_configs`. -/
def evaluateWhiteConfigs (rows : List PerfRow) (c : Completion rows.length) (topN : Nat) :
    List PerfResult :=
  let final := c.order.map fun i => perfForOne rows[i]
  (sortDesc PerfResult.score final).take topN

/-- No larger an average, where none is infinite. -/
def NoSlower : Option ℚ → Option ℚ → Prop
  | _, none => True
  | none, some _ => False
  | some a, some b => a ≤ b

/-- **The results are a top-n**: `picks` are the tasks they come from, `rest` all others. -/
structure TopN (rows : List PerfRow) (topN : Nat) (results : List PerfResult)
    (picks rest : List (Fin rows.length)) : Prop where
  results_eq : results = picks.map fun i => perfForOne rows[i]
  tasks : (picks ++ rest).Perm (List.finRange rows.length)
  different : picks.Nodup
  length : results.length = min topN rows.length
  sorted : results.Pairwise fun a b => b.score ≤ a.score
  best : ∀ i ∈ picks, ∀ j ∈ rest, rows[j].score ≤ rows[i].score
  /-- What is ranked in front of an alive result is alive. -/
  alive : (picks ++ rest).Pairwise fun i j =>
    rows[j].outcome.alive = true → rows[i].outcome.alive = true

/-! ## Scores -/

variable {rows : List PerfRow}

theorem ttfbScore_ge (avgMs : Option ℚ) : 10 ≤ ttfbScore avgMs := by
  cases avgMs with
  | none => rfl
  | some ms =>
    simp only [ttfbScore]
    split_ifs <;> decide

/-- A larger average does not score more. -/
theorem ttfbScore_anti {a b : Option ℚ} (h : NoSlower a b) : ttfbScore b ≤ ttfbScore a := by
  cases b with
  | none => exact ttfbScore_ge a
  | some y =>
    cases a with
    | none => exact absurd h id
    | some x =>
      have h : x ≤ y := h
      simp only [ttfbScore]
      split_ifs <;> first | decide | (exfalso; linarith)

/-- More successes do not score less. -/
theorem stabilityScore_mono {m n : Nat} (h : m ≤ n) (hn : n ≤ stabilityRounds) :
    stabilityScore m ≤ stabilityScore n := by
  have hall : ∀ n ≤ stabilityRounds, ∀ m ≤ n, stabilityScore m ≤ stabilityScore n := by decide
  exact hall n hn m h

theorem score_of_dead {row : PerfRow} (h : row.outcome.alive = false) : row.score = 0 := by
  rw [PerfRow.score, finalScore, h, if_neg Bool.false_ne_true]

/-- **Every alive result outranks every dead one.** -/
theorem score_lt {dead alive : PerfRow} (hd : dead.outcome.alive = false)
    (ha : alive.outcome.alive = true) : dead.score < alive.score := by
  have hge : (10 : ℚ) ≤ ttfbScore alive.outcome.avgTtfbMs := by
    exact_mod_cast ttfbScore_ge _
  have hstability : (0 : ℚ) ≤ stabilityScore alive.outcome.successes := Nat.cast_nonneg _
  rw [score_of_dead hd, PerfRow.score, finalScore, if_pos ha]
  linarith

/-- **Scores are monotone.** -/
theorem score_le {a b : PerfRow} (ha : a.outcome.alive = true) (hb : b.outcome.alive = true)
    (hsuccesses : b.outcome.successes ≤ a.outcome.successes)
    (havg : NoSlower a.outcome.avgTtfbMs b.outcome.avgTtfbMs) : b.score ≤ a.score := by
  have hstability : (stabilityScore b.outcome.successes : ℚ) ≤ stabilityScore a.outcome.successes :=
    Nat.cast_le.mpr (stabilityScore_mono hsuccesses a.outcome.successes_le)
  have httfb : (ttfbScore b.outcome.avgTtfbMs : ℚ) ≤ ttfbScore a.outcome.avgTtfbMs :=
    Nat.cast_le.mpr (ttfbScore_anti havg)
  rw [PerfRow.score, PerfRow.score, finalScore, finalScore, if_pos ha, if_pos hb]
  linarith

/-! ## The ranking -/

/-- The tasks in the order of their results. -/
def ranking (rows : List PerfRow) (c : Completion rows.length) : List (Fin rows.length) :=
  sortDesc (fun i => rows[i].score) c.order

theorem evaluateWhiteConfigs_eq (rows : List PerfRow) (c : Completion rows.length) (topN : Nat) :
    evaluateWhiteConfigs rows c topN =
      ((ranking rows c).take topN).map fun i => perfForOne rows[i] := by
  rw [evaluateWhiteConfigs, List.map_take, ranking]
  exact congrArg (List.take topN)
    (map_sortDesc PerfResult.score (fun i : Fin rows.length => perfForOne rows[i]) c.order).symm

theorem ranking_perm (rows : List PerfRow) (c : Completion rows.length) :
    (ranking rows c).Perm (List.finRange rows.length) := (sortDesc_perm _ _).trans c.perm

/-- **The results are the first `topN` of the ranking**, and a top-n for that. -/
theorem topN_ranking (rows : List PerfRow) (c : Completion rows.length) (topN : Nat) :
    TopN rows topN (evaluateWhiteConfigs rows c topN) ((ranking rows c).take topN)
      ((ranking rows c).drop topN) := by
  have hperm := ranking_perm rows c
  have hlength : (ranking rows c).length = rows.length := by
    rw [hperm.length_eq, List.length_finRange]
  have hsorted : (ranking rows c).Pairwise fun i j => rows[j].score ≤ rows[i].score :=
    pairwise_sortDesc _ _
  have heq := evaluateWhiteConfigs_eq rows c topN
  have hbest : ∀ i ∈ (ranking rows c).take topN, ∀ j ∈ (ranking rows c).drop topN,
      rows[j].score ≤ rows[i].score := fun i hi j hj =>
    key_le_of_mem_drop (fun i : Fin rows.length => rows[i].score) hi hj
  refine ⟨heq, ?_, ?_, ?_, ?_, hbest, ?_⟩
  · rw [List.take_append_drop]
    exact hperm
  · exact (hperm.nodup_iff.mpr (List.nodup_finRange _)).sublist (List.take_sublist _ _)
  · rw [heq, List.length_map, List.length_take, hlength]
  · rw [heq, List.pairwise_map]
    exact hsorted.sublist (List.take_sublist _ _)
  · rw [List.take_append_drop]
    refine hsorted.imp fun {i j} hle halive => ?_
    by_contra hdead
    exact absurd (score_lt (Bool.eq_false_iff.mpr hdead) halive) (not_lt.mpr hle)

/-- The scores that are kept are the same for every order. -/
theorem scores_eq (rows : List PerfRow) (c c' : Completion rows.length) (topN : Nat) :
    (evaluateWhiteConfigs rows c topN).map PerfResult.score =
      (evaluateWhiteConfigs rows c' topN).map PerfResult.score := by
  have hperm : (c.order.map fun i => perfForOne rows[i]).Perm
      (c'.order.map fun i => perfForOne rows[i]) := (c.perm.trans c'.perm.symm).map _
  rw [evaluateWhiteConfigs, evaluateWhiteConfigs, List.map_take, List.map_take,
    map_key_eq_of_perm PerfResult.score hperm]

/-- **The ranking is a correct top-n**, for every order in which the tasks complete. -/
theorem ranked (rows : List PerfRow) (topN : Nat) :
    (∀ c, ∃ picks rest, TopN rows topN (evaluateWhiteConfigs rows c topN) picks rest) ∧
      (∀ c c', ((evaluateWhiteConfigs rows c topN).map PerfResult.score).Perm
        ((evaluateWhiteConfigs rows c' topN).map PerfResult.score)) ∧
      ∀ a ∈ rows, ∀ b ∈ rows, a.outcome.alive = true →
        (b.outcome.alive = false → b.score < a.score) ∧
        (b.outcome.alive = true → b.outcome.successes ≤ a.outcome.successes →
          NoSlower a.outcome.avgTtfbMs b.outcome.avgTtfbMs → b.score ≤ a.score) :=
  ⟨fun c => ⟨_, _, topN_ranking rows c topN⟩,
    fun c c' => scores_eq rows c c' topN ▸ List.Perm.refl _,
    fun _ _ _ _ ha => ⟨fun hb => score_lt hb ha, fun hb => score_le ha hb⟩⟩

end ConfigManager
