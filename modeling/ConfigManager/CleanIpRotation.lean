import ConfigManager.CleanIpOutput
import Mathlib.Data.Int.CardIntervalMod

/-! # Links in turn (`core.ip_manager.apply_ips_to_configs`)

A rotation that goes on uses any two of its entries equally often, up to one
(`fair_rotation`).  The one over the links starts again at the first link for every IP,
so what a link is ahead by is multiplied by the number of IPs: the links are used fairly for
one IP, or if a turn ends with the last link (`usedFairly_iff`).
-/
namespace ConfigManager

open Py

/-! ## Rotations -/

/-- `[i % n for i in range(k)]`. -/
def rotation (n k : Nat) : List Nat := (List.range k).map (· % n)

/-- Any two of `n` entries are picked equally often, up to one. -/
def Fair (n : Nat) (picks : List Nat) : Prop :=
  ∀ i < n, ∀ j < n, picks.count i ≤ picks.count j + 1

theorem rotation_succ (n k : Nat) : rotation n (k + 1) = rotation n k ++ [k % n] := by
  rw [rotation, List.range_succ, List.map_append]
  rfl

theorem count_rotation_eq {n j : Nat} (hj : j < n) (k : Nat) :
    (rotation n k).count j = k.count (· ≡ j [MOD n]) := by
  induction k with
  | zero => rfl
  | succ k ih =>
    have hmod : k ≡ j [MOD n] ↔ k % n = j := by rw [Nat.ModEq, Nat.mod_eq_of_lt hj]
    rw [rotation_succ, List.count_append, ih, Nat.count_succ, List.count_singleton]
    simp [hmod]

/-- **How often an entry is picked**: once in each turn, and once more if the last turn gets
to it. -/
theorem count_rotation {n j : Nat} (hj : j < n) (k : Nat) :
    (rotation n k).count j = k / n + if j < k % n then 1 else 0 := by
  have hn : 0 < n := by omega
  rw [count_rotation_eq hj, Nat.count_modEq_card k hn j, Nat.mod_eq_of_lt hj]

theorem fair_rotation (n k : Nat) : Fair n (rotation n k) := by
  intro i hi j hj
  rw [count_rotation hi, count_rotation hj]
  split_ifs <;> omega

/-- A rotation that is repeated from its start. -/
theorem count_repeated {α : Type} (as : List α) (picks : List Nat) (j : Nat) :
    (as.flatMap fun _ => picks).count j = as.length * picks.count j := by
  induction as with
  | nil => simp
  | cons a as ih => rw [List.flatMap_cons, List.count_append, ih, List.length_cons]; ring

/-- **A rotation that is repeated from its start is fair** if it is not repeated, or if no
entry is ahead at its end. -/
theorem fair_repeated_iff {α : Type} {as : List α} {n k : Nat} (has : as ≠ []) (hn : 0 < n) :
    Fair n (as.flatMap fun _ => rotation n k) ↔ as.length = 1 ∨ n ∣ k := by
  have hpos : 0 < as.length := List.length_pos_iff.mpr has
  constructor
  · intro h
    by_contra hnot
    simp only [not_or, Nat.dvd_iff_mod_eq_zero] at hnot
    have hlt := Nat.mod_lt k hn
    -- The first entry is picked once more than the last one, for each of two repetitions.
    have hfirst : (rotation n k).count 0 = k / n + 1 := by
      rw [count_rotation hn, if_pos (by omega)]
    have hlast : (rotation n k).count (n - 1) = k / n := by
      rw [count_rotation (by omega), if_neg (by omega), Nat.add_zero]
    have hle := h 0 hn (n - 1) (by omega)
    rw [count_repeated, count_repeated, hfirst, hlast, Nat.mul_add] at hle
    omega
  · rintro (hone | hdvd) i hi j hj
    · rw [count_repeated, count_repeated, hone, Nat.one_mul, Nat.one_mul]
      exact fair_rotation n k i hi j hj
    · rw [count_repeated, count_repeated, count_rotation hi, count_rotation hj,
        Nat.mod_eq_zero_of_dvd hdvd]
      exact Nat.le_succ _

/-! ## The run of `apply_ips_to_configs` -/

/-- The IPs in the order they are applied, each with the position of its row. -/
def assignments (ips : List Str) (configs : List Row) (applyPerIp : Nat) : List (Str × Nat) :=
  if configs = [] then []
  else if ips = [] then []
  else ips.flatMap fun ip => (List.range applyPerIp).map fun i => (ip, i % configs.length)

variable {ips : List Str} {configs : List Row}

/-- What is handed out is the link of each assignment. -/
theorem applyIpsToConfigs_eq (F : Json.Floats) (ips : List Str) (configs : List Row)
    (applyPerIp : Nat) :
    applyIpsToConfigs F ips configs applyPerIp =
      (assignments ips configs applyPerIp).map fun a =>
        applied F a.1 ((configs[a.2]?.map Row.text).getD []) := by
  rw [applyIpsToConfigs, assignments]
  split_ifs
  · rfl
  · rfl
  · rw [List.map_flatMap]
    simp only [List.map_map]
    rfl

/-- The positions are one rotation for each IP. -/
theorem map_snd_assignments (hips : ips ≠ []) (hconfigs : configs ≠ []) (applyPerIp : Nat) :
    (assignments ips configs applyPerIp).map Prod.snd =
      ips.flatMap fun _ => rotation configs.length applyPerIp := by
  rw [assignments, if_neg hconfigs, if_neg hips, List.map_flatMap]
  simp only [List.map_map]
  rfl

/-- How often a link is used in a run. -/
def uses (ips : List Str) (configs : List Row) (applyPerIp j : Nat) : Nat :=
  (assignments ips configs applyPerIp).countP fun a => a.2 = j

/-- Any two links are used equally often, up to one. -/
def UsedFairly (ips : List Str) (configs : List Row) (applyPerIp : Nat) : Prop :=
  ∀ i < configs.length, ∀ j < configs.length,
    uses ips configs applyPerIp i ≤ uses ips configs applyPerIp j + 1

theorem uses_eq (ips : List Str) (configs : List Row) (applyPerIp j : Nat) :
    uses ips configs applyPerIp j =
      ((assignments ips configs applyPerIp).map Prod.snd).count j := by
  rw [uses, List.count, List.countP_map]
  exact List.countP_congr fun a _ => by simp

/-- **When the links are used fairly.** -/
theorem usedFairly_iff (hips : ips ≠ []) (hconfigs : configs ≠ []) (applyPerIp : Nat) :
    UsedFairly ips configs applyPerIp ↔ ips.length = 1 ∨ configs.length ∣ applyPerIp := by
  have hn : 0 < configs.length := List.length_pos_iff.mpr hconfigs
  rw [← fair_repeated_iff hips hn, ← map_snd_assignments hips hconfigs]
  simp only [UsedFairly, Fair, uses_eq]

/-- Two IPs. -/
def twoIps : List Str := ["1.1.1.1".toList, "2.2.2.2".toList]

/-- Two links. -/
def twoRows : List Row := [rowOfLink sampleLink, rowOfLink "vless://v@h:443#b".toList]

theorem usedFairly_iff_sample : UsedFairly twoIps twoRows 2 ↔ twoIps.length = 1 ∨ 2 ∣ 2 :=
  usedFairly_iff (by decide) (by decide) 2

/-- Each IP is put into the first link. -/
theorem not_usedFairly_two :
    uses twoIps twoRows 1 0 = 2 ∧ uses twoIps twoRows 1 1 = 0 ∧ ¬UsedFairly twoIps twoRows 1 := by
  have huses : uses twoIps twoRows 1 0 = 2 ∧ uses twoIps twoRows 1 1 = 0 := by decide
  refine ⟨huses.1, huses.2, fun h => ?_⟩
  have hle := h 0 (by decide) 1 (by decide)
  rw [huses.1, huses.2] at hle
  omega

end ConfigManager
