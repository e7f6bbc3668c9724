import ConfigManager.Runs
import Mathlib.Algebra.Order.Field.Rat
import Mathlib.Data.List.Sublists
import Mathlib.Tactic.Linarith

/-! # The limit on country lookups (`core.utils._GeoRateLimiter`)

`acquire` keeps the times of the acquisitions of the last minute.  If there are as many
as the limit allows, it sleeps until the oldest of them is a minute old, and then forgets
all of them.  The lock serialises the callers, so a history is a list of calls, each with
the clock it reads when it has the lock and the one it reads when it has slept.

What it forgets may be less than a minute old.  If it never is, what it keeps is what
still counts, and every minute holds as many acquisitions as allowed; if it is once, the
calls that come next exceed the limit (`limited_of_clearsOld`).
-/
namespace ConfigManager

open Runs

/-- A limiter and what has happened to it. -/
structure GeoRateLimiter where
  /-- `_timestamps`. -/
  timestamps : List ℚ
  /-- The clock when it was last read. -/
  clock : ℚ
  /-- The times of all acquisitions. -/
  completed : List ℚ

namespace GeoRateLimiter

/-- `_GeoRateLimiter()`, at a time. -/
def new (clock : ℚ) : GeoRateLimiter := ⟨[], clock, []⟩

/-- A call of `acquire`: the clock before it and after it. -/
structure Call where
  now : ℚ
  done : ℚ

/-- The acquisitions of the last minute, as `acquire` keeps them. -/
def kept (s : GeoRateLimiter) (now : ℚ) : List ℚ := s.timestamps.filter fun t => now - t < 60

variable (callsPerMinute : Nat)

/-- `acquire`, with the timestamps it leaves; the sleep takes `wait_time` or longer. -/
def acquire (s : GeoRateLimiter) (c : Call) : Option (List ℚ) :=
  if callsPerMinute ≤ (s.kept c.now).length then
    match s.kept c.now with
    | [] => none
    | oldest :: _ =>
        let waitTime := 60 - (c.now - oldest) + 1 / 10
        if c.now + waitTime ≤ c.done then some [c.done] else none
  else if c.now ≤ c.done then some (s.kept c.now ++ [c.done])
  else none

def step (s : GeoRateLimiter) (c : Call) : Option GeoRateLimiter :=
  if s.clock ≤ c.now then
    (s.acquire callsPerMinute c).map fun timestamps =>
      ⟨timestamps, c.done, s.completed ++ [c.done]⟩
  else none

/-- The acquisitions of the minute that starts at a time. -/
def window (times : List ℚ) (start : ℚ) : List ℚ :=
  times.filter fun t => start ≤ t ∧ t < start + 60

/-- **The limit**: every minute holds as many acquisitions as allowed. -/
def Limited (s : GeoRateLimiter) : Prop :=
  ∀ start, (window s.completed start).length ≤ callsPerMinute

/-- A call that sleeps forgets nothing that is less than a minute old. -/
def ClearsOld (s : GeoRateLimiter) (c : Call) : Prop :=
  callsPerMinute ≤ (s.kept c.now).length → ∀ t ∈ s.kept c.now, 60 ≤ c.done - t

variable {callsPerMinute} {s t : GeoRateLimiter} {c : Call}

/-! ## One call -/

/-- **What a call does**: it finds a place, or it sleeps until the oldest acquisition it
has kept is more than a minute old. -/
theorem step_cases (h : s.step callsPerMinute c = some t) :
    s.clock ≤ c.now ∧ c.now ≤ c.done ∧
      ((s.kept c.now).length < callsPerMinute ∧
          t = ⟨s.kept c.now ++ [c.done], c.done, s.completed ++ [c.done]⟩ ∨
        callsPerMinute ≤ (s.kept c.now).length ∧
          (∃ oldest ∈ s.kept c.now, 60 < c.done - oldest) ∧
          t = ⟨[c.done], c.done, s.completed ++ [c.done]⟩) := by
  rw [step] at h
  split at h
  next hclock =>
    obtain ⟨timestamps, hacq, rfl⟩ := Option.map_eq_some_iff.mp h
    rw [acquire] at hacq
    split at hacq
    next hfull =>
      split at hacq
      · cases hacq
      next oldest rest hkept =>
        dsimp only at hacq
        split at hacq
        next hslept =>
          obtain rfl := Option.some.inj hacq
          have hmem : oldest ∈ s.kept c.now := by rw [hkept]; exact List.mem_cons_self ..
          -- The wait ends when the oldest is more than a minute old, which is later than now.
          have hrecent : c.now - oldest < 60 := by simpa using (List.mem_filter.mp hmem).2
          exact ⟨hclock, by linarith, .inr ⟨hfull, ⟨oldest, hmem, by linarith⟩, rfl⟩⟩
        · cases hacq
    next hfree =>
      split at hacq
      next hle =>
        obtain rfl := Option.some.inj hacq
        exact ⟨hclock, hle, .inl ⟨not_le.mp hfree, rfl⟩⟩
      · cases hacq
  · cases h

/-- What is kept has been acquired, and not later than now. -/
structure Recorded (s : GeoRateLimiter) : Prop where
  kept : s.timestamps ⊆ s.completed
  past : ∀ x ∈ s.completed, x ≤ s.clock

theorem recorded_new (clock : ℚ) : (new clock).Recorded := ⟨by simp [new], by simp [new]⟩

theorem recorded_step (hs : s.Recorded) (h : s.step callsPerMinute c = some t) : t.Recorded := by
  obtain ⟨hclock, hle, hcases⟩ := step_cases h
  have hpast : ∀ x ∈ s.completed ++ [c.done], x ≤ c.done := by
    intro x hx
    rcases List.mem_append.mp hx with hx | hx
    · exact (hs.past x hx).trans (hclock.trans hle)
    · rw [List.mem_singleton.mp hx]
  rcases hcases with ⟨-, rfl⟩ | ⟨-, -, rfl⟩
  · refine ⟨List.append_subset.mpr ⟨fun x hx => ?_, by simp⟩, hpast⟩
    exact List.mem_append_left _ (hs.kept (List.mem_filter.mp hx).1)
  · exact ⟨by simp, hpast⟩

/-- From the clock on, the timestamps kept are the acquisitions that still count. -/
structure Inv (callsPerMinute : Nat) (s : GeoRateLimiter) : Prop where
  kept : ∀ now, s.clock ≤ now →
    s.completed.filter (fun x => now - x < 60) = s.timestamps.filter fun x => now - x < 60
  limited : s.Limited callsPerMinute

theorem inv_new (clock : ℚ) : (new clock).Inv callsPerMinute :=
  ⟨by simp [new], fun start => by simp [new, window]⟩

/-- What still counts later has been kept now. -/
theorem filter_kept {now later : ℚ} (h : now ≤ later) :
    (s.kept now).filter (fun x => later - x < 60) =
      s.timestamps.filter fun x => later - x < 60 := by
  rw [kept, List.filter_filter]
  refine List.filter_congr fun x _ => ?_
  rw [Bool.eq_iff_iff]
  simp only [Bool.and_eq_true, decide_eq_true_eq]
  exact ⟨fun hx => hx.1, fun hx => ⟨hx, by linarith⟩⟩

/-- A minute that holds the newest acquisition holds, besides it, only such as still
count. -/
theorem length_window_le {times : List ℚ} {done start : ℚ} (h : done < start + 60) :
    (window times start).length ≤ (times.filter fun x => done - x < 60).length := by
  refine List.Sublist.length_le (List.monotone_filter_right _ fun x hx => ?_)
  simp only [decide_eq_true_eq] at hx ⊢
  linarith [hx.1]

/-- What of the acquisitions so far still counts when a call returns. -/
theorem Inv.counting (hs : s.Inv callsPerMinute) (h : s.step callsPerMinute c = some t)
    {later : ℚ} (hlater : c.done ≤ later) :
    s.completed.filter (fun x => later - x < 60) =
      (s.kept c.now).filter fun x => later - x < 60 := by
  obtain ⟨hclock, hle, -⟩ := step_cases h
  rw [filter_kept (by linarith), hs.kept later (by linarith)]

theorem ClearsOld.filter (hc : ClearsOld callsPerMinute s c)
    (hfull : callsPerMinute ≤ (s.kept c.now).length) {later : ℚ} (hlater : c.done ≤ later) :
    (s.kept c.now).filter (fun x => later - x < 60) = [] := by
  refine List.filter_eq_nil_iff.mpr fun x hx => ?_
  have hold := hc hfull x hx
  simp only [decide_eq_true_eq, not_lt]
  linarith

theorem inv_step (hpos : 1 ≤ callsPerMinute) (hs : s.Inv callsPerMinute)
    (hc : ClearsOld callsPerMinute s c) (h : s.step callsPerMinute c = some t) :
    t.Inv callsPerMinute := by
  -- The acquisitions of the last minute are those that are kept: there is room for one.
  have hroom : (s.completed.filter fun x => c.done - x < 60).length < callsPerMinute := by
    rw [hs.counting h le_rfl]
    by_cases hfull : callsPerMinute ≤ (s.kept c.now).length
    · rw [hc.filter hfull le_rfl]
      exact hpos
    · exact lt_of_le_of_lt (List.length_filter_le ..) (not_le.mp hfull)
  have hlimited : ∀ start, (window (s.completed ++ [c.done]) start).length ≤ callsPerMinute := by
    intro start
    rw [window, List.filter_append, List.length_append]
    by_cases hin : start ≤ c.done ∧ c.done < start + 60
    · -- The minute holds the new acquisition, so the others in it still count.
      have hothers : (window s.completed start).length ≤ _ := length_window_le hin.2
      have hone : ([c.done].filter fun x => start ≤ x ∧ x < start + 60).length ≤ 1 :=
        List.length_filter_le ..
      rw [window] at hothers
      omega
    · rw [List.filter_cons_of_neg (by simpa using hin)]
      exact hs.limited start
  obtain ⟨-, -, ⟨-, rfl⟩ | ⟨hfull, -, rfl⟩⟩ := step_cases h
  · refine ⟨fun later hlater => ?_, hlimited⟩
    simp only [List.filter_append, hs.counting h hlater]
  · refine ⟨fun later hlater => ?_, hlimited⟩
    rw [List.filter_append, hs.counting h hlater, hc.filter hfull hlater, List.nil_append]

/-! ## After a call that forgets too much -/

/-- A call that finds a place as soon as it comes. -/
theorem step_free {now : ℚ} (hclock : s.clock ≤ now) (h : s.timestamps.length < callsPerMinute) :
    s.step callsPerMinute ⟨now, now⟩ = some ⟨s.kept now ++ [now], now, s.completed ++ [now]⟩ := by
  have hfree : ¬callsPerMinute ≤ (s.kept now).length := by
    have : (s.kept now).length ≤ s.timestamps.length := List.length_filter_le ..
    omega
  simp only [step, acquire, if_pos hclock, if_neg hfree, le_refl, if_true, Option.map_some]

/-- Calls at one time, as many as there are places. -/
theorem run_burst (now : ℚ) (taken k : Nat) (times : List ℚ) (h : taken + k ≤ callsPerMinute) :
    run (step callsPerMinute) ⟨List.replicate taken now, now, times⟩ (List.replicate k ⟨now, now⟩) =
      some ⟨List.replicate (taken + k) now, now, times ++ List.replicate k now⟩ := by
  induction k generalizing taken times with
  | zero => simp [run]
  | succ k ih =>
    have hkept : (⟨List.replicate taken now, now, times⟩ : GeoRateLimiter).kept now =
        List.replicate taken now := by
      simp [kept]
    have hplace : (List.replicate taken now).length < callsPerMinute := by
      rw [List.length_replicate]
      omega
    have hstep := step_free (s := ⟨List.replicate taken now, now, times⟩) le_rfl hplace
    rw [hkept, ← List.replicate_succ'] at hstep
    show (step callsPerMinute _ ⟨now, now⟩).bind _ = _
    rw [hstep, Option.bind_some, ih (taken + 1) _ (by omega), List.append_assoc,
      List.singleton_append, ← List.replicate_succ]
    congr 3
    omega

/-- **A call that forgets an acquisition that still counts** can be followed by calls that
exceed the limit. -/
theorem exceeds_of_not (hpos : 1 ≤ callsPerMinute) (hs : s.Recorded)
    (hc : ¬ClearsOld callsPerMinute s c) (h : s.step callsPerMinute c = some t) :
    ∃ u, run (step callsPerMinute) t (List.replicate (callsPerMinute - 1) ⟨c.done, c.done⟩) =
        some u ∧ ¬u.Limited callsPerMinute := by
  simp only [ClearsOld, not_forall, not_le] at hc
  obtain ⟨hfull, x, hx, hrecent⟩ := hc
  obtain ⟨hclock, hle, ⟨hfree, -⟩ | ⟨-, -, rfl⟩⟩ := step_cases h
  · omega
  · refine ⟨_, run_burst c.done 1 (callsPerMinute - 1) _ (by omega), fun hlimited => ?_⟩
    have hmem : x ∈ s.completed := hs.kept (List.mem_filter.mp hx).1
    have hbefore : x ≤ c.done := (hs.past x hmem).trans (hclock.trans hle)
    -- The minute from the one forgotten on holds it, this call and those after it.
    have hforgotten : 0 < (window s.completed x).length :=
      List.length_pos_of_mem (List.mem_filter.mpr ⟨hmem, by simp⟩)
    have hlater : ∀ k, (List.replicate k c.done).filter
        (fun y => decide (x ≤ y ∧ y < x + 60)) = List.replicate k c.done := by
      intro k
      refine List.filter_eq_self.mpr fun y hy => ?_
      rw [List.eq_of_mem_replicate hy, decide_eq_true_eq]
      exact ⟨hbefore, by linarith⟩
    have hcount := hlimited x
    rw [window, List.filter_append, List.filter_append, hlater, List.length_append,
      List.length_append, List.length_replicate] at hcount
    have hone : ([c.done].filter fun y => decide (x ≤ y ∧ y < x + 60)) = [c.done] := hlater 1
    rw [hone, List.length_singleton] at hcount
    rw [window] at hforgotten
    omega

/-! ## Histories -/

/-- **The limiter keeps its limit** in every history in which it forgets nothing that is
less than a minute old; and the first calls of every other history can be followed by
calls that exceed it. -/
theorem limited_of_clearsOld (callsPerMinute : Nat) (hpos : 1 ≤ callsPerMinute) (clock : ℚ)
    (calls : List Call) (hrun : IsRun (step callsPerMinute) (new clock) calls) :
    (Meets (step callsPerMinute) (ClearsOld callsPerMinute) (new clock) calls →
      ∀ s ∈ visited (step callsPerMinute) (new clock) calls, s.Limited callsPerMinute) ∧
    (¬Meets (step callsPerMinute) (ClearsOld callsPerMinute) (new clock) calls →
      ∃ first after s, first <+: calls ∧
        run (step callsPerMinute) (new clock) (first ++ after) = some s ∧
          ¬s.Limited callsPerMinute) := by
  refine ⟨fun hm s hs => ?_, fun hm => ?_⟩
  · exact (visited_of_inv (fun _ _ _ => inv_step hpos) (inv_new clock) hm s hs).limited
  · obtain ⟨before, c, rest, s, t, rfl, hs, -, hc, ht⟩ := exists_first_not hrun hm
    have hrecorded : s.Recorded := last_of_inv (fun _ _ _ => recorded_step) (recorded_new clock) hs
    obtain ⟨u, hu, hexceeds⟩ := exceeds_of_not hpos hrecorded hc ht
    refine ⟨before ++ [c], List.replicate (callsPerMinute - 1) ⟨c.done, c.done⟩, u,
      ⟨rest, by simp⟩, ?_, hexceeds⟩
    rw [List.append_assoc, run_append, hs, Option.bind_some, List.singleton_append, run, ht]
    exact hu

/-- A limit of one is kept in every history: what is forgotten is the one acquisition that
the call has slept for. -/
theorem limited_one (clock : ℚ) (calls : List Call) :
    ∀ s ∈ visited (step 1) (new clock) calls, s.Limited 1 := by
  have hstep : ∀ (s : GeoRateLimiter) (c : Call) (t : GeoRateLimiter),
      s.Inv 1 ∧ s.timestamps.length ≤ 1 → True → s.step 1 c = some t →
        t.Inv 1 ∧ t.timestamps.length ≤ 1 := by
    intro s c t hs _ h
    have hlength : (s.kept c.now).length ≤ 1 := (List.length_filter_le ..).trans hs.2
    obtain ⟨-, -, ⟨hfree, ht⟩ | ⟨hfull, ⟨oldest, hmem, hold⟩, ht⟩⟩ := step_cases h
    · have hc : ClearsOld 1 s c := fun hfull => absurd hfree (not_lt.mpr hfull)
      refine ⟨inv_step le_rfl hs.1 hc h, ?_⟩
      rw [ht, List.length_append, List.length_singleton]
      omega
    · have hc : ClearsOld 1 s c := by
        intro _ x hx
        -- Only one timestamp is kept, so the one slept for is all that is cleared.
        obtain ⟨y, hy⟩ := List.length_eq_one_iff.mp (le_antisymm hlength hfull)
        rw [hy, List.mem_singleton] at hx hmem
        rw [hx, ← hmem]
        exact hold.le
      refine ⟨inv_step le_rfl hs.1 hc h, ?_⟩
      rw [ht]
      exact le_rfl
  intro s hs
  have hstart : (new clock).Inv 1 ∧ (new clock).timestamps.length ≤ 1 :=
    ⟨inv_new clock, Nat.zero_le _⟩
  exact (visited_of_inv hstep hstart (meets_trivial _ _) s hs).1.limited

/-- With a limit of two, the third call sleeps until both acquisitions are a minute old. -/
def togetherCalls : List Call := [⟨0, 0⟩, ⟨0, 0⟩, ⟨1, 601 / 10⟩, ⟨61, 61⟩]

/-- The third call sleeps until the first acquisition is a minute old; the second is not, and
the fourth finds a place. -/
def straddlingCalls : List Call := [⟨0, 0⟩, ⟨59, 59⟩, ⟨119 / 2, 601 / 10⟩, ⟨301 / 5, 301 / 5⟩]

theorem limited_togetherCalls :
    (Meets (step 2) (ClearsOld 2) (new 0) togetherCalls →
      ∀ s ∈ visited (step 2) (new 0) togetherCalls, s.Limited 2) ∧
    (¬Meets (step 2) (ClearsOld 2) (new 0) togetherCalls →
      ∃ first after s, first <+: togetherCalls ∧
        run (step 2) (new 0) (first ++ after) = some s ∧ ¬s.Limited 2) :=
  limited_of_clearsOld 2 (by decide) 0 togetherCalls (by decide +kernel)

/-- Three acquisitions in the minute from 59 on. -/
theorem not_limited_straddlingCalls :
    IsRun (step 2) (new 0) straddlingCalls ∧
      ¬∀ s ∈ visited (step 2) (new 0) straddlingCalls, s.Limited 2 := by
  refine ⟨by decide +kernel, fun h => ?_⟩
  have hlast : (run (step 2) (new 0) straddlingCalls).any
      (fun s => 2 < (window s.completed 59).length) = true := by decide +kernel
  obtain ⟨s, hs, hcount⟩ := (Option.any_eq_true ..).mp hlast
  have hle := h s (mem_visited_last hs) 59
  simp only [decide_eq_true_eq] at hcount
  omega

end GeoRateLimiter
end ConfigManager
