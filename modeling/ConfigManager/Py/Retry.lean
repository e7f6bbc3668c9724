import Mathlib.Algebra.BigOperators.Group.List.Basic
import Mathlib.Algebra.Order.BigOperators.Group.List
import Mathlib.Algebra.Order.Field.Rat
import Mathlib.Data.List.Basic

/-! # Calls that are made again

`for attempt in range(retries + 1)`: a call that raises is made again after a pause, as long
as there are retries left and the exception is one that is retried.  The loop makes the
calls up to the first that is final (`Final`) and returns or raises what that one does:
`retried_spec`.
-/
namespace Py

variable {α ε : Type}

/-- How calls are made again. -/
structure Retries (ε : Type) where
  /-- How often, at most. -/
  retries : Nat
  /-- The exceptions that are caught. -/
  caught : ε → Bool
  /-- The pause behind the `k`-th call. -/
  pause : Nat → ℚ

/-- How a loop of calls ends. -/
structure Retried (ε α : Type) where
  result : Except ε α
  /-- How many calls were made. -/
  calls : Nat
  pauses : List ℚ

namespace Retries

variable (p : Retries ε) (call : Nat → Except ε α)

/-- The loop from the `k`-th call on, with `left` retries. -/
def retryFrom (k : Nat) : Nat → Retried ε α
  | 0 => ⟨call k, 1, []⟩
  | left + 1 =>
      match call k with
      | .ok a => ⟨.ok a, 1, []⟩
      | .error e =>
          if p.caught e then
            let rest := retryFrom (k + 1) left
            { rest with calls := rest.calls + 1, pauses := p.pause k :: rest.pauses }
          else ⟨.error e, 1, []⟩

/-- The loop. -/
def retried : Retried ε α := p.retryFrom call 0 p.retries

/-- After this call there is no other one, whatever is left. -/
def Final : Except ε α → Prop
  | .ok _ => True
  | .error e => p.caught e = false

instance : DecidablePred (p.Final (α := α)) := fun
  | .ok _ => .isTrue trivial
  | .error e => inferInstanceAs (Decidable (p.caught e = false))

variable {p call}

theorem retryFrom_of_final {k : Nat} (h : p.Final (call k)) (left : Nat) :
    p.retryFrom call k left = ⟨call k, 1, []⟩ := by
  cases left with
  | zero => rfl
  | succ left =>
    cases hc : call k with
    | ok a => rw [retryFrom, hc]
    | error e =>
      rw [hc] at h
      have hcaught : p.caught e = false := h
      rw [retryFrom, hc]
      simp [hcaught]

theorem retryFrom_of_not_final {k : Nat} (h : ¬p.Final (call k)) (left : Nat) :
    p.retryFrom call k (left + 1) =
      { result := (p.retryFrom call (k + 1) left).result
        calls := (p.retryFrom call (k + 1) left).calls + 1
        pauses := p.pause k :: (p.retryFrom call (k + 1) left).pauses } := by
  cases hc : call k with
  | ok a =>
    rw [hc] at h
    exact absurd trivial h
  | error e =>
    rw [hc] at h
    have hcaught : p.caught e = true := by simpa [Final] using h
    rw [retryFrom, hc]
    simp [hcaught]

/-- The calls of a loop from the `k`-th on: `n + 1` of them. -/
structure Ends (p : Retries ε) (call : Nat → Except ε α) (k left n : Nat) : Prop where
  le : n ≤ left
  before : ∀ i < n, ¬p.Final (call (k + i))
  stop : p.Final (call (k + n)) ∨ n = left

theorem exists_ends (k left : Nat) : ∃ n, Ends p call k left n ∧
    p.retryFrom call k left =
      ⟨call (k + n), n + 1, (List.range n).map fun i => p.pause (k + i)⟩ := by
  induction left generalizing k with
  | zero => exact ⟨0, ⟨Nat.le_refl 0, nofun, .inr rfl⟩, rfl⟩
  | succ left ih =>
    by_cases hfinal : p.Final (call k)
    · exact ⟨0, ⟨Nat.zero_le _, nofun, .inl hfinal⟩, retryFrom_of_final hfinal _⟩
    · obtain ⟨n, hends, hloop⟩ := ih (k + 1)
      have hshift : ∀ i, k + (i + 1) = k + 1 + i := fun i => by omega
      refine ⟨n + 1, ⟨Nat.succ_le_succ hends.le, fun i hi => ?_, ?_⟩, ?_⟩
      · cases i with
        | zero => exact hfinal
        | succ i =>
          rw [hshift]
          exact hends.before i (Nat.lt_of_succ_lt_succ hi)
      · rw [hshift]
        exact hends.stop.imp_right (congrArg Nat.succ)
      · have hpauses : (List.range n).map ((fun i => p.pause (k + i)) ∘ Nat.succ) =
            (List.range n).map fun i => p.pause (k + 1 + i) :=
          List.map_congr_left fun i _ => congrArg p.pause (hshift i)
        rw [retryFrom_of_not_final hfinal, hloop, hshift n, List.range_succ_eq_map, List.map_cons,
          List.map_map, hpauses]
        rfl

/-- **How the loop ends**: the calls in front of the last one are all made again, and the last
one is final, or there is no retry left; its outcome is that of the loop. -/
theorem retried_spec (p : Retries ε) (call : Nat → Except ε α) :
    ∃ n ≤ p.retries, (∀ i < n, ¬p.Final (call i)) ∧ (p.Final (call n) ∨ n = p.retries) ∧
      p.retried call = ⟨call n, n + 1, (List.range n).map p.pause⟩ := by
  obtain ⟨n, hends, hloop⟩ : ∃ n, Ends p call 0 p.retries n ∧ _ := exists_ends 0 p.retries
  simp only [Nat.zero_add] at hloop
  refine ⟨n, hends.le, fun i hi => ?_, ?_, hloop⟩
  · have := hends.before i hi
    rwa [Nat.zero_add] at this
  · have := hends.stop
    rwa [Nat.zero_add] at this

/-- **Where everything is caught**, the loop returns what the first call that succeeds does,
and raises if none does. -/
theorem toOption_retried (hcaught : ∀ e, p.caught e = true) :
    (p.retried call).result.toOption =
      (List.range (p.retries + 1)).findSome? fun k => (call k).toOption := by
  obtain ⟨n, hn, hbefore, hstop, hloop⟩ := retried_spec p call
  have hnone : ∀ i, ¬p.Final (call i) → (call i).toOption = none := by
    intro i hi
    cases hc : call i with
    | ok a =>
      rw [hc] at hi
      exact absurd trivial hi
    | error e => rfl
  have hsplit : List.range (p.retries + 1) =
      List.range n ++ (List.range (p.retries + 1 - n)).map (n + ·) := by
    rw [← List.range_add]
    congr 1
    omega
  have hfront : (List.range n).findSome? (fun k => (call k).toOption) = none :=
    List.findSome?_eq_none_iff.mpr fun i hi => hnone i (hbefore i (List.mem_range.mp hi))
  rw [hloop, hsplit, List.findSome?_append, hfront, Option.none_or]
  obtain ⟨left, hleft⟩ : ∃ left, p.retries + 1 - n = left + 1 := ⟨p.retries - n, by omega⟩
  rw [hleft, List.range_succ_eq_map, List.map_cons, List.findSome?_cons, Nat.add_zero]
  cases hc : call n with
  | ok a => rfl
  | error e =>
    -- Without a success the last call is the last there can be.
    have hlast : n = p.retries := hstop.resolve_left fun h => by
      rw [hc] at h
      exact absurd (hcaught e) (by rw [show p.caught e = false from h]; decide)
    obtain rfl : left = 0 := by omega
    rfl

/-- **The pauses add up** to no more than bounds on each of them do. -/
theorem sum_pauses_le {bound : Nat → ℚ} (h : ∀ k, 0 ≤ p.pause k ∧ p.pause k ≤ bound k) :
    (p.retried call).pauses.sum ≤ ((List.range p.retries).map bound).sum := by
  obtain ⟨n, hn, -, -, hloop⟩ := retried_spec p call
  have hsub : List.range n <+: List.range p.retries := by
    obtain ⟨d, hd⟩ := Nat.exists_eq_add_of_le hn
    rw [hd, List.range_add]
    exact List.prefix_append _ _
  obtain ⟨rest, hrest⟩ := hsub
  have hnonneg : 0 ≤ (rest.map bound).sum := List.sum_nonneg fun b hb => by
    obtain ⟨k, -, rfl⟩ := List.mem_map.mp hb
    exact (h k).1.trans (h k).2
  have hle : ((List.range n).map p.pause).sum ≤ ((List.range n).map bound).sum :=
    List.sum_le_sum fun k _ => (h k).2
  rw [hloop, ← hrest, List.map_append, List.sum_append]
  exact hle.trans (le_add_of_nonneg_right hnonneg)

end Retries
end Py
