import Mathlib.Data.List.Sort

/-! # Sorting by a key

`list.sort(key, reverse=True)` is stable and puts the largest keys in front.  What is cut off
behind the first `n` elements has no larger key than they have (`key_le_of_mem_drop`), and the
keys that are kept do not depend on the order of the list (`map_key_eq_of_perm`).
-/
namespace Py

variable {α β γ : Type} [LinearOrder β]

/-- `list.sort(key, reverse=True)`. -/
def sortDesc (key : α → β) (l : List α) : List α := l.mergeSort fun a b => key b ≤ key a

variable {key : α → β} {l l' : List α}

theorem sortDesc_perm (key : α → β) (l : List α) : (sortDesc key l).Perm l :=
  List.mergeSort_perm l _

@[simp] theorem length_sortDesc (key : α → β) (l : List α) : (sortDesc key l).length = l.length :=
  (sortDesc_perm key l).length_eq

/-- The keys do not grow. -/
theorem pairwise_sortDesc (key : α → β) (l : List α) :
    (sortDesc key l).Pairwise fun a b => key b ≤ key a := by
  have htrans : ∀ a b c : α, (decide (key b ≤ key a)) = true → (decide (key c ≤ key b)) = true →
      (decide (key c ≤ key a)) = true := by
    intro a b c hab hbc
    rw [decide_eq_true_eq] at *
    exact hbc.trans hab
  have htotal : ∀ a b : α, (decide (key b ≤ key a) || decide (key a ≤ key b)) = true := by
    intro a b
    rw [Bool.or_eq_true, decide_eq_true_eq, decide_eq_true_eq]
    exact le_total _ _
  exact (List.pairwise_mergeSort htrans htotal l).imp fun h => of_decide_eq_true h

/-- Elements are sorted by the key of what they are mapped to. -/
theorem map_sortDesc (key : γ → β) (f : α → γ) (l : List α) :
    (sortDesc (fun a => key (f a)) l).map f = sortDesc key (l.map f) :=
  List.map_mergeSort fun _ _ _ _ => rfl

/-- **What is cut off** has no larger key than what is kept. -/
theorem key_le_of_mem_drop (key : α → β) {n : Nat} {a b : α}
    (ha : a ∈ (sortDesc key l).take n) (hb : b ∈ (sortDesc key l).drop n) : key b ≤ key a := by
  have hsorted := pairwise_sortDesc key l
  rw [← List.take_append_drop n (sortDesc key l), List.pairwise_append] at hsorted
  exact hsorted.2.2 a ha b hb

/-- **The keys of a sorted list** are those of any other order of it. -/
theorem map_key_eq_of_perm (key : α → β) (h : l.Perm l') :
    (sortDesc key l).map key = (sortDesc key l').map key := by
  have hperm : ((sortDesc key l).map key).Perm ((sortDesc key l').map key) :=
    ((sortDesc_perm key l).trans (h.trans (sortDesc_perm key l').symm)).map key
  have hsorted : ∀ l : List α, ((sortDesc key l).map key).Pairwise fun a b => b ≤ a := fun l =>
    List.pairwise_map.mpr (pairwise_sortDesc key l)
  exact List.Perm.eq_of_pairwise (fun a b _ _ hab hba => le_antisymm hba hab) (hsorted l)
    (hsorted l') hperm

/-- The first `n` elements in descending order of a key; elements of one key come in any
order, as they do from a database. -/
def TopBy (key : α → β) (n : Nat) (l top : List α) : Prop :=
  ∃ order : List α, order.Perm l ∧ top = (sortDesc key order).take n

theorem mem_of_topBy {n : Nat} {top : List α} (h : TopBy key n l top) {a : α} (ha : a ∈ top) :
    a ∈ l := by
  obtain ⟨order, horder, rfl⟩ := h
  exact horder.mem_iff.mp ((sortDesc_perm _ _).mem_iff.mp (List.mem_of_mem_take ha))

/-- **One order only** is sorted, when no two elements have one key. -/
theorem eq_of_sorted (h : l.Perm l') (hl : l.Pairwise fun a b => key b ≤ key a)
    (hl' : l'.Pairwise fun a b => key b < key a) : l = l' := by
  have hkeys : (l'.map key).Nodup := List.pairwise_map.mpr (hl'.imp ne_of_gt)
  refine List.Perm.eq_of_pairwise (fun a b ha hb hba hab => ?_) hl (hl'.imp le_of_lt) h
  exact List.inj_on_of_nodup_map hkeys (h.mem_iff.mp ha) hb (le_antisymm hab hba)

/-- Elements of different keys come in one order. -/
theorem eq_of_topBy {n : Nat} {top : List α} (h : TopBy key n l top) (hperm : l'.Perm l)
    (hl' : l'.Pairwise fun a b => key b < key a) : top = l'.take n := by
  obtain ⟨order, horder, rfl⟩ := h
  rw [eq_of_sorted (((sortDesc_perm key order).trans horder).trans hperm.symm)
    (pairwise_sortDesc key order) hl']

/-- A sorted list that is short enough. -/
theorem topBy_of_sorted {n : Nat} {top : List α} (h : top.Perm l)
    (hsorted : top.Pairwise fun a b => key b ≤ key a) (hn : top.length ≤ n) :
    TopBy key n l top := by
  refine ⟨top, h, ?_⟩
  rw [sortDesc, List.mergeSort_of_pairwise (hsorted.imp fun h => decide_eq_true h),
    List.take_of_length_le hn]

end Py
