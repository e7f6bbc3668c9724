import Mathlib.Algebra.Order.Ring.Nat
import Mathlib.Data.List.Basic
import Mathlib.Data.List.Induction
import Mathlib.Data.List.Nodup

/-! # Tables with a key

A table is changed one key at a time: `upsert` changes the row of a key, or adds one, and
rows are deleted for what they hold.  No two rows come to have the same key, so a table is a
cell for each key, with a row or none in it, and to change the table is to change the cells:
`cell_foldl`.  Where rows are added and not changed, `mem_foldl_iff` says which of them a
history leaves.
-/
namespace Py

variable {ρ κ : Type} {key : ρ → κ}

/-- A change of a table whose rows have a key. -/
inductive Change (key : ρ → κ) where
  /-- The row with the key of `new` is updated, or is `new` from now on. -/
  | upsert (new : ρ) (update : ρ → ρ) (key_update : ∀ r, key (update r) = key r)
  | delete (old : ρ → Bool)

namespace Change

/-- A row, unless there is one with its key. -/
def insert (new : ρ) : Change key := .upsert new id fun _ => rfl

/-- The row is among those that are deleted. -/
def deletes (r : ρ) : Change key → Bool
  | .upsert _ _ _ => false
  | .delete old => old r

theorem deletes_delete (r : ρ) (old : ρ → Bool) : (delete old : Change key).deletes r = old r := rfl

variable [DecidableEq κ]

def apply (rows : List ρ) : Change key → List ρ
  | .upsert new update _ =>
      if key new ∈ rows.map key then
        rows.map fun r => if key r = key new then update r else r
      else rows ++ [new]
  | .delete old => rows.filter fun r => !old r

/-- What a change does to the row of a key. -/
def onCell (k : κ) (cell : Option ρ) : Change key → Option ρ
  | .upsert new update _ => if key new = k then some (cell.elim new update) else cell
  | .delete old => cell.filter fun r => !old r

end Change

/-- The row with a key. -/
def cell [DecidableEq κ] (key : ρ → κ) (rows : List ρ) (k : κ) : Option ρ :=
  rows.find? fun r => key r = k

variable [DecidableEq κ] {rows : List ρ} {r : ρ} {k : κ}

theorem cell_eq_none_iff : cell key rows k = none ↔ k ∉ rows.map key := by
  rw [cell, List.find?_eq_none, List.mem_map]
  simp

theorem key_of_cell (h : cell key rows k = some r) : key r = k := by
  simpa using List.find?_some h

/-- With distinct keys, the cells hold the rows. -/
theorem cell_eq_some_iff (hkeys : (rows.map key).Nodup) :
    cell key rows k = some r ↔ r ∈ rows ∧ key r = k := by
  refine ⟨fun h => ⟨List.mem_of_find?_eq_some h, key_of_cell h⟩, ?_⟩
  rintro ⟨hr, rfl⟩
  cases h : cell key rows (key r) with
  | none => exact absurd (List.mem_map_of_mem hr) (cell_eq_none_iff.mp h)
  | some s =>
    rw [List.inj_on_of_nodup_map hkeys (List.mem_of_find?_eq_some h) hr (key_of_cell h)]

theorem apply_insert (rows : List ρ) (new : ρ) :
    (Change.insert new : Change key).apply rows =
      if key new ∈ rows.map key then rows else rows ++ [new] := by
  show (if _ then rows.map (fun r => if key r = key new then id r else r) else _) = _
  simp only [id_eq, ite_self, List.map_id']

omit [DecidableEq κ] in
theorem map_key_update (update : ρ → ρ) (key_update : ∀ r, key (update r) = key r)
    (p : ρ → Prop) [DecidablePred p] (rows : List ρ) :
    (rows.map fun r => if p r then update r else r).map key = rows.map key := by
  rw [List.map_map]
  refine List.map_congr_left fun r _ => ?_
  show key (if p r then update r else r) = key r
  split
  · exact key_update r
  · rfl

/-- A change keeps the keys distinct. -/
theorem nodup_apply (hkeys : (rows.map key).Nodup) (c : Change key) :
    ((c.apply rows).map key).Nodup := by
  cases c with
  | upsert new update key_update =>
    rw [Change.apply]
    split
    next => rwa [map_key_update update key_update]
    next hnew =>
      rw [List.map_append, List.map_singleton]
      exact hkeys.append (List.nodup_singleton _) (by simpa using hnew)
  | delete old => exact hkeys.sublist (List.filter_sublist.map key)

/-- Updating the rows of a key updates the row in its cell. -/
theorem cell_map_update (update : ρ → ρ) (key_update : ∀ r, key (update r) = key r) (k' k : κ) :
    cell key (rows.map fun r => if key r = k' then update r else r) k =
      (cell key rows k).map fun r => if key r = k' then update r else r := by
  rw [cell, List.find?_map, cell]
  congr 2
  funext r
  show decide (key (if key r = k' then update r else r) = k) = decide (key r = k)
  split
  · rw [key_update]
  · rfl

theorem cell_upsert (new : ρ) (update : ρ → ρ) (key_update : ∀ r, key (update r) = key r) (k : κ) :
    cell key ((Change.upsert new update key_update).apply rows) k =
      (Change.upsert new update key_update).onCell k (cell key rows k) := by
  rw [Change.apply, Change.onCell]
  split
  next hmem =>
    rw [cell_map_update update key_update]
    cases h : cell key rows k with
    | none =>
      rw [if_neg fun heq : key new = k => cell_eq_none_iff.mp h (heq ▸ hmem)]
      rfl
    | some r =>
      rw [Option.map_some, key_of_cell h]
      by_cases hk : key new = k
      · rw [if_pos hk.symm, if_pos hk]
        rfl
      · rw [if_neg (Ne.symm hk), if_neg hk]
  next hnew =>
    rw [cell, List.find?_append, ← cell]
    by_cases hk : key new = k
    · rw [if_pos hk, cell_eq_none_iff.mpr (hk ▸ hnew)]
      simp [hk]
    · rw [if_neg hk]
      simp [hk]

theorem cell_filter (hkeys : (rows.map key).Nodup) (p : ρ → Bool) (k : κ) :
    cell key (rows.filter p) k = (cell key rows k).filter p := by
  have hkeys' : ((rows.filter p).map key).Nodup :=
    hkeys.sublist (List.filter_sublist.map key)
  cases h : cell key rows k with
  | none =>
    refine cell_eq_none_iff.mpr fun hmem => cell_eq_none_iff.mp h ?_
    exact (List.filter_sublist.map key).subset hmem
  | some r =>
    have ⟨hr, hk⟩ := (cell_eq_some_iff hkeys).mp h
    cases hold : p r with
    | true =>
      rw [Option.filter_some_pos hold]
      exact (cell_eq_some_iff hkeys').mpr ⟨List.mem_filter.mpr ⟨hr, hold⟩, hk⟩
    | false =>
      rw [Option.filter_some_neg (by simp [hold])]
      refine cell_eq_none_iff.mpr fun hmem => ?_
      -- The row that is left is the one that is not.
      obtain ⟨s, hs, hsk⟩ := List.mem_map.mp hmem
      obtain ⟨hs, hkept⟩ := List.mem_filter.mp hs
      rw [List.inj_on_of_nodup_map hkeys hs hr (hsk.trans hk.symm), hold] at hkept
      cases hkept

/-- **A change of the table is a change of its cells.** -/
theorem cell_apply (hkeys : (rows.map key).Nodup) (c : Change key) (k : κ) :
    cell key (c.apply rows) k = c.onCell k (cell key rows k) := by
  cases c with
  | upsert new update key_update => exact cell_upsert new update key_update k
  | delete old => exact cell_filter hkeys _ k

theorem nodup_foldl (hkeys : (rows.map key).Nodup) (changes : List (Change key)) :
    ((changes.foldl Change.apply rows).map key).Nodup := by
  induction changes generalizing rows with
  | nil => exact hkeys
  | cons c changes ih => exact ih (nodup_apply hkeys c)

/-- No history of an empty table leaves two rows with a key. -/
theorem nodup_history (changes : List (Change key)) :
    ((changes.foldl Change.apply []).map key).Nodup := by
  have hnil : (([] : List ρ).map key).Nodup := List.nodup_nil
  exact nodup_foldl hnil changes

/-- **A history of the table is a history of each cell.** -/
theorem cell_foldl (hkeys : (rows.map key).Nodup) (changes : List (Change key)) (k : κ) :
    cell key (changes.foldl Change.apply rows) k =
      changes.foldl (Change.onCell k) (cell key rows k) := by
  induction changes generalizing rows with
  | nil => rfl
  | cons c changes ih =>
    rw [List.foldl_cons, List.foldl_cons, ih (nodup_apply hkeys c), cell_apply hkeys]

/-- **The row of a key after upserts** is what those of the key make of each other. -/
theorem cell_upserts {ε : Type} (new : ε → ρ) (update : ε → ρ → ρ)
    (key_update : ∀ e r, key (update e r) = key r) (events : List ε) (k : κ) :
    cell key ((events.map fun e => Change.upsert (new e) (update e) (key_update e)).foldl
        Change.apply []) k =
      (events.filter fun e => key (new e) = k).foldl
        (fun cell e => some (cell.elim (new e) (update e))) none := by
  have hnil : (([] : List ρ).map key).Nodup := List.nodup_nil
  rw [cell_foldl hnil, List.foldl_map, List.foldl_filter]
  refine congrArg (fun f => events.foldl f none) (funext fun cell => funext fun e => ?_)
  simp [Change.onCell]

/-- **A number that an upsert adds to its row** is added to the sum of all rows. -/
theorem sum_apply_upsert (new : ρ) (update : ρ → ρ) (key_update : ∀ r, key (update r) = key r)
    {f : ρ → Nat} {d : Nat} (hnew : f new = d) (hupdate : ∀ r, f (update r) = f r + d)
    (hkeys : (rows.map key).Nodup) :
    (((Change.upsert new update key_update).apply rows).map f).sum = (rows.map f).sum + d := by
  rw [Change.apply]
  split
  next hmem =>
    obtain ⟨r, hr, hk⟩ := List.mem_map.mp hmem
    obtain ⟨l₁, l₂, rfl⟩ := List.append_of_mem hr
    -- The row with the key is in one place only.
    have hother : ∀ s ∈ l₁ ++ l₂, key s ≠ key new := by
      have hmiddle : (l₁ ++ r :: l₂).Perm (r :: (l₁ ++ l₂)) := List.perm_middle
      have hperm := hmiddle.map key
      rw [hperm.nodup_iff, List.map_cons, List.nodup_cons, hk] at hkeys
      exact fun s hs heq => hkeys.1 (heq ▸ List.mem_map_of_mem hs)
    have hsame : ∀ l : List ρ, (∀ s ∈ l, s ∈ l₁ ++ l₂) →
        (l.map fun s => if key s = key new then update s else s) = l := fun l hl => by
      conv_rhs => rw [← List.map_id l]
      exact List.map_congr_left fun s hs => if_neg (hother s (hl s hs))
    rw [List.map_append, List.map_cons, hsame l₁ fun s hs => List.mem_append_left _ hs,
      hsame l₂ fun s hs => List.mem_append_right _ hs, if_pos hk]
    simp only [List.map_append, List.map_cons, List.sum_append, List.sum_cons, hupdate]
    omega
  next =>
    rw [List.map_append, List.sum_append, List.map_singleton, List.sum_singleton, hnew]

/-! ## Rows that are not changed -/

/-- Rows are added or deleted. -/
def Change.Plain (c : Change key) : Prop :=
  (∃ new, c = .insert new) ∨ ∃ old, c = .delete old

/-- The row of a key after a change that updates none. -/
theorem onCell_plain {c : Change key} (h : c.Plain) {cell : Option ρ} :
    c.onCell k cell = some r ↔
      (cell = some r ∧ c.deletes r = false) ∨ (cell = none ∧ c = .insert r ∧ key r = k) := by
  rcases h with ⟨new, rfl⟩ | ⟨old, rfl⟩
  · have hinj : (Change.insert new : Change key) = .insert r ↔ new = r :=
      ⟨fun h => by injection h, fun h => h ▸ rfl⟩
    show (if key new = k then some (cell.elim new id) else cell) = some r ↔ _
    rw [hinj]
    by_cases hk : key new = k
    · rw [if_pos hk]
      cases cell with
      | none =>
        have hnew : new = r → key r = k := fun h => h ▸ hk
        simpa using hnew
      | some s => simp [Change.insert, Change.deletes]
    · rw [if_neg hk]
      have hnew : ¬(new = r ∧ key r = k) := fun ⟨h, hr⟩ => hk (h ▸ hr)
      simp [Change.insert, Change.deletes, hnew]
  · show (cell.filter fun r => !old r) = some r ↔ _
    rw [Option.filter_eq_some_iff]
    simp [Change.insert, Change.deletes]

/-- **Which rows a history leaves**, of a table that was empty: those that were added when
there was no row with their key, and were not deleted since. -/
theorem mem_foldl_iff {changes : List (Change key)} (hplain : ∀ c ∈ changes, c.Plain) :
    r ∈ changes.foldl Change.apply [] ↔
      ∃ before after, changes = before ++ .insert r :: after ∧
        key r ∉ (before.foldl Change.apply []).map key ∧ ∀ c ∈ after, c.deletes r = false := by
  induction changes using List.reverseRecOn with
  | nil => simp
  | append_singleton changes c ih =>
    have hkeys := nodup_history changes
    have hrows : r ∈ (changes ++ [c]).foldl Change.apply [] ↔
        c.onCell (key r) (cell key (changes.foldl Change.apply []) (key r)) = some r := by
      rw [List.foldl_append, List.foldl_cons, List.foldl_nil, ← cell_apply hkeys,
        cell_eq_some_iff (nodup_apply hkeys c)]
      exact (and_iff_left rfl).symm
    have ih := ih fun d hd => hplain d (List.mem_append_left _ hd)
    rw [hrows, onCell_plain (hplain c (by simp)), cell_eq_some_iff hkeys, and_iff_left rfl, ih,
      cell_eq_none_iff]
    constructor
    · rintro (⟨⟨before, after, rfl, hnew, hkept⟩, hc⟩ | ⟨hnew, rfl, -⟩)
      · refine ⟨before, after ++ [c], by simp, hnew, fun d hd => ?_⟩
        rcases List.mem_append.mp hd with hd | hd
        · exact hkept d hd
        · rw [List.mem_singleton.mp hd]
          exact hc
      · exact ⟨changes, [], rfl, hnew, nofun⟩
    · rintro ⟨before, after, heq, hnew, hkept⟩
      cases after using List.reverseRecOn with
      | nil =>
        obtain ⟨rfl, hc⟩ := List.append_inj' heq rfl
        exact .inr ⟨hnew, List.singleton_inj.mp hc, rfl⟩
      | append_singleton after d _ =>
        rw [← List.cons_append, ← List.append_assoc] at heq
        obtain ⟨rfl, hc⟩ := List.append_inj' heq rfl
        obtain rfl := List.singleton_inj.mp hc
        refine .inl ⟨⟨before, after, rfl, hnew, fun d hd => hkept d ?_⟩, hkept c (by simp)⟩
        exact List.mem_append_left _ hd

end Py
