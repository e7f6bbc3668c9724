import ConfigManager.Validator

/-! # Batch save against one-by-one save

`batch_save_configs` filters a whole batch against one snapshot of the table;
the single-item path asks `config_exists` again after every insert.  A hash that
is new and occurs twice in the batch is therefore stored twice by the one and
once by the other.  And the batch has one commit: a record that cannot be bound
makes it raise for all of them, while the single-item path has stored the records
before.  There is no other difference: `refinesOneByOne_iff`.

Where neither raises both paths leave the same set of hashes
(`mem_hashes_saveOneByOne`, `mem_hashes_batchSaveConfigs`), and the single-item path
keeps them distinct whatever it is given (`nodup_saveOneByOne`).
-/
namespace ConfigManager.Table

open Py

/-- The single-item path: `save_config` only when `config_exists` is false.  The table it
leaves, and whether it comes to the end; a `save_config` that raises ends it. -/
def saveOneByOne (driver : Driver) (source : Option Str) : Table → List Record → Table × Bool
  | table, [] => (table, true)
  | table, item :: items =>
      if table.configExists item.configHash then saveOneByOne driver source table items
      else match table.saveConfig driver source item with
        | some table => saveOneByOne driver source table items
        | none => (table, false)

variable {driver : Driver} {table : Table} {source : Option Str} {items configs : List Record}
  {item : Record}

theorem saveOneByOne_old (h : item.configHash ∈ table.hashes) :
    saveOneByOne driver source table (item :: items) =
      saveOneByOne driver source table items := by
  rw [saveOneByOne, if_pos (by simpa [configExists] using h)]

theorem saveOneByOne_new (h : item.configHash ∉ table.hashes)
    (hbinds : driver.binds (rowOf source item) = true) :
    saveOneByOne driver source table (item :: items) =
      saveOneByOne driver source (table.insert source [item]) items := by
  have hsave : table.saveConfig driver source item = some (table.insert source [item]) :=
    commit_of_binds (List.forall_mem_singleton.mpr hbinds)
  rw [saveOneByOne, if_neg (by simpa [configExists] using h), hsave]

theorem saveOneByOne_unbound (h : item.configHash ∉ table.hashes)
    (hbinds : driver.binds (rowOf source item) = false) :
    saveOneByOne driver source table (item :: items) = (table, false) := by
  have hsave : table.saveConfig driver source item = none :=
    commit_eq_none_iff.mpr ⟨item, List.mem_singleton_self _, hbinds⟩
  rw [saveOneByOne, if_neg (by simpa [configExists] using h), hsave]

/-- The single-item path adds rows, -/
theorem prefix_saveOneByOne : table <+: (saveOneByOne driver source table items).1 := by
  induction items generalizing table with
  | nil => exact List.prefix_rfl
  | cons item items ih =>
    by_cases hi : item.configHash ∈ table.hashes
    · rw [saveOneByOne_old hi]
      exact ih
    · cases hbinds : driver.binds (rowOf source item) with
      | true =>
        rw [saveOneByOne_new hi hbinds]
        exact (List.prefix_append ..).trans ih
      | false =>
        rw [saveOneByOne_unbound hi hbinds]

/-- those of the hashes it is given, if it comes to the end, -/
theorem mem_hashes_saveOneByOne {h : Str}
    (hend : (saveOneByOne driver source table items).2 = true) :
    h ∈ (saveOneByOne driver source table items).1.hashes ↔
      h ∈ table.hashes ∨ h ∈ items.map Record.configHash := by
  induction items generalizing table with
  | nil => simp [saveOneByOne]
  | cons item items ih =>
    by_cases hi : item.configHash ∈ table.hashes
    · rw [saveOneByOne_old hi] at hend ⊢
      rw [ih hend, List.map_cons, List.mem_cons]
      constructor
      · rintro (hm | hm)
        · exact Or.inl hm
        · exact Or.inr (Or.inr hm)
      · rintro (hm | rfl | hm)
        · exact Or.inl hm
        · exact Or.inl hi
        · exact Or.inr hm
    · cases hbinds : driver.binds (rowOf source item) with
      | true =>
        rw [saveOneByOne_new hi hbinds] at hend ⊢
        rw [ih hend, hashes_insert, List.mem_append, List.map_singleton, List.mem_singleton,
          List.map_cons, List.mem_cons, or_assoc]
      | false =>
        rw [saveOneByOne_unbound hi hbinds] at hend
        cases hend

/-- and keeps the column distinct. -/
theorem nodup_saveOneByOne (h : table.hashes.Nodup) :
    (saveOneByOne driver source table items).1.hashes.Nodup := by
  induction items generalizing table with
  | nil => exact h
  | cons item items ih =>
    by_cases hi : item.configHash ∈ table.hashes
    · rw [saveOneByOne_old hi]
      exact ih h
    · cases hbinds : driver.binds (rowOf source item) with
      | true =>
        rw [saveOneByOne_new hi hbinds]
        exact ih (nodup_insert.mpr ⟨h, List.nodup_singleton _, by simpa using hi⟩)
      | false =>
        rw [saveOneByOne_unbound hi hbinds]
        exact h

theorem mem_hashes_batchSaveConfigs {h : Str} {result : Table × Nat × List Record}
    (hreturns : table.batchSaveConfigs driver configs source = some result) :
    h ∈ result.1.hashes ↔ h ∈ table.hashes ∨ h ∈ configs.map Record.configHash := by
  rw [batchSaveConfigs_eq] at hreturns
  obtain ⟨saved, hcommit, rfl⟩ := Option.map_eq_some_iff.mp hreturns
  obtain ⟨-, hsaved⟩ := Option.ite_none_right_eq_some.mp hcommit
  obtain rfl := Option.some.inj hsaved
  rw [hashes_insert, List.mem_append]
  refine ⟨Or.imp_right fun hm => ?_, ?_⟩
  · obtain ⟨c, hc, rfl⟩ := List.mem_map.mp hm
    exact List.mem_map_of_mem (List.mem_of_mem_filter hc)
  · rintro (hm | hm)
    · exact Or.inl hm
    · by_cases ht : h ∈ table.hashes
      · exact Or.inl ht
      · obtain ⟨c, hc, rfl⟩ := List.mem_map.mp hm
        exact Or.inr (List.mem_map_of_mem (List.mem_filter.mpr ⟨hc, by simpa using ht⟩))

/-- No `config_hash` absent from the table occurs twice in the batch. -/
def NoNewRepeats (table : Table) (configs : List Record) : Prop :=
  ∀ h ∉ table.hashes, (configs.map Record.configHash).count h ≤ 1

theorem noNewRepeats_iff :
    NoNewRepeats table configs ↔
      ((configs.filter fun c => c.configHash ∉ table.hashes).map Record.configHash).Nodup := by
  have hfilter : (configs.filter fun c => c.configHash ∉ table.hashes).map Record.configHash =
      (configs.map Record.configHash).filter fun h => h ∉ table.hashes := by
    rw [List.filter_map]
    rfl
  rw [hfilter, List.nodup_iff_count_le_one, NoNewRepeats]
  refine forall_congr' fun h => ?_
  by_cases hm : h ∈ table.hashes
  · have : h ∉ (configs.map Record.configHash).filter fun h => h ∉ table.hashes := by simp [hm]
    rw [List.count_eq_zero_of_not_mem this]
    simp [hm]
  · rw [List.count_filter (by simpa using hm)]
    exact ⟨fun hc => hc hm, fun hc _ => hc⟩

/-- Every record whose hash is absent from the table can be bound. -/
def NewBinds (driver : Driver) (table : Table) (configs : List Record) (source : Option Str) :
    Prop :=
  ∀ c ∈ configs, c.configHash ∉ table.hashes → driver.binds (rowOf source c) = true

theorem newBinds_iff :
    NewBinds driver table configs source ↔
      ∀ c ∈ configs.filter fun c => c.configHash ∉ table.hashes,
        driver.binds (rowOf source c) = true := by
  simp [NewBinds]

/-- **Where the batch raises**: exactly if there is a new record that cannot be bound. -/
theorem batchSaveConfigs_eq_none_iff :
    table.batchSaveConfigs driver configs source = none ↔
      ¬NewBinds driver table configs source := by
  rw [batchSaveConfigs_eq, Option.map_eq_none_iff, commit_eq_none_iff, newBinds_iff]
  simp only [not_forall, exists_prop, Bool.not_eq_true]

/-- Without repeats and such records the snapshot stays right to the end of the batch. -/
theorem saveOneByOne_eq (h : NoNewRepeats table configs)
    (hbinds : NewBinds driver table configs source) :
    (saveOneByOne driver source table configs).1 =
      table.insert source (configs.filter fun c => c.configHash ∉ table.hashes) := by
  rw [noNewRepeats_iff] at h
  rw [newBinds_iff] at hbinds
  induction configs generalizing table with
  | nil => simp [saveOneByOne]
  | cons c configs ih =>
    by_cases hc : c.configHash ∈ table.hashes
    · rw [List.filter_cons_of_neg (by simpa using hc)] at h hbinds ⊢
      rw [saveOneByOne_old hc, ih h hbinds]
    · rw [List.filter_cons_of_pos (by simpa using hc)] at h hbinds ⊢
      rw [List.map_cons, List.nodup_cons] at h
      rw [List.forall_mem_cons] at hbinds
      have hsame : (configs.filter fun d => d.configHash ∉ (table.insert source [c]).hashes) =
          configs.filter fun d => d.configHash ∉ table.hashes := by
        refine List.filter_congr fun d hd => ?_
        rw [hashes_insert]
        by_cases hm : d.configHash ∈ table.hashes
        · simp [hm]
        · have hne : d.configHash ≠ c.configHash := fun he =>
            h.1 (he ▸ List.mem_map_of_mem (List.mem_filter.mpr ⟨hd, by simpa using hm⟩))
          simp [hm, hne]
      rw [saveOneByOne_new hc hbinds.1, ih (by rw [hsame]; exact h.2)
        (by rw [hsame]; exact hbinds.2), hsame]
      exact insert_cons.symm

/-- With a new record that cannot be bound, the single-item path leaves the table as it was
only if this is the first new one. -/
theorem saveOneByOne_perm_iff (h : ¬NewBinds driver table configs source) :
    (saveOneByOne driver source table configs).1.Perm table ↔
      ∀ c ∈ (configs.filter fun c => c.configHash ∉ table.hashes).head?,
        driver.binds (rowOf source c) = false := by
  rw [newBinds_iff] at h
  induction configs with
  | nil => exact absurd (List.forall_mem_nil _) h
  | cons c configs ih =>
    by_cases hc : c.configHash ∈ table.hashes
    · rw [List.filter_cons_of_neg (by simpa using hc)] at h ⊢
      rw [saveOneByOne_old hc, ih h]
    · rw [List.filter_cons_of_pos (by simpa using hc), List.head?_cons]
      cases hbinds : driver.binds (rowOf source c) with
      | true =>
        rw [saveOneByOne_new hc hbinds]
        refine iff_of_false (fun hperm => ?_) (by simp [hbinds])
        -- The row of this record is there to stay.
        have hlonger : (table.insert source [c]).length ≤ table.length :=
          hperm.length_eq ▸ prefix_saveOneByOne.length_le
        rw [insert, List.length_append, List.map_singleton, List.length_singleton] at hlonger
        omega
      | false =>
        rw [saveOneByOne_unbound hc hbinds]
        exact iff_of_true (List.Perm.refl _) (by simp [hbinds])

/-- What a batch that returns owes the single-item path: the same rows, a list of
exactly the records inserted and its length, and distinct hashes. -/
structure Refines (table : Table) (source : Option Str) (result : Table × Nat × List Record)
    (oneByOne : Table) : Prop where
  rows : result.1.Perm oneByOne
  inserted : result.1 = table.insert source result.2.2
  count : result.2.1 = result.2.2.length
  distinct : result.1.hashes.Nodup

/-- **A batch save is a one-by-one save**: it returns, and owes it nothing. -/
def RefinesOneByOne (driver : Driver) (table : Table) (configs : List Record)
    (source : Option Str) : Prop :=
  ∃ result, table.batchSaveConfigs driver configs source = some result ∧
    Refines table source result (saveOneByOne driver source table configs).1

/-- **Exactly when a batch save is a one-by-one save**: when no hash that is new to
the table occurs twice in the batch, and every new record can be bound.  Otherwise the batch
may raise, which stores nothing; the single-item path has stored the new records before the
first one that cannot be bound. -/
theorem refinesOneByOne_iff (driver : Driver) (table : Table) (configs : List Record)
    (source : Option Str) (h : table.hashes.Nodup) :
    (RefinesOneByOne driver table configs source ↔
        NoNewRepeats table configs ∧ NewBinds driver table configs source) ∧
      (table.batchSaveConfigs driver configs source = none →
        ((saveOneByOne driver source table configs).1.Perm table ↔
          ∀ c ∈ (configs.filter fun c => c.configHash ∉ table.hashes).head?,
            driver.binds (rowOf source c) = false)) := by
  refine ⟨⟨?_, ?_⟩, fun hraises =>
    saveOneByOne_perm_iff (batchSaveConfigs_eq_none_iff.mp hraises)⟩
  · rintro ⟨result, hreturns, hrefines⟩
    have hbinds : NewBinds driver table configs source := by
      by_contra hnot
      rw [batchSaveConfigs_eq_none_iff.mpr hnot] at hreturns
      cases hreturns
    refine ⟨noNewRepeats_iff.mpr ?_, hbinds⟩
    rw [batchSaveConfigs_eq, commit_of_binds (newBinds_iff.mp hbinds)] at hreturns
    obtain rfl := Option.some.inj hreturns
    exact (nodup_insert.mp hrefines.distinct).2.1
  · rintro ⟨hrepeats, hbinds⟩
    have hrows := saveOneByOne_eq hrepeats hbinds
    refine ⟨_, by rw [batchSaveConfigs_eq, commit_of_binds (newBinds_iff.mp hbinds)]; rfl, ?_⟩
    refine ⟨?_, rfl, rfl, ?_⟩
    · rw [hrows]
    · have hdistinct : (saveOneByOne driver source table configs).1.hashes.Nodup :=
        nodup_saveOneByOne h
      rwa [hrows] at hdistinct

/-- What `validate_one` returns for these links, if no country is found for their hosts. -/
def recordsOf (configs : List String) : List Record :=
  configs.filterMap fun config => recordOf Env.sample config.toList (some "UN".toList)

/-- A table with one row. -/
def oldTable : Table := (recordsOf ["vless://u@a:1"]).map (rowOf none)

/-- Two new records with a stored one between them. -/
theorem refinesOneByOne_sample :
    RefinesOneByOne Driver.sample oldTable
      (recordsOf ["vless://u@b:1", "vless://u@a:1#x", "trojan://u@c:1"]) none :=
  (refinesOneByOne_iff Driver.sample oldTable
    (recordsOf ["vless://u@b:1", "vless://u@a:1#x", "trojan://u@c:1"]) none
    (by decide +kernel)).1.mpr
    ⟨noNewRepeats_iff.mpr (by decide +kernel), newBinds_iff.mpr (by decide +kernel)⟩

/-- The same record twice in one batch is stored twice.  And the payload `{"add":[],"port":1}`
has a list for its host, so a batch that ends with its link stores nothing, where the
single-item path stores the record before. -/
theorem not_refinesOneByOne :
    ¬RefinesOneByOne Driver.sample [] (recordsOf ["vless://u@h:1", "vless://u@h:1"]) none ∧
      ¬RefinesOneByOne Driver.sample []
        (recordsOf ["vless://u@h:1", "vmess://eyJhZGQiOltdLCJwb3J0IjoxfQ=="]) none ∧
      (saveOneByOne Driver.sample none []
        (recordsOf ["vless://u@h:1", "vmess://eyJhZGQiOltdLCJwb3J0IjoxfQ=="])).1.length = 1 := by
  refine ⟨?_, ?_, by decide +kernel⟩
  · rintro ⟨result, hreturns, hrefines⟩
    have hrepeated : (batchSaveConfigs Driver.sample []
        (recordsOf ["vless://u@h:1", "vless://u@h:1"]) none).any
          (fun result => result.1.hashes.Nodup) = false := by decide +kernel
    rw [hreturns, Option.any_some, decide_eq_false_iff_not] at hrepeated
    exact hrepeated hrefines.distinct
  · rintro ⟨result, hreturns, -⟩
    have hraises : batchSaveConfigs Driver.sample []
        (recordsOf ["vless://u@h:1", "vmess://eyJhZGQiOltdLCJwb3J0IjoxfQ=="]) none = none := by
      decide +kernel
    rw [hraises] at hreturns
    cases hreturns

end ConfigManager.Table
