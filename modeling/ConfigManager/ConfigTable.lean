import ConfigManager.LinkUtils
import Mathlib.Data.Finset.Insert
import Mathlib.Data.List.Nodup

/-! # The table of processed configs (`database.crud`)

The operations that store validated records in `processed_configs`, one by one
and in batches.  A commit of a row that the driver cannot bind raises, and stores
nothing.  A row leaves out the columns the database fills in itself (`id`
and `created_at`); rows are in insertion order, which is the order of their ids.
-/
namespace ConfigManager

open Py

/-- What `validate_one` returns for a valid link. -/
structure Record where
  rawConfig : Str
  watermarkedConfig : Str
  configHash : Str
  countryCode : Str
  protocol : Protocol
  host : Json
  deriving DecidableEq

/-- `ProcessedConfig`. -/
structure Row where
  rawConfig : Str
  watermarkedConfig : Option Str
  configHash : Str
  countryCode : Option Str
  protocol : Option Protocol
  host : Json
  source : Option Str
  isValid : Bool
  deriving DecidableEq

/-- `row.watermarked_config or row.raw_config`. -/
def Row.text (row : Row) : Str :=
  match row.watermarkedConfig with
  | some watermarked => if watermarked = [] then row.rawConfig else watermarked
  | none => row.rawConfig

/-- A row with a link, for examples. -/
def rowOfLink (config : Str) : Row where
  rawConfig := config
  watermarkedConfig := none
  configHash := configHash config
  countryCode := none
  protocol := none
  host := .null
  source := none
  isValid := true

/-- The rows of `processed_configs`. -/
abbrev Table := List Row

/-- The driver of the database: the rows it can bind.  The host of a vmess link is a member of
its payload, so it may be a list, a number or any other JSON value. -/
structure Driver where
  binds : Row → Bool

/-- A driver that binds a host if it is a text or null, for examples. -/
def Driver.sample : Driver where
  binds row := match row.host with
    | .str _ | .null => true
    | _ => false

namespace Table

/-- The `config_hash` column. -/
def hashes (table : Table) : List Str := table.map Row.configHash

/-- `config_exists`. -/
def configExists (table : Table) (configHash : Str) : Bool := configHash ∈ table.hashes

/-- The row a record is stored as. -/
def rowOf (source : Option Str) (item : Record) : Row where
  rawConfig := item.rawConfig
  watermarkedConfig := some item.watermarkedConfig
  configHash := item.configHash
  countryCode := some item.countryCode
  protocol := some item.protocol
  host := item.host
  source := source
  isValid := true

/-- `batch_exists_hashes`. -/
def batchExistsHashes (table : Table) (hashes : List Str) : Finset Str :=
  if hashes = [] then ∅ else (table.hashes.filter (· ∈ hashes)).toFinset

/-- The records of a batch whose hash is not among the existing ones. -/
def newConfigs (existing : Finset Str) (configs : List Record) : List Record :=
  configs.filter fun c => c.configHash ∉ existing

/-- The table with these records at its end. -/
def insert (table : Table) (source : Option Str) (items : List Record) : Table :=
  table ++ items.map (rowOf source)

variable (driver : Driver)

/-- `session.add(row)` for every record, and the commit: it raises if there is a row that the
driver cannot bind, and stores none of them then. -/
def commit (table : Table) (source : Option Str) (items : List Record) : Option Table :=
  if ∀ item ∈ items, driver.binds (rowOf source item) then some (table.insert source items)
  else none

/-- `save_config`, of a record, `none` where it raises. -/
def saveConfig (table : Table) (source : Option Str) (item : Record) : Option Table :=
  table.commit driver source [item]

/-- `batch_save_configs`: the table after it, and what it returns; `none` where it raises,
which leaves the table as it was. -/
def batchSaveConfigs (table : Table) (configs : List Record) (source : Option Str) :
    Option (Table × Nat × List Record) :=
  if configs = [] then some (table, 0, [])
  else
    let existing := table.batchExistsHashes (configs.map Record.configHash)
    let new := newConfigs existing configs
    if new = [] then some (table, 0, [])
    else (table.commit driver source new).map fun table => (table, new.length, new)

/-! ## What the operations do -/

section
variable {driver : Driver} {table : Table} {source : Option Str} {item : Record}
  {items configs : List Record} {h : Str}

@[simp] theorem rowOf_configHash : (rowOf source item).configHash = item.configHash := rfl

theorem mem_batchExistsHashes {hashes : List Str} :
    h ∈ table.batchExistsHashes hashes ↔ h ∈ table.hashes ∧ h ∈ hashes := by
  unfold batchExistsHashes
  split
  · simp_all
  · simp

@[simp] theorem hashes_insert (table : Table) (source : Option Str) (items : List Record) :
    (table.insert source items).hashes = table.hashes ++ items.map Record.configHash := by
  simp [hashes, insert, Function.comp_def]

@[simp] theorem insert_nil : table.insert source [] = table := by simp [insert]

theorem insert_cons :
    table.insert source (item :: items) = (table.insert source [item]).insert source items := by
  simp [insert]

/-- **A commit**: it raises exactly if it has a row that cannot be bound. -/
theorem commit_of_binds (h : ∀ c ∈ items, driver.binds (rowOf source c)) :
    table.commit driver source items = some (table.insert source items) := if_pos h

theorem commit_eq_none_iff :
    table.commit driver source items = none ↔
      ∃ c ∈ items, driver.binds (rowOf source c) = false := by
  simp [commit]

/-- The new records of a batch, filtered against the table they go to. -/
theorem newConfigs_batchExistsHashes :
    newConfigs (table.batchExistsHashes (configs.map Record.configHash)) configs =
      configs.filter fun c => c.configHash ∉ table.hashes := by
  refine List.filter_congr fun c hc => ?_
  have : c.configHash ∈ configs.map Record.configHash := List.mem_map_of_mem hc
  simp [mem_batchExistsHashes, this]

/-- **A batch in one step**: a commit of the records that are not in the table. -/
theorem batchSaveConfigs_eq :
    table.batchSaveConfigs driver configs source =
      (table.commit driver source (configs.filter fun c => c.configHash ∉ table.hashes)).map
        fun saved => (saved, (configs.filter fun c => c.configHash ∉ table.hashes).length,
          configs.filter fun c => c.configHash ∉ table.hashes) := by
  have hnone : table.commit driver source [] = some table := by
    rw [commit_of_binds (List.forall_mem_nil _), insert_nil]
  unfold batchSaveConfigs
  simp only [newConfigs_batchExistsHashes]
  split
  next he =>
    rw [he, List.filter_nil, hnone]
    rfl
  · split
    next hn =>
      rw [hn, hnone]
      rfl
    · rfl

/-- Inserting records keeps the hashes distinct exactly if theirs are distinct
and new. -/
theorem nodup_insert :
    (table.insert source items).hashes.Nodup ↔
      table.hashes.Nodup ∧ (items.map Record.configHash).Nodup ∧
        ∀ c ∈ items, c.configHash ∉ table.hashes := by
  rw [hashes_insert, List.nodup_append]
  refine and_congr_right fun _ => and_congr_right fun _ => ⟨fun h c hc hm => ?_, ?_⟩
  · exact h _ hm _ (List.mem_map_of_mem hc) rfl
  · rintro h a ha _ hb rfl
    obtain ⟨c, hc, rfl⟩ := List.mem_map.mp hb
    exact h c hc ha

end
end Table
end ConfigManager
