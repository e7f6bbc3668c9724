import ConfigManager.Py.Text
import Mathlib.Data.Char
import Mathlib.Data.List.Lex
import Mathlib.Data.List.Sort

/-! # The table of sources (`database.crud`, `scraper.sources`)

The sources an administrator manages, the operations on their table that
scraping and the panel use, and the lists built into the program.  The `url`
column is unique.
-/
namespace ConfigManager

open Py

/-- The source types the scraper knows. -/
inductive SourceKind where
  | telegram
  | subscription
  deriving DecidableEq

/-- The known source type a text names. -/
def kindOf (sourceType : Str) : Option SourceKind :=
  if sourceType = "telegram".toList then some .telegram
  else if sourceType = "subscription".toList then some .subscription
  else none

/-- The text of a source type. -/
def SourceKind.text : SourceKind → Str
  | .telegram => "telegram".toList
  | .subscription => "subscription".toList

/-- `Source`, of the built-in lists. -/
structure Source where
  name : Str
  url : Str
  sourceType : SourceKind
  deriving DecidableEq

/-- `TELEGRAM_SOURCES`. -/
def telegramSources : List Source :=
  ["filembad", "vpnine1", "ConfigsHUB2", "free_v2rayyy", "v2rayng_config", "v2rayng_org",
    "vasl_bashim", "configs_freeiran", "MARTiNCONFiG", "best_internet_iran", "persianvpnhub"].map
    fun channel => ⟨channel.toList, channel.toList, .telegram⟩

/-- `SUBSCRIPTION_SOURCES`. -/
def subscriptionSources : List Source :=
  [⟨"sorenab1sub".toList, "https://shz.al/DyAii8ySZtNHAizTPf3EHzS3:/~sorenab1sub".toList,
      .subscription⟩,
    ⟨"VPNine1-sub".toList,
      "https://raw.githubusercontent.com/vpnine1/sub/main/@VPNine1-sub836#@VPNine1-sub836".toList,
      .subscription⟩,
    ⟨"Masir_Sefid".toList,
      "https://raw.githubusercontent.com/masir-sefid/Sub/main/@Masir_Sefid.txt".toList,
      .subscription⟩]

/-- `ScraperSource`. -/
structure ScraperSource where
  id : Nat
  name : Str
  url : Str
  sourceType : Str
  isActive : Bool
  lastScraped : Option Nat
  lastConfigCount : Nat
  deriving DecidableEq

/-- The rows of `scraper_sources`. -/
abbrev SourceTable := List ScraperSource

/-- `ORDER BY source_type, name`. -/
def SourceLe (a b : ScraperSource) : Prop :=
  a.sourceType < b.sourceType ∨ a.sourceType = b.sourceType ∧ a.name ≤ b.name

instance : DecidableRel SourceLe := fun _ _ => inferInstanceAs (Decidable (_ ∨ _))

namespace SourceTable

/-- `list_scraper_sources`. -/
def listScraperSources (table : SourceTable) : List ScraperSource :=
  table.insertionSort SourceLe

/-- `get_active_scraper_sources`. -/
def getActiveScraperSources (table : SourceTable) : List ScraperSource :=
  (table.filter ScraperSource.isActive).insertionSort SourceLe

/-- What `add_scraper_source` answers. -/
inductive AddResult where
  | added
  | duplicateUrl
  | duplicateName
  deriving DecidableEq

/-- The next value of the `id` column. -/
def nextId (table : SourceTable) : Nat := (table.map ScraperSource.id).foldr max 0 + 1

/-- `add_scraper_source`. -/
def addScraperSource (table : SourceTable) (name url sourceType : Str) :
    SourceTable × AddResult :=
  if table.any fun row => row.url = url then (table, .duplicateUrl)
  else if table.any fun row => row.name = name then (table, .duplicateName)
  else (table ++ [⟨table.nextId, name, url, sourceType, true, none, 0⟩], .added)

/-- `remove_scraper_source`. -/
def removeScraperSource (table : SourceTable) (sourceId : Nat) : SourceTable :=
  table.filter fun row => row.id ≠ sourceId

/-- `toggle_scraper_source`. -/
def toggleScraperSource (table : SourceTable) (sourceId : Nat) : SourceTable :=
  table.map fun row => if row.id = sourceId then { row with isActive := !row.isActive } else row

/-- `update_scraper_source_stats`, at a time. -/
def updateScraperSourceStats (table : SourceTable) (sourceUrl : Str) (configCount now : Nat) :
    SourceTable :=
  table.map fun row =>
    if row.url = sourceUrl then { row with lastScraped := some now, lastConfigCount := configCount }
    else row

/-- `seed_default_sources`. -/
def seedDefaultSources (table : SourceTable) : SourceTable :=
  if table.listScraperSources = [] then
    (telegramSources ++ subscriptionSources).foldl
      (fun table src => (table.addScraperSource src.name src.url src.sourceType.text).1) table
  else table

/-- Any sequence of `toggle_scraper_source` calls. -/
def toggleAll (table : SourceTable) (sourceIds : List Nat) : SourceTable :=
  sourceIds.foldl toggleScraperSource table

/-- The `url` column. -/
def urls (table : SourceTable) : List Str := table.map ScraperSource.url

variable {table : SourceTable} {row : ScraperSource}

@[simp] theorem mem_getActiveScraperSources :
    row ∈ table.getActiveScraperSources ↔ row ∈ table ∧ row.isActive = true := by
  rw [getActiveScraperSources, List.mem_insertionSort, List.mem_filter]

@[simp] theorem urls_toggleScraperSource (sourceId : Nat) :
    (table.toggleScraperSource sourceId).urls = table.urls := by
  rw [urls, toggleScraperSource, List.map_map]
  refine List.map_congr_left fun row _ => ?_
  simp only [Function.comp_apply]
  split <;> rfl

@[simp] theorem urls_toggleAll (sourceIds : List Nat) :
    (table.toggleAll sourceIds).urls = table.urls := by
  induction sourceIds generalizing table with
  | nil => rfl
  | cons i is ih =>
    have hrest : ((table.toggleScraperSource i).toggleAll is).urls = _ := ih
    exact hrest.trans (urls_toggleScraperSource i)

/-- Toggling twice is not toggling. -/
theorem toggle_toggle (sourceId : Nat) :
    (table.toggleScraperSource sourceId).toggleScraperSource sourceId = table := by
  rw [toggleScraperSource, toggleScraperSource, List.map_map]
  refine (List.map_congr_left fun row _ => ?_).trans (List.map_id _)
  obtain ⟨id, name, url, sourceType, isActive, lastScraped, lastConfigCount⟩ := row
  by_cases h : id = sourceId <;> simp [h]

end SourceTable
end ConfigManager
