import ConfigManager.ScrapeAll

/-! # Every active source keeps its own result

`scrape_all` files what it scrapes under the name of the source, and only the `url` column
is unique in the database.  That no source overwrites the result of another one rests on
`add_scraper_source`, which refuses a name that is there already, and on every other
operation, which changes no name.

So after any sequence of operations no two rows have a name, a url or an id in common, and
`scrape_all` returns one entry for each active source of a known type, with its own links
(`results_of_operations`).
-/
namespace ConfigManager

open Py

/-- An operation on the table of sources. -/
inductive SourceOperation where
  | add (name url sourceType : Str)
  | remove (sourceId : Nat)
  | toggle (sourceId : Nat)
  | updateStats (sourceUrl : Str) (configCount now : Nat)
  | seed

namespace SourceTable

/-- The table after an operation. -/
def apply (table : SourceTable) : SourceOperation → SourceTable
  | .add name url sourceType => (table.addScraperSource name url sourceType).1
  | .remove sourceId => table.removeScraperSource sourceId
  | .toggle sourceId => table.toggleScraperSource sourceId
  | .updateStats sourceUrl configCount now =>
      table.updateScraperSourceStats sourceUrl configCount now
  | .seed => table.seedDefaultSources

/-- No two rows have a name, a url or an id in common. -/
structure Unambiguous (table : SourceTable) : Prop where
  ids : (table.map ScraperSource.id).Nodup
  names : (table.map ScraperSource.name).Nodup
  urls : (table.map ScraperSource.url).Nodup

variable {table : SourceTable} {op : SourceOperation}

theorem unambiguous_nil : Unambiguous [] := ⟨List.nodup_nil, List.nodup_nil, List.nodup_nil⟩

/-- **A query by a column without repetitions** finds one row, or none. -/
theorem length_filter_le_one {α : Type*} [DecidableEq α] {column : ScraperSource → α}
    (h : (table.map column).Nodup) (a : α) :
    (table.filter fun row => column row = a).length ≤ 1 := by
  have hcount := List.nodup_iff_count_le_one.mp h a
  rw [List.count, List.countP_map, List.countP_eq_length_filter] at hcount
  have hsame : (fun row => decide (column row = a)) = (· == a) ∘ column := by
    funext row
    exact (beq_eq_decide ..).symm
  rw [hsame]
  exact hcount

theorem id_lt_nextId {row : ScraperSource} (h : row ∈ table) : row.id < table.nextId := by
  rw [nextId]
  induction table with
  | nil => cases h
  | cons first rest ih =>
      simp only [List.map_cons, List.foldr_cons]
      rcases List.mem_cons.mp h with rfl | h
      · omega
      · have := ih h
        omega

/-! ## One operation -/

theorem Unambiguous.add (h : table.Unambiguous) (name url sourceType : Str) :
    (table.addScraperSource name url sourceType).1.Unambiguous := by
  unfold addScraperSource
  split
  · exact h
  next hurl =>
    split
    · exact h
    next hname =>
      -- Neither query has found a row, and the id is new.
      have hfresh : ∀ {α : Type} (column : ScraperSource → α) (row : ScraperSource),
          (table.map column).Nodup → (∀ old ∈ table, column old ≠ column row) →
            ((table ++ [row]).map column).Nodup := by
        intro α column row hnodup hnew
        rw [List.map_append]
        refine hnodup.append (List.nodup_singleton _) fun a hold hrow => ?_
        obtain ⟨old, hmem, rfl⟩ := List.mem_map.mp hold
        exact hnew old hmem (List.mem_singleton.mp hrow)
      refine ⟨hfresh _ _ h.ids fun old hold => ?_, hfresh _ _ h.names fun old hold heq => ?_,
        hfresh _ _ h.urls fun old hold heq => ?_⟩
      · exact (id_lt_nextId hold).ne
      · exact hname (List.any_eq_true.mpr ⟨old, hold, decide_eq_true heq⟩)
      · exact hurl (List.any_eq_true.mpr ⟨old, hold, decide_eq_true heq⟩)

theorem Unambiguous.filter (h : table.Unambiguous) (p : ScraperSource → Bool) :
    Unambiguous (table.filter p) :=
  ⟨h.ids.sublist (List.filter_sublist.map _), h.names.sublist (List.filter_sublist.map _),
    h.urls.sublist (List.filter_sublist.map _)⟩

/-- An operation that changes rows, but none of the three columns. -/
theorem Unambiguous.map (h : table.Unambiguous) {f : ScraperSource → ScraperSource}
    (hf : ∀ row, (f row).id = row.id ∧ (f row).name = row.name ∧ (f row).url = row.url) :
    Unambiguous (table.map f) := by
  have hkept : ∀ {α : Type} (column : ScraperSource → α), (∀ row, column (f row) = column row) →
      (table.map f).map column = table.map column := by
    intro α column hcolumn
    rw [List.map_map]
    exact List.map_congr_left fun row _ => hcolumn row
  refine ⟨?_, ?_, ?_⟩
  · rw [hkept _ fun row => (hf row).1]
    exact h.ids
  · rw [hkept _ fun row => (hf row).2.1]
    exact h.names
  · rw [hkept _ fun row => (hf row).2.2]
    exact h.urls

theorem Unambiguous.apply (h : table.Unambiguous) (op : SourceOperation) :
    (table.apply op).Unambiguous := by
  cases op with
  | add name url sourceType => exact h.add name url sourceType
  | remove sourceId => exact h.filter _
  | toggle sourceId =>
      refine h.map fun row => ?_
      by_cases hrow : row.id = sourceId <;> simp [hrow]
  | updateStats sourceUrl configCount now =>
      refine h.map fun row => ?_
      by_cases hrow : row.url = sourceUrl <;> simp [hrow]
  | seed =>
      simp only [SourceTable.apply, seedDefaultSources]
      split
      · exact List.foldlRecOn (telegramSources ++ subscriptionSources) _ h
          fun table ht src _ => ht.add src.name src.url src.sourceType.text
      · exact h

/-- **Any sequence of operations** keeps the names, the urls and the ids distinct. -/
theorem Unambiguous.foldl (h : table.Unambiguous) (ops : List SourceOperation) :
    (ops.foldl SourceTable.apply table).Unambiguous :=
  List.foldlRecOn ops SourceTable.apply h fun _ ht op _ => ht.apply op

end SourceTable

/-! ## The results of a scrape -/

/-- The entry of a source of a known type: its name, and its links. -/
def ScraperSource.entry (web : Web) (row : ScraperSource) : Option (Str × List Str) :=
  (kindOf row.sourceType).map fun kind => (row.name, (web.scrape kind row.url).getD [])

variable {web : Web} {table : SourceTable}

theorem fst_of_entry {row : ScraperSource} {r : Str × List Str} (h : row.entry web = some r) :
    r.1 = row.name := by
  obtain ⟨kind, -, rfl⟩ := Option.map_eq_some_iff.mp h
  rfl

theorem scrapeRow_results {run : ScrapeRun} {row : ScraperSource}
    (h : row.name ∉ run.results.map Prod.fst) :
    (scrapeRow web run row).results = run.results ++ (row.entry web).toList := by
  rw [scrapeRow_results_eq]
  unfold ScraperSource.source ScraperSource.entry
  cases kindOf row.sourceType with
  | none => exact (List.append_nil _).symm
  | some kind => exact if_neg h

/-- **Sources of different names** do not overwrite each other's results. -/
theorem foldl_scrapeRow_results (rows : List ScraperSource) (run : ScrapeRun)
    (hrows : (rows.map ScraperSource.name).Nodup)
    (hnew : ∀ row ∈ rows, row.name ∉ run.results.map Prod.fst) :
    (rows.foldl (scrapeRow web) run).results =
      run.results ++ rows.filterMap (ScraperSource.entry web) := by
  induction rows generalizing run with
  | nil => simp
  | cons row rows ih =>
      obtain ⟨hrow, hrest⟩ := List.nodup_cons.mp hrows
      have hone : (scrapeRow web run row).results = run.results ++ (row.entry web).toList :=
        scrapeRow_results (hnew row (List.mem_cons_self ..))
      rw [List.foldl_cons, ih _ hrest, hone, List.append_assoc]
      · cases h : row.entry web <;> simp [h]
      · intro other hother hmem
        rw [hone, List.map_append, List.mem_append] at hmem
        rcases hmem with hmem | hmem
        · exact hnew other (List.mem_cons_of_mem _ hother) hmem
        · obtain ⟨r, hr, heq⟩ := List.mem_map.mp hmem
          have hentry : row.entry web = some r := by simpa using hr
          rw [fst_of_entry hentry] at heq
          exact hrow (heq ▸ List.mem_map_of_mem hother)

theorem nodup_active_names (hnames : (table.map ScraperSource.name).Nodup) :
    (table.getActiveScraperSources.map ScraperSource.name).Nodup := by
  have hperm := List.perm_insertionSort SourceLe (table.filter ScraperSource.isActive)
  exact (hperm.map _).nodup_iff.mpr (hnames.sublist (List.filter_sublist.map _))

/-- What `scrape_all` returns, with an active row. -/
theorem scrapeAll_results (web : Web) (hnames : (table.map ScraperSource.name).Nodup)
    (h : ∃ row ∈ table, row.isActive = true) :
    (scrapeAll web table true).results =
      table.getActiveScraperSources.filterMap (ScraperSource.entry web) := by
  rw [scrapeAll_eq_foldl web h, foldl_scrapeRow_results _ _ (nodup_active_names hnames) (by simp)]
  rfl

/-- The entries of rows with different names have different names. -/
theorem nodup_entries (web : Web) {rows : List ScraperSource}
    (h : (rows.map ScraperSource.name).Nodup) :
    ((rows.filterMap (ScraperSource.entry web)).map Prod.fst).Nodup := by
  refine h.sublist ?_
  clear h
  induction rows with
  | nil => exact List.Sublist.slnil
  | cons row rows ih =>
      cases hentry : row.entry web with
      | none =>
          rw [List.filterMap_cons_none hentry, List.map_cons]
          exact ih.cons _
      | some r =>
          rw [List.filterMap_cons_some hentry, List.map_cons, List.map_cons, fst_of_entry hentry]
          exact ih.cons_cons _

/-- The table after operations on an empty one. -/
def SourceTable.after (ops : List SourceOperation) : SourceTable := ops.foldl SourceTable.apply []

/-- **Names and urls are distinct, and every active source keeps its own result**, after any
operations and whatever the sources answer. -/
theorem results_of_operations (ops : List SourceOperation) :
    (((SourceTable.after ops).map ScraperSource.name).Nodup ∧
      ((SourceTable.after ops).map ScraperSource.url).Nodup ∧
      (∀ url, ((SourceTable.after ops).filter fun row => row.url = url).length ≤ 1) ∧
      (∀ name, ((SourceTable.after ops).filter fun row => row.name = name).length ≤ 1) ∧
      ∀ sourceId, ((SourceTable.after ops).filter fun row => row.id = sourceId).length ≤ 1) ∧
    ((∃ row ∈ SourceTable.after ops, row.isActive = true) → ∀ web : Web,
      ((scrapeAll web (SourceTable.after ops) true).results.map Prod.fst).Nodup ∧
      ∀ name configs, (name, configs) ∈ (scrapeAll web (SourceTable.after ops) true).results ↔
        ∃ row ∈ SourceTable.after ops, row.isActive = true ∧ row.name = name ∧
          ∃ kind, kindOf row.sourceType = some kind ∧
            configs = (web.scrape kind row.url).getD []) := by
  have h : (SourceTable.after ops).Unambiguous := SourceTable.unambiguous_nil.foldl ops
  refine ⟨⟨h.names, h.urls, SourceTable.length_filter_le_one h.urls,
    SourceTable.length_filter_le_one h.names, SourceTable.length_filter_le_one h.ids⟩, ?_⟩
  intro hactive web
  rw [scrapeAll_results web h.names hactive]
  refine ⟨nodup_entries web (nodup_active_names h.names), fun name configs => ?_⟩
  rw [List.mem_filterMap]
  constructor
  · rintro ⟨row, hrow, hentry⟩
    obtain ⟨hmem, hon⟩ := SourceTable.mem_getActiveScraperSources.mp hrow
    obtain ⟨kind, hkind, heq⟩ := Option.map_eq_some_iff.mp hentry
    obtain ⟨rfl, rfl⟩ := Prod.mk.inj heq
    exact ⟨row, hmem, hon, rfl, kind, hkind, rfl⟩
  · rintro ⟨row, hmem, hon, rfl, kind, hkind, rfl⟩
    refine ⟨row, SourceTable.mem_getActiveScraperSources.mpr ⟨hmem, hon⟩, ?_⟩
    rw [ScraperSource.entry, hkind]
    rfl

/-- A seeded table without its first source. -/
def seededOperations : List SourceOperation := [.seed, .toggle 1]

theorem results_seededOperations :
    ((scrapeAll Web.sample (SourceTable.after seededOperations) true).results.map Prod.fst).Nodup :=
  ((results_of_operations seededOperations).2 (by decide +kernel) Web.sample).1

/-- The other thirteen built-in sources have an entry each. -/
example : (scrapeAll Web.sample (SourceTable.after seededOperations) true).results.length = 13 := by
  decide +kernel

end ConfigManager
