import ConfigManager.SourceTable

/-! # Scraping all sources (`scraper.base.scrape_all`)

`scrape_all` reads the active sources and scrapes each of a known type.  It falls
back to the built-in lists whenever that query returns nothing, so it cannot tell
an empty table from one in which every row is switched off: the sources it
fetches are the active ones exactly when there is an active one
(`scrapesActive_iff`).  What it returns under a name is what the last of them with this name
was scraped for (`lookup_results`).
-/
namespace ConfigManager

open Py

/-- Sources with the configs scraped from them: `all_sources.items()`. -/
abbrev Scraped := List (Str × List Str)

/-- `results[name] = configs`. -/
def assign (results : Scraped) (name : Str) (configs : List Str) : Scraped :=
  if name ∈ results.map Prod.fst then
    results.map fun r => if r.1 = name then (name, configs) else r
  else results ++ [(name, configs)]

/-- What the sources answer while they are scraped. -/
structure Web where
  /-- `scrape_source` or `scrape_subscription` of a url, `none` where it raises. -/
  scrape : SourceKind → Str → Option (List Str)
  /-- Whether the statistics of a url can be written. -/
  statsWritten : Str → Bool
  now : Nat

/-- A run of `scrape_all`. -/
structure ScrapeRun where
  /-- The sources fetched, by type and url. -/
  fetched : List (SourceKind × Str)
  /-- What it returns. -/
  results : Scraped
  table : SourceTable
  usedDefaults : Bool

/-- The source a row stands for, if its type is known. -/
def ScraperSource.target (row : ScraperSource) : Option (SourceKind × Str) :=
  (kindOf row.sourceType).map (·, row.url)

variable (web : Web)

/-- One source is scraped; an exception leaves it with no configs. -/
def scrapeOne (run : ScrapeRun) (name : Str) (kind : SourceKind) (url : Str) : ScrapeRun :=
  { run with
    fetched := run.fetched ++ [(kind, url)]
    results := assign run.results name ((web.scrape kind url).getD []) }

/-- A source of the built-in lists. -/
def scrapeDefault (run : ScrapeRun) (source : Source) : ScrapeRun :=
  scrapeOne web run source.name source.sourceType source.url

/-- A source of the table, with its statistics. -/
def scrapeRow (run : ScrapeRun) (src : ScraperSource) : ScrapeRun :=
  match kindOf src.sourceType with
  | none => run
  | some kind =>
      let run' := scrapeOne web run src.name kind src.url
      match web.scrape kind src.url with
      | some configs =>
          if web.statsWritten src.url then
            { run' with
              table := run'.table.updateScraperSourceStats src.url configs.length web.now }
          else run'
      | none => run'

/-- `scrape_all`, of a table that can be read or not. -/
def scrapeAll (table : SourceTable) (readable : Bool) : ScrapeRun :=
  let dbSources := if readable then table.getActiveScraperSources else []
  if dbSources = [] then
    (telegramSources ++ subscriptionSources).foldl (scrapeDefault web) ⟨[], [], table, true⟩
  else dbSources.foldl (scrapeRow web) ⟨[], [], table, false⟩

variable {web} {table : SourceTable}

/-! ## What is fetched -/

variable (web) in
theorem scrapeRow_fetched (run : ScrapeRun) (src : ScraperSource) :
    (scrapeRow web run src).fetched = run.fetched ++ src.target.toList ∧
      (scrapeRow web run src).usedDefaults = run.usedDefaults := by
  unfold scrapeRow ScraperSource.target
  cases kindOf src.sourceType with
  | none => simp
  | some kind =>
    dsimp only
    split
    · split <;> simp [scrapeOne]
    · simp [scrapeOne]

variable (web) in
theorem foldl_scrapeRow (rows : List ScraperSource) (run : ScrapeRun) :
    (rows.foldl (scrapeRow web) run).fetched = run.fetched ++ rows.filterMap ScraperSource.target ∧
      (rows.foldl (scrapeRow web) run).usedDefaults = run.usedDefaults := by
  induction rows generalizing run with
  | nil => simp
  | cons src rows ih =>
    obtain ⟨hf, hd⟩ := ih (scrapeRow web run src)
    obtain ⟨hf', hd'⟩ := scrapeRow_fetched web run src
    refine ⟨?_, hd.trans hd'⟩
    rw [List.foldl_cons, hf, hf', List.append_assoc]
    cases h : src.target <;> simp [h]

variable (web) in
theorem foldl_scrapeDefault (sources : List Source) (run : ScrapeRun) :
    (sources.foldl (scrapeDefault web) run).fetched =
        run.fetched ++ sources.map (fun s => (s.sourceType, s.url)) ∧
      (sources.foldl (scrapeDefault web) run).usedDefaults = run.usedDefaults := by
  induction sources generalizing run with
  | nil => simp
  | cons s sources ih =>
    obtain ⟨hf, hd⟩ := ih (scrapeDefault web run s)
    exact ⟨by rw [List.foldl_cons, hf]; simp [scrapeDefault, scrapeOne], hd⟩

variable (web) in
/-- With an active row, `scrape_all` goes through the active rows. -/
theorem scrapeAll_eq_foldl (h : ∃ row ∈ table, row.isActive = true) :
    scrapeAll web table true =
      table.getActiveScraperSources.foldl (scrapeRow web) ⟨[], [], table, false⟩ := by
  obtain ⟨row, hrow, hactive⟩ := h
  have hne : table.getActiveScraperSources ≠ [] :=
    List.ne_nil_of_mem (SourceTable.mem_getActiveScraperSources.mpr ⟨hrow, hactive⟩)
  rw [scrapeAll]
  simp only [if_true, if_neg hne]

variable (web) in
/-- With an active row, the sources fetched are those of the active rows. -/
theorem scrapeAll_of_active (h : ∃ row ∈ table, row.isActive = true) :
    (scrapeAll web table true).fetched =
        table.getActiveScraperSources.filterMap ScraperSource.target ∧
      (scrapeAll web table true).usedDefaults = false := by
  rw [scrapeAll_eq_foldl web h]
  simpa using foldl_scrapeRow web table.getActiveScraperSources ⟨[], [], table, false⟩

/-- Without one, or without a table, they are the built-in ones. -/
theorem scrapeAll_defaults {readable : Bool}
    (h : readable = false ∨ ∀ row ∈ table, row.isActive = false) :
    (scrapeAll web table readable).fetched =
        (telegramSources ++ subscriptionSources).map (fun s => (s.sourceType, s.url)) ∧
      (scrapeAll web table readable).usedDefaults = true := by
  have hnil : (if readable then table.getActiveScraperSources else []) = [] := by
    rcases h with rfl | h
    · rfl
    · split
      · refine List.eq_nil_iff_forall_not_mem.mpr fun row hrow => ?_
        obtain ⟨hmem, hactive⟩ := SourceTable.mem_getActiveScraperSources.mp hrow
        simp [h row hmem] at hactive
      · rfl
  rw [scrapeAll]
  simp only [hnil, if_true]
  simpa using
    foldl_scrapeDefault web (telegramSources ++ subscriptionSources) ⟨[], [], table, true⟩

/-! ## What is returned -/

/-- The source a row is scraped as, if its type is known. -/
def ScraperSource.source (row : ScraperSource) : Option Source :=
  (kindOf row.sourceType).map fun kind => ⟨row.name, row.url, kind⟩

/-- The sources that are to be scraped: the active rows, in their order, or the built-in ones. -/
def scrapedSources (table : SourceTable) (readable : Bool) : List Source :=
  let dbSources := if readable then table.getActiveScraperSources else []
  if dbSources = [] then telegramSources ++ subscriptionSources
  else dbSources.filterMap ScraperSource.source

/-- The last source of a name. -/
def lastNamed (sources : List Source) (name : Str) : Option Source :=
  (sources.filter (·.name = name)).getLast?

/-- A source writes its entry. -/
def putSource (web : Web) (results : Scraped) (source : Source) : Scraped :=
  assign results source.name ((web.scrape source.sourceType source.url).getD [])

theorem lookup_cons_eq (n : Str) (r : Str × List Str) (results : Scraped) :
    List.lookup n (r :: results) = if n = r.1 then some r.2 else List.lookup n results := by
  rw [List.lookup_cons]
  by_cases hn : n = r.1
  · rw [if_pos hn, beq_iff_eq.mpr hn]
  · rw [if_neg hn, beq_eq_false_iff_ne.mpr hn]

theorem lookup_replace (results : Scraped) (name n : Str) (configs : List Str) :
    List.lookup n (results.map fun r => if r.1 = name then (name, configs) else r) =
      if n = name then (results.lookup n).map fun _ => configs else results.lookup n := by
  induction results with
  | nil => split <;> rfl
  | cons r results ih =>
    rw [List.map_cons, lookup_cons_eq, lookup_cons_eq, ih]
    by_cases hr : r.1 = name
    · subst hr
      by_cases hn : n = r.1 <;> simp [hn]
    · rw [if_neg hr]
      by_cases hn : n = r.1
      · simp [hn, hr]
      · simp [hn]

theorem lookup_assign (results : Scraped) (name n : Str) (configs : List Str) :
    (assign results name configs).lookup n =
      if n = name then some configs else results.lookup n := by
  unfold assign
  split
  next hmem =>
    rw [lookup_replace]
    split
    next hn =>
      subst hn
      obtain ⟨r, hr, hname⟩ := List.mem_map.mp hmem
      have hsome : results.lookup n ≠ none := fun h => by
        simpa [hname] using List.lookup_eq_none_iff.mp h r hr
      obtain ⟨old, hold⟩ := Option.ne_none_iff_exists'.mp hsome
      rw [hold]
      rfl
    · rfl
  next hmem =>
    rw [List.lookup_append, lookup_cons_eq]
    by_cases hn : n = name
    · subst hn
      have hnone : results.lookup n = none := List.lookup_eq_none_iff.mpr fun r hr =>
        bne_iff_ne.mpr fun h => hmem (h ▸ List.mem_map_of_mem hr)
      rw [if_pos rfl, if_pos rfl, hnone]
      rfl
    · rw [if_neg hn, if_neg hn]
      exact Option.or_none

theorem nodup_assign {results : Scraped} (name : Str) (configs : List Str)
    (h : (results.map Prod.fst).Nodup) : ((assign results name configs).map Prod.fst).Nodup := by
  unfold assign
  split
  · have hnames : (results.map fun r => if r.1 = name then (name, configs) else r).map Prod.fst =
        results.map Prod.fst := by
      rw [List.map_map]
      refine List.map_congr_left fun r _ => ?_
      by_cases hr : r.1 = name <;> simp [hr]
    rwa [hnames]
  next hmem =>
    rw [List.map_append]
    refine h.append (List.nodup_singleton _) fun a hold hnew => ?_
    obtain rfl := List.mem_singleton.mp hnew
    exact hmem hold

variable (web) in
theorem scrapeRow_results_eq (run : ScrapeRun) (row : ScraperSource) :
    (scrapeRow web run row).results = row.source.toList.foldl (putSource web) run.results := by
  unfold scrapeRow ScraperSource.source
  cases kindOf row.sourceType with
  | none => rfl
  | some kind =>
    dsimp only
    split
    · split <;> rfl
    · rfl

variable (web) in
/-- One source after the other writes its entry. -/
theorem results_scrapeAll (table : SourceTable) (readable : Bool) :
    (scrapeAll web table readable).results =
      (scrapedSources table readable).foldl (putSource web) [] := by
  have hrows : ∀ rows run, (List.foldl (scrapeRow web) run rows).results =
      (rows.filterMap ScraperSource.source).foldl (putSource web) run.results := by
    intro rows
    induction rows with
    | nil => exact fun _ => rfl
    | cons row rows ih =>
      intro run
      rw [List.foldl_cons, ih, scrapeRow_results_eq]
      cases h : row.source with
      | none =>
        rw [List.filterMap_cons_none h]
        rfl
      | some source =>
        rw [List.filterMap_cons_some h]
        rfl
  have hdefaults : ∀ sources run, (List.foldl (scrapeDefault web) run sources).results =
      sources.foldl (putSource web) run.results := by
    intro sources
    induction sources with
    | nil => exact fun _ => rfl
    | cons source sources ih => exact fun run => ih _
  unfold scrapeAll scrapedSources
  dsimp only
  generalize (if readable then table.getActiveScraperSources else []) = dbSources
  split
  · exact hdefaults _ _
  · exact hrows _ _

variable (web) in
/-- **Under a name** is what the last source of the name was scraped for. -/
theorem lookup_results (table : SourceTable) (readable : Bool) (name : Str) :
    (scrapeAll web table readable).results.lookup name =
      (lastNamed (scrapedSources table readable) name).map fun source =>
        (web.scrape source.sourceType source.url).getD [] := by
  rw [results_scrapeAll]
  generalize scrapedSources table readable = sources
  induction sources using List.reverseRecOn with
  | nil => rfl
  | append_singleton sources source ih =>
    rw [List.foldl_append, List.foldl_cons, List.foldl_nil, putSource, lookup_assign, ih,
      lastNamed, lastNamed, List.filter_append, List.filter_singleton]
    by_cases hname : source.name = name
    · simp [hname]
    · simp [hname, Ne.symm hname]

variable (web) in
theorem nodup_results (table : SourceTable) (readable : Bool) :
    ((scrapeAll web table readable).results.map Prod.fst).Nodup := by
  rw [results_scrapeAll]
  exact List.foldlRecOn (motive := fun results : Scraped => (results.map Prod.fst).Nodup)
    (scrapedSources table readable) (putSource web) List.nodup_nil fun _ h _ _ =>
      nodup_assign _ _ h

/-! ## Disabled sources -/

/-- What scraping a table that can be read owes it: the sources fetched are the
active rows of a known type, no inactive row is fetched, and the built-in lists
are not used. -/
structure ScrapesActive (web : Web) (table : SourceTable) : Prop where
  fetched : ∀ f, f ∈ (scrapeAll web table true).fetched ↔
    ∃ row ∈ table, row.isActive = true ∧ row.target = some f
  inactive : ∀ row ∈ table, row.isActive = false → ∀ f, row.target = some f →
    f ∉ (scrapeAll web table true).fetched
  noDefaults : (scrapeAll web table true).usedDefaults = false

/-- Two rows of one url are one row. -/
theorem eq_of_target {row row' : ScraperSource} {f : SourceKind × Str} (hu : table.urls.Nodup)
    (h : row ∈ table) (h' : row' ∈ table) (ht : row.target = some f)
    (ht' : row'.target = some f) : row = row' := by
  obtain ⟨_, -, rfl⟩ := Option.map_eq_some_iff.mp ht
  obtain ⟨_, -, he⟩ := Option.map_eq_some_iff.mp ht'
  exact (List.inj_on_of_nodup_map hu h' h (Prod.mk.inj he).2).symm

/-- **Exactly when disabled sources are not scraped**: after any sequence of
toggles, when a row of the table is active. -/
theorem scrapesActive_iff (web : Web) (table : SourceTable) (sourceIds : List Nat)
    (hurls : table.urls.Nodup) :
    ScrapesActive web (table.toggleAll sourceIds) ↔
      ∃ row ∈ table.toggleAll sourceIds, row.isActive = true := by
  have hu : (table.toggleAll sourceIds).urls.Nodup := by simpa using hurls
  generalize table.toggleAll sourceIds = current at hu ⊢
  constructor
  · intro h
    by_contra hnone
    have hall : ∀ row ∈ current, row.isActive = false := by
      intro row hrow
      by_contra hactive
      exact hnone ⟨row, hrow, by simpa using hactive⟩
    have hdefaults : (scrapeAll web current true).usedDefaults = true :=
      (scrapeAll_defaults (Or.inr hall)).2
    simp [h.noDefaults] at hdefaults
  · intro h
    obtain ⟨hf, hd⟩ := scrapeAll_of_active web h
    have hfetched : ∀ f, f ∈ (scrapeAll web current true).fetched ↔
        ∃ row ∈ current, row.isActive = true ∧ row.target = some f := by
      intro f
      rw [hf, List.mem_filterMap]
      simp only [SourceTable.mem_getActiveScraperSources, and_assoc]
    refine ⟨hfetched, fun row hrow hinactive f ht hmem => ?_, hd⟩
    obtain ⟨row', hrow', hactive, ht'⟩ := (hfetched f).mp hmem
    rw [eq_of_target hu hrow hrow' ht ht', hactive] at hinactive
    cases hinactive

/-- A web in which every source is empty. -/
def Web.sample : Web := ⟨fun _ _ => some [], fun _ => true, 0⟩

/-- A channel that is switched on, and one that is switched off. -/
def sampleSources : SourceTable :=
  [⟨1, "a".toList, "a".toList, "telegram".toList, true, none, 0⟩,
    ⟨2, "b".toList, "b".toList, "telegram".toList, false, none, 0⟩]

/-- Both are switched, and the second one is left on. -/
theorem scrapesActive_sample :
    ScrapesActive Web.sample (sampleSources.toggleAll [1, 2]) ∧
      (scrapeAll Web.sample (sampleSources.toggleAll [1, 2]) true).fetched =
        [(.telegram, "b".toList)] :=
  ⟨(scrapesActive_iff Web.sample sampleSources [1, 2] (by decide)).mpr
    ⟨⟨2, "b".toList, "b".toList, "telegram".toList, true, none, 0⟩, by decide, rfl⟩,
    by decide +kernel⟩

/-- Switched off, the built-in channels are scraped instead. -/
theorem not_scrapesActive_disabled : ¬ScrapesActive Web.sample (sampleSources.toggleAll [1]) := by
  intro h
  exact absurd h.noDefaults (by decide +kernel)

end ConfigManager
