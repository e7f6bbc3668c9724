import ConfigManager.Py.Retry
import ConfigManager.ScraperJob
import ConfigManager.Subscription
import Mathlib.Tactic.Linarith
import Mathlib.Tactic.NormNum

/-! # Fetching the sources (`scraper.base`, `scraper.subscription`)

A page is requested up to four times, with longer and longer pauses, and what it holds is cut
off at a limit.  A source that cannot be fetched has no configs, and is no reason for
`scrape_all` to fail: `scraped_of_internet` says what it returns, whatever the internet
answers, and that `scraper_job` goes on with it.

The `Internet` gives the outcome of every request, and what BeautifulSoup makes of a page.
-/
namespace ConfigManager

open Py Regex Html

/-- The random part of the pauses. -/
structure Jitter where
  value : Nat → ℚ
  nonneg : ∀ k, 0 ≤ value k
  lt_one : ∀ k, value k < 1

/-- What the requests come to. -/
structure Internet (ε : Type) where
  /-- The `k`-th request of a source: a text, or an exception. -/
  answer : SourceKind → Str → Nat → Except ε Str
  /-- `BeautifulSoup(html, "html.parser")`. -/
  soup : Str → Soup
  jitter : SourceKind → Str → Jitter

/-- The retries of `fetch_channel_html` and `fetch_subscription`. -/
def fetchRetries (ε : Type) (jitter : Jitter) : Retries ε where
  retries := 3
  caught _ := true
  pause k := (8 / 10 + jitter.value k) * 2 ^ k

/-- `max_configs`. -/
def maxConfigs : SourceKind → Nat
  | .telegram => 2000
  | .subscription => 5000

section
variable {ε : Type} (E : Entities) (net : Internet ε)

/-- `fetch_channel_html`. -/
def fetchChannelHtml (channel : Str) : Retried ε Str :=
  (fetchRetries ε (net.jitter .telegram channel)).retried (net.answer .telegram channel)

/-- `fetch_subscription`. -/
def fetchSubscription (url : Str) : Retried ε Str :=
  (fetchRetries ε (net.jitter .subscription url)).retried (net.answer .subscription url)

/-- `scrape_source`, `none` where it raises. -/
def scrapeSource (channel : Str) : Option (List Str) :=
  match (fetchChannelHtml net channel).result with
  | .error _ => some []
  | .ok html =>
      if html = [] then some []
      else (parseConfigs E (net.soup html)).map (List.take (maxConfigs .telegram))

/-- `scrape_subscription`, `none` where it raises. -/
def scrapeSubscription (url : Str) : Option (List Str) :=
  match (fetchSubscription net url).result with
  | .error _ => some []
  | .ok content =>
      if content = [] then some []
      else (extractConfigs E content).map (List.take (maxConfigs .subscription))

/-- The sources, as `scrape_all` comes upon them. -/
def Internet.web (statsWritten : Str → Bool) (now : Nat) : Web where
  scrape
    | .telegram, url => scrapeSource E net url
    | .subscription, url => scrapeSubscription E net url
  statsWritten := statsWritten
  now := now

/-! ## What a source holds -/

/-- The first of four answers that is no exception. -/
def Internet.firstAnswer (kind : SourceKind) (url : Str) : Option Str :=
  (List.range 4).findSome? fun k => (net.answer kind url k).toOption

/-- What is read in a page, if anything can be. -/
def readPage (kind : SourceKind) (page : Str) : List Str :=
  if page = [] then []
  else match kind with
    | .telegram => (parseConfigs E (net.soup page)).getD []
    | .subscription => (extractConfigs E page).getD []

/-- What a source holds: the first of what is read in its first answer. -/
def held (kind : SourceKind) (url : Str) : List Str :=
  (((net.firstAnswer kind url).map (readPage E net kind)).getD []).take (maxConfigs kind)

end

variable {ε : Type} {E : Entities} {net : Internet ε}

theorem toOption_fetch (net : Internet ε) (kind : SourceKind) (url : Str) :
    ((fetchRetries ε (net.jitter kind url)).retried (net.answer kind url)).result.toOption =
      net.firstAnswer kind url := Retries.toOption_retried fun _ => rfl

/-- **A source is scraped for what it holds.** -/
theorem scrape_eq_held (statsWritten : Str → Bool) (now : Nat) (kind : SourceKind) (url : Str) :
    ((net.web E statsWritten now).scrape kind url).getD [] = held E net kind url := by
  have hfirst := toOption_fetch net kind url
  cases kind with
  | telegram =>
    show (scrapeSource E net url).getD [] = _
    rw [scrapeSource, held, ← hfirst, fetchChannelHtml]
    split
    next e he =>
      rw [he]
      rfl
    next html he =>
      rw [he]
      show Option.getD (if html = [] then _ else _) [] = (readPage E net .telegram html).take _
      rw [readPage.eq_def]
      split
      · rfl
      · cases parseConfigs E (net.soup html) <;> rfl
  | subscription =>
    show (scrapeSubscription E net url).getD [] = _
    rw [scrapeSubscription, held, ← hfirst, fetchSubscription]
    split
    next e he =>
      rw [he]
      rfl
    next content he =>
      rw [he]
      show Option.getD (if content = [] then _ else _) [] =
        (readPage E net .subscription content).take _
      rw [readPage.eq_def]
      split
      · rfl
      · cases extractConfigs E content <;> rfl

theorem nodup_extractConfigs {content : Str} {configs : List Str}
    (h : extractConfigs E content = some configs) : (configs.map configHash).Nodup := by
  obtain ⟨parserConfigs, -, rfl⟩ := Option.map_eq_some_iff.mp h
  exact nodup_foldl_keepNew List.nodup_nil

theorem nodup_readPage (kind : SourceKind) (page : Str) :
    ((readPage E net kind page).map configHash).Nodup := by
  unfold readPage
  split
  · exact List.nodup_nil
  · cases kind with
    | telegram =>
      cases h : parseConfigs E (net.soup page) with
      | none => exact List.nodup_nil
      | some configs => exact nodup_parseConfigs h
    | subscription =>
      cases h : extractConfigs E page with
      | none => exact List.nodup_nil
      | some configs => exact nodup_extractConfigs h

theorem nodup_held (kind : SourceKind) (url : Str) :
    ((held E net kind url).map configHash).Nodup := by
  rw [held, List.map_take]
  refine List.Nodup.sublist (List.take_sublist ..) ?_
  cases net.firstAnswer kind url with
  | none => exact List.nodup_nil
  | some page => exact nodup_readPage kind page

/-- What a subscription holds are links. -/
theorem fullMatch_held {url : Str} : ∀ c ∈ held E net .subscription url,
    FullMatch configPattern c := by
  intro c hc
  have hmem := List.mem_of_mem_take hc
  cases hfirst : net.firstAnswer .subscription url with
  | none =>
    rw [hfirst] at hmem
    cases hmem
  | some page =>
    rw [hfirst] at hmem
    have hpage : c ∈ readPage E net .subscription page := hmem
    rw [readPage] at hpage
    split at hpage
    · cases hpage
    · cases h : extractConfigs E page with
      | none =>
        rw [h] at hpage
        cases hpage
      | some configs =>
        rw [h] at hpage
        obtain ⟨parserConfigs, hparser, rfl⟩ := Option.map_eq_some_iff.mp h
        obtain ⟨text, -, rfl⟩ := Option.map_eq_some_iff.mp hparser
        have hfound := (foldl_keepNew_sublist [] _).subset hpage
        rw [List.nil_append] at hfound
        rcases List.mem_append.mp hfound with hfound | hfound
        · exact fullMatch_of_mem_findall hfound
        · exact fullMatch_of_mem_findall hfound

/-! ## All sources -/

/-- What is returned under a name. -/
theorem lookup_scraped (statsWritten : Str → Bool) (now : Nat) (table : SourceTable)
    (readable : Bool) (name : Str) :
    (scrapeAll (net.web E statsWritten now) table readable).results.lookup name =
      (lastNamed (scrapedSources table readable) name).map fun source =>
        held E net source.sourceType source.url := by
  rw [lookup_results]
  exact congrArg (Option.map · _) (funext fun source =>
    scrape_eq_held statsWritten now source.sourceType source.url)

theorem mem_of_lastNamed {sources : List Source} {name : Str} {source : Source}
    (h : lastNamed sources name = some source) : source ∈ sources ∧ source.name = name := by
  obtain ⟨hmem, hname⟩ := List.mem_filter.mp (List.mem_of_getLast? h)
  exact ⟨hmem, of_decide_eq_true hname⟩

/-- A pair of the results is found under its name. -/
theorem lookup_of_mem {results : Scraped} {s : Str × List Str}
    (h : (results.map Prod.fst).Nodup) (hs : s ∈ results) : results.lookup s.1 = some s.2 := by
  induction results with
  | nil => cases hs
  | cons r results ih =>
    obtain ⟨hr, hrest⟩ := List.nodup_cons.mp h
    rw [lookup_cons_eq]
    rcases List.mem_cons.mp hs with rfl | hs
    · exact if_pos rfl
    · have hne : s.1 ≠ r.1 := fun he => hr (he ▸ List.mem_map_of_mem hs)
      rw [if_neg hne, ih hrest hs]

/-- The requests of a source: four at most, and pauses of no more than 12.6 s in all. -/
theorem requests_le (kind : SourceKind) (url : Str) :
    ((fetchRetries ε (net.jitter kind url)).retried (net.answer kind url)).calls ≤ 4 ∧
      ((fetchRetries ε (net.jitter kind url)).retried (net.answer kind url)).pauses.sum ≤
        126 / 10 := by
  constructor
  · obtain ⟨n, hn, -, -, hloop⟩ :=
      Retries.retried_spec (fetchRetries ε (net.jitter kind url)) (net.answer kind url)
    rw [hloop]
    exact Nat.succ_le_succ hn
  · have hpause : ∀ k, 0 ≤ (fetchRetries ε (net.jitter kind url)).pause k ∧
        (fetchRetries ε (net.jitter kind url)).pause k ≤ 18 / 10 * 2 ^ k := by
      intro k
      have hnonneg := (net.jitter kind url).nonneg k
      have hlt := (net.jitter kind url).lt_one k
      have hpow : (0 : ℚ) < 2 ^ k := pow_pos (by norm_num) k
      exact ⟨mul_nonneg (by linarith) hpow.le, mul_le_mul_of_nonneg_right (by linarith) hpow.le⟩
    refine (Retries.sum_pauses_le hpause).trans ?_
    show (List.map (fun k : Nat => (18 / 10 * 2 ^ k : ℚ)) [0, 1, 2]).sum ≤ _
    norm_num

/-- **Whatever the internet answers**, `scrape_all` returns, under the name of every source it
goes through and under no other, what the last source of this name holds: as many configs as
its type allows at most, with distinct hashes, and under a subscription only links.  A source
takes four requests at most, and `scraper_job` goes on with what is returned. -/
theorem scraped_of_internet (E : Entities) (net : Internet ε) (statsWritten : Str → Bool)
    (now : Nat) (table : SourceTable) (readable : Bool) :
    (∀ name, (scrapeAll (net.web E statsWritten now) table readable).results.lookup name =
        (lastNamed (scrapedSources table readable) name).map fun source =>
          held E net source.sourceType source.url) ∧
      ((scrapeAll (net.web E statsWritten now) table readable).results.map Prod.fst).Nodup ∧
      (∀ s ∈ (scrapeAll (net.web E statsWritten now) table readable).results,
        ∃ source ∈ scrapedSources table readable, source.name = s.1 ∧
          s.2 = held E net source.sourceType source.url ∧
          s.2.length ≤ maxConfigs source.sourceType ∧
          (source.sourceType = .subscription → ∀ c ∈ s.2, FullMatch configPattern c)) ∧
      Distinct (scrapeAll (net.web E statsWritten now) table readable).results ∧
      (∀ kind url,
        ((fetchRetries ε (net.jitter kind url)).retried (net.answer kind url)).calls ≤ 4 ∧
        ((fetchRetries ε (net.jitter kind url)).retried (net.answer kind url)).pauses.sum ≤
          126 / 10) ∧
      ∀ env w v, Job.step env w ⟨v, .scraping⟩
          (.scraped (scrapeAll (net.web E statsWritten now) table readable).results) =
        some (w, .next v (scrapeAll (net.web E statsWritten now) table readable).results) := by
  have hdistinct : Distinct (scrapeAll (net.web E statsWritten now) table readable).results :=
    distinct_scrapeAll table readable fun kind url => by
      rw [scrape_eq_held]
      exact nodup_held kind url
  have hnames := nodup_results (net.web E statsWritten now) table readable
  refine ⟨lookup_scraped statsWritten now table readable, hnames, ?_, hdistinct, requests_le,
    fun env w v => if_pos hdistinct⟩
  intro s hs
  have hlookup := lookup_of_mem hnames hs
  rw [lookup_scraped] at hlookup
  obtain ⟨source, hlast, hheld⟩ := Option.map_eq_some_iff.mp hlookup
  obtain ⟨hsource, hname⟩ := mem_of_lastNamed hlast
  refine ⟨source, hsource, hname, hheld.symm, hheld ▸ List.length_take_le .., ?_⟩
  intro hkind
  rw [hkind] at hheld
  exact hheld ▸ fullMatch_held

end ConfigManager
