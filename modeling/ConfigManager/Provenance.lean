import ConfigManager.OverlappingJobs
import ConfigManager.LinkShapes

/-! # Where the rows come from

Executions of `scraper_job` may overlap in any way, and then a hash may be stored twice.
Still nothing is made up and nothing is dropped: every row is the record of a config that
was scraped under the row's source, and the rows stored are the records published and owed,
in some order (`accounted`).  Links stay links on the way (`published_links`).

A step adds rows to the table and items to the queue, and what it adds balances what the job
owes before and after it: `Job.step_adds`.  Everything else follows from that.
-/
namespace ConfigManager

open Py Regex Runs

/-- A row as any source would have it. -/
def Row.unsourced (row : Row) : Row := { row with source := none }

section
variable (env : Env) (P : Str → Str → Prop)

/-- A record of a config that is `P` for its source. -/
def Stems (source : Str) (item : Record) : Prop :=
  ∃ config country, P source config ∧ recordOf env config country = some item

/-- Every config is `P` for its source. -/
def AllFrom (sources : Scraped) : Prop := ∀ s ∈ sources, ∀ c ∈ s.2, P s.1 c

/-- What a job has in flight stems from configs that are `P`. -/
def Job.From (j : Job) : Prop :=
  match j.phase with
  | .scraping | .done => True
  | .validating source batch rest =>
      (∃ configs, Batch.Over env configs batch ∧ ∀ c ∈ configs, P source c) ∧ AllFrom P rest
  | .querying source validated rest =>
      (∀ item ∈ validated, Stems env P source item) ∧ AllFrom P rest
  | .committing source new rest => (∀ item ∈ new, Stems env P source item) ∧ AllFrom P rest
  | .putting _ rest => AllFrom P rest

/-- Scraping comes to configs that are `P`. -/
def JobLabel.Brings : JobLabel → Prop
  | .scraped sources => AllFrom P sources
  | _ => True

/-- A row of a record that stems from a config that is `P`. -/
def Row.From (row : Row) : Prop :=
  ∃ source item, row = Table.rowOf (some source) item ∧ Stems env P source item

end

variable {env : Env} {P : Str → Str → Prop}

/-- The records of a batch stem from its configs. -/
theorem stems_of_over {b : Batch} {configs : List Str} {source : Str}
    (hb : Batch.Over env configs b) (hP : ∀ c ∈ configs, P source c) :
    ∀ item ∈ b.results, Stems env P source item := by
  intro item hitem
  obtain ⟨t, ht, hr⟩ := List.mem_filterMap.mp hitem
  obtain ⟨country, hrec⟩ := hb.records t ht item hr
  have hmem : t.config ∈ configs := hb.tasks ▸ List.mem_map_of_mem ht
  exact ⟨t.config, country, hP _ hmem, hrec⟩

namespace Job

variable {w w' : World} {j j' : Job} {l : JobLabel}

theorem from_next {v : Validator} {rest : Scraped} (h : AllFrom P rest) :
    From env P (next v rest) := by
  induction rest with
  | nil => trivial
  | cons s rest ih =>
    obtain ⟨hs, hrest⟩ := List.forall_mem_cons.mp h
    rw [next]
    split
    · exact ih hrest
    · exact ⟨⟨_, Batch.over_new .., fun c hc => hs c (List.mem_of_mem_take hc)⟩, hrest⟩

theorem from_step (hj : j.From env P) (hl : l.Brings P) (h : step env w j l = some (w', j')) :
    j'.From env P := by
  cases step_cases h with
  | scraped => exact from_next hl
  | aborted => trivial
  | resume hresume =>
    obtain ⟨⟨configs, hover, hP⟩, hrest⟩ := hj
    exact ⟨⟨configs, Batch.over_resume hover hresume, hP⟩, hrest⟩
  | nonePassed => exact from_next hj.2
  | gathered =>
    obtain ⟨⟨configs, hover, hP⟩, hrest⟩ := hj
    exact ⟨stems_of_over hover hP, hrest⟩
  | noneNew => exact from_next hj.2
  | queried => exact ⟨fun item hitem => hj.1 item (List.mem_filter.mp hitem).1, hj.2⟩
  | queryRaised => exact from_next hj.2
  | committed => exact hj.2
  | commitRaised => exact from_next hj.2
  | lastPut => exact from_next hj
  | put => exact hj

/-- What a step adds to the table and to the queue. -/
structure Adds (env : Env) (P : Str → Str → Prop) (w : World) (j : Job) (w' : World) (j' : Job)
    (rows : Table) (items : List Record) : Prop where
  table : w'.table = w.table ++ rows
  enqueued : w'.enqueued = w.enqueued ++ items
  stem : ∀ row ∈ rows, row.From env P
  balance : rows.map Row.unsourced ++ j.owed.map (Table.rowOf none) =
    (items ++ j'.owed).map (Table.rowOf none)

theorem adds_nothing (howed : j.owed = []) (howed' : j'.owed = []) :
    Adds env P w j w j' [] [] := by
  refine ⟨(List.append_nil _).symm, (List.append_nil _).symm, nofun, ?_⟩
  rw [howed, howed']
  rfl

/-- **What a step adds.** -/
theorem step_adds (hj : j.From env P) (h : step env w j l = some (w', j')) :
    ∃ rows items, Adds env P w j w' j' rows items := by
  cases step_cases h with
  | committed =>
    rename_i v source new rest
    refine ⟨new.map (Table.rowOf (some source)), [], rfl, (List.append_nil _).symm, ?_, ?_⟩
    · rintro row hrow
      obtain ⟨item, hitem, rfl⟩ := List.mem_map.mp hrow
      exact ⟨source, item, rfl, hj.1 item hitem⟩
    · show (new.map _).map Row.unsourced ++ [] = new.map (Table.rowOf none)
      rw [List.append_nil, List.map_map]
      rfl
  | lastPut =>
    rename_i v item rest
    refine ⟨[], [item], (List.append_nil _).symm, rfl, nofun, ?_⟩
    rw [owed_next]
    rfl
  | put =>
    rename_i v item items rest
    exact ⟨[], [item], (List.append_nil _).symm, rfl, nofun, rfl⟩
  | scraped => exact ⟨[], [], adds_nothing rfl (owed_next ..)⟩
  | nonePassed => exact ⟨[], [], adds_nothing rfl (owed_next ..)⟩
  | noneNew => exact ⟨[], [], adds_nothing rfl (owed_next ..)⟩
  | queryRaised => exact ⟨[], [], adds_nothing rfl (owed_next ..)⟩
  | commitRaised => exact ⟨[], [], adds_nothing rfl (owed_next ..)⟩
  | _ => exact ⟨[], [], adds_nothing rfl rfl⟩

end Job

namespace System

variable {s t : System} {l : Label} {old : Table}

/-- Scraping comes to configs that are `P`. -/
def Label.Brings (P : Str → Str → Prop) : Label → Prop
  | .launch => True
  | .act _ l => l.Brings P

/-- The rows stored since the beginning are the records published and owed, and all stem
from configs that are `P`. -/
structure Accounted (env : Env) (P : Str → Str → Prop) (old : Table) (s : System) : Prop where
  jobs : ∀ j ∈ s.jobs, j.From env P
  rows : ∃ rows, s.world.table = old ++ rows ∧ (∀ row ∈ rows, row.From env P) ∧
    (rows.map Row.unsourced).Perm ((s.world.enqueued ++ s.owed).map (Table.rowOf none))

theorem accounted_new (old : Table) : Accounted env P old (new old) :=
  ⟨nofun, [], (List.append_nil _).symm, nofun, List.Perm.nil⟩

theorem accounted_step (hs : Accounted env P old s) (hl : l.Brings P)
    (h : s.step env l = some t) : Accounted env P old t := by
  obtain ⟨rows, htable, hstem, hperm⟩ := hs.rows
  cases l with
  | launch =>
    cases h
    refine ⟨fun j hj => ?_, rows, htable, hstem, ?_⟩
    · rcases List.mem_append.mp hj with hj | hj
      · exact hs.jobs j hj
      · rw [List.mem_singleton.mp hj]
        trivial
    · have howed : owed ⟨s.world, s.jobs ++ [.new]⟩ = s.owed := by simp [owed]
      rw [howed]
      exact hperm
  | act i l =>
    obtain ⟨j, w', j', hj, hstep, rfl⟩ := step_act h
    have hjob := hs.jobs j (List.mem_of_getElem? hj)
    obtain ⟨added, items, hadds⟩ := Job.step_adds hjob hstep
    obtain ⟨before, after, hold, hnew⟩ := owed_set hj
    refine ⟨fun k hk => ?_, rows ++ added, ?_, ?_, ?_⟩
    · rcases List.mem_or_eq_of_mem_set hk with hk | rfl
      · exact hs.jobs k hk
      · exact Job.from_step hjob hl hstep
    · rw [hadds.table, htable, List.append_assoc]
    · exact fun row hrow => (List.mem_append.mp hrow).elim (hstem row) (hadds.stem row)
    -- The rows added and what job `i` owed are what it has put and now owes.
    · rw [hold] at hperm
      show ((rows ++ added).map Row.unsourced).Perm
        ((w'.enqueued ++ owed ⟨w', s.jobs.set i j'⟩).map (Table.rowOf none))
      rw [hnew, hadds.enqueued]
      simp only [List.map_append] at hperm ⊢
      have hbalance := hadds.balance
      rw [List.map_append] at hbalance
      refine (hperm.append_right _).trans ?_
      generalize s.world.enqueued.map (Table.rowOf none) = es
      generalize before.map (Table.rowOf none) = bs
      generalize after.map (Table.rowOf none) = as
      generalize items.map (Table.rowOf none) = is at hbalance ⊢
      generalize j.owed.map (Table.rowOf none) = os at hbalance ⊢
      generalize j'.owed.map (Table.rowOf none) = os' at hbalance ⊢
      generalize added.map Row.unsourced = ns at hbalance ⊢
      rw [List.perm_iff_count] at *
      intro row
      have hcount := congrArg (List.count row) hbalance
      simp only [List.count_append] at hcount ⊢
      omega

theorem accounted_run {labels : List Label} (hl : ∀ l ∈ labels, l.Brings P)
    (h : run (step env) (new old) labels = some s) : Accounted env P old s :=
  visited_of_inv (C := fun _ l => l.Brings P) (fun _ _ _ hs hl h => accounted_step hs hl h)
    (accounted_new old) (meets_of_forall _ hl) s (mem_visited_last h)

/-- A config was scraped under a source in the course of a run. -/
def ScrapedIn (labels : List Label) (source config : Str) : Prop :=
  ∃ i sources configs, .act i (.scraped sources) ∈ labels ∧ (source, configs) ∈ sources ∧
    config ∈ configs

theorem brings_scrapedIn {labels : List Label} (h : l ∈ labels) :
    l.Brings (ScrapedIn labels) := by
  cases l with
  | launch => trivial
  | act i l =>
    cases l with
    | scraped sources => exact fun s hs c hc => ⟨i, sources, s.2, h, hs, hc⟩
    | _ => trivial

theorem isRun_overlappingRun : IsRun (step Env.sample) (new []) overlappingRun := by
  decide +kernel

/-- **Nothing is made up and nothing is dropped.**  However executions overlap, the table only
grows; each new row is the record of a config scraped under its source; and up to their order
the new rows are the records published and those still owed. -/
theorem accounted (env : Env) (old : Table) (labels : List Label) (s : System)
    (h : run (step env) (new old) labels = some s) :
    ∃ rows, s.world.table = old ++ rows ∧
      (∀ row ∈ rows, ∃ source config country item, ScrapedIn labels source config ∧
        recordOf env config country = some item ∧ row = Table.rowOf (some source) item) ∧
      (rows.map Row.unsourced).Perm ((s.world.enqueued ++ s.owed).map (Table.rowOf none)) := by
  obtain ⟨rows, htable, hfrom, hperm⟩ :=
    (accounted_run (fun _ => brings_scrapedIn) h : Accounted env (ScrapedIn labels) old s).rows
  refine ⟨rows, htable, fun row hrow => ?_, hperm⟩
  obtain ⟨source, item, rfl, config, country, hscraped, hrec⟩ := hfrom row hrow
  exact ⟨source, config, country, item, hscraped, hrec, rfl⟩

theorem accounted_overlappingRun :
    ∃ s, run (step Env.sample) (new []) overlappingRun = some s ∧
      ∃ rows, s.world.table = [] ++ rows ∧
        (∀ row ∈ rows, ∃ source config country item, ScrapedIn overlappingRun source config ∧
          recordOf Env.sample config country = some item ∧
          row = Table.rowOf (some source) item) ∧
        (rows.map Row.unsourced).Perm
          ((s.world.enqueued ++ s.owed).map (Table.rowOf none)) := by
  obtain ⟨s, hs⟩ := Option.isSome_iff_exists.mp isRun_overlappingRun
  exact ⟨s, hs, accounted Env.sample [] overlappingRun s hs⟩

/-! ## Links -/

/-- The record of a link has a link for its text. -/
theorem findall_of_recordOf {config : Str} {country : Country} {item : Record}
    (hconfig : FullMatch configPattern config) (h : recordOf env config country = some item) :
    findall configPattern item.watermarkedConfig = [item.watermarkedConfig] := by
  obtain ⟨code, -, h⟩ := Option.bind_eq_some_iff.mp h
  obtain ⟨marked, hmarked, rfl⟩ := Option.map_eq_some_iff.mp h
  exact (findall_of_fullMatch (fullMatch_injectWatermark hconfig hmarked)).1

theorem rowOf_text {source : Option Str} {item : Record} (h : item.watermarkedConfig ≠ []) :
    (Table.rowOf source item).text = item.watermarkedConfig := if_neg h

/-- **What is published can be read.**  If the sources post links, then however executions
overlap, a reader of any new row and of any item of the publish queue finds it whole. -/
theorem published_links (env : Env) (old : Table) (labels : List Label) (s : System)
    (hlinks : ∀ source config, ScrapedIn labels source config → FullMatch configPattern config)
    (h : run (step env) (new old) labels = some s) :
    (∃ rows, s.world.table = old ++ rows ∧
      ∀ row ∈ rows, findall configPattern row.text = [row.text]) ∧
    ∀ item ∈ s.world.queue, findall configPattern item.config = [item.config] := by
  obtain ⟨rows, htable, hfrom, hperm⟩ :=
    (accounted_run (fun _ => brings_scrapedIn) h : Accounted env (ScrapedIn labels) old s).rows
  have hread : ∀ row ∈ rows, findall configPattern row.text = [row.text] := by
    intro row hrow
    obtain ⟨source, item, rfl, config, country, hscraped, hrec⟩ := hfrom row hrow
    have hitem := findall_of_recordOf (hlinks source config hscraped) hrec
    have hne : item.watermarkedConfig ≠ [] :=
      ne_nil_of_fullMatch (fullMatch_of_mem_findall (hitem ▸ List.mem_singleton_self _))
    rw [rowOf_text hne]
    exact hitem
  refine ⟨⟨rows, htable, hread⟩, fun item hitem => ?_⟩
  -- An item published is the text of one of the rows.
  obtain ⟨c, hc, rfl⟩ := List.mem_map.mp hitem
  have hmem : Table.rowOf none c ∈ rows.map Row.unsourced :=
    hperm.mem_iff.mpr (List.mem_map_of_mem (List.mem_append_left _ hc))
  obtain ⟨row, hrow, hrc⟩ := List.mem_map.mp hmem
  obtain ⟨source, d, rfl, config, country, hscraped, hrec⟩ := hfrom row hrow
  have hmarked : d.watermarkedConfig = c.watermarkedConfig :=
    Option.some.inj (congrArg Row.watermarkedConfig hrc)
  have hd := findall_of_recordOf (hlinks source config hscraped) hrec
  rw [hmarked] at hd
  exact hd

theorem published_links_overlappingRun :
    ∃ s, run (step Env.sample) (new []) overlappingRun = some s ∧
      (∃ rows, s.world.table = [] ++ rows ∧
        ∀ row ∈ rows, findall configPattern row.text = [row.text]) ∧
      ∀ item ∈ s.world.queue, findall configPattern item.config = [item.config] := by
  obtain ⟨s, hs⟩ := Option.isSome_iff_exists.mp isRun_overlappingRun
  have hsample : FullMatch configPattern sampleLink := by decide +kernel
  refine ⟨s, hs, published_links Env.sample [] overlappingRun s ?_ hs⟩
  rintro source config ⟨i, sources, configs, hlabel, hsource, hconfig⟩
  have hsources : sources = [("a".toList, [sampleLink])] := by
    simp only [overlappingRun, untilCommit, List.map_cons, List.map_nil, List.cons_append,
      List.nil_append, List.mem_cons, Label.act.injEq, JobLabel.scraped.injEq, reduceCtorEq,
      List.not_mem_nil, and_false, or_false, false_or] at hlabel
    rcases hlabel with ⟨-, h⟩ | ⟨-, h⟩ <;> exact h
  rw [hsources, List.mem_singleton] at hsource
  rw [(Prod.mk.inj hsource).2, List.mem_singleton] at hconfig
  exact hconfig ▸ hsample

end System
end ConfigManager
