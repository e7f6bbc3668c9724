import ConfigManager.Py.Text
import Mathlib.Data.List.Lex
import Mathlib.Data.List.Sort

/-! # Migrations (`database.migrations.manager`)

The manager runs the `upgrade` of every Python file in its directory whose version is not
recorded, in the order of their names, and records it.  A file without an `upgrade` is logged
and passed over, so it stays pending for ever; the manager's own module is one
(`converged_iff`).
-/
namespace ConfigManager

open Py

/-- The database: the rows of `schema_migrations`, and all else. -/
structure Database (σ : Type) where
  versions : List Str
  content : σ

/-- What `upgrade` makes of the database, and whether it returns. -/
abbrev Upgrade (σ : Type) := Database σ → Database σ × Bool

/-- The directory of the migrations. -/
structure MigrationsDir (σ : Type) where
  /-- The names of its entries. -/
  names : List Str
  /-- `importlib.import_module` of a version: `none` where it raises, and then the module's
  `upgrade`, if it has one. -/
  load : Str → Option (Option (Upgrade σ))
  /-- The database takes the version, unless it is recorded already. -/
  takes : Str → Bool

/-- A `MigrationManager`, and what it has done. -/
structure MigrationManager (σ : Type) where
  db : Database σ
  /-- The keys of `_applied_migrations`. -/
  applied : List Str
  /-- The versions whose `upgrade` it has run. -/
  ran : List Str

/-- `path.stem`: the name up to its last dot, unless that is its first character. -/
def stem (name : Str) : Str :=
  let base := (name.rdropWhile (· != '.')).dropLast
  if base = [] then name else base

/-- `MigrationManager(engine)`, and `initialize`. -/
def MigrationManager.initializeOn {σ : Type} (db : Database σ) : MigrationManager σ :=
  ⟨db, db.versions, []⟩

namespace MigrationsDir

variable {σ : Type} (dir : MigrationsDir σ)

/-- `get_migration_files`. -/
def getMigrationFiles : List Str :=
  (dir.names.filter fun name => ".py".toList <:+ name ∧ name ≠ "__init__.py".toList).insertionSort
    fun a b => a.map Char.toNat ≤ b.map Char.toNat

/-- `get_pending_migrations`. -/
def getPendingMigrations (m : MigrationManager σ) : List Str :=
  dir.getMigrationFiles.filter fun name => stem name ∉ m.applied

/-- `apply_migration`, and whether it returns. -/
def applyMigration (m : MigrationManager σ) (name : Str) : MigrationManager σ × Bool :=
  let version := stem name
  match dir.load version with
  | none => (m, false)
  | some none => (m, true)
  | some (some upgrade) =>
      let (db, returned) := upgrade m.db
      let m := { m with db, ran := m.ran ++ [version] }
      if returned ∧ version ∉ db.versions ∧ dir.takes version then
        ({ m with
            db := { db with versions := db.versions ++ [version] }
            applied := if version ∈ m.applied then m.applied else m.applied ++ [version] }, true)
      else (m, false)

/-- The loop of `apply_all_pending`, which an exception ends. -/
def applyEach (m : MigrationManager σ) : List Str → MigrationManager σ × Bool
  | [] => (m, true)
  | name :: names =>
      let (m, returned) := dir.applyMigration m name
      if returned then applyEach m names else (m, false)

/-- `apply_all_pending`, and whether it returns. -/
def applyAllPending (m : MigrationManager σ) : MigrationManager σ × Bool :=
  dir.applyEach m (dir.getPendingMigrations m)

/-- The version's module has an `upgrade`. -/
def HasUpgrade (version : Str) : Prop := ∃ upgrade, dir.load version = some (some upgrade)

/-- Every file is recorded, or has an `upgrade`. -/
def Complete (db : Database σ) : Prop :=
  ∀ name ∈ dir.getMigrationFiles, stem name ∈ db.versions ∨ dir.HasUpgrade (stem name)

/-- No `upgrade` takes a version out of the manager's table. -/
def Keeps : Prop :=
  ∀ version upgrade, dir.load version = some (some upgrade) →
    ∀ db, ∀ v ∈ db.versions, v ∈ (upgrade db).1.versions

/-- **The migrations converge**: after a run on a database nothing is pending, all files are
recorded, and neither this manager nor a new one runs an `upgrade` again. -/
structure Converged (m : MigrationManager σ) : Prop where
  pending : dir.getPendingMigrations m = []
  recorded : ∀ name ∈ dir.getMigrationFiles, stem name ∈ m.db.versions
  same : (dir.applyAllPending m).1.ran = m.ran
  new : (dir.applyAllPending (.initializeOn m.db)).1.ran = []

variable {dir} {m m' : MigrationManager σ} {db : Database σ} {name : Str} {names : List Str}

/-! ## One migration -/

/-- **What a migration that returns has done**: nothing for want of an `upgrade`, or its
`upgrade` is run and its version recorded. -/
theorem applyMigration_cases (h : dir.applyMigration m name = (m', true)) :
    (¬dir.HasUpgrade (stem name) ∧ m' = m) ∨
      (dir.HasUpgrade (stem name) ∧ stem name ∈ m'.db.versions ∧
        (dir.Keeps → ∀ v ∈ m.db.versions, v ∈ m'.db.versions) ∧
        ∀ v, v ∈ m'.applied ↔ v ∈ m.applied ∨ v = stem name) := by
  simp only [applyMigration] at h
  split at h
  next => cases h
  next hload =>
    cases h
    refine .inl ⟨?_, rfl⟩
    rintro ⟨upgrade, hupgrade⟩
    rw [hload] at hupgrade
    cases hupgrade
  next upgrade hload =>
    split at h
    · cases h
      refine .inr ⟨⟨upgrade, hload⟩, List.mem_append_right _ (List.mem_singleton_self _),
        fun hkeeps v hv => List.mem_append_left _ (hkeeps _ upgrade hload m.db v hv), fun v => ?_⟩
      dsimp only
      split
      next hmem => exact ⟨.inl, fun h => h.elim id fun he => he ▸ hmem⟩
      next => rw [List.mem_append, List.mem_singleton]
    · cases h

/-- Without an `upgrade` nothing happens, whether the module can be imported or not. -/
theorem applyMigration_idle (h : ¬dir.HasUpgrade (stem name)) :
    (dir.applyMigration m name).1 = m := by
  simp only [applyMigration]
  split
  next => rfl
  next => rfl
  next upgrade hload => exact absurd ⟨upgrade, hload⟩ h

/-! ## All migrations -/

/-- A loop that returns has gone through each file. -/
theorem applyEach_cons (h : dir.applyEach m (name :: names) = (m', true)) :
    ∃ next, dir.applyMigration m name = (next, true) ∧ dir.applyEach next names = (m', true) := by
  rw [applyEach] at h
  cases hstep : dir.applyMigration m name with
  | mk next returned =>
    rw [hstep] at h
    cases returned with
    | false => cases h
    | true => exact ⟨next, rfl, h⟩

/-- The versions that the manager knows are in its database. -/
def Known (m : MigrationManager σ) : Prop := ∀ v ∈ m.applied, v ∈ m.db.versions

/-- **What a run that returns has applied**: the versions of its files with an `upgrade`. -/
theorem applyEach_applied (h : dir.applyEach m names = (m', true)) (v : Str) :
    v ∈ m'.applied ↔ v ∈ m.applied ∨ (dir.HasUpgrade v ∧ v ∈ names.map stem) := by
  induction names generalizing m with
  | nil =>
    cases h
    simp
  | cons name names ih =>
    obtain ⟨next, hstep, hrest⟩ := applyEach_cons h
    rw [ih hrest, List.map_cons, List.mem_cons]
    rcases applyMigration_cases hstep with ⟨hno, rfl⟩ | ⟨hup, -, -, happ⟩
    · have hne : dir.HasUpgrade v → v ≠ stem name := fun hv he => hno (he ▸ hv)
      grind
    · rw [happ]
      grind

/-- What is applied is recorded, one migration after the other. -/
theorem known_of_returned (hkeeps : dir.Keeps) (hm : Known m)
    (h : dir.applyEach m names = (m', true)) : Known m' := by
  induction names generalizing m with
  | nil =>
    cases h
    exact hm
  | cons name names ih =>
    obtain ⟨next, hstep, hrest⟩ := applyEach_cons h
    refine ih ?_ hrest
    rcases applyMigration_cases hstep with ⟨-, rfl⟩ | ⟨-, hrecorded, hkept, happ⟩
    · exact hm
    · intro v hv
      rcases (happ v).mp hv with hv | rfl
      · exact hkept hkeeps v (hm v hv)
      · exact hrecorded

/-- A run over files without an `upgrade` does nothing. -/
theorem applyEach_idle (h : ∀ name ∈ names, ¬dir.HasUpgrade (stem name)) :
    (dir.applyEach m names).1 = m := by
  induction names with
  | nil => rfl
  | cons name names ih =>
    rw [List.forall_mem_cons] at h
    have hstep := applyMigration_idle (m := m) h.1
    rw [applyEach]
    split
    next m' returned heq =>
      rw [heq] at hstep
      subst hstep
      split
      · exact ih h.2
      · rfl

theorem mem_pending : name ∈ dir.getPendingMigrations m ↔
    name ∈ dir.getMigrationFiles ∧ stem name ∉ m.applied := by
  simp [getPendingMigrations]

/-- **After a run that returns**, what is pending has no `upgrade`. -/
theorem not_hasUpgrade_of_pending (h : dir.applyAllPending m = (m', true))
    (hname : name ∈ dir.getPendingMigrations m') : ¬dir.HasUpgrade (stem name) := by
  intro hup
  obtain ⟨hfile, hnot⟩ := mem_pending.mp hname
  rw [applyEach_applied h, not_or] at hnot
  exact hnot.2 ⟨hup, List.mem_map_of_mem (mem_pending.mpr ⟨hfile, hnot.1⟩)⟩

/-- **A second run does nothing**, by this manager, and by a new one if no version was taken
out. -/
theorem applyAllPending_idle (h : dir.applyAllPending m = (m', true)) :
    (dir.applyAllPending m').1 = m' ∧
      (Known m' → (dir.applyAllPending (.initializeOn m'.db)).1 = .initializeOn m'.db) := by
  refine ⟨applyEach_idle fun name hname => not_hasUpgrade_of_pending h hname, fun hknown =>
    applyEach_idle fun name hname => not_hasUpgrade_of_pending h ?_⟩
  obtain ⟨hfile, hnot⟩ := mem_pending.mp hname
  exact mem_pending.mpr ⟨hfile, fun hmem => hnot (hknown _ hmem)⟩

/-- **When nothing is pending** after a run that returns. -/
theorem pending_eq_nil_iff (h : dir.applyAllPending (.initializeOn db) = (m, true)) :
    dir.getPendingMigrations m = [] ↔ dir.Complete db := by
  have happlied : ∀ name ∈ dir.getMigrationFiles,
      stem name ∈ m.applied ↔ stem name ∈ db.versions ∨ dir.HasUpgrade (stem name) := by
    intro name hname
    rw [applyEach_applied h]
    refine or_congr_right' fun hnew => and_iff_left_of_imp fun _ => ?_
    exact List.mem_map_of_mem (mem_pending.mpr ⟨hname, hnew⟩)
  rw [List.eq_nil_iff_forall_not_mem]
  constructor
  · intro hnone name hname
    by_contra hnot
    exact hnone name (mem_pending.mpr ⟨hname, fun hmem => hnot ((happlied name hname).mp hmem)⟩)
  · intro hcomplete name hname
    obtain ⟨hfile, hnot⟩ := mem_pending.mp hname
    exact hnot ((happlied name hfile).mpr (hcomplete name hfile))

/-- A directory with one migration, which leaves the versions alone. -/
def sampleDir : MigrationsDir Unit where
  names := ["002_country_index.py".toList, "schema.sql".toList]
  load version :=
    if version = "002_country_index".toList then some (some fun db => (db, true)) else none
  takes := fun _ => true

/-- The directory of the repository, with what the `upgrade` of its one migration does, which is
up to the database. -/
def repository (upgrade : Upgrade σ) : MigrationsDir σ where
  names := ["001_initial_schema.py".toList, "manager.py".toList, "schema.sql".toList]
  load version :=
    if version = "001_initial_schema".toList then some (some upgrade)
    else if version = "manager".toList then some none
    else none
  takes := fun _ => true

/-- A database in which the initial schema is recorded. -/
def recordedDatabase (content : σ) : Database σ := ⟨["001_initial_schema".toList], content⟩

/-- **The manager's own module** is reported, has no `upgrade`, and stays pending. -/
theorem pending_repository (upgrade : Upgrade σ) (content : σ) :
    (repository upgrade).getPendingMigrations (.initializeOn (recordedDatabase content)) =
        ["manager.py".toList] ∧
      (repository upgrade).applyAllPending (.initializeOn (recordedDatabase content)) =
        (.initializeOn (recordedDatabase content), true) := by
  have hfiles : (repository upgrade).getMigrationFiles =
      ["001_initial_schema.py".toList, "manager.py".toList] := by
    have hnames : (repository fun db : Database Unit => (db, true)).getMigrationFiles =
        ["001_initial_schema.py".toList, "manager.py".toList] := by decide +kernel
    exact hnames
  have hschema : stem "001_initial_schema.py".toList = "001_initial_schema".toList := by
    decide +kernel
  have hmanager : stem "manager.py".toList = "manager".toList := by decide +kernel
  have hnew : "manager".toList ∉ (recordedDatabase content).versions := by
    have hnames : "manager".toList ∉ ["001_initial_schema".toList] := by decide +kernel
    exact hnames
  have hpending : (repository upgrade).getPendingMigrations
      (.initializeOn (recordedDatabase content)) = ["manager.py".toList] := by
    rw [getPendingMigrations, hfiles, List.filter_cons_of_neg, List.filter_cons_of_pos,
      List.filter_nil]
    · rw [hmanager]
      exact decide_eq_true hnew
    · rw [hschema]
      simp [MigrationManager.initializeOn, recordedDatabase]
  refine ⟨hpending, ?_⟩
  have hload : (repository upgrade).load (stem "manager.py".toList) = some none := by
    rw [hmanager]
    rfl
  rw [applyAllPending, hpending, applyEach, applyMigration, hload]
  rfl

end MigrationsDir

end ConfigManager
