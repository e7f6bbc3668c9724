import ConfigManager.OwnerAlone
import ConfigManager.Py.KeyedRows

/-! # The bot over several processes

A process that ends takes `user_data` and the scraper's switch with it; the tables stay.
The next one runs `post_init`: the ids of `admins.json` are added to the admins table, each time
anew, so that one who was removed and is in the file is an administrator again.

Over any run of users' events and restarts, only the owner and the file decide who is an
administrator, and nobody's text or document does anything before they have pressed a button
again: `admins_over_restarts`.
-/
namespace ConfigManager

open Py Runs

/-- An entry of `admins.json`; `other` is one that `int` raises on. -/
inductive LegacyId where
  | number (n : Int)
  | text (s : Str)
  | other
  deriving DecidableEq

/-- `int(uid)`, where the database takes it. -/
def LegacyId.userId? : LegacyId → Option Int
  | .number n => if -(2 ^ 63) ≤ n ∧ n < 2 ^ 63 then some n else none
  | .text s => Bot.userId? s
  | .other => none

/-- The additions of `migrate_admins_json`: each is committed, up to the entry that raises. -/
def migrateAdminsJson (ownerId : Int) : List LegacyId → List Action
  | [] => []
  | uid :: ids =>
      if uid = .number ownerId then migrateAdminsJson ownerId ids
      else match uid.userId? with
        | some userId => .addAdmin userId ownerId :: migrateAdminsJson ownerId ids
        | none => []

/-- What an action is for the rows of the admins table. -/
def Action.rowChange : Action → Option (Change AdminRow.userId)
  | .addAdmin userId addedBy => some (.insert ⟨userId, addedBy⟩)
  | .removeAdmin userId => some (.delete fun row => row.userId = userId)
  | _ => none

theorem onAdmins_eq_apply (rows : List AdminRow) (action : Action) :
    action.onAdmins rows = action.rowChange.elim rows (Change.apply rows) := by
  cases action
  case addAdmin userId addedBy => exact (apply_insert rows (⟨userId, addedBy⟩ : AdminRow)).symm
  case removeAdmin userId =>
    refine List.filter_congr fun row _ => ?_
    simp
  all_goals rfl

theorem foldl_onAdmins (rows : List AdminRow) (actions : List Action) :
    actions.foldl Action.onAdmins rows =
      (actions.filterMap Action.rowChange).foldl Change.apply rows := by
  induction actions generalizing rows with
  | nil => rfl
  | cons action actions ih =>
    rw [List.foldl_cons, ih, onAdmins_eq_apply, List.filterMap_cons]
    cases action.rowChange <;> rfl

/-- Only a removal takes an id out of the table. -/
theorem mem_foldl_onAdmins_of_mem {actions : List Action} {rows : List AdminRow} {userId : Int}
    (hmem : userId ∈ rows.map AdminRow.userId) (hno : .removeAdmin userId ∉ actions) :
    userId ∈ (actions.foldl Action.onAdmins rows).map AdminRow.userId := by
  induction actions generalizing rows with
  | nil => exact hmem
  | cons action actions ih =>
    refine ih ?_ fun hlater => hno (List.mem_cons_of_mem _ hlater)
    cases action
    case addAdmin newId addedBy =>
      rw [Action.onAdmins]
      split
      · exact hmem
      · rw [List.map_append]
        exact List.mem_append_left _ hmem
    case removeAdmin removeId =>
      obtain ⟨row, hrow, rfl⟩ := List.mem_map.mp hmem
      have hne : row.userId ≠ removeId := fun heq => hno (heq ▸ List.mem_cons_self ..)
      exact List.mem_map_of_mem (List.mem_filter.mpr ⟨hrow, decide_eq_true hne⟩)
    all_goals exact hmem

/-- An id that is added is in the table until it is removed. -/
theorem mem_foldl_onAdmins_of_added {actions : List Action} {rows : List AdminRow}
    {userId addedBy : Int} (hmem : .addAdmin userId addedBy ∈ actions)
    (hno : .removeAdmin userId ∉ actions) :
    userId ∈ (actions.foldl Action.onAdmins rows).map AdminRow.userId := by
  obtain ⟨before, after, rfl⟩ := List.append_of_mem hmem
  rw [List.foldl_append, List.foldl_cons]
  refine mem_foldl_onAdmins_of_mem ?_ fun hlater => hno (by simp [hlater])
  rw [Action.onAdmins]
  split
  next hin => exact hin
  next => simp

theorem removeAdmin_not_mem_migrateAdminsJson {ownerId userId : Int} (legacy : List LegacyId) :
    .removeAdmin userId ∉ migrateAdminsJson ownerId legacy := by
  fun_induction migrateAdminsJson ownerId legacy with
  | case1 => exact List.not_mem_nil
  | case2 => assumption
  | case3 uid ids hne newId h ih => simpa using ih
  | case4 => exact List.not_mem_nil

/-- Who is in the file, up to the entry that raises, is the owner or is added. -/
theorem addAdmin_mem_migrateAdminsJson {ownerId userId : Int} {legacy : List LegacyId}
    {uid : LegacyId} (hmem : uid ∈ legacy.takeWhile fun u => u.userId?.isSome)
    (hid : uid.userId? = some userId) (hne : userId ≠ ownerId) :
    .addAdmin userId ownerId ∈ migrateAdminsJson ownerId legacy := by
  induction legacy with
  | nil => cases hmem
  | cons first legacy ih =>
    rw [List.takeWhile_cons] at hmem
    cases hfirst : first.userId? with
    | none => simp [hfirst] at hmem
    | some firstId =>
      simp only [hfirst, Option.isSome_some, if_true, List.mem_cons] at hmem
      rw [migrateAdminsJson, hfirst]
      rcases hmem with rfl | hmem
      · obtain rfl : firstId = userId := Option.some.inj (hfirst.symm.trans hid)
        have howner : uid ≠ .number ownerId := by
          rintro rfl
          rw [LegacyId.userId?] at hid
          split at hid
          · exact hne (Option.some.inj hid).symm
          · cases hid
        rw [if_neg howner]
        exact List.mem_cons_self ..
      · split
        · exact ih hmem
        · exact List.mem_cons_of_mem _ (ih hmem)

theorem plain_rowChange {action : Action} {c : Change AdminRow.userId}
    (h : action.rowChange = some c) : c.Plain := by
  cases action
  case addAdmin => exact .inl ⟨_, (Option.some.inj h).symm⟩
  case removeAdmin => exact .inr ⟨_, (Option.some.inj h).symm⟩
  all_goals cases h

/-- **Who is in the table** after some actions: those who were added when they were not there,
and not removed since. -/
theorem mem_foldl_onAdmins_iff {actions : List Action} {row : AdminRow} :
    row ∈ actions.foldl Action.onAdmins [] ↔ ∃ before after,
      actions = before ++ .addAdmin row.userId row.addedBy :: after ∧
      row.userId ∉ (before.foldl Action.onAdmins []).map AdminRow.userId ∧
      .removeAdmin row.userId ∉ after := by
  have hplain : ∀ c ∈ actions.filterMap Action.rowChange, c.Plain := fun c hc => by
    obtain ⟨action, -, h⟩ := List.mem_filterMap.mp hc
    exact plain_rowChange h
  rw [foldl_onAdmins, mem_foldl_iff hplain]
  constructor
  · rintro ⟨before, after, heq, hnew, hkept⟩
    obtain ⟨first, rest, rfl, rfl, hrest⟩ := List.filterMap_eq_append_iff.mp heq
    obtain ⟨skipped, action, last, rfl, hskipped, haction, rfl⟩ :=
      List.filterMap_eq_cons_iff.mp hrest
    have hfirst : (first ++ skipped).filterMap Action.rowChange =
        first.filterMap Action.rowChange := by
      rw [List.filterMap_append, List.filterMap_eq_nil_iff.mpr hskipped, List.append_nil]
    refine ⟨first ++ skipped, last, ?_, ?_, fun hmem => ?_⟩
    · have haction : action = .addAdmin row.userId row.addedBy := by
        cases action
        case addAdmin userId addedBy =>
          have hrow := Option.some.inj haction
          injection hrow with hrow
          rw [← hrow]
        case removeAdmin => exact absurd (Option.some.inj haction) nofun
        all_goals cases haction
      rw [haction, List.append_assoc]
    · rwa [foldl_onAdmins, hfirst]
    · have hdeletes := hkept _ (List.mem_filterMap.mpr ⟨_, hmem, rfl⟩)
      simp [Change.deletes] at hdeletes
  · rintro ⟨before, after, rfl, hnew, hkept⟩
    refine ⟨before.filterMap Action.rowChange, after.filterMap Action.rowChange, ?_, ?_,
      fun c hc => ?_⟩
    · rw [List.filterMap_append, List.filterMap_cons]
      rfl
    · rwa [← foldl_onAdmins]
    · obtain ⟨action, hmem, h⟩ := List.mem_filterMap.mp hc
      cases action
      case addAdmin => rw [← Option.some.inj h]; rfl
      case removeAdmin userId =>
        rw [← Option.some.inj h]
        have hne : row.userId ≠ userId := fun he => hkept (he ▸ hmem)
        simpa [Change.deletes] using hne
      all_goals cases h

namespace Service

/-- The next process: `admins.json` holds these ids, up to the first that cannot be saved. -/
def restart (s : Service) (legacy : List LegacyId) : Service where
  bot := (migrateAdminsJson s.bot.ownerId legacy).foldl Bot.perform
    { s.bot with sources := s.bot.sources.seedDefaultSources, scraperEnabled := true }
  userData _ := .empty
  adminRows := (migrateAdminsJson s.bot.ownerId legacy).foldl Action.onAdmins s.adminRows
  performed := s.performed

/-- What can happen to the bot. -/
inductive Happening where
  | event (e : Event)
  | restart (legacy : List LegacyId)

def live (s : Service) : Happening → Service
  | .event e => s.handle e
  | .restart legacy => s.restart legacy

/-- The owner or the file. -/
def Happening.decides (ownerId : Int) : Happening → Bool
  | .event e => e.userId = ownerId
  | .restart _ => true

/-- The actions that something leads to. -/
def decided (s : Service) : Happening → List Action
  | .event e => s.actions e
  | .restart legacy => migrateAdminsJson s.bot.ownerId legacy

/-- The actions of a run. -/
def decisions (s : Service) : List Happening → List Action
  | [] => []
  | h :: happenings => s.decided h ++ decisions (s.live h) happenings

variable {s t : Service} {ownerId : Int}

/-! ## Who decides -/

theorem restart_ownerId (legacy : List LegacyId) :
    (s.restart legacy).bot.ownerId = s.bot.ownerId := foldl_perform_ownerId ..

/-- A restart does the same in both. -/
theorem SameForOwner.restart (h : SameForOwner ownerId s t) (legacy : List LegacyId) :
    SameForOwner ownerId (s.restart legacy) (t.restart legacy) where
  left := (restart_ownerId legacy).trans h.left
  right := (restart_ownerId legacy).trans h.right
  userData := rfl
  rows := by
    show List.foldl _ _ _ = List.foldl _ _ _
    rw [h.left, h.right, h.rows]

theorem adminRows_live (h : Happening) :
    (s.live h).adminRows = (s.decided h).foldl Action.onAdmins s.adminRows := by
  cases h <;> rfl

theorem adminRows_foldl (s : Service) (happenings : List Happening) :
    (happenings.foldl live s).adminRows =
      (s.decisions happenings).foldl Action.onAdmins s.adminRows := by
  induction happenings generalizing s with
  | nil => rfl
  | cons h happenings ih => rw [List.foldl_cons, ih, adminRows_live, decisions, List.foldl_append]

theorem foldl_live_ownerId (happenings : List Happening) :
    (happenings.foldl live s).bot.ownerId = s.bot.ownerId := by
  induction happenings generalizing s with
  | nil => rfl
  | cons h happenings ih =>
    rw [List.foldl_cons, ih]
    cases h with
    | event e => exact handle_ownerId
    | restart legacy => exact restart_ownerId legacy

theorem admins_live (hs : s.bot.admins = adminIds s.adminRows) (h : Happening) :
    (s.live h).bot.admins = adminIds (s.live h).adminRows := by
  cases h with
  | event e => exact admins_handle hs
  | restart legacy => exact foldl_perform_admins hs

theorem admins_foldl (hs : s.bot.admins = adminIds s.adminRows) (happenings : List Happening) :
    (happenings.foldl live s).bot.admins = adminIds (happenings.foldl live s).adminRows := by
  induction happenings generalizing s with
  | nil => exact hs
  | cons h happenings ih => exact ih (admins_live hs h)

/-! ## What is forgotten -/

/-- Without a flag, no text and no document leads to an action. -/
theorem actions_of_empty {userId : Int} (h : s.userData userId = .empty) {e : Event}
    (he : e.userId = userId) : s.actions e = [] := by
  subst he
  cases e with
  | text userId message around =>
    have hnone : consumer (s.userData userId) = none := by
      rw [show s.userData userId = .empty from h]
      decide
    simp only [actions, hnone]
  | document userId doc =>
    have hno : ¬TakesDocument s.bot (s.userData userId) userId doc := by
      rw [show s.userData userId = .empty from h]
      exact fun htakes => absurd htakes.1 (by simp)
    show documentActions _ _ _ _ = []
    rw [documentActions, if_neg hno]
  | press userId button => rfl
  | start userId => rfl

/-- Only a press, by the user, changes `user_data` that is empty. -/
theorem userData_of_empty {userId : Int} (h : s.userData userId = .empty) {e : Event}
    (he : ∀ button, e ≠ .press userId button) : (s.handle e).userData userId = .empty := by
  show Function.update s.userData e.userId (s.userDataAfter e) userId = _
  by_cases hid : userId = e.userId
  · subst hid
    rw [Function.update_self]
    cases e with
    | press userId button => exact absurd rfl (he button)
    | text userId message around =>
      replace h : s.userData userId = .empty := h
      have hnone : consumer UserData.empty = none := by decide
      simp only [userDataAfter, messageRouter, h, hnone]
    | document userId doc =>
      replace h : s.userData userId = .empty := h
      have hno : ¬TakesDocument s.bot (s.userData userId) userId doc := by
        rw [h]
        exact fun htakes => absurd htakes.1 (by simp)
      show handleDocument _ _ _ _ = _
      rw [handleDocument, if_neg hno, h]
    | start userId => exact h
  · rw [Function.update_of_ne hid, h]

theorem userData_foldl_of_empty {userId : Int} (h : s.userData userId = .empty)
    {happenings : List Happening}
    (hno : ∀ button, .event (.press userId button) ∉ happenings) :
    (happenings.foldl live s).userData userId = .empty := by
  induction happenings generalizing s with
  | nil => exact h
  | cons happening happenings ih =>
    refine ih ?_ fun button hmem => hno button (List.mem_cons_of_mem _ hmem)
    cases happening with
    | restart legacy => rfl
    | event e =>
      exact userData_of_empty h fun button he => hno button (he ▸ List.mem_cons_self ..)

/-! ## Runs -/

/-- **Who is in the file** is an administrator from the restart on, until they are removed. -/
theorem isAdmin_of_legacy (hs : s.bot.admins = adminIds s.adminRows) {legacy : List LegacyId}
    {uid : LegacyId} (huid : uid ∈ legacy.takeWhile fun u => u.userId?.isSome) {userId : Int}
    (hid : uid.userId? = some userId) {later : List Happening}
    (hno : .removeAdmin userId ∉ (s.restart legacy).decisions later) :
    (later.foldl live (s.restart legacy)).bot.isAdmin userId = true := by
  by_cases hne : userId = s.bot.ownerId
  · subst hne
    exact isAdmin_owner ((foldl_live_ownerId later).trans (restart_ownerId legacy))
  · have hadded := addAdmin_mem_migrateAdminsJson huid hid hne
    have hmigrated : userId ∈ (s.restart legacy).adminRows.map AdminRow.userId :=
      mem_foldl_onAdmins_of_added hadded (removeAdmin_not_mem_migrateAdminsJson legacy)
    have hrestart : (s.restart legacy).bot.admins = adminIds (s.restart legacy).adminRows :=
      admins_live hs (.restart legacy)
    have hin : userId ∈ (later.foldl live (s.restart legacy)).bot.admins := by
      rw [admins_foldl hrestart, adminIds, List.mem_toFinset, adminRows_foldl]
      exact mem_foldl_onAdmins_of_mem hmigrated hno
    rw [Bot.isAdmin, decide_eq_true hin, Bool.or_true]

/-- **Who is an administrator over restarts**, from an empty table on.  Only the owner's events
and the restarts decide it.  Those are in the table who were added, by the owner or from the
file, and not removed since; everybody in the file is an administrator after a restart, until
they are removed.  And of a user who has pressed no button since then, no text and no
document leads to an action. -/
theorem admins_over_restarts (b : Bot) (happenings : List Happening) :
    (happenings.foldl live (new b [])).adminRows =
        ((happenings.filter (Happening.decides b.ownerId)).foldl live (new b [])).adminRows ∧
      (happenings.foldl live (new b [])).bot.admins =
        adminIds (happenings.foldl live (new b [])).adminRows ∧
      (∀ row, row ∈ (happenings.foldl live (new b [])).adminRows ↔ ∃ before after,
        (new b []).decisions happenings =
          before ++ .addAdmin row.userId row.addedBy :: after ∧
        row.userId ∉ (before.foldl Action.onAdmins []).map AdminRow.userId ∧
        .removeAdmin row.userId ∉ after) ∧
      ∀ earlier legacy later, happenings = earlier ++ .restart legacy :: later →
        (∀ uid ∈ legacy.takeWhile fun u => u.userId?.isSome, ∀ userId,
          uid.userId? = some userId →
          .removeAdmin userId ∉ ((earlier.foldl live (new b [])).restart legacy).decisions later →
          (happenings.foldl live (new b [])).bot.isAdmin userId = true) ∧
        ∀ userId, (∀ button, .event (.press userId button) ∉ later) → ∀ e : Event,
          e.userId = userId → (happenings.foldl live (new b [])).actions e = [] := by
  have hadmins : (happenings.foldl live (new b [])).bot.admins =
      adminIds (happenings.foldl live (new b [])).adminRows := admins_foldl rfl happenings
  have hsame : SameForOwner b.ownerId (happenings.foldl live (new b []))
      ((happenings.filter (Happening.decides b.ownerId)).foldl live (new b [])) := by
    refine foldl_filter_rel (fun s t h hst hd => ?_) (fun s t h hst hd => ?_)
      ⟨rfl, rfl, rfl, rfl⟩ happenings
    · cases h with
      | event e => exact hst.own (of_decide_eq_true hd)
      | restart legacy => exact hst.restart legacy
    · cases h with
      | event e => exact hst.other (of_decide_eq_false hd)
      | restart legacy => cases hd
  refine ⟨hsame.rows, hadmins, fun row => ?_, ?_⟩
  · rw [adminRows_foldl]
    exact mem_foldl_onAdmins_iff
  · rintro earlier legacy later rfl
    refine ⟨fun uid huid userId hid hno => ?_, fun userId hno e he => ?_⟩
    · rw [List.foldl_append, List.foldl_cons]
      exact isAdmin_of_legacy (admins_foldl rfl earlier) huid hid hno
    · refine actions_of_empty ?_ he
      rw [List.foldl_append, List.foldl_cons]
      exact userData_foldl_of_empty rfl hno

end Service
end ConfigManager
