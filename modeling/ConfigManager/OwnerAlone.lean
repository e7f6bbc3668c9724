import ConfigManager.Conversations

/-! # Only the owner decides who is an administrator

Two runs are compared: one with the events of all users, and the same one without the
events of everybody but the owner.  They end with the same admins table
(`adminRows_of_owner`).

What carries the comparison is that the owner's `user_data`, and the table, agree
(`SameForOwner`).  Other users cannot reach either: the handlers that change the table
ask for the owner, not for an administrator, and every user has a `user_data` of their
own.  The owner's own events do the same in both runs, since what the owner may do
depends on no table.
-/
namespace ConfigManager

open Py Runs

/-- The actions that change the admins table. -/
def Action.changesAdmins : Action → Bool
  | .addAdmin _ _ | .removeAdmin _ => true
  | _ => false

/-- The change of the admins table a handler asks for, of the owner's text. -/
def adminChange (userId : Int) (text : Str) : Flag → List Action
  | .awaitingAdminId => ((Bot.userId? text).map (Action.addAdmin · userId)).toList
  | .awaitingRemoveAdmin => ((Bot.userId? text).map Action.removeAdmin).toList
  | _ => []

variable {b b' : Bot} {d : UserData} {userId : Int} {text : Str} {around : Surroundings}
  {flag : Flag} {actions : List Action} {rows : List AdminRow}

/-! ## The actions that change the table -/

theorem onAdmins_of_not {action : Action} (h : action.changesAdmins = false) :
    action.onAdmins rows = rows := by
  cases action
  case addAdmin | removeAdmin => cases h
  all_goals rfl

/-- The other actions can be left out. -/
theorem foldl_onAdmins_filter :
    (actions.filter Action.changesAdmins).foldl Action.onAdmins rows =
      actions.foldl Action.onAdmins rows := by
  induction actions generalizing rows with
  | nil => rfl
  | cons action actions ih =>
    cases h : action.changesAdmins with
    | true => rw [List.filter_cons_of_pos h, List.foldl_cons, ih, List.foldl_cons]
    | false =>
      rw [List.filter_cons_of_neg (by simp [h]), ih, List.foldl_cons, onAdmins_of_not h]

theorem perform_admins (b : Bot) (action : Action) (h : b.admins = Service.adminIds rows) :
    (b.perform action).admins = Service.adminIds (action.onAdmins rows) := by
  cases action
  case addAdmin newId addedBy =>
    simp only [Bot.perform, Action.onAdmins, h]
    split
    next hmem => exact Finset.insert_eq_of_mem (List.mem_toFinset.mpr hmem)
    · ext i
      simp [Service.adminIds]
  case removeAdmin removeId =>
    ext i
    simp only [Bot.perform, Action.onAdmins, h, Service.adminIds, Finset.mem_erase,
      List.mem_toFinset, List.mem_map, List.mem_filter, decide_eq_true_eq]
    constructor
    · rintro ⟨hne, row, hmem, rfl⟩
      exact ⟨row, ⟨hmem, hne⟩, rfl⟩
    · rintro ⟨row, ⟨hmem, hne⟩, rfl⟩
      exact ⟨hne, row, hmem, rfl⟩
  case addCleanIp ip =>
    rw [Bot.perform, Bot.addCleanIp]
    split <;> exact h
  all_goals exact h

theorem foldl_perform_admins (h : b.admins = Service.adminIds rows) :
    (actions.foldl Bot.perform b).admins =
      Service.adminIds (actions.foldl Action.onAdmins rows) := by
  induction actions generalizing b rows with
  | nil => exact h
  | cons action actions ih => exact ih (perform_admins b action h)

theorem filter_map_addCleanIp (ips : List Str) :
    (ips.map Action.addCleanIp).filter Action.changesAdmins = [] := by
  rw [List.filter_eq_nil_iff]
  intro action h
  obtain ⟨ip, -, rfl⟩ := List.mem_map.mp h
  exact Bool.false_ne_true

/-- **Which texts change the table**: those of the owner, to the two prompts for it. -/
theorem filter_textActions :
    (textActions b userId text around flag).filter Action.changesAdmins =
      if b.isOwner userId then adminChange userId text flag else [] := by
  cases flag
  case awaitingAdminId | awaitingRemoveAdmin =>
    simp only [textActions, adminChange]
    cases b.isOwner userId with
    | false => rfl
    | true => cases Bot.userId? text <;> rfl
  case awaitingIpBulk =>
    simp only [textActions, adminChange, ite_self]
    exact filter_map_addCleanIp _
  all_goals
    simp only [textActions, adminChange, ite_self]
    repeat' split
    all_goals rfl

theorem filter_documentActions {doc : Document} :
    (documentActions b d userId doc).filter Action.changesAdmins = [] := by
  by_cases h : TakesDocument b d userId doc
  · rw [documentActions, if_pos h]
    exact filter_map_addCleanIp _
  · rw [documentActions, if_neg h]
    rfl

/-! ## What the owner's events depend on -/

/-- A press does the same to `user_data` for a user with the same permissions. -/
theorem userData_callbackRouter (button : Button) (ho : b.isOwner userId = b'.isOwner userId)
    (ha : b.isAdmin userId = b'.isAdmin userId) :
    (callbackRouter b d userId button).2 = (callbackRouter b' d userId button).2 := by
  simp only [callbackRouter, adminCallback, ha, ho]
  by_cases hu : button.isUserButton = true
  · simp [hu]
  · cases hadmin : b'.isAdmin userId with
    | false => simp [hu]
    | true =>
      cases hp : adminPrompt (b'.isOwner userId) button with
      | some flag => simp [hu]
      | none =>
        cases button with
        | scraperToggleSource sourceId => cases sourceId <;> rfl
        | _ => rfl

theorem userData_takeText (ha : b.isAdmin userId = b'.isAdmin userId) :
    (takeText b d userId text flag).2 = (takeText b' d userId text flag).2 := by
  cases flag
  case awaitingConfigCount =>
    simp only [takeText, ha]
    split
    · split
      · split <;> rfl
      · rfl
    · rfl
  all_goals
    simp only [takeText]
    repeat' split
    all_goals rfl

namespace Service

/-- Two services agree on the owner, on what the owner is asked for, and on the admins
table. -/
structure SameForOwner (ownerId : Int) (s t : Service) : Prop where
  left : s.bot.ownerId = ownerId
  right : t.bot.ownerId = ownerId
  userData : s.userData ownerId = t.userData ownerId
  rows : s.adminRows = t.adminRows

variable {s t : Service} {e : Event} {ownerId : Int}

/-! ## One event -/

theorem isAdmin_owner (h : s.bot.ownerId = ownerId) : s.bot.isAdmin ownerId = true := by
  simp [Bot.isAdmin, Bot.isOwner, h]

/-- Nobody but the owner changes the table. -/
theorem filter_actions_of_not (h : s.bot.isOwner e.userId = false) :
    (s.actions e).filter Action.changesAdmins = [] := by
  cases e with
  | text userId message around =>
      simp only [actions]
      cases consumer (s.userData userId) with
      | none => rfl
      | some flag =>
          replace h : s.bot.isOwner userId = false := h
          rw [filter_textActions]
          exact if_neg (by simp [h])
  | document userId doc => exact filter_documentActions
  | press userId button => rfl
  | start userId => rfl

/-- How an event changes it depends on its user's `user_data`. -/
theorem filter_actions_congr (ho : s.bot.isOwner e.userId = t.bot.isOwner e.userId)
    (hd : s.userData e.userId = t.userData e.userId) :
    (s.actions e).filter Action.changesAdmins = (t.actions e).filter Action.changesAdmins := by
  cases e with
  | text userId message around =>
      replace hd : s.userData userId = t.userData userId := hd
      replace ho : s.bot.isOwner userId = t.bot.isOwner userId := ho
      simp only [actions, hd]
      cases consumer (t.userData userId) with
      | none => rfl
      | some flag => simp only [filter_textActions, ho]
  | document userId doc =>
      exact filter_documentActions.trans filter_documentActions.symm
  | press userId button => rfl
  | start userId => rfl

theorem userDataAfter_congr (ho : s.bot.isOwner e.userId = t.bot.isOwner e.userId)
    (ha : s.bot.isAdmin e.userId = t.bot.isAdmin e.userId)
    (hd : s.userData e.userId = t.userData e.userId) :
    s.userDataAfter e = t.userDataAfter e := by
  cases e with
  | press userId button =>
      replace hd : s.userData userId = t.userData userId := hd
      simp only [userDataAfter, hd]
      exact userData_callbackRouter button ho ha
  | text userId message around =>
      replace hd : s.userData userId = t.userData userId := hd
      simp only [userDataAfter, messageRouter, hd]
      cases consumer (t.userData userId) with
      | none => rfl
      | some flag => exact userData_takeText ha
  | document userId doc =>
      replace hd : s.userData userId = t.userData userId := hd
      replace ha : s.bot.isAdmin userId = t.bot.isAdmin userId := ha
      have htakes : TakesDocument s.bot (t.userData userId) userId doc ↔
          TakesDocument t.bot (t.userData userId) userId doc := by
        rw [TakesDocument, TakesDocument, ha]
      simp only [userDataAfter, handleDocument, hd, htakes]
  | start userId => exact hd

/-- **Nobody but the owner** is noticed by the owner or in the table. -/
theorem SameForOwner.other (h : SameForOwner ownerId s t) (he : e.userId ≠ ownerId) :
    SameForOwner ownerId (s.handle e) t where
  left := handle_ownerId.trans h.left
  right := h.right
  userData := by
    show Function.update s.userData e.userId _ ownerId = _
    rw [Function.update_of_ne (Ne.symm he), h.userData]
  rows := by
    have hno : s.bot.isOwner e.userId = false := by simpa [Bot.isOwner, h.left] using he
    show (s.actions e).foldl Action.onAdmins s.adminRows = _
    rw [← foldl_onAdmins_filter, filter_actions_of_not hno]
    exact h.rows

/-- **The owner** does the same in both. -/
theorem SameForOwner.own (h : SameForOwner ownerId s t) (he : e.userId = ownerId) :
    SameForOwner ownerId (s.handle e) (t.handle e) where
  left := handle_ownerId.trans h.left
  right := handle_ownerId.trans h.right
  userData := by
    subst he
    show Function.update s.userData _ (s.userDataAfter e) _ =
      Function.update t.userData _ (t.userDataAfter e) _
    rw [Function.update_self, Function.update_self]
    refine userDataAfter_congr ?_ ?_ h.userData
    · simp [Bot.isOwner, h.left, h.right]
    · rw [isAdmin_owner h.left, isAdmin_owner h.right]
  rows := by
    subst he
    show (s.actions e).foldl Action.onAdmins s.adminRows =
      (t.actions e).foldl Action.onAdmins t.adminRows
    have ho : s.bot.isOwner e.userId = t.bot.isOwner e.userId := by
      simp [Bot.isOwner, h.left, h.right]
    rw [← foldl_onAdmins_filter, filter_actions_congr ho h.userData, foldl_onAdmins_filter,
      h.rows]

/-! ## Runs -/

/-- The ids in the table are the administrators. -/
theorem admins_handle (h : s.bot.admins = adminIds s.adminRows) :
    (s.handle e).bot.admins = adminIds (s.handle e).adminRows := by
  obtain ⟨b, -, hb, heq⟩ := botAfter_eq s e
  show (s.botAfter e).admins = _
  rw [heq]
  exact foldl_perform_admins (hb.trans h)

theorem foldl_handle_admins (events : List Event) (h : s.bot.admins = adminIds s.adminRows) :
    (events.foldl handle s).bot.admins = adminIds (events.foldl handle s).adminRows := by
  induction events generalizing s with
  | nil => exact h
  | cons e events ih => exact ih (admins_handle h)

/-- **Only the owner decides who is an administrator.**  Whatever users do after start-up,
the admins table at the end is that of the run in which only the owner does anything, its
ids are the administrators, and the owner always counts as one. -/
theorem adminRows_of_owner (b : Bot) (rows : List AdminRow) (events : List Event) :
    let own := events.filter fun e => e.userId = b.ownerId
    (events.foldl handle (new b rows)).adminRows = (own.foldl handle (new b rows)).adminRows ∧
      (events.foldl handle (new b rows)).bot.admins =
        (own.foldl handle (new b rows)).bot.admins ∧
      (events.foldl handle (new b rows)).bot.isAdmin b.ownerId = true := by
  intro own
  have hstart : SameForOwner b.ownerId (new b rows) (new b rows) := ⟨rfl, rfl, rfl, rfl⟩
  have hsame : SameForOwner b.ownerId (events.foldl handle (new b rows))
      (own.foldl handle (new b rows)) :=
    foldl_filter_rel (fun _ _ _ h he => h.own (by simpa using he))
      (fun _ _ _ h he => h.other (by simpa using he)) hstart events
  refine ⟨hsame.rows, ?_, isAdmin_owner hsame.left⟩
  rw [foldl_handle_admins events rfl, foldl_handle_admins own rfl, hsame.rows]

end Service
end ConfigManager
