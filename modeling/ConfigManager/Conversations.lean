import ConfigManager.BotHandlers
import ConfigManager.Runs

/-! # The bot and all its users

`PendingInput` follows one user.  Here any number of users press buttons, type texts,
upload documents and send `/start`, one update at a time: the application is built
without concurrent updates, and each user has a `user_data` of their own.

Besides answering, a handler can do a few things that matter to others, and they are
the actions of `Action`.  `textActions` says which of them a text leads to and
`documentActions` which a document does, and `takeText_perform` ties them to the
handlers: what a text changes is what its actions do.
-/
namespace ConfigManager

open Py Runs

/-- What a handler does for an administrator. -/
inductive Action where
  | addAdmin (userId addedBy : Int)
  | removeAdmin (userId : Int)
  | addVip (userId : Int)
  | removeVip (userId : Int)
  | addCleanIp (ip : Str)
  /-- `delete_old_clean_ips`, with the IPs that are old. -/
  | deleteOldCleanIps (old : List Str)
  | addScraperSource (name url sourceType : Str)
  | broadcast (text : Str)
  | vipBroadcast (text : Str)
  /-- The performance test of this many configs. -/
  | evaluateWhiteConfigs (count : Int)
  /-- The generation of configs for this many clean IPs. -/
  | applyIpsToConfigs (ipCount : Int)
  deriving DecidableEq

/-- What an action does to the bot.  The test and the generation write files only. -/
def Bot.perform (b : Bot) : Action → Bot
  | .addAdmin userId _ => { b with admins := insert userId b.admins }
  | .removeAdmin userId => { b with admins := b.admins.erase userId }
  | .addVip userId => { b with vips := insert userId b.vips }
  | .removeVip userId => { b with vips := b.vips.erase userId }
  | .addCleanIp ip => b.addCleanIp ip
  | .deleteOldCleanIps old => { b with cleanIps := b.cleanIps.filter (· ∉ old) }
  | .addScraperSource name url sourceType =>
      { b with sources := (b.sources.addScraperSource name url sourceType).1 }
  | .broadcast text => { b with broadcasts := b.broadcasts ++ [(text, b.userIds)] }
  | .vipBroadcast text => { b with vipBroadcasts := b.vipBroadcasts ++ [(text, b.vips)] }
  | .evaluateWhiteConfigs _ | .applyIpsToConfigs _ => b

/-- A row of `admins`. -/
structure AdminRow where
  userId : Int
  addedBy : Int
  deriving DecidableEq

/-- `add_admin` and `remove_admin`, on the rows. -/
def Action.onAdmins (rows : List AdminRow) : Action → List AdminRow
  | .addAdmin userId addedBy =>
      if userId ∈ rows.map AdminRow.userId then rows else rows ++ [⟨userId, addedBy⟩]
  | .removeAdmin userId => rows.filter fun row => row.userId ≠ userId
  | _ => rows

/-- What the handlers find on the host and in the other tables. -/
structure Surroundings where
  /-- `bin/xray` or `bin/xray.exe` is there. -/
  xrayFound : Bool
  /-- A processed config is valid. -/
  testRows : Bool
  /-- A processed config fits the generation for the clean IPs. -/
  baseConfigs : Bool

/-- The actions the handler of a flag takes on a text. -/
def textActions (b : Bot) (userId : Int) (text : Str) (around : Surroundings) :
    Flag → List Action
  | .awaitingAdminId =>
      if b.isOwner userId then
        match Bot.userId? text with
        | some newId => [.addAdmin newId userId]
        | none => []
      else []
  | .awaitingRemoveAdmin =>
      if b.isOwner userId then
        match Bot.userId? text with
        | some removeId => [.removeAdmin removeId]
        | none => []
      else []
  | .awaitingVipId =>
      if b.isAdmin userId then
        match Bot.userId? text with
        | some vipId => [.addVip vipId]
        | none => []
      else []
  | .awaitingVipRemove =>
      if b.isAdmin userId then
        match Bot.userId? text with
        | some vipId => [.removeVip vipId]
        | none => []
      else []
  | .awaitingIpSingle => if isValidIp text then [.addCleanIp (strip text)] else []
  | .awaitingIpBulk => ((words text).filter isValidIp).map .addCleanIp
  | .awaitingScraperTg =>
      let channel := text.dropWhile (· == '@')
      if b.isAdmin userId ∧ channel ≠ [] then
        [.addScraperSource channel channel "telegram".toList]
      else []
  | .awaitingScraperSub =>
      if b.isAdmin userId ∧ isSubscriptionUrl text then
        [.addScraperSource (lastSegment text) text "subscription".toList]
      else []
  | .broadcastMode => if b.isAdmin userId then [.broadcast text] else []
  | .vipBroadcastMode => if b.isAdmin userId then [.vipBroadcast text] else []
  | .awaitingWhitePerfCount =>
      match int text with
      | some count =>
          if 100 ≤ count ∧ count ≤ 1000 ∧ around.xrayFound ∧ around.testRows then
            [.evaluateWhiteConfigs count]
          else []
      | none => []
  | .awaitingIpCount =>
      if b.isAdmin userId then
        match int text with
        | some ipCount =>
            if 0 < ipCount ∧ ipCount ≤ 50 ∧ b.cleanIps ≠ [] ∧ around.baseConfigs then
              [.applyIpsToConfigs ipCount]
            else []
        | none => []
      else []
  | .awaitingCount | .awaitingCleanIp | .awaitingConfigCount => []

/-- **What a text changes is what its actions do.** -/
theorem takeText_perform (b : Bot) (d : UserData) (userId : Int) (text : Str)
    (around : Surroundings) (flag : Flag) :
    (takeText b d userId text flag).1 =
      (textActions b userId text around flag).foldl Bot.perform b := by
  cases flag
  case awaitingIpBulk =>
    simp only [takeText, textActions, List.foldl_map]
    rfl
  case awaitingAdminId | awaitingRemoveAdmin | awaitingVipId | awaitingVipRemove =>
    simp only [takeText, textActions]
    cases Bot.userId? text <;> split <;> rfl
  case awaitingConfigCount | awaitingIpCount | awaitingWhitePerfCount =>
    simp only [takeText, textActions]
    cases int text
    all_goals
      repeat' split
      all_goals rfl
  all_goals
    simp only [takeText, textActions]
    repeat' split
    all_goals rfl

/-! ## Documents -/

/-- An uploaded document. -/
structure Document where
  fileName : Option Str
  /-- Its lines, up to the first that cannot be read. -/
  lines : List Str
  /-- The clean IPs that are more than five days old when it comes. -/
  old : List Str

/-- `document.file_name.endswith(".txt")`; without a name it raises. -/
def Document.isTxt (doc : Document) : Bool :=
  doc.fileName.any fun name => ".txt".toList.isSuffixOf name

/-- `handle_document` goes on to read the document. -/
def TakesDocument (b : Bot) (d : UserData) (userId : Int) (doc : Document) : Prop :=
  .awaitingCleanIp ∈ d.flags ∧ b.isAdmin userId = true ∧ doc.isTxt = true

instance (b : Bot) (d : UserData) (userId : Int) (doc : Document) :
    Decidable (TakesDocument b d userId doc) := inferInstanceAs (Decidable (_ ∧ _))

/-- The actions `handle_document` takes. -/
def documentActions (b : Bot) (d : UserData) (userId : Int) (doc : Document) : List Action :=
  if TakesDocument b d userId doc then
    let ips := (doc.lines.map strip).filter fun ip =>
      ip ≠ [] && !("#".toList.isPrefixOf ip) && isValidIp ip
    .deleteOldCleanIps doc.old :: ips.map .addCleanIp
  else []

/-- `handle_document`, on `user_data`: an upload is asked for until a file was read. -/
def handleDocument (b : Bot) (d : UserData) (userId : Int) (doc : Document) : UserData :=
  if TakesDocument b d userId doc then d.pop .awaitingCleanIp else d

/-! ## All users -/

/-- An action taken for a user, and the admins table at that moment. -/
structure Performed where
  userId : Int
  action : Action
  admins : Finset Int

/-- The bot, the `user_data` of every user, and what was done so far. -/
structure Service where
  bot : Bot
  userData : Int → UserData
  adminRows : List AdminRow
  performed : List Performed

namespace Service

/-- What users do. -/
inductive Event where
  | press (userId : Int) (button : Button)
  | text (userId : Int) (message : Str) (around : Surroundings)
  | document (userId : Int) (doc : Document)
  | start (userId : Int)

/-- Who does it. -/
def Event.userId : Event → Int
  | .press userId _ | .text userId _ _ | .document userId _ | .start userId => userId

/-- The ids of an admins table. -/
def adminIds (rows : List AdminRow) : Finset Int := (rows.map AdminRow.userId).toFinset

/-- A bot after start-up, with an admins table: nobody has pressed anything. -/
def new (b : Bot) (rows : List AdminRow) : Service :=
  ⟨{ b with admins := adminIds rows }, fun _ => .empty, rows, []⟩

/-- The actions an event leads to. -/
def actions (s : Service) : Event → List Action
  | .text userId message around =>
      match consumer (s.userData userId) with
      | some flag => textActions s.bot userId (strip message) around flag
      | none => []
  | .document userId doc => documentActions s.bot (s.userData userId) userId doc
  | .press _ _ | .start _ => []

/-- The bot after an event.  `/start` registers the user. -/
def botAfter (s : Service) : Event → Bot
  | .press userId button => (callbackRouter s.bot (s.userData userId) userId button).1
  | .text userId message _ => (messageRouter s.bot (s.userData userId) userId message).1
  | .document userId doc =>
      (documentActions s.bot (s.userData userId) userId doc).foldl Bot.perform s.bot
  | .start userId =>
      if userId ∈ s.bot.userIds then s.bot
      else { s.bot with userIds := s.bot.userIds ++ [userId] }

/-- The user's `user_data` after an event of theirs. -/
def userDataAfter (s : Service) : Event → UserData
  | .press userId button => (callbackRouter s.bot (s.userData userId) userId button).2
  | .text userId message _ => (messageRouter s.bot (s.userData userId) userId message).2
  | .document userId doc => handleDocument s.bot (s.userData userId) userId doc
  | .start userId => s.userData userId

/-- The handlers at work on an event. -/
def handle (s : Service) (e : Event) : Service where
  bot := s.botAfter e
  userData := Function.update s.userData e.userId (s.userDataAfter e)
  adminRows := (s.actions e).foldl Action.onAdmins s.adminRows
  performed := s.performed ++ (s.actions e).map fun action =>
    ⟨e.userId, action, s.bot.admins⟩

/-- Every event can happen. -/
def step (s : Service) (e : Event) : Option Service := some (s.handle e)

theorem isRun (s : Service) (events : List Event) : IsRun step s events := by
  induction events generalizing s with
  | nil => rfl
  | cons e events ih => exact ih (s.handle e)

/-! ## What an event can do -/

variable {s : Service} {e : Event}

/-- No action changes the owner. -/
theorem perform_ownerId (b : Bot) (action : Action) : (b.perform action).ownerId = b.ownerId := by
  cases action
  case addCleanIp ip =>
    rw [Bot.perform, Bot.addCleanIp]
    split <;> rfl
  all_goals rfl

theorem foldl_perform_ownerId (b : Bot) (actions : List Action) :
    (actions.foldl Bot.perform b).ownerId = b.ownerId := by
  induction actions generalizing b with
  | nil => rfl
  | cons action actions ih => rw [List.foldl_cons, ih, perform_ownerId]

variable (s e) in
/-- **What an event does to the bot**: its actions, after a change that neither the
owner nor the administrators see. -/
theorem botAfter_eq :
    ∃ b : Bot, b.ownerId = s.bot.ownerId ∧ b.admins = s.bot.admins ∧
      s.botAfter e = (s.actions e).foldl Bot.perform b := by
  cases e with
  | press userId button =>
      obtain ⟨sources, enabled, h⟩ := callbackRouter_bot s.bot (s.userData userId) userId button
      exact ⟨{ s.bot with sources := sources, scraperEnabled := enabled }, rfl, rfl, h⟩
  | text userId message around =>
      refine ⟨s.bot, rfl, rfl, ?_⟩
      simp only [botAfter, actions, messageRouter]
      cases consumer (s.userData userId) with
      | some flag => exact takeText_perform ..
      | none => rfl
  | document userId doc => exact ⟨s.bot, rfl, rfl, rfl⟩
  | start userId =>
      by_cases h : userId ∈ s.bot.userIds
      · exact ⟨s.bot, rfl, rfl, by rw [botAfter, if_pos h]; rfl⟩
      · exact ⟨{ s.bot with userIds := s.bot.userIds ++ [userId] }, rfl, rfl,
          by rw [botAfter, if_neg h]; rfl⟩

@[simp] theorem handle_ownerId : (s.handle e).bot.ownerId = s.bot.ownerId := by
  obtain ⟨b, hb, -, h⟩ := botAfter_eq s e
  show (s.botAfter e).ownerId = _
  rw [h, foldl_perform_ownerId, hb]

end Service
end ConfigManager
