import ConfigManager.LinkUtils
import ConfigManager.SourceTable
import Mathlib.Algebra.Group.Int.Defs
import Mathlib.Data.Finset.Card

/-! # The bot's handlers (`app.handlers`)

What a button press or a text message of a user does: `callback_router` tries
`admin_callback` and then `user_callback`, `message_router` tries
`handle_user_text` and then `handle_admin_text`.  A prompt button sets a flag in
the user's `user_data`; a text goes to the first handler, in a fixed order, whose
flag is set (`textFlags`).

Calls to Telegram and to the database are taken to succeed.  Replies, and files
sent back to the user, change nothing that is kept here.
-/
namespace ConfigManager

open Py

/-- The pending-input flags of `user_data`. -/
inductive Flag where
  | awaitingCount
  | awaitingAdminId
  | awaitingRemoveAdmin
  | awaitingVipId
  | awaitingVipRemove
  | awaitingIpSingle
  | awaitingIpBulk
  | awaitingCleanIp
  | awaitingScraperTg
  | awaitingScraperSub
  | broadcastMode
  | vipBroadcastMode
  | awaitingWhitePerfCount
  | awaitingConfigCount
  | awaitingIpCount
  deriving DecidableEq

/-- The `callback_data` of the menus.  `scraperToggleSource none` is one whose
number cannot be read; `other` is any text no handler knows. -/
inductive Button where
  | adminPanel
  | addAdmin
  | adminUsers
  | adminStats
  | adminBroadcast
  | vipPanel
  | vipAdd
  | vipRemove
  | vipList
  | vipBroadcast
  | cleanIpMenu
  | cleanIpUpload
  | listCleanIp
  | scraperStatus
  | scraperToggle
  | scraperMenu
  | scraperAddTg
  | scraperAddSub
  | scraperRemove
  | scraperList
  | ipManagementMenu
  | ipSingle
  | ipBulk
  | ipFile
  | listAdmins
  | removeAdmin
  | healthCheck
  | ipConfigCount
  | ipGeneratedConfigs
  | whiteConfigsMenu
  | requestWhiteConfigsPerf
  | scraperToggleSource (sourceId : Option Nat)
  | backMain
  | menuCountry
  | menuProtocol
  | menuCustom
  | last20
  | country (code : Str)
  | proto (name : Str)
  | other
  deriving DecidableEq

/-- The buttons `admin_callback` does not take. -/
def Button.isUserButton : Button → Bool
  | .backMain | .menuCountry | .menuProtocol | .menuCustom | .last20 | .country _ | .proto _
  | .other => true
  | _ => false

/-- `context.user_data`. -/
structure UserData where
  flags : Finset Flag
  country : Option Str
  configCountPerIp : Option Int

/-- `user_data`, empty. -/
def UserData.empty : UserData := ⟨∅, none, none⟩

/-- `user_data[flag] = True`. -/
def UserData.set (d : UserData) (flag : Flag) : UserData := { d with flags := insert flag d.flags }

/-- `user_data.pop(flag, None)`. -/
def UserData.pop (d : UserData) (flag : Flag) : UserData := { d with flags := d.flags.erase flag }

/-- What the bot keeps, and the messages it has sent to others. -/
structure Bot where
  ownerId : Int
  admins : Finset Int
  vips : Finset Int
  userIds : List Int
  cleanIps : List Str
  sources : SourceTable
  scraperEnabled : Bool
  /-- The texts broadcast to all users, with whom they went to. -/
  broadcasts : List (Str × List Int)
  /-- The texts broadcast to the VIPs, with whom they went to. -/
  vipBroadcasts : List (Str × Finset Int)

namespace Bot

/-- `is_owner`. -/
def isOwner (b : Bot) (userId : Int) : Bool := userId = b.ownerId

/-- `is_admin`, `require_admin`. -/
def isAdmin (b : Bot) (userId : Int) : Bool := b.isOwner userId || userId ∈ b.admins

/-- An integer that fits the `BIGINT` of a user id; the database raises on others. -/
def userId? (text : Str) : Option Int :=
  (int text).filter fun n => -(2 ^ 63) ≤ n ∧ n < 2 ^ 63

/-- `add_clean_ip`. -/
def addCleanIp (b : Bot) (ip : Str) : Bot :=
  if ip ∈ b.cleanIps then b else { b with cleanIps := b.cleanIps ++ [ip] }

end Bot

/-! ## Buttons -/

/-- The flag a button of `admin_callback` prompts for; only the owner is asked for a
new admin. -/
def adminPrompt (isOwner : Bool) : Button → Option Flag
  | .addAdmin => if isOwner then some .awaitingAdminId else none
  | .removeAdmin => some .awaitingRemoveAdmin
  | .adminBroadcast => some .broadcastMode
  | .requestWhiteConfigsPerf => some .awaitingWhitePerfCount
  | .vipAdd => some .awaitingVipId
  | .vipRemove => some .awaitingVipRemove
  | .vipBroadcast => some .vipBroadcastMode
  | .cleanIpUpload => some .awaitingCleanIp
  | .ipConfigCount => some .awaitingConfigCount
  | .ipSingle => some .awaitingIpSingle
  | .ipBulk => some .awaitingIpBulk
  | .ipFile => some .awaitingCleanIp
  | .scraperAddTg => some .awaitingScraperTg
  | .scraperAddSub => some .awaitingScraperSub
  | _ => none

/-- `admin_callback`, `none` where it returns `False`.  Nothing handles
`ip_management_menu`; the menus and lists only show something. -/
def adminCallback (b : Bot) (d : UserData) (userId : Int) (button : Button) :
    Option (Bot × UserData) :=
  if button.isUserButton then none
  else if !b.isAdmin userId then some (b, d)
  else match adminPrompt (b.isOwner userId) button with
    | some flag => some (b, d.set flag)
    | none => match button with
      | .scraperToggle => some ({ b with scraperEnabled := !b.scraperEnabled }, d)
      | .scraperToggleSource (some sourceId) =>
          some ({ b with sources := b.sources.toggleScraperSource sourceId }, d)
      | .ipManagementMenu => none
      | _ => some (b, d)

/-- `user_callback`, `none` where it returns `False`. -/
def userCallback (d : UserData) : Button → Option UserData
  | .backMain => some .empty
  | .menuCountry => some d
  | .menuProtocol => some { d with country := none }
  | .menuCustom => some (d.set .awaitingCount)
  | .last20 => some d
  | .country code => some { d with country := some code }
  | .proto _ => some d
  | _ => none

/-- `callback_router`. -/
def callbackRouter (b : Bot) (d : UserData) (userId : Int) (button : Button) : Bot × UserData :=
  match adminCallback b d userId button with
  | some s => s
  | none => (b, (userCallback d button).getD d)

/-! ## Texts -/

/-- The flags in the order the two text handlers ask for them.  No text handler asks
for `awaiting_clean_ip`, which waits for a document. -/
def textFlags : List Flag :=
  [.awaitingCount, .awaitingAdminId, .awaitingRemoveAdmin, .awaitingVipId, .awaitingVipRemove,
    .awaitingIpSingle, .awaitingIpBulk, .awaitingScraperTg, .awaitingScraperSub, .broadcastMode,
    .vipBroadcastMode, .awaitingWhitePerfCount, .awaitingConfigCount, .awaitingIpCount]

/-- The flag whose handler takes the next text. -/
def consumer (d : UserData) : Option Flag := textFlags.find? (· ∈ d.flags)

/-- `url.split("/")[-1][:80]`, of a url that has a slash. -/
def lastSegment (url : Str) : Str := ((url.reverse.takeWhile (· != '/')).reverse).take 80

/-- `url.startswith(("http://", "https://", "sub://"))`. -/
def isSubscriptionUrl (url : Str) : Bool :=
  "http://".toList.isPrefixOf url || "https://".toList.isPrefixOf url ||
    "sub://".toList.isPrefixOf url

/-- What the handler of a flag does with a text, once the flag is popped.  An export
changes nothing here. -/
def takeText (b : Bot) (d : UserData) (userId : Int) (text : Str) : Flag → Bot × UserData
  | .awaitingAdminId =>
      if b.isOwner userId then
        match Bot.userId? text with
        | some newId => ({ b with admins := insert newId b.admins }, d)
        | none => (b, d)
      else (b, d)
  | .awaitingRemoveAdmin =>
      if b.isOwner userId then
        match Bot.userId? text with
        | some removeId => ({ b with admins := b.admins.erase removeId }, d)
        | none => (b, d)
      else (b, d)
  | .awaitingVipId =>
      if b.isAdmin userId then
        match Bot.userId? text with
        | some vipId => ({ b with vips := insert vipId b.vips }, d)
        | none => (b, d)
      else (b, d)
  | .awaitingVipRemove =>
      if b.isAdmin userId then
        match Bot.userId? text with
        | some vipId => ({ b with vips := b.vips.erase vipId }, d)
        | none => (b, d)
      else (b, d)
  | .awaitingIpSingle => (if isValidIp text then b.addCleanIp (strip text) else b, d)
  | .awaitingIpBulk => (((words text).filter isValidIp).foldl Bot.addCleanIp b, d)
  | .awaitingScraperTg =>
      let channel := text.dropWhile (· == '@')
      if b.isAdmin userId ∧ channel ≠ [] then
        ({ b with
            sources := (b.sources.addScraperSource channel channel "telegram".toList).1 }, d)
      else (b, d)
  | .awaitingScraperSub =>
      if b.isAdmin userId ∧ isSubscriptionUrl text then
        ({ b with
            sources := (b.sources.addScraperSource (lastSegment text) text
              "subscription".toList).1 }, d)
      else (b, d)
  | .broadcastMode =>
      (if b.isAdmin userId then { b with broadcasts := b.broadcasts ++ [(text, b.userIds)] }
        else b, d)
  | .vipBroadcastMode =>
      (if b.isAdmin userId then { b with vipBroadcasts := b.vipBroadcasts ++ [(text, b.vips)] }
        else b, d)
  | .awaitingConfigCount =>
      if b.isAdmin userId then
        match int text with
        | some n =>
            if n ≤ 0 ∨ 20 < n then (b, d)
            else (b, { d with configCountPerIp := some n }.set .awaitingIpCount)
        | none => (b, d)
      else (b, d)
  | .awaitingCount | .awaitingCleanIp | .awaitingWhitePerfCount | .awaitingIpCount => (b, d)

/-- `message_router`. -/
def messageRouter (b : Bot) (d : UserData) (userId : Int) (text : Str) : Bot × UserData :=
  match consumer d with
  | some flag => takeText b (d.pop flag) userId (strip text) flag
  | none => (b, d)

/-! ## What the handlers do to the flags -/

section Flags

variable {b : Bot} {d : UserData} {userId : Int}

@[simp] theorem flags_empty : UserData.empty.flags = ∅ := rfl
@[simp] theorem flags_set (d : UserData) (f : Flag) : (d.set f).flags = insert f d.flags := rfl
@[simp] theorem flags_pop (d : UserData) (f : Flag) : (d.pop f).flags = d.flags.erase f := rfl

/-- The flag a press of a button sets for a user. -/
def promptOf (b : Bot) (userId : Int) (button : Button) : Option Flag :=
  if button = .menuCustom then some .awaitingCount
  else if b.isAdmin userId then adminPrompt (b.isOwner userId) button
  else none

/-- A button of the user menus is none of the admin prompts. -/
theorem adminPrompt_user {o : Bool} {button : Button} (h : button.isUserButton = true) :
    adminPrompt o button = none := by
  cases button <;> simp_all [Button.isUserButton, adminPrompt]

/-- A press that prompts for a flag sets it, and changes nothing else. -/
theorem callbackRouter_prompt {button : Button} {f : Flag}
    (h : promptOf b userId button = some f) :
    callbackRouter b d userId button = (b, d.set f) := by
  unfold promptOf at h
  split at h
  next hm =>
    obtain rfl := Option.some.inj h
    subst hm
    rfl
  · split at h
    next hadmin =>
      have huser : button.isUserButton = false := by
        cases hu : button.isUserButton
        · rfl
        · rw [adminPrompt_user hu] at h
          cases h
      simp [callbackRouter, adminCallback, huser, hadmin, h]
    · cases h

/-- A press that prompts for nothing leaves the flags as they are, unless it goes back to
the main menu, which clears them. -/
theorem flags_callbackRouter {button : Button} (h : promptOf b userId button = none) :
    (callbackRouter b d userId button).2.flags = if button = .backMain then ∅ else d.flags := by
  unfold promptOf at h
  split at h
  · cases h
  next hm =>
    cases hadmin : b.isAdmin userId
    · cases button <;> simp_all [callbackRouter, adminCallback, userCallback, Button.isUserButton]
    · have hp : adminPrompt (b.isOwner userId) button = none := by simpa [hadmin] using h
      cases button with
      | scraperToggleSource sourceId =>
          cases sourceId <;>
            simp [callbackRouter, adminCallback, hadmin, hp, Button.isUserButton]
      | _ => simp_all [callbackRouter, adminCallback, userCallback, Button.isUserButton]

variable (b d userId) in
/-- **What a press does to the bot**: it changes at most the sources and the scraper's
switch. -/
theorem callbackRouter_bot (button : Button) :
    ∃ sources enabled, (callbackRouter b d userId button).1 =
      { b with sources := sources, scraperEnabled := enabled } := by
  simp only [callbackRouter, adminCallback]
  split
  next s hs =>
    split at hs
    · cases hs
    · split at hs
      · cases hs
        exact ⟨_, _, rfl⟩
      · split at hs
        · cases hs
          exact ⟨_, _, rfl⟩
        · split at hs <;> cases hs <;> exact ⟨_, _, rfl⟩
  · exact ⟨_, _, rfl⟩

/-- The handler that takes a text is one whose flag is set. -/
theorem consumer_mem {f : Flag} (h : consumer d = some f) : f ∈ d.flags := by
  simpa using List.find?_some h

variable (b d userId) in
/-- **What a text does to the flags**: the handler that takes it pops its own flag, and
only the one that reads the number of configs asks a further question. -/
theorem flags_takeText (text : Str) (f : Flag) :
    (takeText b d userId text f).2.flags = d.flags ∨
      f = .awaitingConfigCount ∧
        (takeText b d userId text f).2.flags = insert .awaitingIpCount d.flags := by
  cases f
  case awaitingConfigCount =>
    simp only [takeText, true_and]
    split
    · split
      · split
        · exact .inl rfl
        · exact .inr rfl
      · exact .inl rfl
    · exact .inl rfl
  all_goals
    refine .inl ?_
    simp only [takeText]
    repeat' split
    all_goals rfl

/-- Only the handler of `broadcast_mode` broadcasts to all users. -/
theorem broadcasts_takeText {text : Str} {f : Flag} (h : f ≠ .broadcastMode) :
    (takeText b d userId text f).1.broadcasts = b.broadcasts := by
  cases f
  case broadcastMode => exact absurd rfl h
  case awaitingIpBulk =>
    simp only [takeText]
    generalize (words text).filter isValidIp = ips
    induction ips generalizing b with
    | nil => rfl
    | cons ip ips ih =>
        rw [List.foldl_cons, ih, Bot.addCleanIp]
        split <;> rfl
  all_goals
    simp only [takeText, Bot.addCleanIp]
    repeat' split
    all_goals rfl

end Flags

end ConfigManager
