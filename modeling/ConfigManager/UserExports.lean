import ConfigManager.CountryFlags
import ConfigManager.ExportText
import ConfigManager.PendingInput

/-! # What a user is sent (`app.handlers.user`)

A user asks for the last configs, for a number of them, or for those of a protocol and of
the country chosen before.  The answer is a message or, where the text is long or Telegram
does not take it, a file; both can be read: `answers_asked`.

What is asked for depends on the buttons pressed before.  A `Wish` is all that has to be
remembered of them: the country chosen, and whether a number is awaited.  The flags that the
handlers keep in `user_data` are those of all the other dialogs too, and `Remembers` says
that they come to the same.  Meanwhile the table grows.

Telegram takes every call, but for the texts it may refuse.
-/
namespace ConfigManager

open Py Regex Runs

/-! ## The queries -/

/-- `get_last_configs`: the newest first. -/
def Table.getLastConfigs (table : Table) (limit : Nat) : List Row :=
  (table.filter Row.isValid).reverse.take limit

/-- A protocol as the column has it. -/
def Protocol.name : Protocol → Str
  | .vless => "vless".toList
  | .vmess => "vmess".toList
  | .trojan => "trojan".toList
  | .shadowsocks => "shadowsocks".toList
  | .unknown => "unknown".toList

/-- `protocol.lower()`.  Outside ASCII only the Kelvin sign is lowered to a letter that a
protocol has. -/
def lowerName (protocol : Str) : Str :=
  protocol.map fun c => if c = '\u212A' then 'k' else c.toLower

/-- The `where` clause of `filter_configs`; what is empty filters nothing. -/
def Row.fits (env : Env) (countryCode protocol : Option Str) (row : Row) : Bool :=
  row.isValid &&
    (countryCode.getD [] = [] || row.countryCode = countryCode.map env.unicode.upper) &&
    (protocol.getD [] = [] || row.protocol.map Protocol.name = protocol.map lowerName)

/-- `filter_configs`. -/
def Table.filterConfigs (table : Table) (env : Env) (countryCode protocol : Option Str)
    (limit : Nat) : List Row :=
  (table.filter (Row.fits env countryCode protocol)).reverse.take limit

/-! ## The answers -/

/-- What `_build_export_file` writes. -/
def buildExportFile (configs : List Row) : Str :=
  configs.flatMap fun row => row.text ++ "\n\n".toList

/-- What a user is sent. -/
inductive UserReply where
  /-- What stands in the `pre` of a message. -/
  | message (text : Str)
  /-- The content of a file. -/
  | document (text : Str)
  | notFound
  | invalidNumber
  | failed
  deriving DecidableEq

/-- Rows as a message or, if that is too long or is refused, as a file. -/
def sendRows (rows : List Row) (accepted : Bool) : UserReply :=
  let text := buildExportText rows
  if text.length < 3800 then
    if accepted then .message text else .document (buildExportFile rows)
  else .document (buildExportFile rows)

/-- `last_20`. -/
def last20 (table : Table) (accepted : Bool) : UserReply :=
  let rows := table.getLastConfigs (20 * 2)
  if rows = [] then .notFound else sendRows (rows.take 20) accepted

/-- `get_flag(country) if country else ...`, `none` where it raises. -/
def shownFlag (env : Env) (country : Option Str) : Option Str :=
  if country.getD [] = [] then some [] else country.bind (getFlag env.unicode)

/-- `proto_...`. -/
def sendProtocol (env : Env) (table : Table) (country : Option Str) (proto : Str)
    (accepted : Bool) : UserReply :=
  if shownFlag env country = none then .failed
  else
    let rows := table.filterConfigs env country (some proto) 1000
    if rows = [] then .notFound else sendRows rows accepted

/-- The number a user has typed. -/
def customCount (message : Str) : Option Nat :=
  (int (strip message)).bind fun count =>
    if count < 1 ∨ 10000 < count then none else some count.toNat

/-- `handle_user_text`, of a number that is awaited. -/
def sendCustom (table : Table) (message : Str) : UserReply :=
  match customCount message with
  | none => .invalidNumber
  | some count =>
      let rows := table.getLastConfigs count
      if rows = [] then .notFound else .document (buildExportFile rows)

/-! ## A chat -/

/-- One user's chat, the table beside it, and what the user was sent. -/
structure UserChat where
  chat : Chat
  table : Table
  replies : List UserReply

/-- What can happen. -/
inductive UserEvent where
  /-- A job stores a row. -/
  | stored (row : Row)
  /-- A button is pressed; a text that comes of it is accepted or not. -/
  | press (button : Button) (accepted : Bool)
  | text (message : Str)

namespace UserChat

/-- A chat in which nothing was pressed. -/
def new (b : Bot) (table : Table) : UserChat := ⟨.new b, table, []⟩

/-- What the user is sent. -/
def reply (env : Env) (s : UserChat) : UserEvent → List UserReply
  | .stored _ => []
  | .press .last20 accepted => [last20 s.table accepted]
  | .press (.proto name) accepted =>
      [sendProtocol env s.table s.chat.userData.country name accepted]
  | .press _ _ => []
  | .text message =>
      if .awaitingCount ∈ s.chat.userData.flags then [sendCustom s.table message] else []

def step (env : Env) (userId : Int) (s : UserChat) (e : UserEvent) : Option UserChat :=
  match e with
  | .stored row => some { s with table := s.table ++ [row] }
  | .press button accepted =>
      (s.chat.step userId (.press button)).map fun chat =>
        { s with chat, replies := s.replies ++ s.reply env (.press button accepted) }
  | .text message =>
      (s.chat.step userId (.text message)).map fun chat =>
        { s with chat, replies := s.replies ++ s.reply env (.text message) }

end UserChat

/-! ## What is asked for -/

/-- What a user has chosen, and the rows there are. -/
structure Wish where
  country : Option Str
  counting : Bool
  table : Table

/-- What is asked for. -/
inductive Demand where
  | rows (newest : List Row)
  | invalid
  | unknownCountry

namespace Wish

/-- How an event changes the wish. -/
def next (w : Wish) : UserEvent → Wish
  | .stored row => { w with table := w.table ++ [row] }
  | .press (.country code) _ => { w with country := some code }
  | .press .menuProtocol _ => { w with country := none }
  | .press .menuCustom _ => { w with counting := true }
  | .press .backMain _ => { w with country := none, counting := false }
  | .press _ _ => w
  | .text _ => { w with counting := false }

/-- What an event asks for. -/
def asks (env : Env) (w : Wish) : UserEvent → List Demand
  | .press .last20 _ => [.rows (w.table.getLastConfigs 20)]
  | .press (.proto name) _ =>
      if shownFlag env w.country = none then [.unknownCountry]
      else [.rows (w.table.filterConfigs env w.country (some name) 1000)]
  | .text message =>
      if w.counting then
        match customCount message with
        | none => [.invalid]
        | some count => [.rows (w.table.getLastConfigs count)]
      else []
  | _ => []

/-- What is asked for, one demand after the other. -/
def demands (env : Env) : Wish → List UserEvent → List Demand
  | _, [] => []
  | w, e :: es => w.asks env e ++ demands env (w.next e) es

end Wish

/-- A reply answers a demand: the texts of its rows are found in it, in their order. -/
def Answers : Demand → UserReply → Prop
  | .rows newest, .notFound => newest = []
  | .rows newest, .message text | .rows newest, .document text =>
      newest ≠ [] ∧ findall configPattern text = newest.map Row.text
  | .invalid, .invalidNumber => True
  | .unknownCountry, .failed => True
  | _, _ => False

/-- Every row's text is a link. -/
def Table.Links (table : Table) : Prop := ∀ row ∈ table, FullMatch configPattern row.text

variable {env : Env} {table : Table} {rows : List Row} {accepted : Bool}

/-! ## Rows sent are rows read -/

theorem links_getLastConfigs (h : table.Links) (limit : Nat) :
    Table.Links (table.getLastConfigs limit) := fun row hrow =>
  h row (List.mem_filter.mp (List.mem_reverse.mp (List.mem_of_mem_take hrow))).1

theorem links_filterConfigs (h : table.Links) (countryCode protocol : Option Str) (limit : Nat) :
    Table.Links (table.filterConfigs env countryCode protocol limit) := fun row hrow =>
  h row (List.mem_filter.mp (List.mem_reverse.mp (List.mem_of_mem_take hrow))).1

theorem findall_buildExportText (h : Table.Links rows) :
    findall configPattern (buildExportText rows) = rows.map Row.text :=
  findall_formatConfigsAsText fun c hc => by
    obtain ⟨row, hrow, rfl⟩ := List.mem_map.mp hc
    exact h row hrow

/-- A file ends in a blank line, where a message has none. -/
theorem findall_buildExportFile (h : Table.Links rows) :
    findall configPattern (buildExportFile rows) = rows.map Row.text := by
  induction rows with
  | nil => rfl
  | cons row rows ih =>
    obtain ⟨hrow, hrows⟩ := List.forall_mem_cons.mp h
    have hfile : buildExportFile (row :: rows) =
        row.text ++ ("\n\n".toList ++ buildExportFile rows) := by
      rw [← List.append_assoc]
      rfl
    rw [hfile, findall_append_seps local_configPattern text_ne_nil (by decide) (by decide),
      ih hrows, (findall_of_fullMatch hrow).1]
    rfl

theorem answers_sendRows (h : Table.Links rows) (hne : rows ≠ []) (accepted : Bool) :
    Answers (.rows rows) (sendRows rows accepted) := by
  have htext : Answers (.rows rows) (.message (buildExportText rows)) :=
    ⟨hne, findall_buildExportText h⟩
  have hfile : Answers (.rows rows) (.document (buildExportFile rows)) :=
    ⟨hne, findall_buildExportFile h⟩
  simp only [sendRows]
  split
  · split
    · exact htext
    · exact hfile
  · exact hfile

/-- Of the forty rows that `last_20` asks for, twenty are sent. -/
theorem answers_last20 (h : table.Links) (accepted : Bool) :
    Answers (.rows (table.getLastConfigs 20)) (last20 table accepted) := by
  have htake : (table.getLastConfigs (20 * 2)).take 20 = table.getLastConfigs 20 := by
    rw [Table.getLastConfigs, List.take_take]
    rfl
  rw [last20, htake]
  by_cases hnil : table.getLastConfigs (20 * 2) = []
  · rw [if_pos hnil]
    show table.getLastConfigs 20 = []
    rw [← htake, hnil, List.take_nil]
  · rw [if_neg hnil]
    refine answers_sendRows (links_getLastConfigs h 20) (fun he => hnil ?_) accepted
    rw [← htake, List.take_eq_nil_iff] at he
    exact he.resolve_left (by decide)

theorem answers_sendProtocol (h : table.Links) {country : Option Str} {name : Str}
    (hflag : shownFlag env country ≠ none) (accepted : Bool) :
    Answers (.rows (table.filterConfigs env country (some name) 1000))
      (sendProtocol env table country name accepted) := by
  rw [sendProtocol, if_neg hflag]
  by_cases hnil : table.filterConfigs env country (some name) 1000 = []
  · rw [if_pos hnil]
    exact hnil
  · rw [if_neg hnil]
    exact answers_sendRows (links_filterConfigs h country (some name) 1000) hnil accepted

theorem answers_sendCustom (h : table.Links) {message : Str} {count : Nat}
    (hcount : customCount message = some count) :
    Answers (.rows (table.getLastConfigs count)) (sendCustom table message) := by
  simp only [sendCustom, hcount]
  by_cases hnil : table.getLastConfigs count = []
  · rw [if_pos hnil]
    exact hnil
  · rw [if_neg hnil]
    exact ⟨hnil, findall_buildExportFile (links_getLastConfigs h count)⟩

/-! ## What the handlers remember -/

section Handlers

variable {b : Bot} {d : UserData} {userId : Int}

/-- Only four buttons change the country. -/
theorem country_callbackRouter (button : Button) (accepted : Bool) (counting : Bool) :
    (callbackRouter b d userId button).2.country =
      ((⟨d.country, counting, table⟩ : Wish).next (.press button accepted)).country := by
  have hadmin : ∀ b' d', adminCallback b d userId button = some (b', d') →
      d'.country = d.country := by
    intro b' d' h
    unfold adminCallback at h
    split at h
    · cases h
    · split at h
      · cases h
        rfl
      · split at h
        · cases h
          rfl
        · split at h <;> cases h <;> rfl
  unfold callbackRouter
  split
  next s hs =>
    rw [hadmin s.1 s.2 hs]
    have huser : button.isUserButton = false := by
      cases hu : button.isUserButton with
      | false => rfl
      | true => simp [adminCallback, hu] at hs
    cases button <;> first | rfl | cases huser
  · cases button <;> rfl

/-- Only two buttons change whether a number is awaited. -/
theorem awaitingCount_callbackRouter (button : Button) (accepted : Bool) (country : Option Str)
    {counting : Bool} (h : .awaitingCount ∈ d.flags ↔ counting = true) :
    .awaitingCount ∈ (callbackRouter b d userId button).2.flags ↔
      ((⟨country, counting, table⟩ : Wish).next (.press button accepted)).counting = true := by
  cases hp : promptOf b userId button with
  | some f =>
    rw [callbackRouter_prompt hp, flags_set, Finset.mem_insert, h]
    unfold promptOf at hp
    split at hp
    next hm =>
      cases hp
      subst hm
      simp [Wish.next]
    next hm =>
      have hf : f ≠ .awaitingCount := by
        rintro rfl
        split at hp
        · cases button <;> simp_all [adminPrompt]
        · cases hp
      have hback : button ≠ .backMain := by
        rintro rfl
        split at hp <;> cases hp
      rw [or_iff_right hf.symm]
      cases button <;> simp_all [Wish.next]
  | none =>
    rw [flags_callbackRouter hp]
    have hm : button ≠ .menuCustom := by
      rintro rfl
      cases hp
    split
    next hb =>
      subst hb
      simp [Wish.next]
    next hb => cases button <;> simp_all [Wish.next]

theorem country_messageRouter (message : Str) :
    (messageRouter b d userId message).2.country = d.country := by
  have htake : ∀ (d : UserData) (text : Str) (f : Flag),
      (takeText b d userId text f).2.country = d.country := by
    intro d text f
    cases f
    all_goals
      simp only [takeText]
      repeat' split
    all_goals rfl
  unfold messageRouter
  split
  · exact htake ..
  · rfl

/-- `handle_user_text` comes first, so a number awaited is taken from the next text. -/
theorem consumer_awaitingCount (h : .awaitingCount ∈ d.flags) :
    consumer d = some .awaitingCount := by
  simp [consumer, textFlags, h]

theorem awaitingCount_messageRouter (message : Str) :
    .awaitingCount ∉ (messageRouter b d userId message).2.flags := by
  unfold messageRouter
  split
  next f hf =>
    by_cases h : .awaitingCount ∈ d.flags
    · obtain rfl : Flag.awaitingCount = f :=
        Option.some.inj ((consumer_awaitingCount h).symm.trans hf)
      simp [takeText]
    · rcases flags_takeText b (d.pop f) userId (strip message) f with he | ⟨-, he⟩
      · simp [he, h]
      · simp [he, h]
  next hf =>
    intro h
    rw [consumer_awaitingCount h] at hf
    cases hf

end Handlers

namespace UserChat

variable {s t : UserChat} {w : Wish} {e : UserEvent} {userId : Int}

/-- The handlers remember the wish. -/
structure Remembers (s : UserChat) (w : Wish) : Prop where
  country : s.chat.userData.country = w.country
  counting : .awaitingCount ∈ s.chat.userData.flags ↔ w.counting = true
  table : s.table = w.table

theorem remembers_new (b : Bot) (table : Table) : (new b table).Remembers ⟨none, false, table⟩ :=
  ⟨rfl, by simp [new, Chat.new], rfl⟩

theorem remembers_step (hs : s.Remembers w) (h : step env userId s e = some t) :
    t.Remembers (w.next e) := by
  obtain ⟨country, counting, table⟩ := w
  obtain ⟨hcountry, hcounting, htable⟩ := hs
  subst hcountry htable
  cases e with
  | stored row =>
    cases h
    exact ⟨rfl, hcounting, rfl⟩
  | press button accepted =>
    cases h
    refine ⟨country_callbackRouter button accepted counting,
      awaitingCount_callbackRouter button accepted _ hcounting, ?_⟩
    cases button <;> rfl
  | text message =>
    cases h
    refine ⟨country_messageRouter message, ?_, rfl⟩
    exact iff_of_false (awaitingCount_messageRouter message) (by simp [Wish.next])

/-- What is sent answers what is asked. -/
theorem answers_reply (hs : s.Remembers w) (hlinks : w.table.Links) (e : UserEvent) :
    List.Forall₂ Answers (w.asks env e) (s.reply env e) := by
  obtain ⟨country, counting, table⟩ := w
  obtain ⟨hcountry, hcounting, htable⟩ := hs
  subst hcountry htable
  cases e with
  | stored row => exact .nil
  | press button accepted =>
    cases button with
    | last20 => exact .cons (answers_last20 hlinks accepted) .nil
    | proto name =>
      simp only [Wish.asks, reply]
      split
      next hflag =>
        refine .cons ?_ .nil
        rw [sendProtocol, if_pos hflag]
        trivial
      next hflag => exact .cons (answers_sendProtocol hlinks hflag accepted) .nil
    | _ => exact .nil
  | text message =>
    simp only [Wish.asks, reply, hcounting]
    split
    · cases hcount : customCount message with
      | none =>
        refine .cons ?_ .nil
        simp only [sendCustom, hcount]
        trivial
      | some count => exact .cons (answers_sendCustom hlinks hcount) .nil
    · exact .nil

theorem replies_step (h : step env userId s e = some t) :
    t.replies = s.replies ++ s.reply env e := by
  cases e with
  | stored row =>
    cases h
    exact (List.append_nil _).symm
  | _ => cases h; rfl

/-- The rows that are stored in the course of a chat. -/
def storedRows (events : List UserEvent) : Table :=
  events.filterMap fun
    | .stored row => some row
    | _ => none

theorem answers_run {events : List UserEvent} (hs : s.Remembers w) (hlinks : w.table.Links)
    (hstored : Table.Links (storedRows events)) (h : run (step env userId) s events = some t) :
    ∃ sent, t.replies = s.replies ++ sent ∧ List.Forall₂ Answers (w.demands env events) sent := by
  induction events generalizing s w with
  | nil =>
    cases h
    exact ⟨[], (List.append_nil _).symm, .nil⟩
  | cons e events ih =>
    obtain ⟨u, hu, h⟩ := Option.bind_eq_some_iff.mp h
    have hnext : (w.next e).table.Links := by
      cases e with
      | stored row =>
        have hrow : FullMatch configPattern row.text := hstored row (List.mem_cons_self ..)
        exact List.forall_mem_append.mpr ⟨hlinks, List.forall_mem_singleton.mpr hrow⟩
      | press button accepted => cases button <;> exact hlinks
      | text message => exact hlinks
    have hrest : Table.Links (storedRows events) := by
      cases e with
      | stored row => exact fun r hr => hstored r (List.mem_cons_of_mem _ hr)
      | _ => exact hstored
    obtain ⟨sent, hsent, hanswers⟩ := ih (remembers_step hs hu) hnext hrest h
    refine ⟨s.reply env e ++ sent, ?_, List.rel_append (answers_reply hs hlinks e) hanswers⟩
    rw [hsent, replies_step hu, List.append_assoc]

/-- A user asks for the last configs before there is one, and then for one of a country. -/
def exportEvents : List UserEvent :=
  [.press .last20 true,
    .stored { rowOfLink sampleLink with
      countryCode := some "DE".toList, protocol := some .vless },
    .press (.country "de".toList) true, .press (.proto "VLESS".toList) false,
    .press .menuCustom true, .text "1".toList, .text "2".toList]

end UserChat
end ConfigManager
