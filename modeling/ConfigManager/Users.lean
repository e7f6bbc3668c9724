import ConfigManager.Conversations
import ConfigManager.Py.KeyedRows

/-! # The users (`users`, `user_stats`)

`/start` registers a user, or their new names, and then counts the start, in a transaction of
its own: a user can be registered whose start is not counted, but not the other way round.
An admin sees how many users and how many starts there are, and sends a text to all of them.

`users_of_starts` says what the tables hold after any starts, some of them raising anywhere,
and whom a text reaches.
-/
namespace ConfigManager

open Py Runs

/-- `update.effective_user`. -/
structure TelegramUser where
  id : Int
  firstName : Option Str
  username : Option Str

/-- `User`. -/
structure UserRow where
  userId : Int
  firstName : Option Str
  username : Option Str
  joinedAt : Nat

/-- `UserStat`. -/
structure UserStat where
  userId : Int
  startCount : Nat
  lastActivity : Nat

/-- `upsert_user`. -/
def upsertUser (now : Nat) (rows : List UserRow) (user : TelegramUser) : List UserRow :=
  if user.id ∈ rows.map UserRow.userId then
    rows.map fun row =>
      if row.userId = user.id then
        { row with firstName := user.firstName, username := user.username }
      else row
  else rows ++ [⟨user.id, user.firstName, user.username, now⟩]

/-- `bump_user_start`. -/
def bumpUserStart (now : Nat) (rows : List UserStat) (userId : Int) : List UserStat :=
  if userId ∈ rows.map UserStat.userId then
    rows.map fun row =>
      if row.userId = userId then
        { row with startCount := row.startCount + 1, lastActivity := now }
      else row
  else rows ++ [⟨userId, 1, now⟩]

/-- `get_all_user_ids`. -/
def getAllUserIds (rows : List UserRow) : List Int := rows.map UserRow.userId

/-- `count_users`. -/
def countUsers (rows : List UserRow) : Nat := rows.length

/-- `total_starts`. -/
def totalStarts (rows : List UserStat) : Nat := (rows.map UserStat.startCount).sum

/-! ## Starts -/

/-- How far `start_command` comes. -/
inductive StartOutcome where
  /-- `upsert_user` raises. -/
  | raised
  /-- `bump_user_start` raises. -/
  | registered (now : Nat)
  | counted (now activity : Nat)

structure Start where
  user : TelegramUser
  outcome : StartOutcome

structure UserTables where
  users : List UserRow
  stats : List UserStat

/-- `start_command`. -/
def startCommand (t : UserTables) (s : Start) : UserTables :=
  match s.outcome with
  | .raised => t
  | .registered now => { t with users := upsertUser now t.users s.user }
  | .counted now activity =>
      ⟨upsertUser now t.users s.user, bumpUserStart activity t.stats s.user.id⟩

/-- The tables after some starts. -/
def userTables (starts : List Start) : UserTables := starts.foldl startCommand ⟨[], []⟩

/-- A start that registers its user, with the time. -/
def Start.registration (s : Start) : Option (Nat × TelegramUser) :=
  match s.outcome with
  | .raised => none
  | .registered now | .counted now _ => some (now, s.user)

/-- A start that is counted, with the time. -/
def Start.count (s : Start) : Option (Nat × Int) :=
  match s.outcome with
  | .raised | .registered _ => none
  | .counted _ activity => some (activity, s.user.id)

/-- The registrations of a user. -/
def registrationsOf (starts : List Start) (userId : Int) : List (Nat × TelegramUser) :=
  (starts.filterMap Start.registration).filter fun r => r.2.id = userId

/-- The counted starts of a user. -/
def countsOf (starts : List Start) (userId : Int) : List (Nat × Int) :=
  (starts.filterMap Start.count).filter fun c => c.2 = userId

theorem foldl_startCommand (starts : List Start) (t : UserTables) :
    starts.foldl startCommand t =
      ⟨(starts.filterMap Start.registration).foldl (fun rows r => upsertUser r.1 rows r.2) t.users,
        (starts.filterMap Start.count).foldl (fun rows c => bumpUserStart c.1 rows c.2)
          t.stats⟩ := by
  induction starts generalizing t with
  | nil => rfl
  | cons s starts ih =>
    obtain ⟨user, outcome⟩ := s
    rw [List.foldl_cons, ih]
    cases outcome <;> rfl

/-- The row a registration adds. -/
def newUser (r : Nat × TelegramUser) : UserRow := ⟨r.2.id, r.2.firstName, r.2.username, r.1⟩

/-- What a registration makes of the row that is there. -/
def renamed (r : Nat × TelegramUser) (row : UserRow) : UserRow :=
  { row with firstName := r.2.firstName, username := r.2.username }

/-- The row a counted start adds. -/
def newStat (c : Nat × Int) : UserStat := ⟨c.2, 1, c.1⟩

/-- What a counted start makes of the row that is there. -/
def bumped (c : Nat × Int) (row : UserStat) : UserStat :=
  { row with startCount := row.startCount + 1, lastActivity := c.1 }

/-- `upsert_user`, as a change of the table. -/
def registrationChange (r : Nat × TelegramUser) : Change UserRow.userId :=
  .upsert (newUser r) (renamed r) fun _ => rfl

/-- `bump_user_start`, as a change of the table. -/
def countChange (c : Nat × Int) : Change UserStat.userId :=
  .upsert (newStat c) (bumped c) fun _ => rfl

theorem users_eq (starts : List Start) : (userTables starts).users =
    ((starts.filterMap Start.registration).map registrationChange).foldl Change.apply [] := by
  rw [userTables, foldl_startCommand, List.foldl_map]
  rfl

theorem stats_eq (starts : List Start) : (userTables starts).stats =
    ((starts.filterMap Start.count).map countChange).foldl Change.apply [] := by
  rw [userTables, foldl_startCommand, List.foldl_map]
  rfl

/-! ## A user -/

/-- The row of a user with these registrations: the names of the last, the time of the first. -/
def registeredRow (userId : Int) (own : List (Nat × TelegramUser)) : Option UserRow :=
  own.head?.bind fun first => own.getLast?.map fun last =>
    ⟨userId, last.2.firstName, last.2.username, first.1⟩

/-- The row of a user with these counted starts. -/
def countedRow (userId : Int) (own : List (Nat × Int)) : Option UserStat :=
  own.getLast?.map fun last => ⟨userId, own.length, last.1⟩

/-- **The row of a user.** -/
theorem cell_users (starts : List Start) (userId : Int) :
    cell UserRow.userId (userTables starts).users userId =
      registeredRow userId (registrationsOf starts userId) := by
  rw [users_eq]
  refine (cell_upserts newUser renamed (fun _ _ => rfl) _ userId).trans ?_
  show (registrationsOf starts userId).foldl _ none = _
  have hown : ∀ r ∈ registrationsOf starts userId, r.2.id = userId := fun r hr =>
    of_decide_eq_true (List.mem_filter.mp hr).2
  generalize registrationsOf starts userId = own at hown
  induction own using List.reverseRecOn with
  | nil => rfl
  | append_singleton own r ih =>
    have hid := hown r (by simp)
    rw [List.foldl_append, ih fun r hr => hown r (List.mem_append_left _ hr)]
    cases own with
    | nil => simp [registeredRow, newUser, hid]
    | cons first own => simp [registeredRow, renamed, List.getLast?_cons]

/-- **The count of a user.** -/
theorem cell_stats (starts : List Start) (userId : Int) :
    cell UserStat.userId (userTables starts).stats userId =
      countedRow userId (countsOf starts userId) := by
  rw [stats_eq]
  refine (cell_upserts newStat bumped (fun _ _ => rfl) _ userId).trans ?_
  show (countsOf starts userId).foldl _ none = _
  have hown : ∀ c ∈ countsOf starts userId, c.2 = userId := fun c hc =>
    of_decide_eq_true (List.mem_filter.mp hc).2
  generalize countsOf starts userId = own at hown
  induction own using List.reverseRecOn with
  | nil => rfl
  | append_singleton own c ih =>
    have hid := hown c (by simp)
    rw [List.foldl_append, ih fun c hc => hown c (List.mem_append_left _ hc)]
    cases own with
    | nil => simp [countedRow, newStat, hid]
    | cons first own => simp [countedRow, bumped, List.getLast?_cons]

/-! ## All users -/

theorem registeredRow_eq_none_iff {userId : Int} {own : List (Nat × TelegramUser)} :
    registeredRow userId own = none ↔ own = [] := by
  cases own with
  | nil => exact iff_of_true rfl rfl
  | cons first own => simp [registeredRow, List.getLast?_cons]

/-- **Who is registered.** -/
theorem mem_getAllUserIds_iff {starts : List Start} {userId : Int} :
    userId ∈ getAllUserIds (userTables starts).users ↔
      ∃ s ∈ starts, s.registration.isSome ∧ s.user.id = userId := by
  have hcell := cell_users starts userId
  rw [getAllUserIds, ← not_iff_not, ← cell_eq_none_iff, hcell, registeredRow_eq_none_iff,
    registrationsOf, List.filter_eq_nil_iff]
  constructor
  · rintro h ⟨s, hs, hsome, hid⟩
    obtain ⟨r, hr⟩ := Option.isSome_iff_exists.mp hsome
    refine h r (List.mem_filterMap.mpr ⟨s, hs, hr⟩) (decide_eq_true ?_)
    rw [← hid]
    obtain ⟨user, outcome⟩ := s
    cases outcome <;> cases hr <;> rfl
  · intro h r hr hid
    obtain ⟨s, hs, hr⟩ := List.mem_filterMap.mp hr
    refine h ⟨s, hs, Option.isSome_iff_exists.mpr ⟨r, hr⟩, ?_⟩
    rw [← of_decide_eq_true hid]
    obtain ⟨user, outcome⟩ := s
    cases outcome <;> cases hr <;> rfl

theorem nodup_getAllUserIds (starts : List Start) :
    (getAllUserIds (userTables starts).users).Nodup := by
  rw [getAllUserIds, users_eq]
  exact nodup_history _

/-- **The starts are all counted**, whoever's they are. -/
theorem totalStarts_eq (starts : List Start) :
    totalStarts (userTables starts).stats = (starts.filterMap Start.count).length := by
  rw [stats_eq, totalStarts]
  generalize starts.filterMap Start.count = counts
  induction counts using List.reverseRecOn with
  | nil => rfl
  | append_singleton counts c ih =>
    rw [List.map_append, List.foldl_append, List.length_append, ← ih]
    exact sum_apply_upsert (newStat c) (bumped c) (fun _ => rfl) rfl (fun _ => rfl)
      (nodup_history _)

/-- The bot has the users of the table. -/
theorem userIds_botAfter (service : Service) (s : Start) {t : UserTables}
    (h : service.bot.userIds = getAllUserIds t.users) (hs : s.registration.isSome) :
    (service.botAfter (.start s.user.id)).userIds =
      getAllUserIds (startCommand t s).users := by
  have hupsert : ∀ now, (service.botAfter (.start s.user.id)).userIds =
      getAllUserIds (upsertUser now t.users s.user) := by
    intro now
    show (if s.user.id ∈ service.bot.userIds then _ else _ : Bot).userIds = _
    rw [upsertUser]
    by_cases hmem : s.user.id ∈ t.users.map UserRow.userId
    · rw [if_pos (h ▸ hmem), if_pos hmem, h]
      exact (map_key_update (renamed (now, s.user)) (fun _ => rfl) _ t.users).symm
    · rw [if_neg (h ▸ hmem), if_neg hmem]
      show service.bot.userIds ++ _ = _
      rw [h, getAllUserIds, getAllUserIds, List.map_append]
      rfl
  obtain ⟨user, outcome⟩ := s
  cases outcome with
  | raised => cases hs
  | registered now => exact hupsert now
  | counted now activity => exact hupsert now

theorem startCommand_of_not {s : Start} {t : UserTables} (hs : ¬s.registration.isSome) :
    startCommand t s = t := by
  obtain ⟨user, outcome⟩ := s
  cases outcome with
  | raised => rfl
  | _ => exact absurd rfl hs

/-- The starts that register somebody, as the bot has them. -/
def startEvents (starts : List Start) : List Service.Event :=
  (starts.filter fun s => s.registration.isSome).map fun s => .start s.user.id

theorem userIds_foldl {service : Service} {t : UserTables}
    (h : service.bot.userIds = getAllUserIds t.users) (starts : List Start) :
    ((startEvents starts).foldl Service.handle service).bot.userIds =
      getAllUserIds (starts.foldl startCommand t).users := by
  induction starts generalizing service t with
  | nil => exact h
  | cons s starts ih =>
    rw [startEvents, List.filter_cons]
    split
    next hs =>
      rw [List.map_cons, List.foldl_cons, List.foldl_cons]
      exact ih (userIds_botAfter service s h hs)
    next hs =>
      rw [List.foldl_cons, startCommand_of_not hs]
      exact ih h

/-! ## Broadcasts -/

/-- A broadcast, as its report counts it. -/
structure Broadcast where
  sentTo : List Int
  sent : Nat
  failed : Nat

/-- The loop of a broadcast: `delivers` where `send_message` returns. -/
def broadcastTo (delivers : Int → Bool) (userIds : List Int) : Broadcast :=
  userIds.foldl (fun b uid =>
    if delivers uid then { b with sentTo := b.sentTo ++ [uid], sent := b.sent + 1 }
    else { b with failed := b.failed + 1 }) ⟨[], 0, 0⟩

/-- `msg`, for all users. -/
def Broadcast.report (b : Broadcast) : Str :=
  "✅ ارسال به ".toList ++ (toString b.sent).toList ++ " کاربر".toList ++
    if b.failed > 0 then "\n⚠️ ".toList ++ (toString b.failed).toList ++ " کاربر ارسال نشد".toList
    else []

theorem broadcastTo_eq (delivers : Int → Bool) (userIds : List Int) :
    broadcastTo delivers userIds =
      ⟨userIds.filter delivers, (userIds.filter delivers).length,
        (userIds.filter fun uid => !delivers uid).length⟩ := by
  induction userIds using List.reverseRecOn with
  | nil => rfl
  | append_singleton userIds uid ih =>
    rw [broadcastTo, List.foldl_append, ← broadcastTo, ih]
    cases h : delivers uid <;> simp [h]

/-- **What the tables hold** after any starts, wherever they raise: the names a user was last
registered with, and since when; how many starts of a user were counted, and when the last
was; and no others.  All counts add up to the starts that were counted, and a text to all
users goes once to each user who was ever registered and can be reached.  The bot's users
are these. -/
theorem users_of_starts (starts : List Start) (delivers : Int → Bool) :
    (∀ userId, cell UserRow.userId (userTables starts).users userId =
        registeredRow userId (registrationsOf starts userId)) ∧
      (∀ userId, cell UserStat.userId (userTables starts).stats userId =
        countedRow userId (countsOf starts userId)) ∧
      totalStarts (userTables starts).stats = (starts.filterMap Start.count).length ∧
      (broadcastTo delivers (getAllUserIds (userTables starts).users)).sentTo.Nodup ∧
      (∀ userId,
        userId ∈ (broadcastTo delivers (getAllUserIds (userTables starts).users)).sentTo ↔
          delivers userId ∧ ∃ s ∈ starts, s.registration.isSome ∧ s.user.id = userId) ∧
      (broadcastTo delivers (getAllUserIds (userTables starts).users)).sent +
          (broadcastTo delivers (getAllUserIds (userTables starts).users)).failed =
        countUsers (userTables starts).users ∧
      ∀ service : Service, service.bot.userIds = [] →
        ((startEvents starts).foldl Service.handle service).bot.userIds =
          getAllUserIds (userTables starts).users := by
  refine ⟨cell_users starts, cell_stats starts, totalStarts_eq starts, ?_, fun userId => ?_, ?_,
    fun _ hnone => userIds_foldl hnone starts⟩
  · rw [broadcastTo_eq]
    exact (nodup_getAllUserIds starts).sublist List.filter_sublist
  · rw [broadcastTo_eq]
    show userId ∈ List.filter delivers _ ↔ _
    rw [List.mem_filter, mem_getAllUserIds_iff, and_comm]
  · rw [broadcastTo_eq]
    show (List.filter _ _).length + (List.filter _ _).length = _
    have hcount := List.length_eq_countP_add_countP delivers
      (l := getAllUserIds (userTables starts).users)
    simp only [List.countP_eq_length_filter, Bool.not_eq_true, Bool.decide_eq_false] at hcount
    rw [← hcount, getAllUserIds, List.length_map, countUsers]

end ConfigManager
