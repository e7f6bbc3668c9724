import ConfigManager.WorkersSurvive

/-! # A message, with its retries (`publisher.broadcaster.send_message`)

An attempt that is refused for now, or that fails on the way, is made again, after a pause
that the refusal may name; both kinds of retry count into one number.  So a message takes as
many posts as there are retried outcomes in front of the first other one, and
`PUBLISH_MAX_RETRIES + 1` at most (`send_eq`), as long as the pauses end.
-/
namespace ConfigManager

open Py

/-- `send_message(text, session, retries)`, where the outcome of each post is given by its
number: how many posts it makes, and how it ends. -/
def send (F : Json.Floats) (replies : Nat → Reply) (retries : Nat) : Nat × Attempt :=
  match h : sendMessage F retries (replies retries) with
  | .again =>
      let sent := send F replies (retries + 1)
      (sent.1 + 1, sent.2)
  | attempt => (1, attempt)
termination_by publishMaxRetries + 1 - retries
decreasing_by
  have := lt_of_again h
  omega

/-- Refused for now, or failed on the way. -/
def Reply.Retried : Reply → Prop
  | .response r => r.status = 429
  | .timeout | .clientError => True

/-- Status 200. -/
def Reply.ok : Reply → Bool
  | .response r => r.status = 200
  | .timeout | .clientError => false

/-- The last post is the first one that is not retried, if there is one within the limit. -/
structure EndsAt (replies : Nat → Reply) (last : Nat) : Prop where
  le : last ≤ publishMaxRetries
  before : ∀ i < last, (replies i).Retried
  stop : ¬(replies last).Retried ∨ last = publishMaxRetries

/-- A response whose body can be read: as a text, and if it is a refusal for now, as an object
whose `parameters` are an object, with a `retry_after` such as `p` says; both may be left
out. -/
def Reply.Promised (F : Json.Floats) (p : Json → Prop) : Reply → Prop
  | .response r => (r.decode r.body).isSome = true ∧ (r.status = 429 → r.isJson = true →
      ∃ ms, r.json F = some (.obj ms) ∧
        ∀ parameters, Json.get? (ofText "parameters".toList) ms = some parameters →
          ∃ ps, parameters = .obj ps ∧
            ∀ delay, Json.get? (ofText "retry_after".toList) ps = some delay → p delay)
  | .timeout | .clientError => True

/-- A number. -/
def IsNumber : Json → Prop
  | .int _ | .float _ => True
  | _ => False

/-- A number that fits a float and is not infinite. -/
def IsPause (delay : Json) : Prop := sleeps delay = true ∧ endless delay = false

variable {F : Json.Floats} {replies : Nat → Reply} {retries last : Nat} {r : Reply}

/-! ## One attempt -/

/-- The pause that is read off an object. -/
theorem retryAfter_obj (ms : List (JStr × Json)) : retryAfter (.obj ms) =
    getOr "retry_after".toList (.int 5)
      ((Json.get? (ofText "parameters".toList) ms).getD (.obj [])) := rfl

theorem getOr_obj (key : Str) (default : Json) (ms : List (JStr × Json)) :
    getOr key default (.obj ms) = some ((Json.get? (ofText key) ms).getD default) := rfl

/-- A refusal that promises a pause can be read: five seconds is one, too. -/
theorem readable_of_promised (h : r.Promised F IsPause) (retries : Nat) : r.Readable F retries := by
  cases r with
  | timeout | clientError => trivial
  | response r =>
    obtain ⟨hdecode, hjson⟩ := h
    have hfive : IsPause (.int 5) := ⟨by decide +kernel, rfl⟩
    simp only [Reply.Readable, Response.Readable]
    split
    next hpatience =>
      intro hcontent
      obtain ⟨ms, hms, hparameters⟩ := hjson hpatience.1 hcontent
      refine ⟨.obj ms, ?_⟩
      rw [retryAfter_obj]
      cases hp : Json.get? (ofText "parameters".toList) ms with
      | none => exact ⟨.int 5, hms, rfl, hfive⟩
      | some parameters =>
        obtain ⟨ps, rfl, hdelay⟩ := hparameters parameters hp
        rw [Option.getD_some, getOr_obj]
        cases hd : Json.get? (ofText "retry_after".toList) ps with
        | none => exact ⟨.int 5, hms, rfl, hfive⟩
        | some delay => exact ⟨delay, hms, rfl, hdelay delay hd⟩
    next => exact .inr hdecode

/-- **An attempt whose response can be read** is made again, or returns whether it was
answered with status 200. -/
theorem sendMessage_of_readable (h : r.Readable F retries) :
    (r.Retried ∧ retries < publishMaxRetries ∧ sendMessage F retries r = .again) ∨
      (¬(r.Retried ∧ retries < publishMaxRetries) ∧
        sendMessage F retries r = .returned r.ok) := by
  cases r with
  | timeout | clientError =>
    simp only [sendMessage]
    split
    next hlt => exact .inl ⟨trivial, hlt, rfl⟩
    next hlt => exact .inr ⟨fun h => hlt h.2, rfl⟩
  | response r =>
    simp only [Reply.Readable, Response.Readable] at h
    simp only [sendMessage]
    split at h
    next hpatience =>
      refine .inl ⟨hpatience.1, hpatience.2, ?_⟩
      rw [if_pos hpatience]
      split
      next hjson =>
        obtain ⟨data, delay, hdata, hdelay, hsleeps, hendless⟩ := h hjson
        simp [hdata, hdelay, hsleeps, hendless]
      next => rfl
    next hpatience =>
      refine .inr ⟨hpatience, ?_⟩
      rw [if_neg hpatience, Reply.ok]
      by_cases hok : r.status = 200
      · simp [hok]
      · obtain ⟨text, htext⟩ := Option.isSome_iff_exists.mp (h.resolve_left hok)
        simp [hok, htext]

/-! ## The whole message -/

theorem send_again (h : sendMessage F retries (replies retries) = .again) :
    send F replies retries =
      ((send F replies (retries + 1)).1 + 1, (send F replies (retries + 1)).2) := by
  rw [send]
  split
  next => rfl
  next hne => exact absurd h hne

theorem send_ended {attempt : Attempt} (h : sendMessage F retries (replies retries) = attempt)
    (hne : attempt ≠ .again) : send F replies retries = (1, attempt) := by
  rw [send]
  split
  next hagain => exact absurd (h.symm.trans hagain) hne
  next => rw [h]

/-- **From any attempt on**, the posts go on to the first outcome that is not retried. -/
theorem send_from (h : ∀ i, (replies i).Readable F i) (hle : retries ≤ publishMaxRetries)
    (hbefore : ∀ i < retries, (replies i).Retried) :
    ∃ last, EndsAt replies last ∧ retries ≤ last ∧
      send F replies retries = (last - retries + 1, .returned (replies last).ok) := by
  induction hn : publishMaxRetries + 1 - retries generalizing retries with
  | zero => omega
  | succ n ih =>
    rcases sendMessage_of_readable (h retries) with ⟨hretried, hlt, hsend⟩ | ⟨hnot, hsend⟩
    · have hbefore' : ∀ i < retries + 1, (replies i).Retried := by
        intro i hi
        rcases Nat.lt_succ_iff_lt_or_eq.mp hi with hi | rfl
        · exact hbefore i hi
        · exact hretried
      obtain ⟨last, hends, hlast, hrest⟩ := ih (by omega) hbefore' (by omega)
      refine ⟨last, hends, by omega, ?_⟩
      rw [send_again hsend, hrest, Prod.mk.injEq]
      exact ⟨by omega, rfl⟩
    · have hstop : ¬(replies retries).Retried ∨ retries = publishMaxRetries := by
        by_cases hretried : (replies retries).Retried
        · exact .inr (Nat.le_antisymm hle (not_lt.mp fun hlt => hnot ⟨hretried, hlt⟩))
        · exact .inl hretried
      refine ⟨retries, ⟨hle, hbefore, hstop⟩, le_rfl, ?_⟩
      rw [send_ended hsend (by simp), Nat.sub_self]

/-- There is one last post. -/
theorem endsAt_unique {last' : Nat} (h : EndsAt replies last) (h' : EndsAt replies last') :
    last = last' := by
  have hnot : ∀ {a b : Nat}, EndsAt replies a → EndsAt replies b → ¬a < b := by
    intro a b ha hb hlt
    rcases ha.stop with hstop | hstop
    · exact hstop (hb.before a hlt)
    · have := hb.le
      omega
  have := hnot h h'
  have := hnot h' h
  omega

/-- **A message is sent within the limit**, and is reported as sent exactly if it was: it
ends with the first outcome that is not retried. -/
theorem send_eq (F : Json.Floats) (replies : Nat → Reply)
    (h : ∀ i, (replies i).Promised F IsPause) :
    ∃ last, EndsAt replies last ∧ (∀ other, EndsAt replies other → other = last) ∧
      send F replies 0 = (last + 1, .returned (replies last).ok) := by
  obtain ⟨last, hends, -, hsend⟩ := send_from (F := F) (fun i => readable_of_promised (h i) i)
    (Nat.zero_le _) (fun i hi => absurd hi (Nat.not_lt_zero i))
  exact ⟨last, hends, fun other hother => endsAt_unique hother hends, hsend⟩

/-! ## A pause that is too long -/

/-- A refusal with a `retry_after` of 1 and some zeros. -/
def refusal (zeros : Nat) : Response where
  status := 429
  isJson := true
  body := Utf8.encode ("\x7b\"parameters\": \x7b\"retry_after\": 1".toList ++
    List.replicate zeros '0' ++ "\x7d\x7d".toList)
  decode := Utf8.decode

/-- The object of a refusal with a pause. -/
def pauseOf (delay : Json) : Json :=
  .obj [(ofText "parameters".toList, .obj [(ofText "retry_after".toList, delay)])]

theorem promised_refusal {p : Json → Prop} {delay : Json} {zeros : Nat}
    (hdecode : ((refusal zeros).decode (refusal zeros).body).isSome = true)
    (hjson : (refusal zeros).json F = some (pauseOf delay)) (hp : p delay) :
    (Reply.response (refusal zeros)).Promised F p := by
  refine ⟨hdecode, fun _ _ => ⟨_, hjson, ?_⟩⟩
  rintro _ ⟨⟩
  refine ⟨_, rfl, ?_⟩
  rintro _ ⟨⟩
  exact hp

/-- Refused for ten seconds, and then answered. -/
def oneRefusal : Nat → Reply
  | 0 => .response (refusal 1)
  | _ => .response { refusal 0 with status := 200 }

theorem send_eq_sample : ∃ last, EndsAt oneRefusal last ∧
    (∀ other, EndsAt oneRefusal other → other = last) ∧
    send Env.sample.floats oneRefusal 0 = (last + 1, .returned (oneRefusal last).ok) := by
  refine send_eq Env.sample.floats oneRefusal fun i => ?_
  cases i with
  | zero =>
    have hjson : (refusal 1).json Env.sample.floats = some (pauseOf (.int 10)) := by
      decide +kernel
    exact promised_refusal (by decide +kernel) hjson ⟨by decide +kernel, rfl⟩
  | succ i => exact ⟨by decide +kernel, fun h => absurd h (by decide)⟩

/-- Refused for 10 ^ 400 seconds. -/
def longRefusal (_ : Nat) : Reply := .response (refusal 400)

/-- The pause is a number, and the call raises. -/
theorem not_sent_overflow :
    (∀ i, (longRefusal i).Promised Env.sample.floats IsNumber) ∧
      send Env.sample.floats longRefusal 0 = (1, .raised) := by
  have hjson : (refusal 400).json Env.sample.floats = some (pauseOf (.int (10 ^ 400))) := by
    decide +kernel
  have hraised : sendMessage Env.sample.floats 0 (longRefusal 0) = .raised := by decide +kernel
  exact ⟨fun _ => promised_refusal (by decide +kernel) hjson trivial, send_ended hraised (by simp)⟩

end ConfigManager
