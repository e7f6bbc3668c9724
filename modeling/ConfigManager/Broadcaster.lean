import ConfigManager.Py.Html
import ConfigManager.Runs
import ConfigManager.ScraperJob
import Mathlib.Algebra.Group.Int.Defs

/-! # The broadcaster (`publisher.broadcaster`, `publisher.queue`)

`start` creates a pool of workers, each of which takes an item off the publish queue,
formats it, sends it and takes the next.  `stop` puts a `None` on the queue, which makes
a worker leave its loop, and cancels the pool.  The queue outlives both.

A worker awaits the queue, an answer of the endpoint, and its pause; an exception in
between ends it.  `gather` ends with the first exception of a worker, or with the last
worker, and `start` creates a new pool only when it has.
-/
namespace ConfigManager

open Py

/-- `PUBLISH_MAX_RETRIES`. -/
def publishMaxRetries : Nat := 5

/-- `PUBLISH_CONCURRENCY`. -/
def publishConcurrency : Nat := 3

/-- The `maxsize` of the publish queue. -/
def publishQueueSize : Nat := 500

/-! ## Messages -/

/-- `COUNTRY_LABELS`. -/
def countryLabels : List (Str × Str) :=
  [("IR", "🇮🇷 ایران"), ("US", "🇺🇸 آمریکا"), ("DE", "🇩🇪 آلمان"), ("NL", "🇳🇱 هلند"),
    ("AE", "🇦🇪 امارات"), ("GB", "🇬🇧 انگلیس"), ("FR", "🇫🇷 فرانسه"), ("JP", "🇯🇵 ژاپن"),
    ("SG", "🇸🇬 سنگاپور"), ("CA", "🇨🇦 کانادا"), ("AU", "🇦🇺 استرالیا"), ("FI", "🇫🇮 فنلاند"),
    ("SE", "🇸🇪 سوئد"), ("IN", "🇮🇳 هند"), ("RU", "🇷🇺 روسیه"), ("TR", "🇹🇷 ترکیه"),
    ("KR", "🇰🇷 کره جنوبی"), ("HK", "🇭🇰 هنگ‌کنگ"), ("BR", "🇧🇷 برزیل"), ("CN", "🇨🇳 چین")].map
    fun (code, label) => (code.toList, label.toList)

/-- `html.escape(s)`: the quotes too. -/
def escapeQuoted (s : Str) : Str :=
  (Html.escape s).flatMap fun c =>
    if c = '"' then "&quot;".toList else if c.toNat = 39 then "&#x27;".toList else [c]

/-- `detect_protocol(config).upper()`. -/
def protocolLabel : Protocol → Str
  | .vless => "VLESS".toList
  | .vmess => "VMESS".toList
  | .trojan => "TROJAN".toList
  | .shadowsocks => "SHADOWSOCKS".toList
  | .unknown => "UNKNOWN".toList

/-- `LINE`, between two line ends. -/
def separatorLine : Str := '\n' :: List.replicate 20 '━' ++ ['\n']

/-- `format_message`, `none` where `get_flag` raises. -/
def formatMessage (env : Env) (item : PublishItem) : Option Str :=
  (getFlag env.unicode item.countryCode).map fun flag =>
    let countryName := (countryLabels.lookup item.countryCode).getD item.countryCode
    let channel := env.channelUsername.dropWhile (· == '@')
    let header := flag ++ " <b>".toList ++ countryName ++ "</b> ┃ ⚙️ ".toList ++
      protocolLabel (detectProtocol item.config)
    let body := "<pre>".toList ++ escapeQuoted item.config ++ "</pre>".toList
    let footer := "📢 <a href=\"https://t.me/".toList ++ channel ++ "\">t.me/".toList ++ channel ++
      "</a>".toList
    header ++ separatorLine ++ body ++ separatorLine ++ footer

/-! ## Sending -/

/-- A response of the endpoint. -/
structure Response where
  status : Nat
  /-- Its content type is that of JSON. -/
  isJson : Bool
  body : List UInt8
  /-- Decoding in its charset, `none` where that raises. -/
  decode : List UInt8 → Option Str

/-- What comes of a post.  A body that does not arrive is one of the last two. -/
inductive Reply where
  | response (r : Response)
  | timeout
  | clientError

/-- `bytes.strip`, at both ends. -/
def stripBytes (body : List UInt8) : List UInt8 :=
  let isBlank : UInt8 → Bool := fun b => (9 ≤ b.toNat && b.toNat ≤ 13) || b.toNat == 32
  (body.dropWhile isBlank).rdropWhile isBlank

/-- `resp.json()` of a content type that fits; an empty body is `None`. -/
def Response.json (F : Json.Floats) (r : Response) : Option Json :=
  if stripBytes r.body = [] then some .null
  else (r.decode (stripBytes r.body)).bind (Json.loads F)

/-- `data.get(key, default)`, which only a dictionary has. -/
def getOr (key : Str) (default : Json) : Json → Option Json
  | .obj ms => some ((Json.get? (ofText key) ms).getD default)
  | _ => none

/-- `data.get("parameters", {}).get("retry_after", 5)`. -/
def retryAfter (data : Json) : Option Json :=
  (getOr "parameters".toList (.obj []) data).bind (getOr "retry_after".toList (.int 5))

/-- `asyncio.sleep` takes numbers, `NaN` too (in Python 3.11), and integers only if they fit a
float. -/
def sleeps : Json → Bool
  | .bool _ | .float _ => true
  | .int n => n < 2 ^ 1024 - 2 ^ 970
  | _ => false

/-- A delay that `asyncio.sleep` takes, and that is never over. -/
def endless : Json → Bool
  | .float x => x = "Infinity".toList
  | _ => false

/-- How an attempt to send ends. -/
inductive Attempt where
  | returned (ok : Bool)
  /-- `send_message` calls itself again. -/
  | again
  /-- It does not end: `asyncio.sleep` does not return. -/
  | asleep
  | raised
  deriving DecidableEq

/-- An attempt of `send_message`.  It catches what the client raises, a content type that
does not fit included, and nothing else. -/
def sendMessage (F : Json.Floats) (retries : Nat) : Reply → Attempt
  | .response r =>
      if r.status = 429 ∧ retries < publishMaxRetries then
        if r.isJson then
          match (r.json F).bind retryAfter with
          | some delay =>
              if sleeps delay then if endless delay then .asleep else .again else .raised
          | none => .raised
        else .again
      else if r.status = 200 then .returned true
      else match r.decode r.body with
        | some _ => .returned false
        | none => .raised
  | .timeout | .clientError => if retries < publishMaxRetries then .again else .returned false

/-! ## Workers -/

/-- What is on the queue: an item, or the `None` of a call of `stop`. -/
inductive Entry where
  | item (item : PublishItem)
  | none (call : Nat)

/-- Where a worker stands. -/
inductive WorkerStage where
  | waiting
  | sending (text : Str) (retries : Nat)
  /-- It sleeps for ever, with what it was sending. -/
  | asleep
  | pausing
  /-- It has left its loop, on the `None` of this call. -/
  | left (call : Nat)
  /-- An exception has ended it. -/
  | died
  /-- `stop` has cancelled it. -/
  | cancelled

/-- A worker, with the call of `start` that created it, and how often it has taken
something off the queue and called `task_done`. -/
structure Worker where
  startedBy : Nat
  stage : WorkerStage
  taken : Nat
  tasksDone : Nat

namespace Worker

/-- It has not ended. -/
def live (w : Worker) : Bool :=
  match w.stage with
  | .waiting | .sending _ _ | .asleep | .pausing => true
  | .left _ | .died | .cancelled => false

/-- An exception has ended it. -/
def hasDied (w : Worker) : Bool :=
  match w.stage with
  | .died => true
  | _ => false

/-- A worker that waits is given an entry. -/
def take (env : Env) (w : Worker) : Entry → Worker
  | .item item =>
      match formatMessage env item with
      | some text => { w with stage := .sending text 0, taken := w.taken + 1 }
      | none => { w with stage := .died, taken := w.taken + 1 }
  | .none call =>
      { w with stage := .left call, taken := w.taken + 1, tasksDone := w.tasksDone + 1 }

/-- A worker that sends is answered. -/
def answer (w : Worker) (text : Str) (retries : Nat) : Attempt → Worker
  | .returned _ => { w with stage := .pausing, tasksDone := w.tasksDone + 1 }
  | .again => { w with stage := .sending text (retries + 1) }
  | .asleep => { w with stage := .asleep }
  | .raised => { w with stage := .died }

end Worker

/-- The queue, the workers, and the broadcaster's own state. -/
structure Pool where
  queue : List Entry
  workers : List Worker
  /-- How many calls of `start` and `stop` there were. -/
  calls : Nat
  /-- `_task`, by the call of `start` that created it. -/
  task : Option Nat
  /-- `start` was called after the last `stop`. -/
  started : Bool

namespace Pool

/-- What can happen. -/
inductive Label where
  | start
  /-- `stop`, when its `None` has found a place. -/
  | stop
  | put (item : PublishItem)
  /-- Worker `i` takes what comes next. -/
  | take (i : Nat)
  | reply (i : Nat) (r : Reply)
  /-- The pause of worker `i` is over. -/
  | wake (i : Nat)

/-- A queue and a broadcaster that nobody has used. -/
def new : Pool := ⟨[], [], 0, none, false⟩

/-- The workers of `_task`. -/
def ofTask (s : Pool) (w : Worker) : Bool := s.task = some w.startedBy

/-- `_task` is there and not done. -/
def running (s : Pool) : Bool :=
  s.task.isSome &&
    s.workers.any (fun w => s.ofTask w && w.live) &&
    !s.workers.any fun w => s.ofTask w && w.hasDied

/-- A worker that `stop` cancels. -/
def cancel (s : Pool) (w : Worker) : Worker :=
  if s.ofTask w && w.live then { w with stage := .cancelled } else w

variable (env : Env)

def step (s : Pool) : Label → Option Pool
  | .start =>
      if s.running then some { s with calls := s.calls + 1, started := true }
      else some { s with
        calls := s.calls + 1
        workers := s.workers ++
          List.replicate publishConcurrency ⟨s.calls + 1, .waiting, 0, 0⟩
        task := some (s.calls + 1)
        started := true }
  | .stop =>
      if s.queue.length < publishQueueSize then
        some { s with
          calls := s.calls + 1
          queue := s.queue ++ [.none (s.calls + 1)]
          workers := if s.running then s.workers.map s.cancel else s.workers
          started := false }
      else none
  | .put item =>
      if s.queue.length < publishQueueSize then some { s with queue := s.queue ++ [.item item] }
      else none
  | .take i =>
      match s.workers[i]?, s.queue with
      | some w, entry :: queue =>
          match w.stage with
          | .waiting => some { s with queue, workers := s.workers.set i (w.take env entry) }
          | _ => none
      | _, _ => none
  | .reply i r =>
      (s.workers[i]?).bind fun w =>
        match w.stage with
        | .sending text retries =>
            some { s with
              workers :=
                s.workers.set i (w.answer text retries (sendMessage env.floats retries r)) }
        | _ => none
  | .wake i =>
      (s.workers[i]?).bind fun w =>
        match w.stage with
        | .pausing => some { s with workers := s.workers.set i { w with stage := .waiting } }
        | _ => none

end Pool
end ConfigManager
