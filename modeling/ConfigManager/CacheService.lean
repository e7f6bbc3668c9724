import ConfigManager.Py.Text
import ConfigManager.Runs
import Mathlib.Data.Finmap
import Mathlib.Algebra.Order.Monoid.Unbundled.WithTop
import Mathlib.Algebra.Order.Ring.Cast
import Mathlib.Algebra.Order.Ring.Rat

/-! # The cache (`services.cache_service`)

Values and the times they expire at are kept in two dictionaries.  Nothing is removed when
it expires: the next `get` or `exists` of its key finds it and removes it from both.

What a cache answers is determined by the writes before: by the last one that is about the
key, and the clock.  An entry that is missing although its key was set last was found expired
by some read, and the clock does not go back.

This goes wrong only for a lifetime that is no float: `set` stores the value, and the sum that
is the time of its end raises.
-/
namespace ConfigManager

open Py Runs

/-- A dictionary with texts as keys. -/
abbrev Dict (α : Type) := Finmap fun _ : Str => α

/-- The first integer that is rounded to no float. -/
def floatLimit : Nat := 2 ^ 1024 - 2 ^ 970

/-- An integer that Python converts into a float. -/
def FitsFloat (n : Int) : Prop := n.natAbs < floatLimit

instance (n : Int) : Decidable (FitsFloat n) := inferInstanceAs (Decidable (_ < _))

theorem fitsFloat_of_le {n : Int} (h : n.natAbs ≤ 2 ^ 53) : FitsFloat n := by
  have hlimit : 2 ^ 53 < floatLimit := by decide +kernel
  exact lt_of_le_of_lt h hlimit

/-- Seconds, with the two infinities. -/
abbrev Seconds := WithBot (WithTop ℚ)

/-- So many seconds. -/
def Seconds.ofInt (n : Int) : Seconds := ((n : ℚ) : WithTop ℚ)

/-- The times of the event loop's clock, which are floats, with the seconds they stand for. -/
class Clock (τ : Type) extends LinearOrder τ, Zero τ where
  seconds : τ → Seconds
  seconds_lt : ∀ a b, seconds a < seconds b ↔ a < b
  /-- `time + n`, `none` where `n` is no float and the sum raises. -/
  after : τ → Int → Option τ
  after_isSome : ∀ time n, (after time n).isSome = true ↔ FitsFloat n
  /-- The sum is rounded to one of the times next to it; an integer of up to 53 bits is not
  rounded before. -/
  after_le : ∀ time n sum, n.natAbs ≤ 2 ^ 53 → after time n = some sum →
    ∀ t, seconds time + Seconds.ofInt n ≤ seconds t → sum ≤ t
  le_after : ∀ time n sum, n.natAbs ≤ 2 ^ 53 → after time n = some sum →
    ∀ t, seconds t ≤ seconds time + Seconds.ofInt n → t ≤ sum

/-- **A sum of the clock** is told from the exact one only when the clock stands at it. -/
theorem Clock.lt_after_iff {τ : Type} [Clock τ] {time sum now : τ} {n : Int}
    (hn : n.natAbs ≤ 2 ^ 53) (h : Clock.after time n = some sum) (hnow : now ≠ sum) :
    now < sum ↔ Clock.seconds now < Clock.seconds time + Seconds.ofInt n := by
  constructor
  · intro hlt
    by_contra hge
    exact absurd (Clock.after_le time n sum hn h now (not_lt.mp hge)) (not_le.mpr hlt)
  · intro hlt
    exact lt_of_le_of_ne (Clock.le_after time n sum hn h now hlt.le) hnow

/-- `CacheService`, over the values it keeps and the times of its clock. -/
structure CacheService (ν τ : Type) where
  connected : Bool
  /-- `_redis_client` is not `None`. -/
  redisClient : Bool
  localCache : Dict ν
  localCacheTtl : Dict τ

/-- What the server behind the client answers at a time: the data of a response and the clock
when it has come, `none` where there is none or the request raises. -/
structure Redis (ν τ : Type) where
  get : τ → Str → Option (ν × τ)
  keyExists : τ → Str → Bool

/-- `settings.redis_url`: the settings have no such field, and reading it raises. -/
def Settings.redisUrl : Option Str := none

namespace CacheService

variable {ν τ : Type}

/-- What a call returns, `none` where it raises, and the cache it leaves. -/
abbrev Result (ν τ α : Type) := Option α × CacheService ν τ

/-- `CacheService()`. -/
def new : CacheService ν τ := ⟨false, false, ∅, ∅⟩

/-- `connect`; what raises is caught. -/
def connect (s : CacheService ν τ) : CacheService ν τ :=
  if s.connected then s
  else match Settings.redisUrl with
  | none => { s with connected := false }
  | some [] => { s with connected := true }
  | some (_ :: _) => { s with connected := true, redisClient := true }

/-- `disconnect`. -/
def disconnect (s : CacheService ν τ) : CacheService ν τ :=
  { s with connected := false, redisClient := false }

/-- `_get_cache_key`. -/
def getCacheKey (key : Str) : Str := "config_manager:".toList ++ key

/-- `_default_ttl`. -/
def defaultTtl : Int := 3600

/-- `ttl or self._default_ttl`. -/
def ttlOr : Option Int → Int
  | none => defaultTtl
  | some ttl => if ttl = 0 then defaultTtl else ttl

/-- The two `del` statements, each of which raises `KeyError` for a key that is not there. -/
def remove (s : CacheService ν τ) (cacheKey : Str) : Result ν τ Unit :=
  if cacheKey ∈ s.localCache then
    let s := { s with localCache := s.localCache.erase cacheKey }
    if cacheKey ∈ s.localCacheTtl then
      (some (), { s with localCacheTtl := s.localCacheTtl.erase cacheKey })
    else (none, s)
  else (none, s)

variable [Clock τ]

/-- The first half of `get` and `exists`: the value, unless it has expired. -/
def readLocal (s : CacheService ν τ) (now : τ) (cacheKey : Str) : Result ν τ (Option ν) :=
  match s.localCache.lookup cacheKey with
  | some value =>
      if now < (s.localCacheTtl.lookup cacheKey).getD 0 then (some (some value), s)
      else ((s.remove cacheKey).1.map fun _ => none, (s.remove cacheKey).2)
  | none => (some none, s)

variable (redis : Redis ν τ)

/-- `get`; what raises while the server is asked is caught. -/
def get (s : CacheService ν τ) (now : τ) (key : Str) (default : ν) : Result ν τ ν :=
  match s.readLocal now (getCacheKey key) with
  | (some (some value), s) => (some value, s)
  | (some none, s) =>
      if s.connected && s.redisClient then
        match redis.get now (getCacheKey key) with
        | some (data, done) =>
            let s := { s with localCache := s.localCache.insert (getCacheKey key) data }
            match Clock.after done defaultTtl with
            | some expiry => (some data, { s with
                localCacheTtl := s.localCacheTtl.insert (getCacheKey key) expiry })
            | none => (some default, s)
        | none => (some default, s)
      else (some default, s)
  | (none, s) => (none, s)

/-- `set`; what is sent to the server changes nothing here, nor does it below. -/
def set (s : CacheService ν τ) (now : τ) (key : Str) (value : ν) (ttl : Option Int) :
    Result ν τ Unit :=
  let s := { s with localCache := s.localCache.insert (getCacheKey key) value }
  match Clock.after now (ttlOr ttl) with
  | some expiry => (some (), { s with
      localCacheTtl := s.localCacheTtl.insert (getCacheKey key) expiry })
  | none => (none, s)

/-- `delete`. -/
def delete (s : CacheService ν τ) (key : Str) : Result ν τ Unit :=
  if getCacheKey key ∈ s.localCache then s.remove (getCacheKey key) else (some (), s)

/-- `exists`. -/
def keyExists (s : CacheService ν τ) (now : τ) (key : Str) : Result ν τ Bool :=
  match s.readLocal now (getCacheKey key) with
  | (some (some _), s) => (some true, s)
  | (some none, s) =>
      if s.connected && s.redisClient then (some (redis.keyExists now (getCacheKey key)), s)
      else (some false, s)
  | (none, s) => (none, s)

/-- `clear`. -/
def clear (s : CacheService ν τ) : CacheService ν τ :=
  { s with localCache := ∅, localCacheTtl := ∅ }

/-! ## Histories -/

/-- A call of the cache. -/
inductive Op (ν : Type) where
  | get (key : Str) (default : ν)
  | set (key : Str) (value : ν) (ttl : Option Int)
  | delete (key : Str)
  | keyExists (key : Str)
  | clear
  | connect
  | disconnect

/-- What a call returns. -/
inductive Answer (ν : Type) where
  | value (v : ν)
  | bool (b : Bool)
  | none
deriving DecidableEq

/-- A call at a time. -/
def perform (s : CacheService ν τ) (now : τ) : Op ν → Result ν τ (Answer ν)
  | .get key default => ((s.get redis now key default).1.map .value,
      (s.get redis now key default).2)
  | .set key value ttl => ((s.set now key value ttl).1.map fun _ => .none,
      (s.set now key value ttl).2)
  | .delete key => ((s.delete key).1.map fun _ => .none, (s.delete key).2)
  | .keyExists key => ((s.keyExists redis now key).1.map .bool, (s.keyExists redis now key).2)
  | .clear => (some .none, s.clear)
  | .connect => (some .none, s.connect)
  | .disconnect => (some .none, s.disconnect)

/-- A call with the clock it reads. -/
abbrev Event (ν τ : Type) := τ × Op ν

/-- A call leaves a cache, whether it raises or not. -/
def step (s : CacheService ν τ) (e : Event ν τ) : Option (CacheService ν τ) :=
  some (s.perform redis e.1 e.2).2

/-- What the calls of a history return, one after the other. -/
def answers (s : CacheService ν τ) : List (Event ν τ) → List (Option (Answer ν))
  | [] => []
  | e :: es => (s.perform redis e.1 e.2).1 :: answers (s.perform redis e.1 e.2).2 es

/-- The call writes a key or removes it. -/
def Op.affects (key : Str) : Op ν → Bool
  | .set k _ _ => k == key
  | .delete k => k == key
  | .clear => true
  | _ => false

/-- `get` and `exists`. -/
def Op.IsRead : Op ν → Prop
  | .get .. => True
  | .keyExists .. => True
  | _ => False

/-- How many seconds a key is set for. -/
def lifetime : Option Int → Int
  | none | some 0 => 3600
  | some ttl => ttl

/-- The lifetime is a float. -/
def Op.Fits : Op ν → Prop
  | .set _ _ ttl => FitsFloat (lifetime ttl)
  | _ => True

/-- The last call of a history that affects a key. -/
def lastWrite (past : List (Event ν τ)) (key : Str) : Option (Event ν τ) :=
  (past.filter (·.2.affects key)).getLast?

/-- What a key was set to last, and when that expires; `none` if it was not set, or removed
since. -/
def written (past : List (Event ν τ)) (key : Str) : Option (ν × τ) :=
  match lastWrite past key with
  | some (time, .set _ value ttl) =>
      (Clock.after time (lifetime ttl)).map fun expiry => (value, expiry)
  | _ => none

/-- What the cache is to hold for a key at a time. -/
def held (past : List (Event ν τ)) (key : Str) (now : τ) : Option ν :=
  (written past key).bind fun w => if now < w.2 then some w.1 else none

/-- What a call is to return after a history. -/
def specified (past : List (Event ν τ)) (now : τ) : Op ν → Answer ν
  | .get key default => .value ((held past key now).getD default)
  | .keyExists key => .bool (held past key now).isSome
  | _ => .none

/-- What the calls after a history are to return. -/
def specifiedAll (past : List (Event ν τ)) : List (Event ν τ) → List (Answer ν)
  | [] => []
  | e :: es => specified past e.1 e.2 :: specifiedAll (past ++ [e]) es

/-- The clock does not go back. -/
def Timed (history : List (Event ν τ)) : Prop := history.Pairwise (·.1 ≤ ·.1)

/-- What the dictionaries have under a key, against the history: what the key was last set
to, or nothing, if that was found expired. -/
structure EntryReflects (past : List (Event ν τ)) (s : CacheService ν τ) (key : Str) : Prop where
  present : ∀ value, s.localCache.lookup (getCacheKey key) = some value →
    ∃ expiry, written past key = some (value, expiry) ∧
      s.localCacheTtl.lookup (getCacheKey key) = some expiry
  expired : s.localCache.lookup (getCacheKey key) = none →
    ∀ value expiry, written past key = some (value, expiry) → ∃ e ∈ past, ¬e.1 < expiry

structure Reflects (past : List (Event ν τ)) (s : CacheService ν τ) : Prop where
  noClient : s.redisClient = false
  keys : s.localCache.keys = s.localCacheTtl.keys
  entries : ∀ key, EntryReflects past s key

variable {s t : CacheService ν τ} {past : List (Event ν τ)} {key : Str} {now : τ}

/-! ## The last write -/

omit [Clock τ] in
theorem lastWrite_append (e : Event ν τ) (key : Str) :
    lastWrite (past ++ [e]) key = if e.2.affects key then some e else lastWrite past key := by
  rw [lastWrite, List.filter_append, List.filter_singleton]
  cases e.2.affects key with
  | true => exact List.getLast?_concat
  | false => exact congrArg List.getLast? (List.append_nil _)

/-- A call that affects nothing. -/
theorem written_append_of_not_affects {e : Event ν τ} (h : e.2.affects key = false) :
    written (past ++ [e]) key = written past key := by
  rw [written, lastWrite_append, h]
  rfl

theorem written_append_set {k : Str} {value : ν} {ttl : Option Int} :
    written (past ++ [(now, .set k value ttl)]) key =
      if k = key then (Clock.after now (lifetime ttl)).map fun expiry => (value, expiry)
      else written past key := by
  by_cases h : k = key
  · rw [written, lastWrite_append, if_pos (by simpa [Op.affects] using h), if_pos h]
  · rw [if_neg h, written_append_of_not_affects (by simpa [Op.affects] using h)]

theorem written_append_delete {k : Str} :
    written (past ++ [(now, .delete k)]) key = if k = key then none else written past key := by
  by_cases h : k = key
  · rw [written, lastWrite_append, if_pos (by simpa [Op.affects] using h), if_pos h]
  · rw [if_neg h, written_append_of_not_affects (by simpa [Op.affects] using h)]

theorem written_append_clear : written (past ++ [(now, .clear)]) key = none := by
  rw [written, lastWrite_append]
  rfl

omit [Clock τ] in
theorem affects_of_lastWrite {e : Event ν τ} (h : lastWrite past key = some e) :
    e.2.affects key = true :=
  (List.mem_filter.mp (List.mem_of_getLast? h)).2

/-- **When a value is held**: the last call that affects the key set it to the value, for a
time that is not over. -/
theorem held_eq_some_iff {v : ν} :
    held past key now = some v ↔
      ∃ time ttl expiry, lastWrite past key = some (time, .set key v ttl) ∧
        Clock.after time (lifetime ttl) = some expiry ∧ now < expiry := by
  constructor
  · intro h
    obtain ⟨⟨w, expiry⟩, hw, h⟩ := Option.bind_eq_some_iff.mp h
    rw [written] at hw
    split at hw
    next time k value ttl hlast =>
      obtain ⟨_, hafter, he⟩ := Option.map_eq_some_iff.mp hw
      obtain ⟨rfl, rfl⟩ := Prod.mk.inj he
      have hk : k = key := by simpa [Op.affects] using affects_of_lastWrite hlast
      split at h
      next hnow =>
        obtain rfl := Option.some.inj h
        exact ⟨time, ttl, _, hk ▸ hlast, hafter, hnow⟩
      · cases h
    · cases hw
  · rintro ⟨time, ttl, expiry, hlast, hafter, hnow⟩
    rw [held, written, hlast]
    dsimp only
    rw [hafter]
    exact if_pos hnow

/-- **How long a value is held**, in seconds, but for the time that the sum is rounded to. -/
theorem held_iff_seconds {time : τ} {v : ν} {ttl : Option Int}
    (hlast : lastWrite past key = some (time, .set key v ttl))
    (hsmall : (lifetime ttl).natAbs ≤ 2 ^ 53)
    (hnow : Clock.after time (lifetime ttl) ≠ some now) :
    held past key now = some v ↔
      Clock.seconds now < Clock.seconds time + Seconds.ofInt (lifetime ttl) := by
  obtain ⟨expiry, hafter⟩ := Option.isSome_iff_exists.mp
    ((Clock.after_isSome time _).mpr (fitsFloat_of_le hsmall))
  have hne : now ≠ expiry := fun he => hnow (he ▸ hafter)
  rw [← Clock.lt_after_iff hsmall hafter hne, held_eq_some_iff]
  constructor
  · rintro ⟨time', ttl', expiry', hlast', hafter', hlt⟩
    obtain ⟨rfl, ⟨⟩⟩ := Prod.mk.inj (Option.some.inj (hlast.symm.trans hlast'))
    exact Option.some.inj (hafter'.symm.trans hafter) ▸ hlt
  · intro hlt
    exact ⟨time, ttl, expiry, hlast, hafter, hlt⟩

/-- What has expired before is not held. -/
theorem held_eq_none (hpast : ∀ e ∈ past, e.1 ≤ now)
    (h : ∀ value expiry, written past key = some (value, expiry) → ∃ e ∈ past, ¬e.1 < expiry) :
    held past key now = none := by
  cases hw : written past key with
  | none => rw [held, hw]; rfl
  | some w =>
    obtain ⟨e, he, hexp⟩ := h w.1 w.2 hw
    rw [held, hw]
    exact if_neg fun hnow => hexp (lt_of_le_of_lt (hpast e he) hnow)

/-! ## Entries -/

theorem getCacheKey_ne {k : Str} (h : k ≠ key) : getCacheKey key ≠ getCacheKey k :=
  fun he => h (List.append_cancel_left he).symm

/-- **The frame**: a call that does not affect a key leaves its entry. -/
theorem EntryReflects.append (h : EntryReflects past s key) {e : Event ν τ}
    (he : e.2.affects key = false)
    (hcache : t.localCache.lookup (getCacheKey key) = s.localCache.lookup (getCacheKey key))
    (httl : t.localCacheTtl.lookup (getCacheKey key) =
      s.localCacheTtl.lookup (getCacheKey key)) :
    EntryReflects (past ++ [e]) t key := by
  constructor
  · intro value hv
    rw [written_append_of_not_affects he, httl]
    exact h.present value (hcache ▸ hv)
  · intro hnone value expiry hw
    rw [written_append_of_not_affects he] at hw
    obtain ⟨f, hf, hexp⟩ := h.expired (hcache ▸ hnone) value expiry hw
    exact ⟨f, List.mem_append_left _ hf, hexp⟩

theorem Reflects.mem_iff (h : Reflects past s) (cacheKey : Str) :
    cacheKey ∈ s.localCache ↔ cacheKey ∈ s.localCacheTtl := by
  rw [← Finmap.mem_keys, h.keys, Finmap.mem_keys]

/-- An entry is removed from both dictionaries. -/
theorem Reflects.remove (h : Reflects past s) {cacheKey : Str} (hmem : cacheKey ∈ s.localCache) :
    s.remove cacheKey = (some (), { s with
      localCache := s.localCache.erase cacheKey
      localCacheTtl := s.localCacheTtl.erase cacheKey }) := by
  rw [CacheService.remove, if_pos hmem]
  exact if_pos ((h.mem_iff _).mp hmem)

/-! ## One call -/

theorem reflects_new : Reflects ([] : List (Event ν τ)) new where
  noClient := rfl
  keys := rfl
  entries _ := ⟨fun _ h => (nomatch h), fun _ _ _ h => nomatch h⟩

omit [Clock τ] in
theorem ttlOr_eq_lifetime (ttl : Option Int) : ttlOr ttl = lifetime ttl := by
  unfold lifetime
  split
  next => rfl
  next => rfl
  next hzero => exact if_neg hzero

variable (now) in
theorem Reflects.set (h : Reflects past s) (k : Str) (value : ν) {ttl : Option Int}
    (hfits : FitsFloat (lifetime ttl)) :
    ∃ t, s.set now k value ttl = (some (), t) ∧
      Reflects (past ++ [(now, .set k value ttl)]) t := by
  obtain ⟨expiry, hafter⟩ := Option.isSome_iff_exists.mp ((Clock.after_isSome now _).mpr hfits)
  refine ⟨{ s with
    localCache := s.localCache.insert (getCacheKey k) value
    localCacheTtl := s.localCacheTtl.insert (getCacheKey k) expiry }, ?_, h.noClient, ?_, ?_⟩
  · rw [CacheService.set, ttlOr_eq_lifetime, hafter]
  · ext x
    rw [Finmap.mem_keys, Finmap.mem_keys]
    simp only [Finmap.mem_insert, h.mem_iff]
  · intro key
    by_cases hk : k = key
    · subst hk
      constructor
      · intro v hv
        rw [Finmap.lookup_insert] at hv
        obtain rfl := Option.some.inj hv
        exact ⟨expiry, by rw [written_append_set, if_pos rfl, hafter]; rfl,
          Finmap.lookup_insert _⟩
      · intro hnone
        rw [Finmap.lookup_insert] at hnone
        cases hnone
    · exact (h.entries key).append (by simpa [Op.affects] using hk)
        (Finmap.lookup_insert_of_ne _ (getCacheKey_ne hk))
        (Finmap.lookup_insert_of_ne _ (getCacheKey_ne hk))

/-- A key that is in neither dictionary. -/
theorem EntryReflects.of_absent (hnone : s.localCache.lookup (getCacheKey key) = none)
    (h : ∀ value expiry, written past key = some (value, expiry) → ∃ e ∈ past, ¬e.1 < expiry) :
    EntryReflects past s key where
  present value hv := by rw [hnone] at hv; cases hv
  expired _ := h

/-- Removing an entry, for a call that affects no other key. -/
theorem Reflects.erase (h : Reflects past s) {e : Event ν τ} {k : Str}
    (he : ∀ key, k ≠ key → e.2.affects key = false)
    (hk : ∀ value expiry, written (past ++ [e]) k = some (value, expiry) →
      ∃ f ∈ past ++ [e], ¬f.1 < expiry) :
    Reflects (past ++ [e]) { s with
      localCache := s.localCache.erase (getCacheKey k)
      localCacheTtl := s.localCacheTtl.erase (getCacheKey k) } where
  noClient := h.noClient
  keys := by
    ext x
    rw [Finmap.mem_keys, Finmap.mem_keys, Finmap.mem_erase, Finmap.mem_erase, h.mem_iff]
  entries key := by
    by_cases hkey : k = key
    · subst hkey
      exact .of_absent (Finmap.lookup_erase ..) hk
    · exact (h.entries key).append (he key hkey) (Finmap.lookup_erase_ne (getCacheKey_ne hkey))
        (Finmap.lookup_erase_ne (getCacheKey_ne hkey))

/-- A call that affects no key and leaves the dictionaries. -/
theorem Reflects.keep (h : Reflects past s) {e : Event ν τ} (he : ∀ key, e.2.affects key = false)
    (hclient : t.redisClient = false) (hcache : t.localCache = s.localCache)
    (httl : t.localCacheTtl = s.localCacheTtl) : Reflects (past ++ [e]) t where
  noClient := hclient
  keys := by rw [hcache, httl, h.keys]
  entries key := (h.entries key).append (he key) (by rw [hcache]) (by rw [httl])

theorem Reflects.delete (h : Reflects past s) (k : Str) :
    ∃ t, s.delete k = (some (), t) ∧ Reflects (past ++ [(now, .delete k)]) t := by
  have hother : ∀ key, k ≠ key → (Op.delete k : Op ν).affects key = false := fun key hk => by
    simpa [Op.affects] using hk
  have hwritten : written (past ++ [(now, .delete k)]) k = none := by
    rw [written_append_delete, if_pos rfl]
  rw [CacheService.delete]
  split
  next hmem => exact ⟨_, h.remove hmem, h.erase hother (by simp [hwritten])⟩
  next hmem =>
    refine ⟨s, rfl, h.noClient, h.keys, fun key => ?_⟩
    by_cases hkey : k = key
    · subst hkey
      exact .of_absent (Finmap.lookup_eq_none.mpr hmem) (by simp [hwritten])
    · exact (h.entries key).append (hother key hkey) rfl rfl

theorem Reflects.clear (h : Reflects past s) : Reflects (past ++ [(now, .clear)]) s.clear where
  noClient := h.noClient
  keys := rfl
  entries _ := .of_absent (Finmap.lookup_empty _) (by simp [written_append_clear])

/-- The first half of a read: it returns what is held, and removes what it finds expired. -/
theorem Reflects.readLocal (h : Reflects past s) (hpast : ∀ e ∈ past, e.1 ≤ now) (op : Op ν)
    (hop : ∀ key, op.affects key = false) (key : Str) :
    ∃ t, s.readLocal now (getCacheKey key) = (some (held past key now), t) ∧
      Reflects (past ++ [(now, op)]) t := by
  cases hlook : s.localCache.lookup (getCacheKey key) with
  | none =>
    rw [CacheService.readLocal, hlook, held_eq_none hpast ((h.entries key).expired hlook)]
    exact ⟨s, rfl, h.keep hop h.noClient rfl rfl⟩
  | some value =>
    obtain ⟨expiry, hw, httl⟩ := (h.entries key).present value hlook
    have hheld : held past key now = if now < expiry then some value else none := by
      rw [held, hw, Option.bind_some]
    rw [CacheService.readLocal, hlook, httl, hheld]
    simp only [Option.getD_some]
    by_cases hnow : now < expiry
    · rw [if_pos hnow, if_pos hnow]
      exact ⟨s, rfl, h.keep hop h.noClient rfl rfl⟩
    · have hexpired : ∀ v x, written (past ++ [(now, op)]) key = some (v, x) →
          ∃ e ∈ past ++ [(now, op)], ¬e.1 < x := by
        intro v x hx
        rw [written_append_of_not_affects (hop key), hw] at hx
        obtain ⟨-, rfl⟩ := Prod.mk.inj (Option.some.inj hx)
        exact ⟨_, List.mem_append_right _ (List.mem_singleton_self _), hnow⟩
      rw [if_neg hnow, if_neg hnow, h.remove (Finmap.mem_of_lookup_eq_some hlook)]
      exact ⟨_, rfl, h.erase (fun k _ => hop k) hexpired⟩

omit [Clock τ] in
/-- With no client and no address there is none after `connect`. -/
theorem connect_keeps (s : CacheService ν τ) :
    s.connect.redisClient = s.redisClient ∧ s.connect.localCache = s.localCache ∧
      s.connect.localCacheTtl = s.localCacheTtl := by
  rw [connect]
  split
  · exact ⟨rfl, rfl, rfl⟩
  · exact ⟨rfl, rfl, rfl⟩

/-- **The step**: no call raises, and each returns what is specified. -/
theorem Reflects.perform (h : Reflects past s) (hpast : ∀ e ∈ past, e.1 ≤ now) (op : Op ν)
    (hfits : op.Fits) :
    ∃ t, s.perform redis now op = (some (specified past now op), t) ∧
      Reflects (past ++ [(now, op)]) t := by
  cases op with
  | get key default =>
    obtain ⟨t, hread, ht⟩ := h.readLocal hpast (.get key default) (fun _ => rfl) key
    refine ⟨t, ?_, ht⟩
    rw [CacheService.perform, CacheService.get, hread, specified]
    cases held past key now with
    | some value => rfl
    | none => simp [ht.noClient]
  | set key value ttl =>
    obtain ⟨t, hset, ht⟩ := h.set now key value hfits
    exact ⟨t, by rw [CacheService.perform, hset]; rfl, ht⟩
  | delete key =>
    obtain ⟨t, hdelete, ht⟩ := h.delete key
    exact ⟨t, by rw [CacheService.perform, hdelete]; rfl, ht⟩
  | keyExists key =>
    obtain ⟨t, hread, ht⟩ := h.readLocal hpast (.keyExists key) (fun _ => rfl) key
    refine ⟨t, ?_, ht⟩
    rw [CacheService.perform, CacheService.keyExists, hread, specified]
    cases held past key now with
    | some value => rfl
    | none => simp [ht.noClient]
  | clear => exact ⟨_, rfl, h.clear⟩
  | connect =>
    obtain ⟨hclient, hcache, httl⟩ := connect_keeps s
    exact ⟨_, rfl, h.keep (fun _ => rfl) (hclient.trans h.noClient) hcache httl⟩
  | disconnect => exact ⟨_, rfl, h.keep (fun _ => rfl) rfl rfl rfl⟩

/-! ## Runs -/

/-- A history that goes on keeps what it keeps, and all its answers are as specified. -/
theorem Reflects.run (h : Reflects past s) (later : List (Event ν τ))
    (ht : Timed (past ++ later)) (hfits : ∀ e ∈ later, e.2.Fits) :
    (∀ t ∈ visited (step redis) s later, t.localCache.keys = t.localCacheTtl.keys) ∧
      answers redis s later = (specifiedAll past later).map some := by
  induction later generalizing past s with
  | nil =>
    refine ⟨?_, rfl⟩
    intro t hvisited
    obtain rfl := List.mem_singleton.mp hvisited
    exact h.keys
  | cons e later ih =>
    obtain ⟨hfirst, hrestFits⟩ := List.forall_mem_cons.mp hfits
    have hpast : ∀ f ∈ past, f.1 ≤ e.1 := fun f hf =>
      (List.pairwise_append.mp ht).2.2 f hf e (List.mem_cons_self ..)
    obtain ⟨t, hperform, htreflects⟩ := h.perform redis hpast e.2 hfirst
    have hstep : step redis s e = some t := by rw [step, hperform]
    have hrest : Timed ((past ++ [e]) ++ later) := by rwa [List.append_assoc]
    obtain ⟨hvisited, hanswers⟩ := ih htreflects hrest hrestFits
    refine ⟨?_, ?_⟩
    · rw [visited_cons hstep, List.forall_mem_cons]
      exact ⟨h.keys, hvisited⟩
    · rw [answers, hperform, hanswers]
      rfl

omit [Clock τ] in
theorem lastWrite_append_read {e : Event ν τ} (he : e.2.IsRead) :
    lastWrite (past ++ [e]) = lastWrite past := by
  have haffects : ∀ key, e.2.affects key = false := by
    intro key
    cases hop : e.2 with
    | get | keyExists => rfl
    | _ => rw [hop] at he; exact he.elim
  funext key
  rw [lastWrite_append, haffects, if_neg Bool.false_ne_true]

/-- Only the writes before count. -/
theorem specifiedAll_congr {past' : List (Event ν τ)} (h : lastWrite past = lastWrite past')
    (later : List (Event ν τ)) : specifiedAll past later = specifiedAll past' later := by
  induction later generalizing past past' with
  | nil => rfl
  | cons e later ih =>
    have hheld : ∀ key, held past key e.1 = held past' key e.1 := fun key => by
      rw [held, held, written, written, h]
    have hop : specified past e.1 e.2 = specified past' e.1 e.2 := by
      cases e.2 <;> simp only [specified, hheld]
    have hlast : lastWrite (past ++ [e]) = lastWrite (past' ++ [e]) := by
      funext key
      rw [lastWrite_append, lastWrite_append, h]
    rw [specifiedAll, specifiedAll, hop, ih hlast]

theorem specifiedAll_append (first later : List (Event ν τ)) :
    specifiedAll past (first ++ later) =
      specifiedAll past first ++ specifiedAll (past ++ first) later := by
  induction first generalizing past with
  | nil => rw [List.append_nil]; rfl
  | cons e first ih =>
    rw [List.cons_append, specifiedAll, specifiedAll, ih, List.append_assoc]
    rfl

theorem length_specifiedAll (later : List (Event ν τ)) :
    (specifiedAll past later).length = later.length := by
  induction later generalizing past with
  | nil => rfl
  | cons e later ih => rw [specifiedAll, List.length_cons, ih, List.length_cons]

/-- Without a read, the other calls are to return the same. -/
theorem specifiedAll_eraseIdx {e : Event ν τ} (he : e.2.IsRead) (later : List (Event ν τ)) :
    (specifiedAll [] (past ++ e :: later)).eraseIdx past.length =
      specifiedAll [] (past ++ later) := by
  have hlen : (specifiedAll [] past).length = past.length := length_specifiedAll past
  rw [specifiedAll_append, specifiedAll_append, List.eraseIdx_append_of_length_le hlen.le,
    hlen, Nat.sub_self, specifiedAll, List.eraseIdx_cons_zero, List.nil_append,
    specifiedAll_congr (lastWrite_append_read he)]

/-- **The lifetime of an entry.**  Over any history without a server whose lifetimes are floats
no call raises, the dictionaries have the same keys in every state, every call returns what the
last write before it and the clock say, and without a read all other calls return the same.  A
value is held as long as it was set for, or for an hour, but for the time that the end of its
life is rounded to. -/
theorem answers_specified (redis : Redis ν τ) (history : List (Event ν τ)) (h : Timed history)
    (hfits : ∀ e ∈ history, e.2.Fits) :
    (∀ t ∈ visited (step redis) new history, t.localCache.keys = t.localCacheTtl.keys) ∧
      answers redis new history = (specifiedAll [] history).map some ∧
      (∀ past e later, history = past ++ e :: later → e.2.IsRead →
        answers redis new (past ++ later) =
          ((specifiedAll [] history).eraseIdx past.length).map some) ∧
      ∀ past key now time value ttl, past <+: history →
        lastWrite past key = some (time, .set key value ttl) →
        (lifetime ttl).natAbs ≤ 2 ^ 53 → Clock.after time (lifetime ttl) ≠ some now →
        (held past key now = some value ↔
          Clock.seconds now < Clock.seconds time + Seconds.ofInt (lifetime ttl)) := by
  obtain ⟨hkeys, hanswers⟩ := reflects_new.run redis history h hfits
  refine ⟨hkeys, hanswers, ?_, fun past key now time value ttl _ hlast hsmall hnow =>
    held_iff_seconds hlast hsmall hnow⟩
  rintro past e later rfl he
  have hsub : (past ++ later).Sublist (past ++ e :: later) :=
    (List.sublist_cons_self e later).append_left past
  have hshort : Timed (past ++ later) := List.Pairwise.sublist hsub h
  rw [specifiedAll_eraseIdx he]
  exact (reflects_new.run redis (past ++ later) hshort fun f hf =>
    hfits f (hsub.subset hf)).2

theorem ofInt_le_ofInt {m n : Int} : Seconds.ofInt m ≤ Seconds.ofInt n ↔ m ≤ n := by
  rw [Seconds.ofInt, Seconds.ofInt, WithBot.coe_le_coe, WithTop.coe_le_coe, Int.cast_le]

theorem ofInt_add (m n : Int) : Seconds.ofInt (m + n) = Seconds.ofInt m + Seconds.ofInt n := by
  rw [Seconds.ofInt, Int.cast_add, WithTop.coe_add, WithBot.coe_add]
  rfl

/-- A clock that counts seconds. -/
instance : Clock ℤ where
  seconds := Seconds.ofInt
  seconds_lt a b := lt_iff_lt_of_le_iff_le ofInt_le_ofInt
  after time n := if FitsFloat n then some (time + n) else none
  after_isSome time n := by
    split
    next h => exact iff_of_true rfl h
    next h => exact iff_of_false Bool.false_ne_true h
  after_le time n sum _ h t ht := by
    obtain ⟨-, h⟩ := Option.ite_none_right_eq_some.mp h
    obtain rfl := Option.some.inj h
    rwa [← ofInt_add, ofInt_le_ofInt] at ht
  le_after time n sum _ h t ht := by
    obtain ⟨-, h⟩ := Option.ite_none_right_eq_some.mp h
    obtain rfl := Option.some.inj h
    rwa [← ofInt_add, ofInt_le_ofInt] at ht

/-- A key that is set for ten seconds, and then for the default time. -/
def sampleHistory : List (Event ℤ ℤ) :=
  [(0, .connect), (0, .set "a".toList 7 (some 10)), (9, .get "a".toList 0),
    (10, .keyExists "a".toList), (10, .set "a".toList 8 none), (3609, .get "a".toList 0),
    (3610, .get "a".toList 0), (3611, .delete "a".toList)]

/-- A server that has every key. -/
def sampleRedis : Redis ℤ ℤ := ⟨fun now _ => some (9, now), fun _ _ => true⟩

/-- The second read, at the end of the ten seconds, finds the key expired; without it the
later reads find the same.  The server is never asked. -/
theorem answers_sample :
    answers sampleRedis new sampleHistory =
        [.none, .none, .value 7, .bool false, .none, .value 8, .value 0, .none].map some ∧
      answers sampleRedis new (sampleHistory.eraseIdx 3) =
        [.none, .none, .value 7, .none, .value 8, .value 0, .none].map some := by
  have htimed : Timed sampleHistory := by simp [Timed, sampleHistory]
  have hfits : ∀ e ∈ sampleHistory, e.2.Fits := by
    simp only [sampleHistory, List.forall_mem_cons]
    exact ⟨trivial, fitsFloat_of_le (by decide), trivial, trivial, fitsFloat_of_le (by decide),
      trivial, trivial, trivial, by simp⟩
  have hspecified : specifiedAll [] sampleHistory =
      [.none, .none, .value 7, .bool false, .none, .value 8, .value 0, .none] := by
    decide +kernel
  obtain ⟨-, hanswers, hwithout, -⟩ :=
    answers_specified sampleRedis sampleHistory htimed hfits
  have hshort := hwithout (sampleHistory.take 3) (sampleHistory.get ⟨3, by decide⟩)
    (sampleHistory.drop 4) rfl trivial
  rw [hspecified] at hanswers hshort
  exact ⟨hanswers, hshort⟩

/-- More seconds than a float can count. -/
def longTtl : Int := 10 ^ 400

/-- A key that is set for so long, and read. -/
def overflowHistory : List (Event ℤ ℤ) :=
  [(0, .set "a".toList 7 (some longTtl)), (1, .get "a".toList 0)]

/-- The `set` raises, and leaves a value without a time; so the `get` raises. -/
theorem not_answers_overflow :
    Timed overflowHistory ∧ answers sampleRedis new overflowHistory = [none, none] ∧
      ¬∀ t ∈ visited (step sampleRedis) new overflowHistory,
        t.localCache.keys = t.localCacheTtl.keys := by
  refine ⟨by simp [Timed, overflowHistory], by decide +kernel, by decide +kernel⟩

end CacheService

end ConfigManager
