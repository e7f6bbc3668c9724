import ConfigManager.Validator

/-! # Links validated one after the other

A coroutine of `validate_one` awaits two services, the connection test and the country
lookup.  Take their answers as given (`Services`), exceptions included: then what becomes
of a link depends on the link (`outcome`), and what a call leaves in the validator is its
hash, if it returns a record, and the country of its host, if it asks for one (`Settled`).
-/
namespace ConfigManager

open Py

variable (env : Env)

/-! ## Keys of the country cache -/

/-- What the floats of a dictionary's keys are told apart by: a float equals one integer at
most, and is the only one that does, but for the two zeros. -/
structure KeyLaws (F : Json.Floats) : Prop where
  int_unique : ∀ t m n, F.eqInt t m = true → F.eqInt t n = true → m = n
  float_unique : ∀ s t m, F.eqInt s m = true → F.eqInt t m = true → s = t ∨ m = 0
  nan : ∀ m, F.eqInt "NaN".toList m = false

/-- A number that equals an integer. -/
def Denotes (F : Json.Floats) : Int ⊕ Str → Int → Prop
  | .inl n, m => n = m
  | .inr t, m => F.eqInt t m = true

/-- Two numbers are equal. -/
def OneNumber (F : Json.Floats) (x y : Int ⊕ Str) : Prop :=
  x = y ∧ x ≠ .inr "NaN".toList ∨ ∃ m, Denotes F x m ∧ Denotes F y m

section
variable {F : Json.Floats} {a b c : Json}

theorem Denotes.unique (hF : KeyLaws F) {x : Int ⊕ Str} {m n : Int} (hm : Denotes F x m)
    (hn : Denotes F x n) : m = n := by
  cases x with
  | inl k => exact hm.symm.trans hn
  | inr t => exact hF.int_unique t m n hm hn

theorem sameKey_iff (hF : KeyLaws F) : sameKey F a b = true ↔
    numeric a = none ∧ a = b ∨
      ∃ x y, numeric a = some x ∧ numeric b = some y ∧ OneNumber F x y := by
  unfold sameKey
  cases ha : numeric a with
  | none =>
    cases hb : numeric b with
    | none => simp
    | some y =>
      have hne : a ≠ b := fun h => by rw [h, hb] at ha; cases ha
      simp [hne]
  | some x =>
    cases hb : numeric b with
    | none => simp
    | some y =>
      simp only [reduceCtorEq, false_and, false_or, Option.some.injEq, exists_and_left,
        exists_eq_left']
      rcases x with m | s <;> rcases y with n | t
      · simp [OneNumber, Denotes, eq_comm]
      · simp [OneNumber, Denotes]
      · simp [OneNumber, Denotes]
      · rw [decide_eq_true_eq]
        constructor
        · rintro (⟨rfl, hnan⟩ | ⟨hs, ht⟩)
          · exact .inl ⟨rfl, fun h => hnan (Sum.inr.inj h)⟩
          · exact .inr ⟨0, hs, ht⟩
        · rintro (⟨h, hnan⟩ | ⟨m, hs, ht⟩)
          · exact .inl ⟨Sum.inr.inj h, fun h => hnan (congrArg Sum.inr h)⟩
          -- Two floats that equal an integer are one float, or zeros.
          · rcases hF.float_unique s t m hs ht with rfl | rfl
            · refine .inl ⟨rfl, fun h => ?_⟩
              rw [Denotes, h, hF.nan] at hs
              cases hs
            · exact .inr ⟨hs, ht⟩

theorem sameKey_symm (hF : KeyLaws F) (h : sameKey F a b = true) : sameKey F b a = true := by
  rw [sameKey_iff hF] at h ⊢
  rcases h with ⟨ha, rfl⟩ | ⟨x, y, hx, hy, hone⟩
  · exact .inl ⟨ha, rfl⟩
  · refine .inr ⟨y, x, hy, hx, ?_⟩
    rcases hone with ⟨rfl, hnan⟩ | ⟨m, hm, hn⟩
    · exact .inl ⟨rfl, hnan⟩
    · exact .inr ⟨m, hn, hm⟩

theorem sameKey_trans (hF : KeyLaws F) (hab : sameKey F a b = true) (hbc : sameKey F b c = true) :
    sameKey F a c = true := by
  rw [sameKey_iff hF] at hab hbc ⊢
  rcases hab with ⟨ha, rfl⟩ | ⟨x, y, hx, hy, hone⟩
  · exact hbc
  rcases hbc with ⟨hb, rfl⟩ | ⟨y', z, hy', hz, hone'⟩
  · exact .inr ⟨x, y, hx, hy, hone⟩
  obtain rfl : y = y' := Option.some.inj (hy.symm.trans hy')
  refine .inr ⟨x, z, hx, hz, ?_⟩
  rcases hone with ⟨rfl, -⟩ | ⟨m, hm, hn⟩
  · exact hone'
  rcases hone' with ⟨rfl, -⟩ | ⟨n, hm', hn'⟩
  · exact .inr ⟨m, hm, hn⟩
  · obtain rfl : m = n := hn.unique hF hm'
    exact .inr ⟨m, hm, hn'⟩

end

namespace Validator

variable {env} {v : Validator} {a b host : Json} {config : Str} {country : Country}

/-- Hosts that are one key are in the cache together. -/
theorem cached_congr (hF : KeyLaws env.floats) (h : sameKey env.floats a b = true) :
    v.cached env a = v.cached env b := by
  have hkey : (fun entry : Json × Country => sameKey env.floats entry.1 a) =
      fun entry => sameKey env.floats entry.1 b := by
    funext entry
    rw [Bool.eq_iff_iff]
    exact ⟨fun ha => sameKey_trans hF ha h, fun hb => sameKey_trans hF hb (sameKey_symm hF h)⟩
  rw [cached, cached, hkey]

theorem cached_remember (v : Validator) (host other : Json) (country : Country) :
    (v.remember host country).cached env other =
      if sameKey env.floats host other then some country else v.cached env other := by
  rw [cached, remember, List.find?_cons]
  split_ifs with h
  · rw [h]
    rfl
  · rw [Bool.not_eq_true] at h
    rw [h]
    rfl

/-- The watermark leaves the country cache alone. -/
theorem cached_finish (v : Validator) (config : Str) (country : Country) (host : Json) :
    (v.finish env config country).1.cached env host = v.cached env host := by
  rw [finish]
  split <;> rfl

theorem mem_seenHashes_finish (v : Validator) (config : Str) (country : Country) (h : Str) :
    h ∈ (v.finish env config country).1.seenHashes ↔
      h ∈ v.seenHashes ∨ (recordOf env config country).isSome = true ∧ configHash config = h := by
  rw [finish]
  split
  next r hr => simp [hr, or_comm, eq_comm]
  next hr => simp [hr]

theorem stage_finish (v : Validator) (config : Str) (country : Country) :
    (v.finish env config country).2 = .finished (recordOf env config country) := by
  rw [finish]
  split
  next r hr => rw [hr]
  next hr => rw [hr]

end Validator

/-! ## Services -/

/-- `ping_host` and `fetch_country_code` by their arguments; `none` is an exception. -/
structure Services where
  ping : Json → Option Int → Option Bool
  lookup : Json → Option Country
  /-- A host that is no text has no `replace`, which `fetch_country_code` catches. -/
  lookup_other : ∀ host, (∀ s, host ≠ .str s) → lookup host = some (some "UN".toList)

/-- The host of a link. -/
def hostOf (config : Str) : Json := extractHost env.floats config

namespace Services

variable (S : Services) (checkPing : Bool)

/-- A coroutine that is let in, or gets the answer it awaits, runs to its next await. -/
def advance (v : Validator) (config : Str) : Stage → Validator × Stage
  | .waiting => v.start env checkPing config
  | .pinging =>
      if S.ping (hostOf env config) (extractPort env.floats config) = some true then
        v.locate env config
      else (v, .finished none)
  | .locating =>
      match S.lookup (hostOf env config) with
      | some country => (v.remember (hostOf env config) country).finish env config country
      | none => (v, .finished none)
  | .finished outcome => (v, .finished outcome)

/-- `validate_one`, `none` where it returns `None` or raises: there are two awaits. -/
def validateOne (v : Validator) (config : Str) : Validator × Option Record :=
  let first := S.advance env checkPing v config .waiting
  let second := S.advance env checkPing first.1 config first.2
  let third := S.advance env checkPing second.1 config second.2
  (third.1, third.2.record?)

/-- `validate_one` on one link after the other, and the records it returns. -/
def validateAll (v : Validator) : List Str → Validator × List Record
  | [] => (v, [])
  | config :: configs =>
      let (w, record) := S.validateOne env checkPing v config
      let (w, records) := validateAll w configs
      (w, record.toList ++ records)

/-! ## What becomes of a link -/

/-- Whether the connection is tested. -/
def Tested (config : Str) : Prop :=
  checkPing = true ∧ truthy (hostOf env config) = true ∧
    (extractPort env.floats config).any (· ≠ 0) = true

/-- Whether a link with a new hash comes to its country. -/
def Alive (config : Str) : Prop :=
  detectProtocol config ≠ .unknown ∧
    (Tested env checkPing config →
      S.ping (hostOf env config) (extractPort env.floats config) = some true)

instance (config : Str) : Decidable (S.Alive env checkPing config) :=
  inferInstanceAs (Decidable (_ ∧ (_ ∧ _ ∧ _ → _)))

/-- The country of a link, `none` where there is an exception. -/
def countryOf (config : Str) : Option Country :=
  if truthy (hostOf env config) then
    if hashable (hostOf env config) then S.lookup (hostOf env config) else none
  else some (some "UN".toList)

/-- **What becomes of a link with a new hash.** -/
def outcome (config : Str) : Option Record :=
  if S.Alive env checkPing config then (S.countryOf env config).bind (recordOf env config) else none

/-- Whether the country cache is asked for the host. -/
def Asks (config : Str) : Prop :=
  S.Alive env checkPing config ∧ truthy (hostOf env config) = true ∧
    hashable (hostOf env config) = true

/-- What calls for these links leave in the validator: the hashes of their records, and the
countries of their hosts. -/
structure Settled (v : Validator) (configs : List Str) (w : Validator) : Prop where
  hashes : ∀ h, h ∈ w.seenHashes ↔ h ∈ v.seenHashes ∨
    ∃ c ∈ configs, (S.outcome env checkPing c).isSome = true ∧ configHash c = h
  asked : ∀ c ∈ configs, S.Asks env checkPing c → ∀ host,
    sameKey env.floats (hostOf env c) host = true → w.cached env host = S.lookup (hostOf env c)
  kept : ∀ host, (∀ c ∈ configs, S.Asks env checkPing c →
    sameKey env.floats (hostOf env c) host = false) → w.cached env host = v.cached env host

/-- The lookups and the cache agree on the hosts of these links. -/
def Agrees (configs : List Str) (v : Validator) : Prop :=
  ∀ c ∈ configs, ∀ country, v.cached env (hostOf env c) = some country →
    S.lookup (hostOf env c) = some country

/-- Where the coroutine of a link may stand. -/
def StageOk (config : Str) : Stage → Prop
  | .waiting => True
  | .pinging => detectProtocol config ≠ .unknown ∧ Tested env checkPing config
  | .locating => S.Asks env checkPing config
  | .finished outcome => outcome = S.outcome env checkPing config

end Services

/-- How many stretches of a call are left, at most. -/
def Stage.rank : Stage → Nat
  | .waiting => 3
  | .pinging => 2
  | .locating => 1
  | .finished _ => 0

/-- The link of a call that has come to its end. -/
def Stage.returned (config : Str) : Stage → List Str
  | .finished _ => [config]
  | _ => []

variable {env} {S : Services} {checkPing : Bool} {v w u : Validator} {config : Str}
  {configs cs ds : List Str} {stage : Stage}

theorem Stage.returned_of_rank (h : stage.rank ≠ 0) : stage.returned config = [] := by
  cases stage <;> first | rfl | exact absurd rfl h

theorem Stage.eq_of_mem_returned {c : Str} (h : c ∈ stage.returned config) : c = config := by
  cases stage with
  | finished outcome => exact List.mem_singleton.mp h
  | waiting | pinging | locating => exact absurd h List.not_mem_nil

namespace Services

/-- **Hosts that are one key** of the country cache have one country: they are one text, or no
text is among them. -/
theorem lookup_congr {F : Json.Floats} {a b : Json} (S : Services) (hF : KeyLaws F)
    (h : sameKey F a b = true) : S.lookup a = S.lookup b := by
  have hother : ∀ {c : Json} {x : Int ⊕ Str}, numeric c = some x →
      S.lookup c = some (some "UN".toList) := by
    rintro c x hc
    refine S.lookup_other c ?_
    rintro s rfl
    cases hc
  rcases (sameKey_iff hF).mp h with ⟨-, rfl⟩ | ⟨x, y, ha, hb, -⟩
  · rfl
  · rw [hother ha, hother hb]

/-! ## What calls leave behind -/

theorem Settled.refl (v : Validator) : S.Settled env checkPing v [] v :=
  ⟨fun h => by simp, fun c hc => absurd hc List.not_mem_nil, fun _ _ => rfl⟩

/-- A host is in the cache with its answer, or as it was before. -/
theorem Settled.cached (h : S.Settled env checkPing v cs w) (host : Json) :
    (∃ c ∈ cs, S.Asks env checkPing c ∧ sameKey env.floats (hostOf env c) host = true ∧
      w.cached env host = S.lookup (hostOf env c)) ∨
    (∀ c ∈ cs, S.Asks env checkPing c → sameKey env.floats (hostOf env c) host = false) ∧
      w.cached env host = v.cached env host := by
  by_cases hmem : ∃ c ∈ cs, S.Asks env checkPing c ∧
      sameKey env.floats (hostOf env c) host = true
  · obtain ⟨c, hc, hasks, hkey⟩ := hmem
    exact .inl ⟨c, hc, hasks, hkey, h.asked c hc hasks host hkey⟩
  · have hnot : ∀ c ∈ cs, S.Asks env checkPing c →
        sameKey env.floats (hostOf env c) host = false := by
      intro c hc hasks
      rw [← Bool.not_eq_true]
      exact fun hkey => hmem ⟨c, hc, hasks, hkey⟩
    exact .inr ⟨hnot, h.kept host hnot⟩

/-- Calls after calls. -/
theorem Settled.trans (hF : KeyLaws env.floats)
    (h₁ : S.Settled env checkPing v cs w) (h₂ : S.Settled env checkPing w ds u) :
    S.Settled env checkPing v (cs ++ ds) u := by
  refine ⟨fun h => ?_, fun c hc hasks host hkey => ?_, fun host hother => ?_⟩
  · rw [h₂.hashes, h₁.hashes]
    simp only [List.mem_append, or_and_right, exists_or, or_assoc]
  · rcases h₂.cached host with ⟨d, hd, -, hkey', hcached⟩ | ⟨hnot, hcached⟩
    · -- The host was asked for once more, with the same answer.
      rw [hcached, S.lookup_congr hF (sameKey_trans hF hkey (sameKey_symm hF hkey'))]
    · rcases List.mem_append.mp hc with hc | hc
      · rw [hcached, h₁.asked c hc hasks host hkey]
      · rw [hnot c hc hasks] at hkey
        cases hkey
  · rw [h₂.kept host fun d hd => hother d (List.mem_append_right _ hd),
      h₁.kept host fun c hc => hother c (List.mem_append_left _ hc)]

/-- The order of the calls does not matter. -/
theorem Settled.of_mem (hmem : ∀ c, c ∈ cs ↔ c ∈ ds) (h : S.Settled env checkPing v cs w) :
    S.Settled env checkPing v ds w := by
  refine ⟨fun x => ?_, fun c hc => h.asked c ((hmem c).mpr hc), fun host hother => ?_⟩
  · rw [h.hashes]
    simp only [hmem]
  · exact h.kept host fun c hc => hother c ((hmem c).mp hc)

/-- **What calls leave behind is determined** by their links. -/
theorem Settled.unique (hw : S.Settled env checkPing v cs w) (hu : S.Settled env checkPing v cs u) :
    w.seenHashes = u.seenHashes ∧ ∀ host, w.cached env host = u.cached env host := by
  refine ⟨Finset.ext fun h => by rw [hw.hashes, hu.hashes], fun host => ?_⟩
  rcases hw.cached host with ⟨c, hc, hasks, hkey, hcached⟩ | ⟨hnot, hcached⟩
  · rw [hcached, hu.asked c hc hasks host hkey]
  · rw [hcached, hu.kept host hnot]

/-- The cache still agrees with the lookups after calls. -/
theorem Agrees.settled (hF : KeyLaws env.floats) (hagrees : S.Agrees env configs v)
    (h : S.Settled env checkPing v cs w) : S.Agrees env configs w := by
  intro c hc country hcountry
  rcases h.cached (hostOf env c) with ⟨d, -, -, hkey, hcached⟩ | ⟨-, hcached⟩
  · rw [← S.lookup_congr hF hkey, ← hcached, hcountry]
  · exact hagrees c hc country (hcached ▸ hcountry)

/-- What one call does to the country cache. -/
structure Remembers (env : Env) (S : Services) (checkPing : Bool) (v : Validator) (config : Str)
    (w : Validator) : Prop where
  asked : S.Asks env checkPing config → ∀ host,
    sameKey env.floats (hostOf env config) host = true →
      w.cached env host = S.lookup (hostOf env config)
  kept : ∀ host, (S.Asks env checkPing config →
    sameKey env.floats (hostOf env config) host = false) → w.cached env host = v.cached env host

theorem remembers_of_not (hasks : ¬S.Asks env checkPing config) :
    Remembers env S checkPing v config v := ⟨fun h => absurd h hasks, fun _ _ => rfl⟩

theorem settled_singleton
    (hhashes : ∀ h, h ∈ w.seenHashes ↔
      h ∈ v.seenHashes ∨ (S.outcome env checkPing config).isSome = true ∧ configHash config = h)
    (hcache : Remembers env S checkPing v config w) : S.Settled env checkPing v [config] w :=
  ⟨by simpa using hhashes, by simpa using hcache.asked, by simpa using hcache.kept⟩

/-! ## A stretch of a call -/

/-- What a stretch of a call leads to. -/
structure Advanced (env : Env) (S : Services) (checkPing : Bool) (v : Validator) (config : Str)
    (w : Validator) (stage : Stage) : Prop where
  ok : S.StageOk env checkPing config stage
  settled : S.Settled env checkPing v (stage.returned config) w

/-- A link that is not asked for and returns no record. -/
theorem advanced_rejected (hasks : ¬S.Asks env checkPing config)
    (hnone : S.outcome env checkPing config = none) :
    Advanced env S checkPing v config v (.finished none) :=
  ⟨hnone.symm, settled_singleton (by simp [hnone]) (remembers_of_not hasks)⟩

/-- A link whose country is known. -/
theorem advanced_finish {country : Country} (halive : S.Alive env checkPing config)
    (hcountry : S.countryOf env config = some country) (hseen : w.seenHashes = v.seenHashes)
    (hcache : Remembers env S checkPing v config w) :
    Advanced env S checkPing v config (w.finish env config country).1
      (w.finish env config country).2 := by
  have houtcome : S.outcome env checkPing config = recordOf env config country := by
    rw [outcome, if_pos halive, hcountry, Option.bind_some]
  rw [Validator.stage_finish]
  refine ⟨houtcome.symm, settled_singleton (fun h => ?_) ⟨fun hasks host hkey => ?_,
    fun host hnot => ?_⟩⟩
  · rw [Validator.mem_seenHashes_finish, hseen, houtcome]
  · rw [Validator.cached_finish, hcache.asked hasks host hkey]
  · rw [Validator.cached_finish, hcache.kept host hnot]

/-- A link that comes to its country, with a cache that agrees with the lookups. -/
theorem advanced_locate (hF : KeyLaws env.floats) (hagrees : S.Agrees env configs v)
    (hc : config ∈ configs) (halive : S.Alive env checkPing config) :
    Advanced env S checkPing v config (v.locate env config).1 (v.locate env config).2 := by
  have hhost : extractHost env.floats config = hostOf env config := rfl
  simp only [Validator.locate, Validator.knownCountry, hhost]
  by_cases htruthy : truthy (hostOf env config) = true
  · rw [if_pos htruthy]
    by_cases hhash : hashable (hostOf env config) = true
    · rw [if_pos hhash, if_pos hhash]
      cases hcached : v.cached env (hostOf env config) with
      | none => exact ⟨⟨halive, htruthy, hhash⟩, .refl v⟩
      | some country =>
        have hlookup := hagrees config hc country hcached
        have hcountry : S.countryOf env config = some country := by
          rw [countryOf, if_pos htruthy, if_pos hhash, hlookup]
        refine advanced_finish halive hcountry rfl ⟨fun _ host hkey => ?_, fun _ _ => rfl⟩
        rw [← Validator.cached_congr hF hkey, hcached, hlookup]
    · have hcountry : S.countryOf env config = none := by
        rw [countryOf, if_pos htruthy, if_neg hhash]
      rw [if_neg hhash, if_neg hhash]
      refine advanced_rejected (fun h => hhash h.2.2) ?_
      rw [outcome, if_pos halive, hcountry, Option.bind_none]
  · rw [if_neg htruthy]
    have hcountry : S.countryOf env config = some (some "UN".toList) := by
      rw [countryOf, if_neg htruthy]
    exact advanced_finish halive hcountry rfl (remembers_of_not fun h => htruthy h.2.1)

/-- A link that does not come to its country. -/
theorem advanced_dead (halive : ¬S.Alive env checkPing config) :
    Advanced env S checkPing v config v (.finished none) :=
  advanced_rejected (fun h => halive h.1) (by rw [outcome, if_neg halive])

/-- A coroutine that is let in, with a new hash. -/
theorem advanced_start (hF : KeyLaws env.floats) (hagrees : S.Agrees env configs v)
    (hc : config ∈ configs) (hnew : configHash config ∉ v.seenHashes) :
    Advanced env S checkPing v config (v.start env checkPing config).1
      (v.start env checkPing config).2 := by
  have htested : (checkPing && truthy (extractHost env.floats config) &&
      (extractPort env.floats config).any (· ≠ 0)) = true ↔ Tested env checkPing config := by
    rw [Bool.and_eq_true, Bool.and_eq_true, and_assoc]
    rfl
  simp only [Validator.start, if_neg hnew]
  by_cases hprotocol : detectProtocol config = .unknown
  · rw [if_pos hprotocol]
    exact advanced_dead fun h => h.1 hprotocol
  · rw [if_neg hprotocol]
    split_ifs with htest
    · exact ⟨⟨hprotocol, htested.mp htest⟩, .refl v⟩
    · exact advanced_locate hF hagrees hc ⟨hprotocol, fun h => absurd (htested.mpr h) htest⟩

/-- **A stretch of a call**: what it adds to the validator is what becomes of its link. -/
theorem advanced_advance (hF : KeyLaws env.floats) (hagrees : S.Agrees env configs v)
    (hc : config ∈ configs) (hnew : configHash config ∉ v.seenHashes)
    (hok : S.StageOk env checkPing config stage) (hrank : stage.rank ≠ 0) :
    Advanced env S checkPing v config (S.advance env checkPing v config stage).1
      (S.advance env checkPing v config stage).2 := by
  cases stage with
  | waiting => exact advanced_start hF hagrees hc hnew
  | pinging =>
    rw [advance]
    split_ifs with hping
    · exact advanced_locate hF hagrees hc ⟨hok.1, fun _ => hping⟩
    · exact advanced_dead fun h => hping (h.2 hok.2)
  | locating =>
    obtain ⟨halive, htruthy, hhash⟩ := hok
    have hcountry : S.countryOf env config = S.lookup (hostOf env config) := by
      rw [countryOf, if_pos htruthy, if_pos hhash]
    rw [advance]
    cases hlookup : S.lookup (hostOf env config) with
    | none =>
      have hnone : S.outcome env checkPing config = none := by
        rw [outcome, if_pos halive, hcountry, hlookup, Option.bind_none]
      refine ⟨hnone.symm, settled_singleton (by simp [hnone]) ⟨fun _ host hkey => ?_,
        fun _ _ => rfl⟩⟩
      -- A host whose lookup raises is not in the cache.
      rw [hlookup, ← Validator.cached_congr hF hkey, Option.eq_none_iff_forall_ne_some]
      intro country hcached
      rw [hagrees config hc country hcached] at hlookup
      cases hlookup
    | some country =>
      refine advanced_finish halive (hcountry.trans hlookup) rfl ⟨fun _ host hkey => ?_,
        fun host hnot => ?_⟩
      · rw [Validator.cached_remember, if_pos hkey, hlookup]
      · rw [Validator.cached_remember, hnot ⟨halive, htruthy, hhash⟩, if_neg Bool.false_ne_true]
  | finished outcome => exact absurd rfl hrank

/-! ## A call -/

theorem rank_locate (v : Validator) (config : Str) : (v.locate env config).2.rank ≤ 1 := by
  simp only [Validator.locate]
  split
  · rw [Validator.stage_finish]
    exact Nat.zero_le 1
  · split_ifs
    · exact Nat.le_refl 1
    · exact Nat.zero_le 1

/-- A stretch of a call brings it nearer to its end. -/
theorem rank_advance (v : Validator) (config : Str) (stage : Stage) :
    (S.advance env checkPing v config stage).2.rank ≤ stage.rank - 1 := by
  cases stage with
  | waiting =>
    simp only [advance, Validator.start]
    split_ifs
    · exact Nat.zero_le 2
    · exact Nat.zero_le 2
    · exact Nat.le_refl 2
    · exact Nat.le_succ_of_le (rank_locate v config)
  | pinging =>
    rw [advance]
    split_ifs
    · exact rank_locate v config
    · exact Nat.zero_le 1
  | locating =>
    rw [advance]
    split
    · rw [Validator.stage_finish]
      exact Nat.le_refl 0
    · exact Nat.le_refl 0
  | finished outcome => exact Nat.le_refl 0

/-- The stretches of a call follow each other. -/
theorem Advanced.advance (hF : KeyLaws env.floats) (hagrees : S.Agrees env configs v)
    (hc : config ∈ configs) (hnew : configHash config ∉ v.seenHashes)
    (h : Advanced env S checkPing v config w stage) :
    Advanced env S checkPing v config (S.advance env checkPing w config stage).1
      (S.advance env checkPing w config stage).2 := by
  by_cases hrank : stage.rank = 0
  · cases stage with
    | finished outcome => exact h
    | waiting | pinging | locating => cases hrank
  · have hsettled := h.settled
    rw [Stage.returned_of_rank hrank] at hsettled
    have hnew' : configHash config ∉ w.seenHashes := by
      rw [hsettled.hashes]
      simpa using hnew
    have hnext := advanced_advance hF (hagrees.settled hF hsettled) hc hnew' h.ok hrank
    exact ⟨hnext.ok, hsettled.trans hF hnext.settled⟩

variable (checkPing) in
/-- **One call**, for a link whose hash is new. -/
theorem settled_validateOne (hF : KeyLaws env.floats) (hagrees : S.Agrees env configs v)
    (hc : config ∈ configs) (hnew : configHash config ∉ v.seenHashes) :
    S.Settled env checkPing v [config] (S.validateOne env checkPing v config).1 ∧
      (S.validateOne env checkPing v config).2 = S.outcome env checkPing config := by
  obtain ⟨first, hfirst⟩ : ∃ p, S.advance env checkPing v config .waiting = p := ⟨_, rfl⟩
  obtain ⟨second, hsecond⟩ : ∃ p, S.advance env checkPing first.1 config first.2 = p := ⟨_, rfl⟩
  obtain ⟨third, hthird⟩ : ∃ p, S.advance env checkPing second.1 config second.2 = p := ⟨_, rfl⟩
  have hcall : S.validateOne env checkPing v config = (third.1, third.2.record?) := by
    subst hfirst hsecond hthird
    rfl
  have hzero : Advanced env S checkPing v config v .waiting := ⟨trivial, .refl v⟩
  have hone := hfirst ▸ hzero.advance hF hagrees hc hnew
  have htwo := hsecond ▸ hone.advance hF hagrees hc hnew
  have hthree := hthird ▸ htwo.advance hF hagrees hc hnew
  -- Three stretches bring a call to its end.
  have hrank : third.2.rank = 0 := by
    have h₁ : first.2.rank ≤ 3 - 1 := hfirst ▸ rank_advance v config .waiting
    have h₂ : second.2.rank ≤ first.2.rank - 1 := hsecond ▸ rank_advance first.1 config first.2
    have h₃ : third.2.rank ≤ second.2.rank - 1 := hthird ▸ rank_advance second.1 config second.2
    omega
  obtain ⟨u, stage⟩ := third
  rw [hcall]
  cases stage with
  | finished outcome => exact ⟨hthree.settled, hthree.ok⟩
  | waiting | pinging | locating => cases hrank

/-- **Calls one after the other**, for links whose hashes are new and distinct. -/
theorem settled_validateAll (hF : KeyLaws env.floats) (hagrees : S.Agrees env configs v)
    (hcs : ∀ c ∈ cs, c ∈ configs) (hdistinct : (cs.map configHash).Nodup)
    (hnew : ∀ c ∈ cs, configHash c ∉ v.seenHashes) :
    S.Settled env checkPing v cs (S.validateAll env checkPing v cs).1 ∧
      (S.validateAll env checkPing v cs).2 = cs.filterMap (S.outcome env checkPing) := by
  induction cs generalizing v with
  | nil => exact ⟨.refl v, rfl⟩
  | cons c cs ih =>
    obtain ⟨hother, hdistinct⟩ := List.nodup_cons.mp hdistinct
    have hmem : c ∈ configs := hcs c (List.mem_cons_self ..)
    obtain ⟨hsettled, hrecord⟩ := settled_validateOne checkPing hF hagrees hmem
      (hnew c (List.mem_cons_self ..))
    have hrest : ∀ d ∈ cs, d ∈ configs := fun d hd => hcs d (List.mem_cons_of_mem _ hd)
    have hsettledOne := hagrees.settled hF hsettled
    obtain ⟨hsettled', hrecords⟩ := ih hsettledOne hrest hdistinct fun d hd => by
      rw [hsettled.hashes]
      rintro (hold | ⟨e, he, -, heq⟩)
      · exact hnew d (List.mem_cons_of_mem _ hd) hold
      · rw [List.mem_singleton.mp he] at heq
        exact hother (heq ▸ List.mem_map_of_mem hd)
    refine ⟨hsettled.trans hF hsettled', ?_⟩
    simp only [validateAll, hrecord, hrecords]
    cases h : S.outcome env checkPing c with
    | none => simp [h]
    | some r => simp [h]

end Services

end ConfigManager
