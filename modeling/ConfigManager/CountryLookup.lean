import ConfigManager.Broadcaster

/-! # The country of a host (`core.utils.fetch_country_code`)

Two services are asked.  A code of the first one counts if it is two characters long, and
is put into upper case; a code of the second one is returned as it came.  An exception on
the way is `"UN"`.

The first service's code may be no letters, the second one's any JSON value: a lookup
answers with a code if neither happens (`lookedUp_iff`), and then the answer has a flag, marks
every link and is found again by `filter_configs`.
-/
namespace ConfigManager

open Py

/-- More of the Unicode tables: `str.isupper` and `str.isdigit` of a character, and how
`str.upper` treats one. -/
structure Cases (U : Unicode) where
  isUpper : Char → Bool
  isDigit : Char → Bool
  isUpper_ascii : ∀ c : Char, c.toNat < 128 → isUpper c = c.isUpper
  upper_flatMap : ∀ s : Str, U.upper s = s.flatMap fun c => U.upper [c]
  upper_ne_nil : ∀ c : Char, U.upper [c] ≠ []
  upper_isUpper : ∀ c : Char, isUpper c = true → U.upper [c] = [c]
  lettersLow : U.LettersLow

/-- The network: the resolver, and what comes of a request, `none` where it raises. -/
structure Geo where
  resolve : JStr → Option Str
  get : JStr → Option Response

/-- `resp.json()`, which raises on a content type that does not fit. -/
def Response.checkedJson (F : Json.Floats) (r : Response) : Option Json :=
  if r.isJson then r.json F else none

/-- `s.upper()`: a lone surrogate has no other case. -/
def upperStr (U : Unicode) (s : JStr) : JStr :=
  s.flatMap fun
    | .scalar c => ofText (U.upper [c])
    | .lone half => [.lone half]

/-- `s.replace(".", "").isdigit()`. -/
def isDotted (isDigit : Char → Bool) (s : JStr) : Bool :=
  let rest := s.filter (· ≠ .scalar '.')
  rest ≠ [] ∧ rest.all fun c => c.scalar?.any isDigit

section
variable (env : Env) (T : Cases env.unicode) (geo : Geo)

/-- The `ip` that the services are asked for; what is no text has no `replace`. -/
def ipOf : Json → Option JStr
  | .str host =>
      if isDotted T.isDigit host then some host
      else match geo.resolve host with
        | some (c :: resolved) => some (ofText (c :: resolved))
        | _ => some host
  | _ => none

/-- `url`. -/
def firstUrl (ip : JStr) : JStr :=
  ofText "https://ipwhois.app/json/".toList ++ ip ++ ofText "?fields=country_code".toList

/-- `url2`. -/
def secondUrl (ip : JStr) : JStr :=
  ofText "http://ip-api.com/json/".toList ++ ip ++ ofText "?fields=countryCode".toList

/-- The text that `code and len(code) == 2` lets through to `code.upper()`; the outer `none`
is an exception of `len` or `upper`. -/
def twoCharacters : Json → Option (Option JStr)
  | .str s => some (if s.length = 2 then some s else none)
  | .arr vs => if vs.length = 2 then none else some none
  | .obj ms => if ms.length = 2 then none else some none
  | code => if truthy code then none else some none

/-- What comes of the first request, and of the second one if it is made. -/
def firstResponse (host : Json) : Option Response :=
  (ipOf env T geo host).bind fun ip => geo.get (firstUrl ip)

def secondResponse (host : Json) : Option Response :=
  (ipOf env T geo host).bind fun ip => geo.get (secondUrl ip)

/-- The code of the first service's response, if it counts. -/
def firstCode (r : Response) : Option (Option JStr) :=
  if r.status = 200 then
    (r.checkedJson env.floats).bind fun data =>
      (dataGet "country_code".toList data).bind fun code =>
        if truthy code then twoCharacters code
        else (dataGet "countryCode".toList data).bind twoCharacters
  else some none

/-- What is returned for the second service's response. -/
def secondCode (r : Response) : Option Json :=
  if r.status = 200 then
    (r.checkedJson env.floats).bind (getOr "countryCode".toList (Json.text "UN".toList))
  else some (Json.text "UN".toList)

/-- `fetch_country_code`. -/
def fetchCountryCode (host : Json) : Json :=
  let code := (firstResponse env T geo host).bind fun first => (firstCode env first).bind fun
    | some code => some (.str (upperStr env.unicode code))
    | none => (secondResponse env T geo host).bind (secondCode env)
  code.getD (Json.text "UN".toList)

theorem fetchCountryCode_other {host : Json} (h : ∀ s, host ≠ .str s) :
    fetchCountryCode env T geo host = Json.text "UN".toList := by
  have hip : ipOf env T geo host = none := by
    cases host with
    | str s => exact absurd rfl (h s)
    | _ => rfl
  rw [fetchCountryCode, firstResponse, hip]
  rfl

/-- An answer, as `validate_one` goes on with it. -/
def countryOf : Json → Country
  | .str s => s.mapM JChar.scalar?
  | _ => none

/-- `filter_configs(session, country_code=country_code, limit=limit)`. -/
def filterConfigs (table : Table) (countryCode : Str) (limit : Nat) : List Row :=
  let rows := table.filter fun row => row.isValid &&
    (countryCode = [] || row.countryCode = some (env.unicode.upper countryCode))
  rows.reverse.take limit

/-! ## What a lookup should answer -/

/-- `"UN"`, or two upper-case characters. -/
def Usable (answer : Json) : Prop :=
  answer = Json.text "UN".toList ∨
    ∃ a b, answer = Json.text [a, b] ∧ T.isUpper a = true ∧ T.isUpper b = true

/-- A character whose upper case is one upper-case character. -/
def Cased (c : JChar) : Prop :=
  ∃ a d, c = .scalar a ∧ env.unicode.upper [a] = [d] ∧ T.isUpper d = true

/-- What the services answer is a code where it is used: the first one's two characters have
an upper case each, and the second one's `countryCode` is usable as it stands. -/
structure Codes (host : Json) : Prop where
  first : ∀ r code, firstResponse env T geo host = some r → firstCode env r = some (some code) →
    ∀ c ∈ code, Cased env T c
  second : ∀ r r' ms v, firstResponse env T geo host = some r → firstCode env r = some none →
    secondResponse env T geo host = some r' → r'.status = 200 →
    r'.checkedJson env.floats = some (.obj ms) →
    Json.get? (ofText "countryCode".toList) ms = some v → Usable env T v

/-- An answer that the callers can work with: it has a flag, no link is dropped for it, and
`filter_configs` finds the row it is stored in. -/
structure Serves (answer : Json) (code : Str) : Prop where
  text : answer = Json.text code
  flag : (getFlag env.unicode code).isSome = true
  marks : ∀ config, (injectWatermark env config code).isSome = true
  kept : ∀ config, (recordOf env config (countryOf answer)).isSome = true
  found : ∀ (table : Table) (source : Option Str) (item : Record) (limit : Nat),
    item.countryCode = code → 0 < limit →
    Table.rowOf source item ∈ filterConfigs env (table.insert source [item]) code limit

end

/-! ## Upper case -/

section
variable {env : Env} {T : Cases env.unicode} {geo : Geo} {host : Json} {code : JStr}

/-- The characters a code point is put into upper case as. -/
theorem upperStr_cons (U : Unicode) (c : JChar) (s : JStr) :
    upperStr U (c :: s) = upperStr U [c] ++ upperStr U s := by
  simp [upperStr]

theorem upperStr_ne_nil (T : Cases env.unicode) (c : JChar) : upperStr env.unicode [c] ≠ [] := by
  cases c with
  | scalar a => simpa [upperStr, ofText] using T.upper_ne_nil a
  | lone half => simp [upperStr]

/-- `"U"` and `"N"` are upper-case characters. -/
theorem usable_iff {answer : Json} : Usable env T answer ↔
    ∃ a b, answer = Json.text [a, b] ∧ T.isUpper a = true ∧ T.isUpper b = true := by
  constructor
  · rintro (rfl | h)
    · exact ⟨'U', 'N', rfl, T.isUpper_ascii 'U' (by decide), T.isUpper_ascii 'N' (by decide)⟩
    · exact h
  · exact .inr

/-- A character is cased if its upper case is one upper-case character. -/
theorem cased_iff {c : JChar} : Cased env T c ↔
    ∃ d, upperStr env.unicode [c] = [.scalar d] ∧ T.isUpper d = true := by
  cases c with
  | scalar a =>
    have hupper : ∀ d, upperStr env.unicode [.scalar a] = [.scalar d] ↔
        env.unicode.upper [a] = [d] := by
      intro d
      simp [upperStr, ofText, List.map_eq_cons_iff]
    constructor
    · rintro ⟨_, d, ⟨⟩, hd, hu⟩
      exact ⟨d, (hupper d).mpr hd, hu⟩
    · rintro ⟨d, hd, hu⟩
      exact ⟨a, d, rfl, (hupper d).mp hd, hu⟩
  | lone half => simp [Cased, upperStr]

/-- **Two characters are put into usable form** exactly if each of them is cased: neither
can vanish, so neither can stand for both. -/
theorem usable_upperStr (h : code.length = 2) :
    Usable env T (.str (upperStr env.unicode code)) ↔ ∀ c ∈ code, Cased env T c := by
  obtain ⟨x, y, rfl⟩ := List.length_eq_two.mp h
  have hcons : upperStr env.unicode [x, y] =
      upperStr env.unicode [x] ++ upperStr env.unicode [y] := upperStr_cons _ _ _
  simp only [usable_iff, List.forall_mem_cons, List.not_mem_nil, false_implies, implies_true,
    and_true, cased_iff, hcons]
  constructor
  · rintro ⟨a, b, heq, ha, hb⟩
    have heq : upperStr env.unicode [x] ++ upperStr env.unicode [y] = [.scalar a, .scalar b] :=
      Json.str.inj heq
    have hx := List.length_pos_iff.mpr (upperStr_ne_nil T x)
    have hy := List.length_pos_iff.mpr (upperStr_ne_nil T y)
    have hlen := congrArg List.length heq
    simp only [List.length_append, List.length_cons, List.length_nil] at hlen
    obtain ⟨hax, hby⟩ : upperStr env.unicode [x] = [.scalar a] ∧
        upperStr env.unicode [y] = [.scalar b] :=
      List.append_inj heq (by rw [List.length_singleton]; omega)
    exact ⟨⟨a, hax, ha⟩, b, hby, hb⟩
  · rintro ⟨⟨a, hax, ha⟩, b, hby, hb⟩
    exact ⟨a, b, by rw [hax, hby]; rfl, ha, hb⟩

/-- Upper-case characters stay as they are. -/
theorem upper_of_isUpper (T : Cases env.unicode) {s : Str} (h : ∀ c ∈ s, T.isUpper c = true) :
    env.unicode.upper s = s := by
  rw [T.upper_flatMap]
  induction s with
  | nil => rfl
  | cons c s ih =>
    rw [List.forall_mem_cons] at h
    rw [List.flatMap_cons, ih h.2, T.upper_isUpper c h.1, List.singleton_append]

/-! ## The two services -/

theorem length_of_twoCharacters {v : Json} (h : twoCharacters v = some (some code)) :
    code.length = 2 := by
  cases v with
  | str s =>
    rw [twoCharacters, Option.some_inj] at h
    split at h
    · rw [← Option.some_inj.mp h]
      assumption
    · cases h
  | arr vs | obj ms =>
    rw [twoCharacters] at h
    split at h <;> cases h
  | null | bool b | int n | float t =>
    simp only [twoCharacters] at h
    split at h <;> cases h

/-- A code of the first service is two characters long. -/
theorem length_of_firstCode {r : Response} (h : firstCode env r = some (some code)) :
    code.length = 2 := by
  rw [firstCode] at h
  split at h
  · obtain ⟨data, -, h⟩ := Option.bind_eq_some_iff.mp h
    obtain ⟨member, -, h⟩ := Option.bind_eq_some_iff.mp h
    split at h
    · exact length_of_twoCharacters h
    · obtain ⟨_, -, h⟩ := Option.bind_eq_some_iff.mp h
      exact length_of_twoCharacters h
  · cases h

theorem usable_un : Usable env T (Json.text "UN".toList) := .inl rfl

/-- **What the second service makes of the call** is usable if its `countryCode` is. -/
theorem usable_secondCode {r : Response} :
    Usable env T ((secondCode env r).getD (Json.text "UN".toList)) ↔
      ∀ ms v, r.status = 200 → r.checkedJson env.floats = some (.obj ms) →
        Json.get? (ofText "countryCode".toList) ms = some v → Usable env T v := by
  rw [secondCode]
  by_cases hstatus : r.status = 200
  · rw [if_pos hstatus]
    cases hdata : r.checkedJson env.floats with
    | none => exact iff_of_true usable_un fun _ _ _ h => by cases h
    | some data =>
      cases data with
      | obj ms =>
        rw [Option.bind_some, getOr, Option.getD_some]
        cases hmember : Json.get? (ofText "countryCode".toList) ms with
        | none =>
          refine iff_of_true usable_un fun _ _ _ h hv => ?_
          cases h
          rw [hmember] at hv
          cases hv
        | some v =>
          rw [Option.getD_some]
          constructor
          · rintro hv _ _ _ ⟨⟩ h
            rw [hmember] at h
            cases h
            exact hv
          · exact fun h => h ms v hstatus rfl hmember
      | null | bool b | int n | float t | str s | arr vs =>
        exact iff_of_true usable_un fun _ _ _ h => by cases h
  · rw [if_neg hstatus, Option.getD_some]
    exact iff_of_true usable_un fun _ _ h => absurd h hstatus

/-! ## The lookup -/

/-- The condition on the services, by what is found of the first one. -/
theorem codes_iff : Codes env T geo host ↔
    (∀ code, (firstResponse env T geo host).bind (firstCode env) = some (some code) →
      ∀ c ∈ code, Cased env T c) ∧
    ((firstResponse env T geo host).bind (firstCode env) = some none →
      ∀ r, secondResponse env T geo host = some r →
        Usable env T ((secondCode env r).getD (Json.text "UN".toList))) := by
  constructor
  · intro h
    refine ⟨fun code hfound => ?_, fun hfound r' hr' => ?_⟩
    · obtain ⟨r, hr, hcode⟩ := Option.bind_eq_some_iff.mp hfound
      exact h.first r code hr hcode
    · obtain ⟨r, hr, hcode⟩ := Option.bind_eq_some_iff.mp hfound
      exact usable_secondCode.mpr fun ms v => h.second r r' ms v hr hcode hr'
  · rintro ⟨hfirst, hsecond⟩
    refine ⟨fun r code hr hcode => ?_, fun r r' ms v hr hcode hr' => ?_⟩
    · exact hfirst code (Option.bind_eq_some_iff.mpr ⟨r, hr, hcode⟩)
    · have hfound := Option.bind_eq_some_iff.mpr ⟨r, hr, hcode⟩
      exact usable_secondCode.mp (hsecond hfound r' hr') ms v

/-- **A lookup answers with a usable code** exactly if the services' answers are codes. -/
theorem usable_fetch : Usable env T (fetchCountryCode env T geo host) ↔ Codes env T geo host := by
  rw [codes_iff, fetchCountryCode, ← Option.bind_assoc]
  cases hfound : (firstResponse env T geo host).bind (firstCode env) with
  | none => exact iff_of_true usable_un (by simp)
  | some found =>
    cases found with
    | some code =>
      obtain ⟨r, -, hcode⟩ := Option.bind_eq_some_iff.mp hfound
      exact (usable_upperStr (length_of_firstCode hcode)).trans (by simp)
    | none =>
      cases hsecond : secondResponse env T geo host with
      | none => exact iff_of_true usable_un (by simp)
      | some r => simp

/-- **A usable code serves its callers.** -/
theorem serves_of_usable {answer : Json} (h : Usable env T answer) :
    ∃ code, Serves env answer code := by
  obtain ⟨a, b, htext, ha, hb⟩ := usable_iff.mp h
  have hself : env.unicode.upper [a, b] = [a, b] :=
    upper_of_isUpper T (by simp only [List.forall_mem_cons]; exact ⟨ha, hb, by simp⟩)
  have hmarks : ∀ config, (injectWatermark env config [a, b]).isSome = true := by
    intro config
    obtain ⟨mark, hmark⟩ := exists_watermark T.lettersLow [a, b]
    rw [injectWatermark, hmark]
    rfl
  refine ⟨[a, b], htext, getFlag_isSome T.lettersLow _, hmarks, fun config => ?_, ?_⟩
  · have hcountry : countryOf answer = some [a, b] := by rw [htext]; rfl
    rw [hcountry, recordOf, Option.bind_some, Option.isSome_map]
    exact hmarks config
  · intro table source item limit hitem hlimit
    obtain ⟨limit, rfl⟩ : ∃ n, limit = n + 1 := ⟨limit - 1, by omega⟩
    -- The newest row is the first one of the answer.
    simp [filterConfigs, Table.insert, Table.rowOf, List.filter_append, hself, hitem]

/-- **Where a lookup answers with a country.** -/
theorem lookedUp_iff (env : Env) (T : Cases env.unicode) (geo : Geo) (host : Json) :
    (Usable env T (fetchCountryCode env T geo host) ↔ Codes env T geo host) ∧
      (Codes env T geo host → ∃ code, Serves env (fetchCountryCode env T geo host) code) :=
  ⟨usable_fetch, fun h => serves_of_usable (usable_fetch.mpr h)⟩

/-! ## An answer that is no code -/

/-- The tables of the sample environment. -/
def Cases.sample : Cases Env.sample.unicode where
  isUpper := Char.isUpper
  isDigit := Char.isDigit
  isUpper_ascii := fun _ _ => rfl
  upper_flatMap := fun s => by simp [Env.sample, List.map_eq_flatMap]
  upper_ne_nil := fun c => by simp [Env.sample]
  upper_isUpper := fun c h => by
    have hcapitals : ∀ n < 128, (Char.ofNat n).isUpper = true →
        (Char.ofNat n).toUpper = Char.ofNat n := by decide
    have halpha : c.isAlpha = true := by
      show (c.isUpper || c.isLower) = true
      rw [h, Bool.true_or]
    have hself := hcapitals c.toNat (toNat_of_isAlpha halpha)
    rw [Char.ofNat_toNat] at hself
    exact congrArg (fun d => [d]) (hself h)
  lettersLow := lettersLow_sample

/-- A response with a JSON body. -/
def jsonResponse (status : Nat) (body : String) : Response where
  status := status
  isJson := true
  body := Utf8.encode body.toList
  decode := Utf8.decode

/-- The first service is over its limit, the second one does not know the address. -/
def unknownAddress : Geo where
  resolve := fun _ => none
  get := fun url =>
    if (ofText "https".toList).isPrefixOf url then some (jsonResponse 429 "")
    else some (jsonResponse 200 "\x7b\"countryCode\": null\x7d")

/-- The answer is `None`, and every link of the host is dropped. -/
theorem not_usable_null :
    fetchCountryCode Env.sample Cases.sample unknownAddress (Json.text "10.0.0.1".toList) = .null ∧
      ¬Usable Env.sample Cases.sample
        (fetchCountryCode Env.sample Cases.sample unknownAddress (Json.text "10.0.0.1".toList)) ∧
      ∀ config, recordOf Env.sample config (countryOf .null) = none := by
  have hnull : fetchCountryCode Env.sample Cases.sample unknownAddress
      (Json.text "10.0.0.1".toList) = .null := by decide +kernel
  refine ⟨hnull, ?_, fun _ => rfl⟩
  rw [hnull]
  rintro (h | ⟨_, _, h, -⟩) <;> cases h

end

end ConfigManager
