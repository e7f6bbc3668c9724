import ConfigManager.LinkText
import ConfigManager.RecordConsistency

/-! # Payloads in every dialect

`CONFIG_PATTERN` takes a vmess payload in either alphabet of base64, with its padding or
without.  Missing padding is supplied before `b64decode` is called; the alphabet is not
looked at.  `b64decode` skips `-` and `_` without a word, so a payload that has one is
never read as it was written (`read_iff`).
-/
namespace ConfigManager

open Py Regex

/-- The text is sent as a payload: base64 of its UTF-8, in either alphabet, with its
padding or without. -/
def SentAs (text payload : Str) : Prop :=
  ∃ raw, Base64.Spells (Utf8.encode text) raw ∧ (payload = raw ∨ payload = Base64.urlSafe raw)

/-- A JSON object with a server, sent as the payload of a vmess link. -/
structure Payload (F : Json.Floats) where
  text : Str
  members : List (JStr × Json)
  loads_text : Json.loads F text = some (.obj members)
  host : JStr
  add : Json.get? (ofText "add".toList) members = some (.str host)
  port : Nat
  range : 1 ≤ port ∧ port ≤ 65535
  /-- The port is a number, or a string with a number in decimal. -/
  portMember : Json
  port_eq : portMember = .int port ∨ ∃ ds, Decimal port ds ∧ portMember = Json.text ds
  get_port : Json.get? (ofText "port".toList) members = some portMember
  payload : Str
  sent : SentAs text payload

namespace Payload

variable {env : Env} {F : Json.Floats}

/-- The link. -/
def link (l : Payload F) : Str := "vmess://".toList ++ l.payload

/-- The payload has no character of the URL-safe alphabet only. -/
def Standard (l : Payload F) : Prop := '-' ∉ l.payload ∧ '_' ∉ l.payload

/-- **The link is read**: its host, its port, and its object, which is written back with
the watermark in its `ps` member. -/
structure Read (env : Env) (l : Payload env.floats) : Prop where
  host : extractHost env.floats l.link = .str l.host
  port : extractPort env.floats l.link = some (l.port : Int)
  mark : ∀ countryCode, ∃ mark marked, watermark env countryCode = some mark ∧
    injectWatermark env l.link countryCode = some marked ∧
    isVmess marked = true ∧ '#' ∉ marked ∧
    vmessData env.floats Utf8.decode marked = some (withRemark (Json.text mark) l.members)

/-! ## What is sent -/

/-- A payload without the two characters is base64 in the standard alphabet. -/
theorem Standard.spells {l : Payload F} (h : l.Standard) :
    Base64.Spells (Utf8.encode l.text) l.payload := by
  obtain ⟨hminus, hline⟩ := h
  obtain ⟨raw, hraw, he | he⟩ := l.sent
  · exact he ▸ hraw
  · rw [he] at hminus hline ⊢
    rw [Base64.urlSafe_of_notMem hminus hline]
    exact hraw

theorem noSpace_payload (l : Payload F) : NoSpace l.payload := by
  obtain ⟨raw, hraw, he⟩ := l.sent
  have hspace : NoSpace raw := Base64.noSpace_of_spells hraw
  rcases he with he | he
  · exact he ▸ hspace
  · intro c hc
    rw [he] at hc
    obtain ⟨d, hd, rfl⟩ := List.mem_map.mp hc
    split_ifs
    · rfl
    · rfl
    · exact hspace d hd

theorem noSpace_link (l : Payload F) : NoSpace l.link :=
  noSpace_append.mpr ⟨noSpace_scheme, l.noSpace_payload⟩

theorem isVmess_link (l : Payload F) : isVmess l.link = true := isVmess_scheme l.payload

theorem vmessRaw_link (l : Payload F) : vmessRaw l.link = pad l.payload := by
  have hlink : l.link = "vmess://".toList ++ l.payload := rfl
  rw [hlink, vmessRaw_scheme, strip_of_noSpace l.noSpace_payload]

theorem isPayload_of_isAlphabet {c : Char} (h : Base64.isAlphabet c = true) :
    isPayload c = true := by
  have hn := Base64.toNat_of_isAlphabet h
  simp only [isPayload, Bool.or_eq_true, Bool.and_eq_true, decide_eq_true_eq, beq_iff_eq]
  omega

/-- **The extractor takes every dialect.** -/
theorem fullMatch_link (l : Payload F) : FullMatch configPattern l.link := by
  obtain ⟨raw, hraw, he⟩ := l.sent
  have hclass : ∀ c ∈ raw, isPayload c = true := fun c hc =>
    isPayload_of_isAlphabet (Base64.isAlphabet_of_spells hraw hc)
  have hlen : 1 ≤ raw.length := by
    by_contra hshort
    obtain rfl : raw = [] := List.length_eq_zero_iff.mp (by omega)
    have hnil : Base64.b64encode (Utf8.encode l.text) = [] := (pad_of_spells hraw).symm
    have htext : l.text = [] := by
      by_contra hne
      exact Base64.b64encode_ne_nil (Utf8.encode_ne_nil hne) hnil
    have hloads := l.loads_text
    rw [htext] at hloads
    cases hloads
  have hpayload : 1 ≤ l.payload.length ∧ ∀ c ∈ l.payload, isPayload c = true := by
    rcases he with he | he
    · rw [he]
      exact ⟨hlen, hclass⟩
    · rw [he, Base64.urlSafe, List.length_map]
      refine ⟨hlen, fun c hc => ?_⟩
      obtain ⟨d, hd, rfl⟩ := List.mem_map.mp hc
      split_ifs
      · rfl
      · rfl
      · exact hclass d hd
  exact fullMatch_payload hpayload.1 hpayload.2

/-- **Exactly the payloads without `-` and `_` are decoded** to the bytes that were sent. -/
theorem b64decode_iff (l : Payload F) :
    Base64.b64decode (vmessRaw l.link) = some (Utf8.encode l.text) ↔ l.Standard := by
  rw [vmessRaw_link]
  constructor
  · intro h
    obtain ⟨raw, hraw, he⟩ := l.sent
    have halphabet : ∀ c ∈ raw, Base64.isAlphabet c = true := fun _ hc =>
      Base64.isAlphabet_of_spells hraw hc
    by_contra hnot
    rw [Standard, not_and_or, not_not, not_not] at hnot
    rcases he with he | he
    · rw [he] at hnot
      rcases hnot with hm | hm
      · exact absurd (halphabet _ hm) (by decide)
      · exact absurd (halphabet _ hm) (by decide)
    · -- A character of the other alphabet is skipped, and a byte is missing at the end.
      rw [he] at hnot h
      have hlost := Base64.sextets_lt_of_mem halphabet hnot
      refine Base64.b64decode_ne_of_sextets_lt ?_ h
      rwa [sextets_pad, ← Base64.sextets_of_spells hraw]
  · intro h
    rw [pad_of_spells h.spells, Base64.b64decode_b64encode]

/-- A standard payload is read by either decoder. -/
theorem vmessData_link (l : Payload F) (h : l.Standard) {decode : List UInt8 → Option Str}
    (hd : ∀ s, decode (Utf8.encode s) = some s) :
    vmessData F decode l.link = some (.obj l.members) := by
  have hlink : l.link = "vmess://".toList ++ l.payload := rfl
  rw [hlink, vmessData_of_spells h.spells, hd, Option.bind_some, l.loads_text]

/-! ## What is read -/

theorem truthy_port (l : Payload F) : truthy l.portMember = true := by
  have hrange := l.range
  rcases l.port_eq with he | ⟨ds, hds, he⟩
  · rw [he, truthy]
    simp only [ne_eq, decide_eq_true_eq]
    omega
  · rw [he]
    simpa [Json.text, truthy, ofText] using hds.ne_nil

theorem intOf_port (l : Payload F) : intOf F l.portMember = some (l.port : Int) := by
  rcases l.port_eq with he | ⟨ds, hds, he⟩
  · rw [he]
    rfl
  · rw [he, Json.text, intOf, mapM_scalar?_ofText, Option.bind_some, hds.int]

theorem server_link (l : Payload env.floats) (h : l.Standard) :
    server env l.link = (.str l.host, some (l.port : Int)) := by
  have hadd : dataGet "add".toList (.obj l.members) = some (.str l.host) := by
    rw [dataGet, l.add, Option.getD_some]
  have hport : dataGet "port".toList (.obj l.members) = some l.portMember := by
    rw [dataGet, l.get_port, Option.getD_some]
  rw [server_of_isVmess l.isVmess_link l.noSpace_link, l.vmessData_link h lenient_encode,
    serverOf, Option.bind_some, Option.bind_some, hadd, hport, Option.getD_some, Option.bind_some,
    if_pos l.truthy_port, l.intOf_port]

/-- The object, its remark apart, has no lone surrogate, so that it can be written. -/
def Encodable (l : Payload F) : Prop := Json.encodable (withRemark .null l.members) = true

theorem encodable_iff (l : Payload F) (mark : Str) :
    Json.encodable (withRemark (Json.text mark) l.members) = true ↔ l.Encodable := by
  have hsame : Json.encodable (withRemark (Json.text mark) l.members) =
      Json.encodable (withRemark .null l.members) := by
    rw [withRemark, withRemark, Json.encodable, Json.encodable]
    exact Json.encodableMembers_put (Json.encodable_text mark) rfl l.members
  rw [hsame, Encodable]

/-- **A standard payload is read** unless its object cannot be written again. -/
theorem read_iff_of_standard (hU : env.unicode.LettersLow) (l : Payload env.floats)
    (h : l.Standard) : l.Read env ↔ l.Encodable := by
  have hdata := l.vmessData_link h Utf8.decode_encode
  constructor
  · intro hread
    by_contra hnot
    obtain ⟨mark, marked, hmark, hmarked, -, hhash, -⟩ := hread.mark []
    have hno : ∀ ms, ¬Rewritten env l.link mark ms := by
      rintro ms ⟨-, hms, he⟩
      obtain rfl : l.members = ms := Json.obj.inj (Option.some.inj (hdata.symm.trans hms))
      exact hnot ((l.encodable_iff mark).mp he)
    rw [injectWatermark, hmark, Option.map_some, injected_of_not hno, Option.some_inj] at hmarked
    exact hhash (hmarked ▸ List.mem_append_right _ (List.mem_cons_self ..))
  · intro he
    have hserver := Prod.ext_iff.mp (l.server_link h)
    refine ⟨hserver.1, hserver.2, fun countryCode => ?_⟩
    obtain ⟨mark, hmark⟩ := exists_watermark hU countryCode
    have hrewritten : Rewritten env l.link mark l.members :=
      ⟨l.isVmess_link, hdata, (l.encodable_iff mark).mpr he⟩
    obtain ⟨d, hd, hinjected⟩ := injected_of_rewritten hrewritten
    refine ⟨mark, d, hmark, ?_, isVmess_vmessLink hd, ?_, ?_⟩
    · rw [injectWatermark, hmark, Option.map_some, hinjected]
    · exact normalized_vmessLink hd ▸ notMem_normalized d
    · exact vmessData_vmessLink Utf8.decode_encode
        (Json.wf_put (wf_vmessData hdata) (Json.wf_text mark)) hd

/-- **Which payloads are read.**  The extractor takes them all.  In the standard alphabet,
with its padding or without, all are read whose object can be written again; and a
payload with `-` or `_` is never decoded to what was sent. -/
theorem read_iff (env : Env) (hU : env.unicode.LettersLow) (l : Payload env.floats) :
    FullMatch configPattern l.link ∧ (l.Standard → (l.Read env ↔ l.Encodable)) ∧
      (Base64.b64decode (vmessRaw l.link) = some (Utf8.encode l.text) ↔ l.Standard) :=
  ⟨l.fullMatch_link, read_iff_of_standard hU l, l.b64decode_iff⟩

/-- An object whose base64 has a slash. -/
def sampleObject : Str := "\x7b\"add\":\"h\",\"port\":443,\"ps\":\"??>\"\x7d".toList

/-- This object, as a payload. -/
def sample (payload : Str) (sent : SentAs sampleObject payload) : Payload Env.sample.floats where
  text := sampleObject
  members := [(ofText "add".toList, Json.text "h".toList), (ofText "port".toList, .int 443),
    (ofText "ps".toList, Json.text "??>".toList)]
  loads_text := by decide +kernel
  host := ofText "h".toList
  add := by decide
  port := 443
  range := by decide
  portMember := .int 443
  port_eq := .inl rfl
  get_port := by decide
  payload := payload
  sent := sent

/-- In the standard alphabet. -/
def standardSample : Payload Env.sample.floats :=
  sample "eyJhZGQiOiJoIiwicG9ydCI6NDQzLCJwcyI6Ij8/PiJ9".toList
    ⟨_, .inl rfl, .inl (by decide +kernel)⟩

/-- In the URL-safe alphabet. -/
def urlSafeSample : Payload Env.sample.floats :=
  sample "eyJhZGQiOiJoIiwicG9ydCI6NDQzLCJwcyI6Ij8_PiJ9".toList
    ⟨_, .inl rfl, .inr (by decide +kernel)⟩

theorem read_iff_sample :
    FullMatch configPattern standardSample.link ∧
      (standardSample.Standard → (standardSample.Read Env.sample ↔ standardSample.Encodable)) ∧
      (Base64.b64decode (vmessRaw standardSample.link) = some (Utf8.encode standardSample.text) ↔
        standardSample.Standard) :=
  read_iff Env.sample lettersLow_sample standardSample

/-- Nothing is read off the payload in the URL-safe alphabet, and the watermark is a
fragment. -/
theorem not_read_urlSafe :
    extractHost Env.sample.floats urlSafeSample.link = .null ∧
      extractPort Env.sample.floats urlSafeSample.link = none ∧
      (injectWatermark Env.sample urlSafeSample.link "DE".toList).map (fun c => decide ('#' ∈ c)) =
        some true ∧
      ¬urlSafeSample.Read Env.sample := by
  have hhost : extractHost Env.sample.floats urlSafeSample.link = .null := by decide +kernel
  refine ⟨hhost, by decide +kernel, by decide +kernel, fun hread => ?_⟩
  have hread' := hread.host
  rw [hhost] at hread'
  cases hread'

end Payload
end ConfigManager
