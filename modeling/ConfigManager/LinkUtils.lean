import ConfigManager.Constants
import ConfigManager.Py.Base64Dialects
import ConfigManager.Py.Json
import ConfigManager.Py.Md5
import ConfigManager.Py.Percent

/-! # Link utilities (`core.utils`)

What the program reads off a link: its protocol, its server's host and port, the
hash that deduplicates it, and the flag of a country.

`None` is JSON's `null`, so a host is any JSON value: the `add` member of a vmess
payload need not be a string.  A function that may raise returns an `Option`,
unless the source catches the exception itself.
-/
namespace ConfigManager

open Py

/-- The Unicode tables behind `str.upper` and `str.isalpha`. -/
structure Unicode where
  upper : Str → Str
  isAlpha : Char → Bool
  upper_ascii : ∀ s : Str, Base64.isAscii s = true → upper s = s.map Char.toUpper
  isAlpha_ascii : ∀ c : Char, c.toNat < 128 → isAlpha c = c.isAlpha

/-- What the program takes from outside: how floats are written, the Unicode
tables, and the channel of its settings. -/
structure Env where
  floats : Json.Floats
  unicode : Unicode
  channelUsername : Str

/-- An environment to run examples in: ASCII letters, floats as they are written,
the default channel. -/
def Env.sample : Env where
  floats :=
    { repr := id
      trunc := fun _ => none
      eqInt := fun _ _ => false
      repr_literal := fun _ h => Or.inl ⟨h, rfl⟩ }
  unicode :=
    { upper := List.map Char.toUpper
      isAlpha := Char.isAlpha
      upper_ascii := fun _ _ => rfl
      isAlpha_ascii := fun _ _ => rfl }
  channelUsername := "@jojo_config".toList

/-- A decimal octet of `ipaddress.IPv4Address`: ASCII digits, at most three, at most
255, and no leading zero. -/
def isOctet (s : Str) : Bool :=
  s ≠ [] ∧ s.all Json.isDigit ∧ s.length ≤ 3 ∧ (s = ['0'] ∨ s.head? ≠ some '0') ∧
    Nat.ofDigitChars 10 s 0 ≤ 255

/-- `is_valid_ip`. -/
def isValidIp (ip : Str) : Bool :=
  let octets := (strip ip).splitOn '.'
  octets.length = 4 ∧ octets.all isOctet

/-- A link for examples. -/
def sampleLink : Str := "vless://u@h:443#a".toList

/-- The values of the `protocol` column. -/
inductive Protocol where
  | vless
  | vmess
  | trojan
  | shadowsocks
  | unknown
  deriving DecidableEq

/-- `config.lower()`.  The prefixes it is compared with have no letter that a
character outside ASCII is lowered to. -/
def lower (config : Str) : Str := config.map Char.toLower

/-- `detect_protocol`. -/
def detectProtocol (config : Str) : Protocol :=
  let lowered := strip (lower config)
  if "vless://".toList.isPrefixOf lowered then .vless
  else if "vmess://".toList.isPrefixOf lowered then .vmess
  else if "trojan://".toList.isPrefixOf lowered then .trojan
  else if "ss://".toList.isPrefixOf lowered then .shadowsocks
  else .unknown

/-! ## The payload of a vmess link -/

/-- `raw += "=" * (4 - padding)`, if there is a padding. -/
def pad (raw : Str) : Str :=
  if raw.length % 4 = 0 then raw else raw ++ List.replicate (4 - raw.length % 4) '='

theorem pad_unpadded (bs : List UInt8) : pad (Base64.unpadded bs) = Base64.b64encode bs := by
  obtain ⟨k, hk, -, he⟩ := Base64.b64encode_eq bs
  have hlen := Base64.length_b64encode bs
  rw [he, List.length_append, List.length_replicate] at hlen
  rw [he, pad]
  split
  · rename_i h
    obtain rfl : k = 0 := by omega
    simp
  · rename_i h
    have : 4 - (Base64.unpadded bs).length % 4 = k := by omega
    rw [this]

/-- **The program supplies missing padding.** -/
theorem pad_of_spells {bs : List UInt8} {raw : Str} (h : Base64.Spells bs raw) :
    pad raw = Base64.b64encode bs := by
  rcases h with rfl | rfl
  · exact if_pos (Base64.length_b64encode bs)
  · exact pad_unpadded bs

theorem sextets_pad (raw : Str) : Base64.sextets (pad raw) = Base64.sextets raw := by
  unfold pad
  split
  · rfl
  · rw [Base64.sextets_append, Base64.sextets_pads, Nat.add_zero]

/-- What the program hands to `b64decode`: the text after `vmess://`, a fragment
included, and its padding. -/
def vmessRaw (config : Str) : Str := pad (strip (config.drop "vmess://".toList.length))

/-- The JSON value of a vmess link, with the UTF-8 decoder of the caller. -/
def vmessData (F : Json.Floats) (decode : List UInt8 → Option Str) (config : Str) : Option Json :=
  (Base64.b64decode (vmessRaw config)).bind fun bytes => (decode bytes).bind (Json.loads F)

/-- `.decode("utf-8", errors="ignore")`. -/
def lenient (bytes : List UInt8) : Option Str := some (Utf8.decodeIgnore bytes)

/-- `data.get(key)`, which only an object has. -/
def dataGet (key : Str) : Json → Option Json
  | .obj ms => some ((Json.get? (ofText key) ms).getD .null)
  | _ => none

/-- `data[key] = value`, which only an object takes. -/
def dataSet (key : Str) (value : Json) : Json → Option Json
  | .obj ms => some (.obj (Json.put (ofText key) value ms))
  | _ => none

/-- `f"vmess://{encoded}"`, `none` where the JSON text cannot be encoded. -/
def vmessLink (data : Json) : Option Str :=
  if Json.encodable data then
    some ("vmess://".toList ++ Base64.b64encode (Utf8.encode (Json.dumps data)))
  else none

/-! ## Host and port -/

/-- `@([^:]+):`. -/
def hostPattern : Regex :=
  .seq (.lit ['@']) (.seq (.group (.rep true 1 (· != ':'))) (.lit [':']))

/-- `:(\d+)(?:\?|#|$|/)`. -/
def portPattern : Regex :=
  .seq (.lit [':']) (.seq (.group (.rep true 1 isDecimal))
    (.alt (.lit ['?']) (.alt (.lit ['#']) (.alt .eos (.lit ['/'])))))

/-- The captured group of the first match. -/
def searchGroup (r : Regex) (s : Str) : Option Str := (r.search s).bind Match.group

/-- `config.startswith(("vless://", "trojan://", "ss://"))`. -/
def isUrlLink (config : Str) : Bool :=
  "vless://".toList.isPrefixOf config || "trojan://".toList.isPrefixOf config ||
    "ss://".toList.isPrefixOf config

/-- `config.startswith("vmess://")`. -/
def isVmess (config : Str) : Bool := "vmess://".toList.isPrefixOf config

/-- `extract_host`. -/
def extractHost (F : Json.Floats) (config : Str) : Json :=
  let config := strip config
  if isUrlLink config then ((searchGroup hostPattern config).map Json.text).getD .null
  else if isVmess config then
    ((vmessData F lenient config).bind (dataGet "add".toList)).getD .null
  else .null

/-- Python's truth value. -/
def truthy : Json → Bool
  | .null => false
  | .bool b => b
  | .int n => n ≠ 0
  | .float t => t ≠ "0.0".toList ∧ t ≠ "-0.0".toList
  | .str s => s ≠ []
  | .arr vs => vs ≠ []
  | .obj ms => ms ≠ []

/-- `int(value)`, `none` where it raises. -/
def intOf (F : Json.Floats) : Json → Option Int
  | .bool b => some (if b then 1 else 0)
  | .int n => some n
  | .float t => F.trunc t
  | .str s => (s.mapM JChar.scalar?).bind int
  | _ => none

theorem mapM_scalar?_ofText (s : Str) : (ofText s).mapM JChar.scalar? = some s := by
  induction s with
  | nil => rfl
  | cons c s ih =>
    rw [ofText, List.map_cons, List.mapM_cons, ← ofText, ih]
    rfl

/-- `extract_port`; a `port` member that is false counts as none. -/
def extractPort (F : Json.Floats) (config : Str) : Option Int :=
  if isVmess config then
    ((vmessData F lenient config).bind (dataGet "port".toList)).bind fun port =>
      if truthy port then intOf F port else none
  else (searchGroup portPattern config).bind int

/-! ## Flag and hash -/

/-- `chr(0x1F1E5 + ord(letter))`. -/
def indicator (letter : Char) : Option Char :=
  if 0x1F1E5 + letter.toNat ≤ 0x10FFFF then some (.ofNat (0x1F1E5 + letter.toNat)) else none

/-- The white flag, U+1F3F3 U+FE0F. -/
def whiteFlag : Str := [.ofNat 0x1F3F3, .ofNat 0xFE0F]

/-- `get_flag` of a text. -/
def getFlag (U : Unicode) (countryCode : Str) : Option Str :=
  let code := strip (U.upper countryCode)
  if code = "UN".toList then some whiteFlag
  else match code with
    | [a, b] =>
        if U.isAlpha a && U.isAlpha b then
          (indicator a).bind fun x => (indicator b).map fun y => [x, y]
        else some whiteFlag
    | _ => some whiteFlag

/-- Every letter is below U+F0E1B, as in Unicode. -/
def Unicode.LettersLow (U : Unicode) : Prop := ∀ c, U.isAlpha c = true → c.toNat ≤ 0xF0E1A

theorem getFlag_isSome {U : Unicode} (hU : U.LettersLow) (code : Str) :
    (getFlag U code).isSome = true := by
  have hindicator : ∀ c, U.isAlpha c = true → (indicator c).isSome = true := by
    intro c hc
    have := hU c hc
    rw [indicator, if_pos (by omega)]
    rfl
  simp only [getFlag]
  split_ifs
  · rfl
  · split
    · split_ifs with hletters
      · rw [Bool.and_eq_true] at hletters
        obtain ⟨x, hx⟩ := Option.isSome_iff_exists.mp (hindicator _ hletters.1)
        obtain ⟨y, hy⟩ := Option.isSome_iff_exists.mp (hindicator _ hletters.2)
        rw [hx, hy]
        rfl
      · rfl
    · rfl

/-- A letter of ASCII. -/
theorem toNat_of_isAlpha {c : Char} (hc : c.isAlpha = true) : c.toNat < 128 := by
  have hletter : (decide (c.val ≥ 65 ∧ c.val ≤ 90) || c.val ≥ 97 && c.val ≤ 122) = true := hc
  simp only [Bool.or_eq_true, Bool.and_eq_true, decide_eq_true_eq] at hletter
  rcases hletter with ⟨-, h⟩ | ⟨-, h⟩
  · exact Nat.lt_of_le_of_lt (UInt32.le_iff_toNat_le.mp h) (by decide)
  · exact Nat.lt_of_le_of_lt (UInt32.le_iff_toNat_le.mp h) (by decide)

theorem lettersLow_sample : Env.sample.unicode.LettersLow := fun _ hc =>
  Nat.le_trans (Nat.le_of_lt (toNat_of_isAlpha hc)) (by decide)

/-- What `config_hash` hashes: the link up to its first `#`. -/
def normalized (config : Str) : Str := strip (before '#' config)

/-- `config_hash`. -/
def configHash (config : Str) : Str := Md5.hexdigest (Utf8.encode (normalized config))

/-- **The remark is ignored**: the hash does not depend on what follows the first
`#`. -/
theorem configHash_fragment {base : Str} (h : '#' ∉ base) (r : Str) :
    configHash (base ++ '#' :: r) = configHash base := by
  simp [configHash, normalized, before_append_cons h, before_of_notMem h]

/-- Two texts with the same MD5. -/
def Collide (s t : Str) : Prop :=
  s ≠ t ∧ Md5.hexdigest (Utf8.encode s) = Md5.hexdigest (Utf8.encode t)

theorem configHash_eq_iff {c d : Str} :
    configHash c = configHash d ↔
      normalized c = normalized d ∨ Collide (normalized c) (normalized d) := by
  constructor
  · intro h
    by_cases he : normalized c = normalized d
    · exact .inl he
    · exact .inr ⟨he, h⟩
  · rintro (h | h)
    · rw [configHash, h, configHash]
    · exact h.2

end ConfigManager
