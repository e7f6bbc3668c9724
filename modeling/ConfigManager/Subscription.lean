import ConfigManager.ChannelScraper
import ConfigManager.LinkText

/-! # Subscriptions (`scraper.subscription`)

A subscription is a text with links in it, or base64 of one.  `_decode_base64_content`
takes what has one of the four schemes in it as it is; what has none it decodes, and
keeps the result if that has one.  No base64 text has a colon, so the two never meet.
-/
namespace ConfigManager

open Py Regex Html

/-- `any(p in content for p in (...))`. -/
def ContainsScheme (content : Str) : Prop := ∃ p ∈ schemes, p <:+: content

instance (content : Str) : Decidable (ContainsScheme content) :=
  inferInstanceAs (Decidable (∃ p ∈ schemes, p <:+: content))

/-- `content.replace("\n", "").replace("\r", "").replace(" ", "")`. -/
def clean (content : Str) : Str :=
  replace [' '] [] (replace ['\r'] [] (replace ['\n'] [] content))

/-- `_decode_base64_content`. -/
def decodeBase64Content (content : Str) : Str :=
  let content := strip content
  if startsWithScheme content then content
  else if ContainsScheme content then content
  else
    match Base64.b64decode (pad (clean content)) with
    | none => content
    | some bytes =>
        let decoded := Utf8.decodeIgnore bytes
        if ContainsScheme decoded then decoded else content

/-- `_extract_configs`, `none` where it raises. -/
def extractConfigs (E : Entities) (content : Str) : Option (List Str) :=
  let decoded := decodeBase64Content content
  (extractConfigsFromText E decoded).map fun parserConfigs =>
    (findall configPattern decoded ++ parserConfigs).foldl keepNew []

/-! ## Decoding -/

/-- What `clean` removes. -/
def isFiller (c : Char) : Bool := c == '\n' || c == '\r' || c == ' '

theorem clean_eq (content : Str) : clean content = content.filter (!isFiller ·) := by
  rw [clean, replace_singleton_nil, replace_singleton_nil, replace_singleton_nil,
    List.filter_filter, List.filter_filter]
  congr 1
  funext c
  simp [isFiller, bne, Bool.and_comm, Bool.and_assoc]

/-- A text is sent as base64 of its UTF-8, with its padding or without, and fillers
inserted anywhere. -/
def Encodes (wire text : Str) : Prop :=
  Base64.Spells (Utf8.encode text) (wire.filter (!isFiller ·))

variable {wire text : Str}

theorem decode_of_containsScheme (h : ContainsScheme (strip text)) :
    decodeBase64Content text = strip text := by
  rw [decodeBase64Content]
  simp only [if_pos h, ite_self]

/-- A character on the wire is a filler or in the alphabet. -/
theorem Encodes.char (h : Encodes wire text) {c : Char} (hc : c ∈ wire) :
    isFiller c = true ∨ Base64.isAlphabet c = true := by
  by_cases hf : isFiller c = true
  · exact .inl hf
  · right
    have hmem : c ∈ wire.filter (!isFiller ·) := List.mem_filter.mpr ⟨hc, by simpa using hf⟩
    exact Base64.isAlphabet_of_spells h hmem

theorem Encodes.notMem (h : Encodes wire text) {c : Char}
    (hc : isFiller c = false ∧ Base64.isAlphabet c = false) : c ∉ wire := by
  intro hm
  rcases h.char hm with hf | ha
  · rw [hc.1] at hf
    cases hf
  · rw [hc.2] at ha
    cases ha

/-- Every scheme has a colon. -/
theorem not_containsScheme {s : Str} (h : ':' ∉ s) : ¬ContainsScheme s := by
  rintro ⟨p, hp, hs⟩
  have hcolon : ∀ p ∈ schemes, ':' ∈ p := by decide
  exact h (hs.mem (hcolon p hp))

theorem startsWithScheme_containsScheme {s : Str} (h : startsWithScheme s = true) :
    ContainsScheme s := by
  obtain ⟨p, hp, hs⟩ := List.any_eq_true.mp h
  exact ⟨p, hp, (List.isPrefixOf_iff_prefix.mp hs).isInfix⟩

/-- **What is sent is read**, if a scheme is in it. -/
theorem Encodes.decode (h : Encodes wire text) (ht : ContainsScheme text) :
    decodeBase64Content wire = text := by
  have hwire : ¬ContainsScheme (strip wire) :=
    not_containsScheme fun hc => h.notMem (by decide) (mem_of_mem_strip hc)
  have hstart : ¬startsWithScheme (strip wire) = true := fun hs =>
    hwire (startsWithScheme_containsScheme hs)
  have hclean : clean (strip wire) = wire.filter (!isFiller ·) := by
    rw [clean_eq]
    apply filter_strip
    intro c hc hspace
    rcases h.char hc with hf | ha
    · simp [hf]
    · rw [Base64.isSpace_of_isAlphabet ha] at hspace
      cases hspace
  rw [decodeBase64Content]
  simp only [if_neg hwire, if_neg hstart, hclean, pad_of_spells h, Base64.b64decode_b64encode,
    Utf8.decodeIgnore_of_decode (Utf8.decode_encode text), if_pos ht]

/-- **Base64 is transparent**: a text and any way to send it are the same subscription. -/
theorem subscription_transparent (E : Entities) (text wire : Str) (hstrip : strip text = text)
    (htext : ContainsScheme text) (hwire : Encodes wire text) :
    decodeBase64Content wire = text ∧ decodeBase64Content text = text ∧
      extractConfigs E wire = extractConfigs E text := by
  have hself : decodeBase64Content text = text := by
    rw [decode_of_containsScheme (hstrip.symm ▸ htext), hstrip]
  have hsent : decodeBase64Content wire = text := hwire.decode htext
  refine ⟨hsent, hself, ?_⟩
  rw [extractConfigs, extractConfigs, hsent, hself]

/-- Some of the names of HTML, with two that need no semicolon. -/
def latinEntities : Entities where
  named name :=
    if name = "amp;".toList then some ['&']
    else if name = "lt;".toList then some ['<']
    else if name = "gt;".toList then some ['>']
    else if name = "copy".toList then some ['©']
    else if name = "reg".toList then some ['®']
    else none
  named_amp := rfl
  named_lt := rfl
  named_gt := rfl
  length_le name value h := by
    have hlen : ∀ n ∈ ["amp;".toList, "lt;".toList, "gt;".toList, "copy".toList, "reg".toList],
        1 ≤ n.length := by decide
    split_ifs at h with h₁ h₂ h₃ h₄ h₅
    · cases h; exact h₁ ▸ hlen _ (by simp)
    · cases h; exact h₂ ▸ hlen _ (by simp)
    · cases h; exact h₃ ▸ hlen _ (by simp)
    · cases h; exact h₄ ▸ hlen _ (by simp)
    · cases h; exact h₅ ▸ hlen _ (by simp)

/-- A text of one link, sent without padding on two lines. -/
theorem subscription_transparent_sample :
    decodeBase64Content "dmxlc3M6Ly91\nQGg6NDQzI2E ".toList = sampleLink ∧
      decodeBase64Content sampleLink = sampleLink ∧
      extractConfigs latinEntities "dmxlc3M6Ly91\nQGg6NDQzI2E ".toList =
        extractConfigs latinEntities sampleLink :=
  subscription_transparent latinEntities sampleLink "dmxlc3M6Ly91\nQGg6NDQzI2E ".toList
    (by decide +kernel) (by decide +kernel) (.inr (by decide +kernel))

/-! ## Plain text -/

/-- Read as HTML, the text has no link that it does not have as it is, fragments and two
texts with one MD5 apart. -/
def SameUnescaped (E : Entities) (text : Str) : Prop :=
  ∃ plain, unescape E (strip text) = some plain ∧
    ∀ e ∈ findall configPattern plain, ∃ c ∈ findall configPattern text,
      normalized e = normalized c ∨ Collide (normalized e) (normalized c)

theorem containsScheme_strip (h : ContainsScheme text) : ContainsScheme (strip text) := by
  obtain ⟨p, hp, hi⟩ := h
  have hschemes : ∀ p ∈ schemes, NoSpace p ∧ p ≠ [] := by
    unfold NoSpace
    decide
  exact ⟨p, hp, infix_strip (hschemes p hp).1 (hschemes p hp).2 hi⟩

/-- What is extracted from a text with a scheme in it: the links of the text, and those of
the unescaped text. -/
theorem extractConfigs_of_containsScheme (E : Entities) (h : ContainsScheme text) :
    extractConfigs E text = (unescape E (strip text)).map fun plain =>
      (findall configPattern plain).foldl keepNew
        ((findall configPattern text).foldl keepNew []) := by
  rw [extractConfigs, decode_of_containsScheme (containsScheme_strip h), extractConfigsFromText,
    Option.map_map]
  simp only [Function.comp_def, findall_strip, List.foldl_append]

/-- Nothing is kept exactly if all of it was seen. -/
theorem foldl_keepNew_eq_self_iff {configs found : List Str} :
    found.foldl keepNew configs = configs ↔
      ∀ e ∈ found, configHash e ∈ configs.map configHash := by
  constructor
  · intro h e he
    have hmem : configHash e ∈ (found.foldl keepNew configs).map configHash :=
      mem_map_foldl_keepNew.mpr (.inr (List.mem_map_of_mem he))
    rwa [h] at hmem
  · exact foldl_keepNew_of_seen

theorem unescape_of_notMem {E : Entities} {s : Str} (h : '&' ∉ s) : unescape E s = some s := by
  induction s with
  | nil => rfl
  | cons c s ih =>
    rw [List.mem_cons, not_or] at h
    rw [unescape_cons, if_neg fun hc => h.1 hc.1.symm, ih h.2]
    rfl

/-- **When plain text is taken as it is**: exactly when reading it as HTML adds no link.
A text without `&` always is. -/
theorem extractConfigs_verbatim_iff (E : Entities) (text : Str) (h : ContainsScheme text) :
    (extractConfigs E text = some ((findall configPattern text).foldl keepNew []) ↔
      SameUnescaped E text) ∧ ('&' ∉ text → SameUnescaped E text) := by
  constructor
  · rw [extractConfigs_of_containsScheme E h, Option.map_eq_some_iff]
    apply exists_congr
    intro plain
    rw [foldl_keepNew_eq_self_iff]
    apply and_congr_right
    intro _
    apply forall₂_congr
    intro e _
    rw [mem_map_foldl_keepNew]
    simp only [List.map_nil, List.not_mem_nil, false_or, List.mem_map, eq_comm (b := configHash e),
      configHash_eq_iff]
  · intro hamp
    refine ⟨strip text, unescape_of_notMem fun hm => hamp (mem_of_mem_strip hm), fun e he => ?_⟩
    rw [findall_strip] at he
    exact ⟨e, he, .inl rfl⟩

/-- A link with a parameter that starts like an entity. -/
def copyLink : Str := "vless://u@h:443?a=1&copy=1#x".toList

theorem extractConfigs_verbatim_sample :
    (extractConfigs latinEntities sampleLink =
        some ((findall configPattern sampleLink).foldl keepNew []) ↔
      SameUnescaped latinEntities sampleLink) ∧ SameUnescaped latinEntities sampleLink :=
  have h := extractConfigs_verbatim_iff latinEntities sampleLink (by decide +kernel)
  ⟨h.1, h.2 (by decide)⟩

/-- One link is returned as two, the second of which is not in the text. -/
theorem not_verbatim_copyLink :
    ContainsScheme copyLink ∧ findall configPattern copyLink = [copyLink] ∧
      extractConfigs latinEntities copyLink =
        some [copyLink, "vless://u@h:443?a=1©=1#x".toList] ∧
      extractConfigs latinEntities copyLink ≠
        some ((findall configPattern copyLink).foldl keepNew []) ∧
      ¬"vless://u@h:443?a=1©=1#x".toList <:+: copyLink := by
  decide +kernel

end ConfigManager
