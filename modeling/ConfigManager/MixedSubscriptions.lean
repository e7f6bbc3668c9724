import ConfigManager.Subscription

/-! # Subscriptions of both kinds (`scraper.subscription`)

The documentation allows a text of links with base64 of more links behind it or before it.
`_decode_base64_content` decides once for the whole content, and a scheme anywhere in it
makes all of it plain: the block in base64 has no colon, so nothing is found in it.  One of
the blocks is read, the other only as far as that one says it, too.
-/
namespace ConfigManager

open Py Regex Html

variable (E : Entities)

/-- Every config is represented in what is extracted. -/
def ReadCompletely (content : Str) (configs : List Str) : Prop :=
  ∃ result, extractConfigs E content = some result ∧
    ∀ c ∈ configs, configHash c ∈ result.map configHash

/-- The parser reads the block, and every encoded config is, up to its remark, one of the
block or one the parser finds in it. -/
def Repeated (block encodedText : Str) : Prop :=
  ∃ parserConfigs, extractConfigsFromText E block = some parserConfigs ∧
    ∀ e ∈ findall configPattern encodedText,
      configHash e ∈ (findall configPattern block ++ parserConfigs).map configHash

/-- A text with another character than whitespace. -/
def Inked (s : Str) : Prop := ∃ c ∈ s, isSpace c = false

/-- A block of config lines: if there is anything in it, there is a config. -/
def ConfigLines (text : Str) : Prop := Inked text → findall configPattern text ≠ []

/-- The block that is read: the plain one, if there is anything in it. -/
def readBlock (plainText encodedText : Str) : Str :=
  if findall configPattern plainText = [] then encodedText else plainText

variable {E} {s t wire text : Str}

/-! ## Whitespace at the ends -/

theorem isSpace_of_not_inked (h : ¬Inked s) : ∀ c ∈ s, isSpace c = true := by
  intro c hc
  by_contra hspace
  exact h ⟨c, hc, by simpa using hspace⟩

theorem dropWhile_append_of_inked (h : Inked s) (t : Str) :
    (s ++ t).dropWhile isSpace = s.dropWhile isSpace ++ t := by
  obtain ⟨c, hc, hspace⟩ := h
  have hne : s.dropWhile isSpace ≠ [] := by
    rw [Ne, List.dropWhile_eq_nil_iff]
    intro hall
    rw [hall c hc] at hspace
    cases hspace
  rw [List.dropWhile_append, if_neg (by simpa using hne)]

theorem rstrip_append_of_inked (h : Inked t) (s : Str) : rstrip (s ++ t) = s ++ rstrip t := by
  have hrev : Inked t.reverse := by
    obtain ⟨c, hc, hspace⟩ := h
    exact ⟨c, List.mem_reverse.mpr hc, hspace⟩
  rw [rstrip, rstrip, List.rdropWhile, List.rdropWhile, List.reverse_append,
    dropWhile_append_of_inked hrev, List.reverse_append, List.reverse_reverse]

/-- Each of two lines with something on them is stripped on its own side. -/
theorem strip_lines (hs : Inked s) (ht : Inked t) :
    strip (s ++ '\n' :: t) = s.dropWhile isSpace ++ '\n' :: rstrip t := by
  rw [strip, dropWhile_append_of_inked hs, List.append_cons, ← rstrip,
    rstrip_append_of_inked ht, ← List.append_cons]

/-- A blank line in front. -/
theorem strip_blank_line (hs : ¬Inked s) (t : Str) : strip (s ++ '\n' :: t) = strip t := by
  rw [strip, List.dropWhile_append_of_pos (isSpace_of_not_inked hs),
    List.dropWhile_cons_of_pos (by decide), strip]

/-- A blank line at the end. -/
theorem strip_line_blank (hs : Inked s) (ht : ¬Inked t) : strip (s ++ '\n' :: t) = strip s := by
  have hblank : ∀ c ∈ ('\n' :: t).reverse, isSpace c = true := by
    intro c hc
    rcases List.mem_cons.mp (List.mem_reverse.mp hc) with rfl | hc
    · decide
    · exact isSpace_of_not_inked ht c hc
  rw [strip, dropWhile_append_of_inked hs, List.rdropWhile, List.reverse_append,
    List.dropWhile_append_of_pos hblank, ← List.rdropWhile, ← strip]

/-- Where a link is found, there is a scheme. -/
theorem containsScheme_of_findall (h : findall configPattern s ≠ []) : ContainsScheme s := by
  induction s with
  | nil => exact absurd rfl h
  | cons c s ih =>
    cases hm : configPattern.match? (c :: s) with
    | none =>
      rw [findall_cons_of_noMatch hm] at h
      obtain ⟨p, hp, hi⟩ := ih h
      exact ⟨p, hp, hi.trans (List.suffix_cons c s).isInfix⟩
    | some m =>
      obtain ⟨b, hb, u, hu⟩ := exists_scheme_of_match? hm
      exact ⟨b, hb, hu ▸ (List.prefix_append b u).isInfix⟩

theorem inked_of_findall (h : findall configPattern s ≠ []) : Inked s := by
  by_contra hblank
  exact not_containsScheme (fun hc => hblank ⟨':', hc, by decide⟩) (containsScheme_of_findall h)

/-- What encodes a text with a link is not blank. -/
theorem inked_wire (hwire : Encodes wire text) (h : findall configPattern text ≠ []) :
    Inked wire := by
  by_contra hblank
  have hfillers : wire.filter (!isFiller ·) = [] := by
    rw [List.filter_eq_nil_iff]
    intro c hc
    rcases hwire.char hc with hf | ha
    · simp [hf]
    · exact absurd ⟨c, hc, Base64.isSpace_of_isAlphabet ha⟩ hblank
  have hspells : Base64.Spells (Utf8.encode text) [] := hfillers ▸ hwire
  have hbytes : some [] = some (Utf8.encode text) := by
    rw [← Base64.b64decode_b64encode (Utf8.encode text), ← pad_of_spells hspells]
    rfl
  have htext : text ≠ [] := fun he => h (he ▸ rfl)
  exact Utf8.encode_ne_nil htext (Option.some.inj hbytes).symm

/-! ## The parser -/

/-- Whitespace in front is no part of a reference or a link. -/
theorem extractConfigsFromText_dropWhile (s : Str) :
    extractConfigsFromText E (s.dropWhile isSpace) = extractConfigsFromText E s := by
  induction s with
  | nil => rfl
  | cons c s ih =>
    by_cases hc : isSpace c = true
    · have hamp : c ≠ '&' := by
        rintro rfl
        revert hc
        decide
      have hfound : ∀ u, findall configPattern (c :: u) = findall configPattern u :=
        findall_cut hc []
      rw [List.dropWhile_cons_of_pos hc, ih, extractConfigsFromText, extractConfigsFromText,
        unescape_cons, if_neg fun h => hamp h.1, Option.map_map]
      exact Option.map_congr fun u _ => (hfound u).symm
    · rw [List.dropWhile_cons_of_neg hc]

theorem extractConfigsFromText_lines (s t : Str) :
    extractConfigsFromText E (s ++ '\n' :: t) =
      (extractConfigsFromText E s).bind fun a => (extractConfigsFromText E t).map (a ++ ·) := by
  have hcut : ∀ u v, findall configPattern (u ++ '\n' :: v) =
      findall configPattern u ++ findall configPattern v := findall_cut (by decide)
  rw [extractConfigsFromText, unescape_append_newline, extractConfigsFromText,
    extractConfigsFromText]
  cases unescape E s <;> cases unescape E t <;> simp [hcut]

/-- What has no reference and no scheme in it. -/
theorem extractConfigsFromText_of_notMem (hamp : '&' ∉ s) (hcolon : ':' ∉ s) :
    extractConfigsFromText E s = some [] := by
  have hfound : findall configPattern s = [] := by
    by_contra h
    exact not_containsScheme hcolon (containsScheme_of_findall h)
  rw [extractConfigsFromText, unescape_of_notMem hamp, Option.map_some, hfound]

/-! ## Both kinds together -/

/-- What is extracted is what the parser and the pattern find in a block. -/
theorem readCompletely_iff {content block encodedText : Str} {configs : List Str}
    (hextract : extractConfigs E content = (extractConfigsFromText E block).map
      fun parserConfigs => (findall configPattern block ++ parserConfigs).foldl keepNew [])
    (hconfigs : ∀ c, c ∈ configs ↔
      c ∈ findall configPattern block ∨ c ∈ findall configPattern encodedText) :
    ReadCompletely E content configs ↔ Repeated E block encodedText := by
  rw [ReadCompletely, hextract]
  constructor
  · rintro ⟨result, hresult, hall⟩
    obtain ⟨parserConfigs, hparsed, rfl⟩ := Option.map_eq_some_iff.mp hresult
    refine ⟨parserConfigs, hparsed, fun e he => ?_⟩
    have hmem := hall e ((hconfigs e).mpr (.inr he))
    rw [mem_map_foldl_keepNew] at hmem
    exact hmem.resolve_left List.not_mem_nil
  · rintro ⟨parserConfigs, hparsed, hall⟩
    refine ⟨_, Option.map_eq_some_iff.mpr ⟨parserConfigs, hparsed, rfl⟩, fun c hc => ?_⟩
    rw [mem_map_foldl_keepNew]
    right
    rcases (hconfigs c).mp hc with hblock | hencoded
    · exact List.mem_map_of_mem (List.mem_append_left _ hblock)
    · exact hall c hencoded

/-- A content with a scheme in it, that has the links of a text and in which the parser finds
what it finds in the text. -/
theorem extractConfigs_plain {content plainText : Str}
    (hscheme : ContainsScheme content)
    (hfound : findall configPattern content = findall configPattern plainText)
    (hparser : extractConfigsFromText E (strip content) = extractConfigsFromText E plainText) :
    extractConfigs E content = (extractConfigsFromText E plainText).map
      fun parserConfigs => (findall configPattern plainText ++ parserConfigs).foldl keepNew [] := by
  rw [extractConfigs, decode_of_containsScheme (containsScheme_strip hscheme)]
  simp only [findall_strip, hfound, hparser]

/-- Of the wire behind or before a plain block nothing is read. -/
theorem extractConfigs_lines {plainText : Str} (hplain : findall configPattern plainText ≠ [])
    (hink : Inked wire) (hamp : '&' ∉ wire) (hcolon : ':' ∉ wire) :
    extractConfigs E (plainText ++ '\n' :: wire) = (extractConfigsFromText E plainText).map
        (fun parserConfigs => (findall configPattern plainText ++ parserConfigs).foldl keepNew []) ∧
      extractConfigs E (wire ++ '\n' :: plainText) =
        (extractConfigsFromText E (rstrip plainText)).map fun parserConfigs =>
          (findall configPattern (rstrip plainText) ++ parserConfigs).foldl keepNew [] := by
  have hinkPlain : Inked plainText := inked_of_findall hplain
  have hwire : findall configPattern wire = [] := by
    by_contra h
    exact not_containsScheme hcolon (containsScheme_of_findall h)
  -- Stripping the content takes whitespace from one end of the wire.
  have hleft : extractConfigsFromText E (wire.dropWhile isSpace) = some [] :=
    (extractConfigsFromText_dropWhile wire).trans (extractConfigsFromText_of_notMem hamp hcolon)
  have hright : extractConfigsFromText E (rstrip wire) = some [] :=
    extractConfigsFromText_of_notMem
      (fun h => hamp ((List.rdropWhile_prefix isSpace _).mem h))
      (fun h => hcolon ((List.rdropWhile_prefix isSpace _).mem h))
  have hcut : ∀ u v, findall configPattern (u ++ '\n' :: v) =
      findall configPattern u ++ findall configPattern v := findall_cut (by decide)
  constructor
  · have hfound : findall configPattern (plainText ++ '\n' :: wire) =
        findall configPattern plainText := by rw [hcut, hwire, List.append_nil]
    apply extractConfigs_plain (containsScheme_of_findall (by rwa [hfound])) hfound
    rw [strip_lines hinkPlain hink, extractConfigsFromText_lines, hright,
      extractConfigsFromText_dropWhile]
    simp
  · have hfound : findall configPattern (wire ++ '\n' :: plainText) =
        findall configPattern (rstrip plainText) := by
      rw [hcut, hwire, List.nil_append, findall_rstrip]
    rw [← findall_rstrip] at hplain
    apply extractConfigs_plain (containsScheme_of_findall (by rwa [hfound])) hfound
    rw [strip_lines hink hinkPlain, extractConfigsFromText_lines, hleft]
    simp

/-- A content with nothing but the wire in it. -/
theorem extractConfigs_encoded {content : Str} (hwire : Encodes wire text)
    (ht : findall configPattern text ≠ []) (hstrip : strip content = strip wire) :
    extractConfigs E content = (extractConfigsFromText E text).map
      fun parserConfigs => (findall configPattern text ++ parserConfigs).foldl keepNew [] := by
  have hdecode : decodeBase64Content content = text := by
    rw [← hwire.decode (containsScheme_of_findall ht), decodeBase64Content, hstrip,
      ← decodeBase64Content]
  rw [extractConfigs, hdecode]

/-- **When both kinds are read**: exactly when the block that is read has all there is to
read, in either order. -/
theorem mixed_readCompletely_iff (E : Entities) (plainText encodedText wire : Str)
    (hplain : ConfigLines plainText) (hencoded : findall configPattern encodedText ≠ [])
    (hwire : Encodes wire encodedText) :
    (ReadCompletely E (plainText ++ '\n' :: wire)
        (findall configPattern plainText ++ findall configPattern encodedText) ↔
      Repeated E (readBlock plainText encodedText) encodedText) ∧
    (ReadCompletely E (wire ++ '\n' :: plainText)
        (findall configPattern plainText ++ findall configPattern encodedText) ↔
      Repeated E (readBlock (rstrip plainText) encodedText) encodedText) := by
  rw [readBlock, readBlock, findall_rstrip]
  have hinkWire : Inked wire := inked_wire hwire hencoded
  by_cases hfound : findall configPattern plainText = []
  · -- There is nothing in the plain block, and the encoded one is all there is.
    have hblank : ¬Inked plainText := fun h => hplain h hfound
    rw [if_pos hfound, if_pos hfound, hfound]
    constructor
    · exact readCompletely_iff
        (extractConfigs_encoded hwire hencoded (strip_blank_line hblank wire)) (by simp)
    · exact readCompletely_iff
        (extractConfigs_encoded hwire hencoded (strip_line_blank hinkWire hblank)) (by simp)
  · have hextract := extractConfigs_lines (E := E) hfound hinkWire
      (hwire.notMem (by decide)) (hwire.notMem (by decide))
    rw [if_neg hfound, if_neg hfound]
    constructor
    · exact readCompletely_iff hextract.1 (by simp)
    · exact readCompletely_iff hextract.2 (by simp [findall_rstrip])

/-- `sampleLink` with another remark. -/
def remarkedLink : Str := "vless://u@h:443#b".toList

/-- `remarkedLink`, encoded. -/
def remarkedWire : Str := "dmxlc3M6Ly91QGg6NDQzI2I=".toList

/-- The encoded link is the plain one up to its remark. -/
theorem mixed_readCompletely_sample :
    ReadCompletely latinEntities (sampleLink ++ '\n' :: remarkedWire)
        (findall configPattern sampleLink ++ findall configPattern remarkedLink) ∧
      ReadCompletely latinEntities (remarkedWire ++ '\n' :: sampleLink)
        (findall configPattern sampleLink ++ findall configPattern remarkedLink) := by
  have h := mixed_readCompletely_iff latinEntities sampleLink remarkedLink remarkedWire
    (fun _ => by decide +kernel) (by decide +kernel) (.inl (by decide +kernel))
  have hrepeated : Repeated latinEntities sampleLink remarkedLink :=
    ⟨[sampleLink], by decide +kernel, by decide +kernel⟩
  have hstrip : rstrip sampleLink = sampleLink := by decide +kernel
  have hblock : readBlock sampleLink remarkedLink = sampleLink := by decide +kernel
  rw [hstrip, hblock] at h
  exact ⟨h.1.mpr hrepeated, h.2.mpr hrepeated⟩

/-- A link of another server. -/
def otherLink : Str := "vless://u@k:443#b".toList

/-- `otherLink`, encoded. -/
def otherWire : Str := "dmxlc3M6Ly91QGs6NDQzI2I=".toList

/-- In neither order is the encoded link read. -/
theorem not_readCompletely_otherLink :
    Encodes otherWire otherLink ∧
      extractConfigs latinEntities (sampleLink ++ '\n' :: otherWire) = some [sampleLink] ∧
      extractConfigs latinEntities (otherWire ++ '\n' :: sampleLink) = some [sampleLink] ∧
      ¬ReadCompletely latinEntities (sampleLink ++ '\n' :: otherWire)
        (findall configPattern sampleLink ++ findall configPattern otherLink) ∧
      ¬ReadCompletely latinEntities (otherWire ++ '\n' :: sampleLink)
        (findall configPattern sampleLink ++ findall configPattern otherLink) := by
  have hbehind : extractConfigs latinEntities (sampleLink ++ '\n' :: otherWire) =
      some [sampleLink] := by decide +kernel
  have hbefore : extractConfigs latinEntities (otherWire ++ '\n' :: sampleLink) =
      some [sampleLink] := by decide +kernel
  have hmem : otherLink ∈ findall configPattern sampleLink ++ findall configPattern otherLink := by
    decide +kernel
  have hhash : configHash otherLink ∉ [sampleLink].map configHash := by decide +kernel
  refine ⟨.inl (by decide +kernel), hbehind, hbefore, ?_, ?_⟩
  · rintro ⟨result, hresult, hall⟩
    obtain rfl := Option.some.inj (hbehind.symm.trans hresult)
    exact hhash (hall otherLink hmem)
  · rintro ⟨result, hresult, hall⟩
    obtain rfl := Option.some.inj (hbefore.symm.trans hresult)
    exact hhash (hall otherLink hmem)

end ConfigManager
