import ConfigManager.WatermarkLens

/-! # The flag of a country

`get_flag` adds U+1F1E5 to a letter where the Regional Indicator of a letter is U+1F1E6
plus its index.  No country of `COUNTRY_FLAGS` gets its flag (`getFlag_ne_of_mem`), but
the flags still tell countries apart, and the country of a marked link can be read off it
(`readsBack`).
-/
namespace ConfigManager

open Py

/-- `COUNTRY_FLAGS`. -/
def countryFlags : List (Str × Str) :=
  [("IR", "🇮🇷"), ("US", "🇺🇸"), ("DE", "🇩🇪"), ("NL", "🇳🇱"), ("AE", "🇦🇪"),
   ("GB", "🇬🇧"), ("FR", "🇫🇷"), ("JP", "🇯🇵"), ("SG", "🇸🇬"), ("CA", "🇨🇦"),
   ("AU", "🇦🇺"), ("FI", "🇫🇮"), ("SE", "🇸🇪"), ("IN", "🇮🇳"), ("RU", "🇷🇺"),
   ("TR", "🇹🇷"), ("KR", "🇰🇷"), ("HK", "🇭🇰"), ("BR", "🇧🇷"), ("CN", "🇨🇳"),
   ("NZ", "🇳🇿"), ("NO", "🇳🇴"), ("PL", "🇵🇱"), ("UA", "🇺🇦"), ("RO", "🇷🇴"),
   ("CZ", "🇨🇿"), ("IT", "🇮🇹"), ("ES", "🇪🇸"), ("CH", "🇨🇭"), ("BE", "🇧🇪"),
   ("AT", "🇦🇹"), ("DK", "🇩🇰"), ("PT", "🇵🇹"), ("IE", "🇮🇪"), ("IL", "🇮🇱")].map
    fun (code, flag) => (code.toList, flag.toList)

/-- The Regional Indicator Symbol of a letter. -/
def regionalIndicator (letter : Char) : Char := .ofNat (0x1F1E6 + (letter.toUpper.toNat - 65))

/-- The flag of a code: its two Regional Indicators, and the white flag of any text that is
no code. -/
def regionalFlag (code : Str) : Str :=
  match code with
  | [a, b] =>
      if a.isAlpha ∧ b.isAlpha ∧ code ≠ "UN".toList then [regionalIndicator a, regionalIndicator b]
      else whiteFlag
  | _ => whiteFlag

variable (env : Env)

/-- `country_code.upper().strip()`. -/
def codeOf (countryCode : Str) : Str := strip (env.unicode.upper countryCode)

/-- Two letters, not ASCII ones only. -/
def TwoLetters (code : Str) : Prop :=
  ∃ a b, code = [a, b] ∧ env.unicode.isAlpha a = true ∧ env.unicode.isAlpha b = true

/-- The code whose flag a watermark starts with. -/
def readCode (mark : Str) : Str :=
  if whiteFlag.isPrefixOf mark then "UN".toList
  else (mark.take 2).map fun x => .ofNat (x.toNat - 0x1F1E5)

/-- A link is marked, and the watermark is read off it: off the `ps` member where the
payload can be written again, and off the fragment of every other link. -/
structure Written (config countryCode mark marked : Str) : Prop where
  watermark : watermark env countryCode = some mark
  inject : injectWatermark env config countryCode = some marked
  payload : isVmess config = true → Rewritable env config →
    ∃ ms, vmessData env.floats Utf8.decode marked = some (.obj ms) ∧
      Json.get? (ofText "ps".toList) ms = some (Json.text mark)
  fragment : ¬(isVmess config = true ∧ Rewritable env config) →
    Percent.unquote (after '#' marked) = some mark

/-- A code is read off the link it marks, and no other code gives its watermark. -/
def ReadsBack (config countryCode : Str) : Prop :=
  (∃ mark marked, Written env config countryCode mark marked ∧
    readCode mark = codeOf env countryCode) ∧
  ∀ other, TwoLetters env (codeOf env other) → codeOf env other ≠ codeOf env countryCode →
    watermark env other ≠ watermark env countryCode

/-- **The published flag identifies the country.** -/
structure Identifies (config countryCode : Str) : Prop where
  flag : ∃ mark marked, Written env config countryCode mark marked ∧
    regionalFlag (codeOf env countryCode) <+: mark
  table : ∀ flag, (countryCode, flag) ∈ countryFlags → getFlag env.unicode countryCode = some flag
  readsBack : TwoLetters env (codeOf env countryCode) → ReadsBack env config countryCode

variable {env} {config countryCode other code mark : Str}

/-! ## Flags -/

theorem getFlag_of_not (h : ¬(TwoLetters env (codeOf env countryCode) ∧
    codeOf env countryCode ≠ "UN".toList)) :
    getFlag env.unicode countryCode = some whiteFlag := by
  simp only [getFlag]
  split_ifs with hun
  · rfl
  · split
    next a b hcode =>
      split_ifs with hletters
      · rw [Bool.and_eq_true] at hletters
        exact absurd ⟨⟨a, b, hcode, hletters⟩, hun⟩ h
      · rfl
    next => rfl

/-- Two letters are shown by two characters that are no Regional Indicators of theirs. -/
theorem getFlag_of_letters (hU : env.unicode.LettersLow) {a b : Char}
    (hcode : codeOf env countryCode = [a, b]) (ha : env.unicode.isAlpha a = true)
    (hb : env.unicode.isAlpha b = true) (hun : codeOf env countryCode ≠ "UN".toList) :
    getFlag env.unicode countryCode =
      some [.ofNat (0x1F1E5 + a.toNat), .ofNat (0x1F1E5 + b.toNat)] := by
  have hind : ∀ c, env.unicode.isAlpha c = true →
      indicator c = some (.ofNat (0x1F1E5 + c.toNat)) := by
    intro c hc
    have := hU c hc
    rw [indicator, if_pos (by omega)]
  rw [codeOf] at hcode hun
  simp only [getFlag]
  rw [if_neg hun, hcode]
  simp only [ha, hb, Bool.and_self, ↓reduceIte, hind, Option.bind_some, Option.map_some]

theorem toNat_indicator {c : Char} (h : c.toNat ≤ 0xF0E1A) :
    (Char.ofNat (0x1F1E5 + c.toNat)).toNat = 0x1F1E5 + c.toNat := by
  have hvalid : (0x1F1E5 + c.toNat).isValidChar := .inr ⟨by omega, by omega⟩
  rw [Char.ofNat, dif_pos hvalid]
  rfl

theorem isAlpha_of_ascii {c : Char} (hc : c.isAlpha = true) : env.unicode.isAlpha c = true := by
  rw [env.unicode.isAlpha_ascii c (toNat_of_isAlpha hc), hc]

/-- No letter is shown by its Regional Indicator. -/
theorem indicator_ne_regional {c : Char} (hc : c.isAlpha = true) :
    Char.ofNat (0x1F1E5 + c.toNat) ≠ regionalIndicator c := by
  have hletters : ∀ n < 128, (Char.ofNat n).isAlpha = true →
      Char.ofNat (0x1F1E5 + n) ≠ regionalIndicator (Char.ofNat n) := by decide
  have h := hletters c.toNat (toNat_of_isAlpha hc)
  rw [Char.ofNat_toNat] at h
  exact h hc

theorem regionalFlag_of_not (h : ¬(TwoLetters env code ∧ code ≠ "UN".toList)) :
    regionalFlag code = whiteFlag := by
  rw [regionalFlag.eq_def]
  split
  next a b =>
    rw [if_neg]
    rintro ⟨ha, hb, hun⟩
    exact h ⟨⟨a, b, rfl, isAlpha_of_ascii ha, isAlpha_of_ascii hb⟩, hun⟩
  next => rfl

/-- **The flag of two letters is another one.** -/
theorem not_regionalFlag {a b : Char} (hb : b.toNat ≤ 0xF0E1A) (rest : Str) :
    ¬regionalFlag [a, b] <+:
      .ofNat (0x1F1E5 + a.toNat) :: .ofNat (0x1F1E5 + b.toNat) :: rest := by
  intro h
  rw [regionalFlag] at h
  split at h
  next hletters =>
    rw [List.cons_prefix_cons] at h
    exact indicator_ne_regional hletters.1 h.1.symm
  next =>
    rw [whiteFlag, List.cons_prefix_cons, List.cons_prefix_cons] at h
    have hnat := congrArg Char.toNat h.2.1
    rw [toNat_indicator hb] at hnat
    have hwhite : (Char.ofNat 0xFE0F).toNat = 0xFE0F := rfl
    omega

/-! ## Codes -/

/-- **A code is read off its watermark.** -/
theorem readCode_watermark (hU : env.unicode.LettersLow)
    (h : TwoLetters env (codeOf env countryCode))
    (hmark : watermark env countryCode = some mark) : readCode mark = codeOf env countryCode := by
  obtain ⟨a, b, hcode, ha, hb⟩ := h
  obtain ⟨flag, hflag, rfl⟩ := Option.map_eq_some_iff.mp hmark
  by_cases hun : codeOf env countryCode = "UN".toList
  · rw [getFlag_of_not fun h => h.2 hun, Option.some_inj] at hflag
    subst hflag
    rw [hun]
    rfl
  · rw [getFlag_of_letters hU hcode ha hb hun, Option.some_inj] at hflag
    subst hflag
    have hletter : ∀ c, env.unicode.isAlpha c = true →
        Char.ofNat ((Char.ofNat (0x1F1E5 + c.toNat)).toNat - 0x1F1E5) = c := by
      intro c hc
      rw [toNat_indicator (hU c hc), Nat.add_sub_cancel_left, Char.ofNat_toNat]
    -- The second character of the white flag is below every indicator.
    have hwhite : Char.ofNat 0xFE0F ≠ .ofNat (0x1F1E5 + b.toNat) := by
      intro h
      have hnat := congrArg Char.toNat h
      rw [toNat_indicator (hU b hb)] at hnat
      have hselector : (Char.ofNat 0xFE0F).toNat = 0xFE0F := rfl
      omega
    simp only [readCode, whiteFlag, List.cons_append, List.isPrefixOf_cons_cons,
      beq_eq_false_iff_ne.mpr hwhite, Bool.false_and, Bool.and_false, Bool.false_eq_true,
      ↓reduceIte, List.take_succ_cons, List.take_zero, List.map_cons, List.map_nil,
      hletter a ha, hletter b hb, hcode]

/-- Two codes have two watermarks. -/
theorem watermark_ne (hU : env.unicode.LettersLow) (h : TwoLetters env (codeOf env countryCode))
    (hother : TwoLetters env (codeOf env other)) (hne : codeOf env other ≠ codeOf env countryCode) :
    watermark env other ≠ watermark env countryCode := by
  intro heq
  obtain ⟨mark, hmark⟩ := exists_watermark hU countryCode
  have hread := readCode_watermark hU hother (heq.trans hmark)
  exact hne (hread.symm.trans (readCode_watermark hU h hmark))

/-! ## Marked links -/

/-- **A marked link has its watermark** where the readers look for it. -/
theorem exists_written (hU : env.unicode.LettersLow) (config countryCode : Str) :
    ∃ mark marked, Written env config countryCode mark marked := by
  obtain ⟨mark, hmark⟩ := exists_watermark hU countryCode
  by_cases hw : isVmess config = true ∧ Rewritable env config
  · obtain ⟨ms, hms⟩ := (rewritable_iff hw.1).mp hw.2
    obtain ⟨d, hd, hinject⟩ := injected_of_rewritten hms
    have hwf : Json.WF env.floats (withRemark (Json.text mark) ms) :=
      Json.wf_put (wf_vmessData hms.2.1) (Json.wf_text mark)
    refine ⟨mark, d, hmark, by rw [injectWatermark, hmark, Option.map_some, hinject],
      fun _ _ => ⟨_, vmessData_vmessLink Utf8.decode_encode hwf hd, Json.get?_put_self _ _ _⟩,
      fun h => absurd hw h⟩
  · have hno : ∀ ms, ¬Rewritten env config mark ms := fun ms hms =>
      hw ⟨hms.1, (rewritable_iff hms.1).mpr ⟨ms, hms⟩⟩
    refine ⟨mark, _, hmark, by rw [injectWatermark, hmark, Option.map_some, injected_of_not hno],
      fun hv hr => absurd ⟨hv, hr⟩ hw, fun _ => ?_⟩
    rw [withFragment, after_append_cons (notMem_normalized config), Percent.unquote_quote]

theorem readsBack (hU : env.unicode.LettersLow) (config : Str)
    (h : TwoLetters env (codeOf env countryCode)) : ReadsBack env config countryCode := by
  obtain ⟨mark, marked, hwritten⟩ := exists_written hU config countryCode
  exact ⟨⟨mark, marked, hwritten, readCode_watermark hU h hwritten.watermark⟩,
    fun _ hother hne => watermark_ne hU h hother hne⟩

/-- The table shows every code of it by its Regional Indicators. -/
theorem regionalFlag_of_mem : ∀ row ∈ countryFlags, regionalFlag row.1 = row.2 := by decide

variable (env) in
/-- A code of the table is two capital letters. -/
theorem letters_of_mem {flag : Str} (h : (countryCode, flag) ∈ countryFlags) :
    codeOf env countryCode = countryCode ∧ TwoLetters env countryCode ∧
      countryCode ≠ "UN".toList := by
  have hrows : ∀ row ∈ countryFlags, Base64.isAscii row.1 = true ∧
      strip (row.1.map Char.toUpper) = row.1 ∧ row.1 ≠ "UN".toList ∧ row.1.length = 2 ∧
      ∀ c ∈ row.1, c.isAlpha = true := by decide
  obtain ⟨hascii, hupper, hun, hlength, halpha⟩ := hrows _ h
  refine ⟨by rw [codeOf, env.unicode.upper_ascii _ hascii, hupper], ?_, hun⟩
  obtain ⟨a, b, hcode⟩ := List.length_eq_two.mp hlength
  have hmem : ∀ c ∈ [a, b], c.isAlpha = true := fun c hc => halpha c (hcode ▸ hc)
  exact ⟨a, b, hcode, isAlpha_of_ascii (hmem a (by simp)), isAlpha_of_ascii (hmem b (by simp))⟩

/-- **No country of the table gets its flag.** -/
theorem getFlag_ne_of_mem (hU : env.unicode.LettersLow) {flag : Str}
    (h : (countryCode, flag) ∈ countryFlags) : getFlag env.unicode countryCode ≠ some flag := by
  obtain ⟨hself, ⟨a, b, hcode, ha, hb⟩, hun⟩ := letters_of_mem env h
  have hun' : codeOf env countryCode ≠ "UN".toList := by rwa [hself]
  rw [getFlag_of_letters hU (hself.trans hcode) ha hb hun', Ne, Option.some_inj]
  intro hflag
  have htable : regionalFlag countryCode = flag := regionalFlag_of_mem _ h
  rw [hcode, ← hflag] at htable
  apply not_regionalFlag (a := a) (hU b hb) []
  rw [htable]

/-- **Where the flag is the country's.** -/
theorem identifies_iff (env : Env) (hU : env.unicode.LettersLow) (config countryCode : Str) :
    (Identifies env config countryCode ↔
      ¬(TwoLetters env (codeOf env countryCode) ∧ codeOf env countryCode ≠ "UN".toList)) ∧
    (TwoLetters env (codeOf env countryCode) → ReadsBack env config countryCode) := by
  refine ⟨⟨?_, fun h => ⟨?_, ?_, ?_⟩⟩, readsBack hU config⟩
  · rintro ⟨⟨mark, marked, hwritten, hflag⟩, -, -⟩ ⟨⟨a, b, hcode, ha, hb⟩, hun⟩
    obtain ⟨flag, hget, rfl⟩ := Option.map_eq_some_iff.mp hwritten.watermark
    rw [getFlag_of_letters hU hcode ha hb hun, Option.some_inj] at hget
    subst hget
    rw [hcode] at hflag
    exact not_regionalFlag (hU b hb) _ hflag
  · obtain ⟨mark, marked, hwritten⟩ := exists_written hU config countryCode
    refine ⟨mark, marked, hwritten, ?_⟩
    obtain ⟨flag, hget, rfl⟩ := Option.map_eq_some_iff.mp hwritten.watermark
    rw [getFlag_of_not h, Option.some_inj] at hget
    subst hget
    rw [regionalFlag_of_not h, List.append_assoc]
    exact List.prefix_append _ _
  · intro flag hmem
    obtain ⟨hself, hletters⟩ := letters_of_mem env hmem
    exact absurd (hself.symm ▸ hletters) h
  · exact readsBack hU config

theorem identifies_iff_sample :
    Identifies Env.sample sampleLink "UN".toList ∧ ReadsBack Env.sample sampleLink "DE".toList := by
  have hunknown := identifies_iff Env.sample lettersLow_sample sampleLink "UN".toList
  have hgermany := identifies_iff Env.sample lettersLow_sample sampleLink "DE".toList
  exact ⟨hunknown.1.mpr fun h => h.2 (by decide), hgermany.2 ⟨'D', 'E', by decide, rfl, rfl⟩⟩

/-- Germany is shown by two squared ideographs, where the table has its flag. -/
theorem not_identifies_germany :
    getFlag Env.sample.unicode "DE".toList = some [.ofNat 0x1F229, .ofNat 0x1F22A] ∧
      ("DE".toList, [.ofNat 0x1F1E9, .ofNat 0x1F1EA]) ∈ countryFlags ∧
      ¬Identifies Env.sample sampleLink "DE".toList := by
  have hmem : ("DE".toList, [.ofNat 0x1F1E9, .ofNat 0x1F1EA]) ∈ countryFlags := by decide
  exact ⟨by decide, hmem, fun h => getFlag_ne_of_mem lettersLow_sample hmem (h.table _ hmem)⟩

end ConfigManager
