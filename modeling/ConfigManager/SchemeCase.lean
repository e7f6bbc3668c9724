import ConfigManager.CleanIp
import ConfigManager.LinkScan
import ConfigManager.Watermark

/-! # The case of a scheme

`CONFIG_REGEX` ignores case, and so does `detect_protocol`; `extract_host`, `extract_port`,
`inject_watermark` and `apply_ip_to_config` look for a scheme in lower case.  On a link with
another spelling they all agree only if there is nothing for them to find: it is no vmess
link and names no server (`agree_iff`).
-/
namespace ConfigManager

open Py Regex

/-- The scheme of a link, as it is written. -/
def schemeText (config : Str) : Str := before ':' config

/-- The link with its scheme in lower case. -/
def lowerScheme (config : Str) : Str :=
  lower (schemeText config) ++ config.dropWhile (· != ':')

/-- How a link is rewritten: in its payload, as a vmess link, or in its url. -/
inductive Rewriting where
  | payload
  | url
  deriving DecidableEq

/-- The rewriting of `inject_watermark`. -/
def watermarkRewriting (config : Str) : Rewriting := if isVmess config then .payload else .url

/-- The rewriting of `apply_ip_to_config`. -/
def addressRewriting (config : Str) : Rewriting :=
  if isVmess (strip config) then .payload else .url

theorem injectWatermark_eq (env : Env) (config countryCode : Str) :
    injectWatermark env config countryCode = (watermark env countryCode).map fun mark =>
      match watermarkRewriting config with
      | .payload => watermarkVmess env config mark
      | .url => withFragment config mark := by
  cases h : isVmess config <;> simp [injectWatermark, watermarkRewriting, h]

/-- What `apply_ip_to_config` does with a url. -/
def applyIpToUrl (config ip : Str) : Option Str :=
  let base := strip (before '#' config)
  let fragment := after '#' config
  let resultBase := sub addressPattern ('@' :: ip ++ [':']) base
  let result := resultBase ++ '#' :: updateFragment (searchGroup hostPattern base) ip fragment
  if fragment = [] then if resultBase = base then none else some resultBase
  else if result = config then none else some result

theorem applyIpToConfig_eq (F : Json.Floats) (config ip : Str) :
    applyIpToConfig F config ip = match addressRewriting config with
      | .payload => applyIpVmess F (strip config) ip
      | .url => applyIpToUrl (strip config) ip := by
  cases h : isVmess (strip config) <;> simp [applyIpToConfig, applyIpToUrl, addressRewriting, h]

/-- **All handlers agree** on the protocol of a link, whatever the case of its scheme. -/
structure Agree (F : Json.Floats) (config : Str) : Prop where
  protocol : detectProtocol config = detectProtocol (lowerScheme config)
  host : extractHost F config = extractHost F (lowerScheme config)
  port : extractPort F config = extractPort F (lowerScheme config)
  watermark : watermarkRewriting config = .payload ↔ detectProtocol config = .vmess
  address : addressRewriting config = .payload ↔ detectProtocol config = .vmess

/-- The schemes, without the `://`. -/
def schemeNames : List Str := ["vmess".toList, "vless".toList, "trojan".toList, "ss".toList]

/-- What a link with a scheme in upper case needs: there is nothing to find in it. -/
def Settled (config : Str) : Prop :=
  schemeText config ∈ schemeNames ∨ lower (schemeText config) ∉ schemeNames ∨
    (lower (schemeText config) ≠ "vmess".toList ∧ ¬Found hostPattern config)

/-! ## Lower case -/

variable {F : Json.Floats} {x r c : Str}

/-- A character in lower case is a delimiter or whitespace if it was one, and is not lowered
again. -/
theorem toLower_facts (c : Char) : (∀ d ∈ [':', '@'], c.toLower = d → c = d) ∧
    isSpace c.toLower = isSpace c ∧ c.toLower.toLower = c.toLower := by
  by_cases hc : c.toNat < 128
  · have hascii : ∀ n < 128, (∀ d ∈ [':', '@'], (Char.ofNat n).toLower = d → Char.ofNat n = d) ∧
        isSpace (Char.ofNat n).toLower = isSpace (Char.ofNat n) ∧
        (Char.ofNat n).toLower.toLower = (Char.ofNat n).toLower := by decide
    have h := hascii c.toNat hc
    rwa [Char.ofNat_toNat] at h
  · have hself := toLower_of_not_ascii hc
    rw [hself]
    exact ⟨fun _ _ => id, rfl, hself⟩

@[simp] theorem lower_append (s t : Str) : lower (s ++ t) = lower s ++ lower t := List.map_append

@[simp] theorem lower_lower (s : Str) : lower (lower s) = lower s := by
  rw [lower, lower, List.map_map]
  exact List.map_congr_left fun c _ => (toLower_facts c).2.2

theorem noSpace_lower {s : Str} (h : NoSpace s) : NoSpace (lower s) := by
  intro c hc
  obtain ⟨d, hd, rfl⟩ := List.mem_map.mp hc
  exact (toLower_facts d).2.1.trans (h d hd)

theorem notMem_lower {d : Char} (hd : d ∈ [':', '@']) {s : Str} (h : d ∉ s) : d ∉ lower s := by
  intro hc
  obtain ⟨c, hm, he⟩ := List.mem_map.mp hc
  exact h ((toLower_facts c).1 d hd he ▸ hm)

theorem lower_lowerScheme (config : Str) : lower (lowerScheme config) = lower config := by
  rw [lowerScheme, lower_append, lower_lower, ← lower_append, schemeText, before,
    List.takeWhile_append_dropWhile]

/-! ## A scheme in front -/

/-- A text with a scheme in front of it. -/
structure Schemed (x r : Str) : Prop where
  noColon : ':' ∉ x
  noAt : '@' ∉ x
  noSpace : NoSpace (x ++ ("://".toList ++ r))

theorem schemeText_append (h : ':' ∉ x) (r : Str) : schemeText (x ++ ("://".toList ++ r)) = x :=
  before_append_cons h

theorem lowerScheme_append (h : ':' ∉ x) (r : Str) :
    lowerScheme (x ++ ("://".toList ++ r)) = lower x ++ ("://".toList ++ r) := by
  have hrest : (x ++ ("://".toList ++ r)).dropWhile (· != ':') = "://".toList ++ r := by
    have hall : ∀ d ∈ x, (d != ':') = true := fun d hd => bne_iff_ne.mpr fun he => h (he ▸ hd)
    rw [List.dropWhile_append_of_pos hall]
    rfl
  rw [lowerScheme, schemeText_append h, hrest]

/-- A scheme stands in front of one text only. -/
theorem isPrefixOf_scheme {b : Str} (hb : ':' ∉ b) (h : ':' ∉ x) (r : Str) :
    (b ++ "://".toList).isPrefixOf (x ++ ("://".toList ++ r)) = true ↔ x = b := by
  rw [List.isPrefixOf_iff_prefix]
  constructor
  · rintro ⟨t, ht⟩
    rw [List.append_assoc] at ht
    exact (append_inj_of_notMem h hb ht.symm).1
  · rintro rfl
    rw [← List.append_assoc]
    exact List.prefix_append _ _

theorem isVmess_schemed_iff (h : ':' ∉ x) (r : Str) :
    isVmess (x ++ ("://".toList ++ r)) = true ↔ x = "vmess".toList :=
  isPrefixOf_scheme (b := "vmess".toList) (by decide) h r

theorem isUrlLink_iff (h : ':' ∉ x) (r : Str) : isUrlLink (x ++ ("://".toList ++ r)) = true ↔
    x = "vless".toList ∨ x = "trojan".toList ∨ x = "ss".toList := by
  have hvless := isPrefixOf_scheme (b := "vless".toList) (by decide) h r
  have htrojan := isPrefixOf_scheme (b := "trojan".toList) (by decide) h r
  have hss := isPrefixOf_scheme (b := "ss".toList) (by decide) h r
  rw [isUrlLink, Bool.or_eq_true, Bool.or_eq_true, or_assoc]
  exact or_congr hvless (or_congr htrojan hss)

/-- `detect_protocol` reads the scheme in lower case. -/
theorem detectProtocol_eq_vmess (h : Schemed x r) :
    detectProtocol (x ++ ("://".toList ++ r)) = .vmess ↔ lower x = "vmess".toList := by
  have hcolon : ':' ∉ lower x := notMem_lower (by decide) h.noColon
  have hlow : lower (x ++ ("://".toList ++ r)) = lower x ++ ("://".toList ++ lower r) := by
    rw [lower_append, lower_append]
    rfl
  have hstrip :
      strip (lower (x ++ ("://".toList ++ r))) = lower x ++ ("://".toList ++ lower r) := by
    rw [strip_of_noSpace (noSpace_lower h.noSpace), hlow]
  have hvless := isPrefixOf_scheme (b := "vless".toList) (by decide) hcolon (lower r)
  have hvmess := isPrefixOf_scheme (b := "vmess".toList) (by decide) hcolon (lower r)
  rw [← hstrip] at hvless hvmess
  simp only [detectProtocol]
  split_ifs with h₁ h₂ h₃ h₄
  · rw [hvless.mp h₁]
    decide
  · exact iff_of_true rfl (hvmess.mp h₂)
  all_goals exact iff_of_false (by decide) fun he => h₂ (hvmess.mpr he)

/-! ## What is read off a link -/

theorem detectProtocol_lowerScheme (config : Str) :
    detectProtocol (lowerScheme config) = detectProtocol config := by
  rw [detectProtocol, detectProtocol, lower_lowerScheme]

/-- A port is read behind the scheme, whatever that is. -/
theorem search_port_append (h : ':' ∉ x) (s : Str) :
    portPattern.search (x ++ s) = portPattern.search s := by
  refine search_append fun c v hv => Option.eq_none_iff_forall_ne_some.mpr fun m hm => ?_
  obtain ⟨ds, t, he, -⟩ := group_port.mp (congrArg (Option.map Match.group) hm)
  exact h ((List.cons.inj he).1 ▸ hv.mem (List.mem_cons_self ..))

theorem searchGroup_host_scheme (h : Schemed x r) :
    searchGroup hostPattern (x ++ ("://".toList ++ r)) = searchGroup hostPattern r := by
  have hat : '@' ∉ x ++ "://".toList := by
    rw [List.mem_append, not_or]
    exact ⟨h.noAt, by decide⟩
  rw [searchGroup, searchGroup, ← List.append_assoc, search_host_append hat]

/-- A link is found or not, whatever the case of its scheme. -/
theorem found_host_scheme (h : Schemed x r) :
    Found hostPattern (x ++ ("://".toList ++ r)) ↔ (searchGroup hostPattern r).isSome = true := by
  rw [found_host_iff, searchGroup_host_scheme h]

theorem schemed_lower (h : Schemed x r) : Schemed (lower x) r where
  noColon := notMem_lower (by decide) h.noColon
  noAt := notMem_lower (by decide) h.noAt
  noSpace := by
    have hspace := noSpace_append.mp h.noSpace
    exact noSpace_append.mpr ⟨noSpace_lower hspace.1, hspace.2⟩

/-- The handlers' schemes are in lower case. -/
theorem mem_schemeNames (h : x ∈ schemeNames) : lower x = x := by
  have hnames : ∀ b ∈ schemeNames, lower b = b := by decide
  exact hnames x h

/-- What is no vmess link has the host its url names, if it is a link at all. -/
theorem extractHost_scheme (F : Json.Floats) (h : Schemed x r) (hv : x ≠ "vmess".toList) :
    extractHost F (x ++ ("://".toList ++ r)) =
      if x ∈ schemeNames then ((searchGroup hostPattern r).map Json.text).getD .null
      else .null := by
  have hvmess : isVmess (x ++ ("://".toList ++ r)) = false :=
    Bool.eq_false_iff.mpr fun he => hv ((isVmess_schemed_iff h.noColon r).mp he)
  have hurl : isUrlLink (x ++ ("://".toList ++ r)) = true ↔ x ∈ schemeNames := by
    simp only [isUrlLink_iff h.noColon, schemeNames, List.mem_cons, List.not_mem_nil, or_false, hv,
      false_or]
  simp only [extractHost, strip_of_noSpace h.noSpace, hvmess, hurl, searchGroup_host_scheme h,
    Bool.false_eq_true, if_false]

theorem extractPort_scheme (F : Json.Floats) (h : Schemed x r) (hv : x ≠ "vmess".toList) :
    extractPort F (x ++ ("://".toList ++ r)) =
      (searchGroup portPattern ("://".toList ++ r)).bind int := by
  have hvmess : isVmess (x ++ ("://".toList ++ r)) ≠ true := fun he =>
    hv ((isVmess_schemed_iff h.noColon r).mp he)
  rw [extractPort, if_neg hvmess, searchGroup, searchGroup, search_port_append h.noColon]

/-! ## Where the handlers agree -/

/-- The rewriting follows the scheme as it is written. -/
theorem rewriting_iff (h : Schemed x r) :
    (watermarkRewriting (x ++ ("://".toList ++ r)) = .payload ↔ x = "vmess".toList) ∧
      (addressRewriting (x ++ ("://".toList ++ r)) = .payload ↔ x = "vmess".toList) := by
  have hiff := isVmess_schemed_iff h.noColon r
  rw [watermarkRewriting, addressRewriting, strip_of_noSpace h.noSpace]
  split
  next hv => exact ⟨iff_of_true rfl (hiff.mp hv), iff_of_true rfl (hiff.mp hv)⟩
  next hv =>
    exact ⟨iff_of_false (by decide) fun he => hv (hiff.mpr he),
      iff_of_false (by decide) fun he => hv (hiff.mpr he)⟩

/-- **Agreement, for a text with a scheme in front.** -/
theorem agree_scheme_iff (F : Json.Floats) (h : Schemed x r) :
    Agree F (x ++ ("://".toList ++ r)) ↔ Settled (x ++ ("://".toList ++ r)) := by
  have hlow := schemed_lower h
  have hdetect := detectProtocol_eq_vmess h
  obtain ⟨hwatermark, haddress⟩ := rewriting_iff h
  rw [Settled, schemeText_append h.noColon]
  constructor
  · intro hagree
    by_contra hnot
    simp only [not_or, not_and_or, not_not] at hnot
    obtain ⟨hx, hmem, hfound⟩ := hnot
    -- A vmess link is not rewritten as one.
    have hne : lower x ≠ "vmess".toList := by
      intro he
      have hself := hwatermark.mp (hagree.watermark.mpr (hdetect.mpr he))
      exact hx (hself ▸ by decide)
    have hne' : x ≠ "vmess".toList := fun he => hx (he ▸ by decide)
    -- Of another link a host is found in one spelling only.
    have hhost := hagree.host
    rw [lowerScheme_append h.noColon, extractHost_scheme F h hne', extractHost_scheme F hlow hne,
      if_neg hx, if_pos hmem] at hhost
    obtain ⟨g, hg⟩ := Option.isSome_iff_exists.mp
      ((found_host_scheme h).mp (hfound.resolve_left hne))
    rw [hg] at hhost
    cases hhost
  · intro hsettled
    by_cases hself : lower x = x
    · -- The scheme is in lower case already.
      have hid : lowerScheme (x ++ ("://".toList ++ r)) = x ++ ("://".toList ++ r) := by
        rw [lowerScheme_append h.noColon, hself]
      rw [hself] at hdetect
      exact ⟨by rw [hid], by rw [hid], by rw [hid], hwatermark.trans hdetect.symm,
        haddress.trans hdetect.symm⟩
    · have hx : x ∉ schemeNames := fun hx => hself (mem_schemeNames hx)
      have hne' : x ≠ "vmess".toList := fun he => hx (he ▸ by decide)
      have hne : lower x ≠ "vmess".toList := by
        rcases hsettled with hm | hm | hm
        · exact absurd hm hx
        · exact fun he => hm (he ▸ by decide)
        · exact hm.1
      refine ⟨(detectProtocol_lowerScheme _).symm, ?_, ?_,
        iff_of_false (fun he => hne' (hwatermark.mp he)) fun he => hne (hdetect.mp he),
        iff_of_false (fun he => hne' (haddress.mp he)) fun he => hne (hdetect.mp he)⟩
      · rw [lowerScheme_append h.noColon, extractHost_scheme F h hne',
          extractHost_scheme F hlow hne,
          if_neg hx]
        split
        next hm =>
          have hnone := ((hsettled.resolve_left hx).resolve_left (not_not.mpr hm)).2
          rw [found_host_scheme h, Bool.not_eq_true, Option.isSome_eq_false_iff,
            Option.isNone_iff_eq_none] at hnone
          rw [hnone]
          rfl
        next => rfl
      · rw [lowerScheme_append h.noColon, extractPort_scheme F h hne',
          extractPort_scheme F hlow hne]

/-! ## What the scraper finds -/

theorem over_visible_regex : configRegex.Over fun c => isVisible c = true :=
  over_ignoreCase over_visible (by decide) (by decide)

/-- A letter is, in any case, no delimiter. -/
theorem not_delimiter_of_fold {c d : Char} (hc : c.isAlpha = true)
    (h : foldClass (· == c) d = true) : ':' ≠ d ∧ '@' ≠ d := by
  have hascii : ∀ n < 128, (Char.ofNat n).isAlpha = true → ':' ≠ Char.ofNat n ∧ '@' ≠ .ofNat n := by
    decide
  have hletter : ∀ e : Char, e.isAlpha = true → ':' ≠ e ∧ '@' ≠ e := by
    intro e he
    have hfacts := hascii e.toNat (toNat_of_isAlpha he)
    rw [Char.ofNat_toNat] at hfacts
    exact hfacts he
  have hvariants : ∀ e ∈ letterVariants, ':' ≠ e ∧ '@' ≠ e := by decide
  rcases foldClass_cases h with hd | hd | hd
  · exact hletter d hd.2
  · exact hvariants d hd
  · exact hletter d (beq_iff_eq.mp hd ▸ hc)

/-- A delimiter has no other case. -/
theorem forall₂_delimiters {l y : Str} (hl : ∀ c ∈ l, c = ':' ∨ c = '/')
    (h : List.Forall₂ (fun c d => foldClass (· == c) d = true) l y) : y = l := by
  have hcolon : foldClass (· == ':') = (· == ':') := foldClass_eq false (by decide) (by decide)
  have hslash : foldClass (· == '/') = (· == '/') := foldClass_eq false (by decide) (by decide)
  induction h with
  | nil => rfl
  | @cons c d l y hd _ ih =>
    obtain ⟨hc, hl⟩ := List.forall_mem_cons.mp hl
    rw [ih hl]
    rcases hc with rfl | rfl
    · rw [hcolon, beq_iff_eq] at hd
      rw [hd]
    · rw [hslash, beq_iff_eq] at hd
      rw [hd]

/-- A scheme is read as letters and its delimiters. -/
theorem exists_scheme_of_letters {n y : Str} (hn : ∀ c ∈ n, c.isAlpha = true)
    (h : List.Forall₂ (fun c d => foldClass (· == c) d = true) (n ++ "://".toList) y) :
    ∃ x, y = x ++ "://".toList ∧ ':' ∉ x ∧ '@' ∉ x := by
  induction n generalizing y with
  | nil => exact ⟨[], forall₂_delimiters (by decide) h, List.not_mem_nil, List.not_mem_nil⟩
  | cons c n ih =>
    cases h with
    | cons hd h =>
      rw [List.forall_mem_cons] at hn
      obtain ⟨x, rfl, hcolon, hat⟩ := ih hn.2 h
      have hd := not_delimiter_of_fold hn.1 hd
      exact ⟨_ :: x, rfl, List.not_mem_cons_of_ne_of_not_mem hd.1 hcolon,
        List.not_mem_cons_of_ne_of_not_mem hd.2 hat⟩

/-- **What `CONFIG_REGEX` finds** is a text with a scheme in front. -/
theorem exists_schemed {text : Str} (h : c ∈ findall configRegex text) :
    ∃ x r, c = x ++ ("://".toList ++ r) ∧ Schemed x r := by
  obtain ⟨m, hm, rfl⟩ := List.mem_map.mp h
  obtain ⟨v, hv⟩ := exists_match_of_mem_scan hm
  have hspace : NoSpace m.text := fun d hd => by
    simpa [isVisible] using text_over over_visible_regex hv d hd
  rw [configRegex_eq] at hv
  obtain ⟨n, hn, rfl⟩ := mem_group.mp hv
  obtain ⟨t, ht, hn⟩ := mem_anyOf.mp hn
  obtain ⟨a, ha, rfl⟩ := List.mem_map.mp ht
  obtain ⟨k, hk, l, -, rfl⟩ := mem_seq.mp hn
  have hnames : ∀ b ∈ schemes, ∃ n ∈ schemeNames, b = n ++ "://".toList ∧
      ∀ c ∈ n, c.isAlpha = true := by decide
  obtain ⟨n, -, hscheme, hn⟩ := hnames a.1 (mem_schemes a ha)
  change k ∈ (lit a.1).ignoreCase.matchesAt v at hk
  rw [ignoreCase_lit, hscheme] at hk
  obtain ⟨x, hx, hcolon, hat⟩ := exists_scheme_of_letters hn (text_letters hk)
  have htext : k.text ++ l.text = x ++ ("://".toList ++ l.text) := by
    rw [hx, List.append_assoc]
  exact ⟨x, l.text, htext, hcolon, hat, htext ▸ hspace⟩

/-- **On which links the handlers agree.** -/
theorem agree_iff (F : Json.Floats) {text : Str} (h : c ∈ findall configRegex text) :
    Agree F c ↔ Settled c := by
  obtain ⟨x, r, rfl, hschemed⟩ := exists_schemed h
  exact agree_scheme_iff F hschemed

/-- A vmess link in upper case, whose payload names a host. -/
def upperLink : Str := "VMESS://eyJhZGQiOiJoIn0=".toList

theorem agree_iff_sample : Agree Env.sample.floats upperLink ↔ Settled upperLink := by
  have hfound : upperLink ∈ findall configRegex upperLink := by decide +kernel
  exact agree_iff Env.sample.floats hfound

/-- The link is one of vmess, but has no host, and its watermark is put into a fragment. -/
theorem not_agree_upper :
    upperLink ∈ findall configRegex upperLink ∧ detectProtocol upperLink = .vmess ∧
      extractHost Env.sample.floats upperLink = .null ∧
      extractHost Env.sample.floats (lowerScheme upperLink) = Json.text "h".toList ∧
      watermarkRewriting upperLink = .url ∧ ¬Agree Env.sample.floats upperLink := by
  have hhost : extractHost Env.sample.floats upperLink = .null ∧
      extractHost Env.sample.floats (lowerScheme upperLink) = Json.text "h".toList := by
    decide +kernel
  refine ⟨by decide +kernel, by decide +kernel, hhost.1, hhost.2, by decide, fun h => ?_⟩
  have heq := h.host
  rw [hhost.1, hhost.2] at heq
  cases heq

end ConfigManager
