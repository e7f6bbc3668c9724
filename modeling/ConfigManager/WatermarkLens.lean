import ConfigManager.RecordConsistency

/-! # The watermark replaces the remark

`inject_watermark` is a lens over two formats.  Of a link that is no vmess link it keeps
what stands before the `#`, and the fragment it writes is read back by percent-decoding.
Of a vmess link it keeps the object and sets one member of it.  In both, the last
watermark is the only one (`watermark_lens`).
-/
namespace ConfigManager

open Py Regex

/-- A vmess link without a fragment: standard base64, with its padding or without, of the
UTF-8 of a JSON object whose strings can be encoded again. -/
structure VmessConfig (F : Json.Floats) where
  payload : Str
  bytes : List UInt8
  text : Str
  members : List (JStr × Json)
  spells : Base64.Spells bytes payload
  decode_bytes : Utf8.decode bytes = some text
  loads_text : Json.loads F text = some (.obj members)
  encodable : Json.encodable (.obj members) = true

variable (env : Env)

/-- The remark is a fragment: what stands before the `#` stays, and behind it is nothing but
the watermark, percent-encoded. -/
def MarksFragment (config countryCode : Str) : Prop :=
  ∃ mark fragment, watermark env countryCode = some mark ∧
    injectWatermark env config countryCode = some (before '#' config ++ '#' :: fragment) ∧
    Percent.unquote fragment = some mark ∧
    ∀ c ∈ fragment, c ≠ '#' ∧ c ≠ '@' ∧ c ≠ ':' ∧ c ≠ '/' ∧ isSpace c = false

/-- A second watermark replaces the first one, and nothing is left of it. -/
def LastWins (config x y : Str) : Prop :=
  ∃ marked, injectWatermark env config x = some marked ∧
    injectWatermark env marked y = injectWatermark env config y

namespace VmessConfig

variable {env}

/-- The link. -/
def link {F : Json.Floats} (c : VmessConfig F) : Str := "vmess://".toList ++ c.payload

/-- The remark is the `ps` member: every other member of the object stays, in its place,
and so do the host and the port that are read off the link. -/
def MarksPayload (env : Env) (c : VmessConfig env.floats) (countryCode : Str) : Prop :=
  ∃ mark marked members, watermark env countryCode = some mark ∧
    injectWatermark env c.link countryCode = some marked ∧ isVmess marked = true ∧
    vmessData env.floats Utf8.decode marked = some (.obj members) ∧
    members = Json.put (ofText "ps".toList) (Json.text mark) c.members ∧
    Json.get? (ofText "ps".toList) members = some (Json.text mark) ∧
    (∀ key, key ≠ ofText "ps".toList → Json.get? key members = Json.get? key c.members) ∧
    extractHost env.floats marked = extractHost env.floats c.link ∧
    extractPort env.floats marked = extractPort env.floats c.link

/-! ## Vmess links -/

theorem noSpace_link {F : Json.Floats} (c : VmessConfig F) : NoSpace c.link :=
  noSpace_append.mpr ⟨noSpace_scheme, Base64.noSpace_of_spells c.spells⟩

theorem isVmess_link {F : Json.Floats} (c : VmessConfig F) : isVmess c.link = true :=
  isVmess_scheme c.payload

/-- **The payload is decoded**, whether it has its padding or not. -/
theorem vmessData_link {F : Json.Floats} (c : VmessConfig F) :
    vmessData F Utf8.decode c.link = some (.obj c.members) := by
  have hlink : c.link = "vmess://".toList ++ c.payload := rfl
  rw [hlink, vmessData_of_spells c.spells, c.decode_bytes, Option.bind_some, c.loads_text]

theorem encodable_withRemark {F : Json.Floats} (c : VmessConfig F) (mark : Str) :
    Json.encodable (withRemark (Json.text mark) c.members) = true :=
  Json.encodableMembers_put_of (by decide) (Json.encodable_text mark) c.encodable

theorem rewritten (c : VmessConfig env.floats) (mark : Str) :
    Rewritten env c.link mark c.members :=
  ⟨c.isVmess_link, c.vmessData_link, c.encodable_withRemark mark⟩

/-- The link a vmess link is rewritten to, and what is read off it. -/
theorem exists_injected (c : VmessConfig env.floats) {countryCode mark : Str}
    (hmark : watermark env countryCode = some mark) :
    ∃ marked, vmessLink (withRemark (Json.text mark) c.members) = some marked ∧
      injectWatermark env c.link countryCode = some marked ∧
      vmessData env.floats Utf8.decode marked = some (withRemark (Json.text mark) c.members) := by
  obtain ⟨marked, hlink, hinject⟩ := injected_of_rewritten (c.rewritten mark)
  refine ⟨marked, hlink, ?_, vmessData_vmessLink Utf8.decode_encode ?_ hlink⟩
  · rw [injectWatermark, hmark, Option.map_some, hinject]
  · exact Json.wf_put (wf_vmessData c.vmessData_link) (Json.wf_text mark)

theorem marksPayload (hU : env.unicode.LettersLow) (c : VmessConfig env.floats)
    (countryCode : Str) : c.MarksPayload env countryCode := by
  obtain ⟨mark, hmark⟩ := exists_watermark hU countryCode
  obtain ⟨marked, hlink, hinject, hdata⟩ := c.exists_injected hmark
  have hserver := Prod.ext_iff.mp (server_of_rewritten c.noSpace_link (c.rewritten mark) hlink)
  exact ⟨mark, marked, _, hmark, hinject, isVmess_vmessLink hlink, hdata, rfl,
    Json.get?_put_self _ _ _, fun key hkey => Json.get?_put_ne hkey _ _, hserver.1, hserver.2⟩

/-- The rewritten link is a link of the same kind. -/
theorem lastWins (hU : env.unicode.LettersLow) (c : VmessConfig env.floats) (x y : Str) :
    LastWins env c.link x y := by
  obtain ⟨first, hfirst⟩ := exists_watermark hU x
  obtain ⟨second, hsecond⟩ := exists_watermark hU y
  obtain ⟨marked, hlink, hinject, hdata⟩ := c.exists_injected hfirst
  obtain ⟨direct, hlink', hinject', -⟩ := c.exists_injected hsecond
  -- What the second watermark is set in is the object with the first one.
  have hrewritten : Rewritten env marked second
      (Json.put (ofText "ps".toList) (Json.text first) c.members) := by
    refine ⟨isVmess_vmessLink hlink, hdata, ?_⟩
    rw [withRemark, Json.put_put]
    exact c.encodable_withRemark second
  obtain ⟨twice, htwice, hinject₂⟩ := injected_of_rewritten hrewritten
  rw [withRemark, Json.put_put] at htwice
  obtain rfl : twice = direct := Option.some.inj (htwice.symm.trans hlink')
  refine ⟨marked, hinject, ?_⟩
  rw [hinject', injectWatermark, hsecond, Option.map_some, hinject₂]

end VmessConfig

/-! ## Other links -/

variable {env} {config countryCode mark : Str}

theorem injectWatermark_of_not (hv : isVmess config = false)
    (hmark : watermark env countryCode = some mark) :
    injectWatermark env config countryCode = some (withFragment config mark) := by
  rw [injectWatermark, hmark, Option.map_some, hv, if_neg Bool.false_ne_true]

theorem quote_inert (s : Str) :
    ∀ c ∈ Percent.quote s, c ≠ '#' ∧ c ≠ '@' ∧ c ≠ ':' ∧ c ≠ '/' ∧ isSpace c = false := by
  intro c hc
  have hout : ∀ d ∈ "#@:/".toList, d ∉ Percent.quote s := by
    intro d hd
    have hclass : ∀ d ∈ "#@:/".toList, Percent.isUnreserved d = false ∧ d ≠ '%' := by decide
    exact Percent.notMem_quote (hclass d hd).1 (hclass d hd).2 s
  refine ⟨?_, ?_, ?_, ?_, Percent.noSpace_quote s c hc⟩
  · exact fun h => hout '#' (by decide) (h ▸ hc)
  · exact fun h => hout '@' (by decide) (h ▸ hc)
  · exact fun h => hout ':' (by decide) (h ▸ hc)
  · exact fun h => hout '/' (by decide) (h ▸ hc)

theorem marksFragment (hU : env.unicode.LettersLow) (hspace : NoSpace config)
    (hv : isVmess config = false) (countryCode : Str) : MarksFragment env config countryCode := by
  obtain ⟨mark, hmark⟩ := exists_watermark hU countryCode
  refine ⟨mark, Percent.quote mark, hmark, ?_, Percent.unquote_quote mark, quote_inert mark⟩
  rw [injectWatermark_of_not hv hmark, withFragment_eq hspace]

/-- A scheme has no `#`, so a fragment makes no vmess link. -/
theorem isVmess_withFragment (hspace : NoSpace config) (hv : isVmess config = false) (mark : Str) :
    isVmess (withFragment config mark) = false := by
  by_contra h
  rw [Bool.not_eq_false, isVmess, List.isPrefixOf_iff_prefix, withFragment_eq hspace] at h
  have hbefore := prefix_before (c := '#') (by decide) h
  rw [before_append_cons (notMem_before '#' config)] at hbefore
  have hprefix := hbefore.trans (before_isPrefix '#' config)
  rw [isVmess, List.isPrefixOf_iff_prefix.mpr hprefix] at hv
  cases hv

theorem lastWins_of_not (hU : env.unicode.LettersLow) (hspace : NoSpace config)
    (hv : isVmess config = false) (x y : Str) : LastWins env config x y := by
  obtain ⟨first, hfirst⟩ := exists_watermark hU x
  obtain ⟨second, hsecond⟩ := exists_watermark hU y
  refine ⟨_, injectWatermark_of_not hv hfirst, ?_⟩
  rw [injectWatermark_of_not (isVmess_withFragment hspace hv first) hsecond,
    injectWatermark_of_not hv hsecond, withFragment, normalized_withFragment, withFragment]

/-- **The watermark replaces the remark and nothing else**, in links of both formats. -/
theorem watermark_lens (env : Env) (hU : env.unicode.LettersLow) (x y : Str) :
    (∀ config, NoSpace config → isVmess config = false →
      MarksFragment env config x ∧ LastWins env config x y) ∧
    ∀ c : VmessConfig env.floats, c.MarksPayload env x ∧ LastWins env c.link x y :=
  ⟨fun _ hspace hv => ⟨marksFragment hU hspace hv x, lastWins_of_not hU hspace hv x y⟩,
    fun c => ⟨c.marksPayload hU x, c.lastWins hU x y⟩⟩

/-- An object with two members, as a payload without padding. -/
def sampleVmessConfig : VmessConfig Env.sample.floats where
  payload := "eyJhZGQiOiJoIiwicHMiOiJhIn0".toList
  bytes := Utf8.encode "\x7b\"add\":\"h\",\"ps\":\"a\"\x7d".toList
  text := "\x7b\"add\":\"h\",\"ps\":\"a\"\x7d".toList
  members :=
    [(ofText "add".toList, Json.text "h".toList), (ofText "ps".toList, Json.text "a".toList)]
  spells := .inr (by decide +kernel)
  decode_bytes := Utf8.decode_encode _
  loads_text := by decide +kernel
  encodable := by decide

theorem watermark_lens_sample :
    (MarksFragment Env.sample sampleLink "DE".toList ∧
        LastWins Env.sample sampleLink "DE".toList "IR".toList) ∧
      sampleVmessConfig.MarksPayload Env.sample "DE".toList ∧
        LastWins Env.sample sampleVmessConfig.link "DE".toList "IR".toList :=
  have h := watermark_lens Env.sample lettersLow_sample "DE".toList "IR".toList
  ⟨h.1 sampleLink (by unfold NoSpace; decide) (by decide), h.2 sampleVmessConfig⟩

end ConfigManager
