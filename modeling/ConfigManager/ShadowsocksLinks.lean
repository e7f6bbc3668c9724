import ConfigManager.LinkParsing
import ConfigManager.MessageLinks
import ConfigManager.Subscription

/-! # Shadowsocks links in a text

The parser reads a server behind any user information, the extractor one behind the
characters of Base64 only.  So the links with `method:password` in the clear, or percent
encoded, are links to the parser, but none that the extractor finds (`found_iff`).
-/
namespace ConfigManager

open Py Regex Html

/-- The parts of `ss://userinfo@host:port[?query][#fragment]`. -/
structure SsParts where
  userinfo : Str
  host : Str
  port : Str
  query : Option Str
  fragment : Option Str
  userinfo_ne : userinfo ≠ []
  userinfo_chars : ∀ c ∈ userinfo, c ≠ '@' ∧ c ≠ '#' ∧ isSpace c = false
  host_ne : host ≠ []
  host_chars : ∀ c ∈ host, c ≠ ':' ∧ isInner c = true
  port_ne : port ≠ []
  port_chars : ∀ c ∈ port, isDecimal c = true
  query_chars : ∀ q ∈ query, '#' ∉ q ∧ NoSpace q
  fragment_chars : ∀ f ∈ fragment, NoSpace f

namespace SsParts

variable (l : SsParts)

/-- What stands behind the `@`. -/
def server : Str :=
  l.host ++ ':' :: (l.port ++ ((l.query.map fun q => '?' :: q).getD [] ++
    (l.fragment.map fun f => '#' :: f).getD []))

/-- What stands behind the scheme. -/
def body : Str := l.userinfo ++ '@' :: l.server

/-- The link. -/
def link : Str := "ss://".toList ++ l.body

end SsParts

/-- A link whose server the parser reads. -/
structure SsLink (F : Json.Floats) extends SsParts where
  host_value : extractHost F toSsParts.link ≠ .null
  port_value : (extractPort F toSsParts.link).isSome = true

/-- What stands before and behind a word of a text. -/
structure Around (a b : Str) : Prop where
  left : a = [] ∨ ∃ s c, a = s ++ [c] ∧ isSpace c = true
  right : b = [] ∨ ∃ c s, b = c :: s ∧ isSpace c = true

/-! ## Words of a text -/

variable {a b w : Str}

/-- **A word is searched by itself**, whatever stands around it. -/
theorem findall_word (h : Around a b) (w : Str) :
    ∃ l r, findall configPattern (a ++ (w ++ b)) = l ++ (findall configPattern w ++ r) := by
  have hright : ∃ r, findall configPattern (w ++ b) = findall configPattern w ++ r := by
    rcases h.right with rfl | ⟨c, s, rfl, hc⟩
    · exact ⟨[], by simp⟩
    · exact ⟨_, findall_cut hc w s⟩
  obtain ⟨r, hr⟩ := hright
  rcases h.left with rfl | ⟨s, c, rfl, hc⟩
  · exact ⟨[], r, hr⟩
  · refine ⟨findall configPattern s, r, ?_⟩
    have hcut := findall_cut hc s (w ++ b)
    rw [← hr, ← hcut, List.append_assoc, List.singleton_append]

/-- **A word is found whole** in a text exactly if it is a link. -/
theorem mem_findall_word (h : Around a b) :
    w ∈ findall configPattern (a ++ (w ++ b)) ↔ FullMatch configPattern w := by
  refine ⟨fullMatch_of_mem_findall, fun hw => ?_⟩
  obtain ⟨l, r, he⟩ := findall_word h w
  rw [he, (findall_of_fullMatch hw).1]
  simp

/-! ## Links of the scheme -/

namespace SsParts

variable (l : SsParts)

theorem noSpace_server : NoSpace l.server := by
  have hhost : NoSpace l.host := fun c hc => (isInner_iff.mp (l.host_chars c hc).2).2.2.2.2
  have hport : NoSpace l.port := fun c hc => (isDecimal_apart (l.port_chars c hc)).1
  have hquery : NoSpace ((l.query.map fun q => '?' :: q).getD []) := by
    cases hq : l.query with
    | none => exact noSpace_nil
    | some q => exact noSpace_cons.mpr ⟨by decide, (l.query_chars q hq).2⟩
  have hfragment : NoSpace ((l.fragment.map fun f => '#' :: f).getD []) := by
    cases hf : l.fragment with
    | none => exact noSpace_nil
    | some f => exact noSpace_cons.mpr ⟨by decide, l.fragment_chars f hf⟩
  rw [server, noSpace_append, noSpace_cons, noSpace_append, noSpace_append]
  exact ⟨hhost, by decide, hport, hquery, hfragment⟩

theorem server_ne : l.server ≠ [] := List.append_ne_nil_of_left_ne_nil l.host_ne _

/-- A payload and a server are a link. -/
theorem fullMatch_link (h : ∀ c ∈ l.userinfo, isPayload c = true) :
    FullMatch configPattern l.link := by
  have hlen : 1 ≤ l.userinfo.length := List.length_pos_iff.mpr l.userinfo_ne
  have hrest : ⟨l.server, none, []⟩ ∈ (seq shortest lineEnd).matchesAt l.server := by
    refine mem_seq.mpr ⟨⟨l.server, none, []⟩, mem_rep.mpr ⟨l.server, [], by simp,
      List.length_pos_iff.mpr l.server_ne, isVisible_of_noSpace l.noSpace_server, rfl⟩,
      ⟨[], none, []⟩, mem_ahead.mpr ⟨⟨⟨[], none, []⟩, mem_alt.mpr (.inr ?_)⟩, rfl⟩, ?_⟩
    · exact mem_eos.mpr ⟨.inl rfl, rfl⟩
    · simp [Match.andThen]
  have halternative : seq payload (seq (lit "@".toList) (seq shortest lineEnd)) ∈
      bodies payload "ss://".toList :=
    List.mem_filterMap.mpr ⟨("ss://".toList, _), List.mem_of_getElem? (i := 6) rfl, if_pos rfl⟩
  have hbody : ⟨l.body, none, []⟩ ∈ (anyOf (bodies payload "ss://".toList)).matchesAt l.body := by
    refine mem_anyOf.mpr ⟨_, halternative, mem_seq.mpr ⟨⟨l.userinfo, none, '@' :: l.server⟩,
      mem_rep.mpr ⟨l.userinfo, '@' :: l.server, rfl, hlen, h, rfl⟩, ?_⟩⟩
    refine ⟨⟨'@' :: l.server, none, []⟩, mem_seq.mpr ⟨⟨"@".toList, none, l.server⟩,
      mem_lit.mpr ⟨l.server, rfl, rfl⟩, ⟨l.server, none, []⟩, hrest, rfl⟩, rfl⟩
  refine ⟨⟨l.link, some l.link, []⟩, ?_, rfl⟩
  show (⟨l.link, some l.link, []⟩ : Match) ∈ configPattern.matchesAt ("ss://".toList ++ l.body)
  rw [configPattern_eq, matchesAt_linkPattern literals_lit (by decide)]
  exact List.mem_map.mpr ⟨_, hbody, rfl⟩

/-- A payload that the body starts with is its user information. -/
theorem isPayload_of_bounded (h : Bounded l.body) : ∀ c ∈ l.userinfo, isPayload c = true := by
  obtain ⟨p, f, he, hp, hf⟩ := h
  rcases List.append_eq_append_iff.mp he with ⟨v, rfl, hv⟩ | ⟨v, hu, rfl⟩
  · -- The payload goes as far as the `@`, and no further.
    exact fun c hc => hp c (List.mem_append_left v hc)
  · cases v with
    | nil =>
      rw [List.append_nil] at hu
      exact hu ▸ hp
    | cons c v =>
      have hc := l.userinfo_chars c (by rw [hu]; simp)
      rcases hf c rfl with h | h
      · exact absurd h hc.2.1
      · exact absurd h hc.1

/-- **Where the link is one to the extractor**: a payload it reads ends at the `@`. -/
theorem fullMatch_link_iff :
    FullMatch configPattern l.link ↔ ∀ c ∈ l.userinfo, isPayload c = true := by
  refine ⟨fun h => l.isPayload_of_bounded ?_, l.fullMatch_link⟩
  obtain ⟨b, hb, t, he, hbounded⟩ := exists_bounded h
  simp only [schemes, List.mem_cons, List.not_mem_nil, or_false] at hb
  rcases hb with rfl | rfl | rfl | rfl
  · cases he
  · cases he
  · cases he
  · rcases hbounded with h | h | h
    · cases h
    · cases h
    · rwa [List.append_cancel_left he]

end SsParts

/-! ## Links in a text -/

/-- **Which links the extractor finds.** -/
theorem found_iff (F : Json.Floats) (E : Entities) (l : SsLink F) (h : Around a b)
    (hamp : '&' ∉ a ++ (l.link ++ b)) :
    (∃ found, extractConfigsFromText E (a ++ (l.link ++ b)) = some found ∧ l.link ∈ found) ↔
      ∀ c ∈ l.userinfo, isPayload c = true := by
  rw [← l.fullMatch_link_iff, ← mem_findall_word h, extractConfigsFromText,
    unescape_of_notMem hamp, Option.map_some]
  simp

/-- A link in the clear. -/
def clearLink : SsLink Env.sample.floats where
  userinfo := "aes-256-gcm:pw".toList
  host := "1.2.3.4".toList
  port := "8388".toList
  query := none
  fragment := some "x".toList
  userinfo_ne := by decide
  userinfo_chars := by decide
  host_ne := by decide
  host_chars := by decide
  port_ne := by decide
  port_chars := by decide
  query_chars := by rintro _ ⟨⟩
  fragment_chars := by
    rintro _ ⟨⟩
    unfold NoSpace
    decide
  host_value := by decide +kernel
  port_value := by decide +kernel

example : clearLink.link = "ss://aes-256-gcm:pw@1.2.3.4:8388#x".toList := rfl

theorem found_iff_sample :
    (∃ found, extractConfigsFromText Message.sampleEntities
        ("a ".toList ++ (clearLink.link ++ [])) = some found ∧ clearLink.link ∈ found) ↔
      ∀ c ∈ clearLink.userinfo, isPayload c = true :=
  found_iff Env.sample.floats Message.sampleEntities clearLink
    ⟨.inr ⟨['a'], ' ', rfl, rfl⟩, .inl rfl⟩ (by decide)

/-- The parser reads the server of a link that the extractor finds nothing of. -/
theorem not_found_clear :
    extractHost Env.sample.floats clearLink.link = Json.text "1.2.3.4".toList ∧
      extractPort Env.sample.floats clearLink.link = some 8388 ∧
      extractConfigsFromText Message.sampleEntities clearLink.link = some [] := by
  decide +kernel

end ConfigManager
