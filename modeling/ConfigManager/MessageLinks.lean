import ConfigManager.ChannelScraper

/-! # Links on the lines of a message

A message shows its lines with `<br/>` between them.  `_clean_html_to_text` removes
every tag and puts nothing in its place, so the lines of a message are read as one text
without whitespace.  Such a text is found as a whole or in part, never as its lines:
where unescaping leaves it as it is, the scraper returns the links of a message exactly
when there is at most one (`exact_iff`).

The route over the text nodes unescapes what `_clean_html_to_text` has unescaped
already, so it reads a link in which a reference is written out as another one.
-/
namespace ConfigManager

open Py Regex Html

/-- A message with a link on each line. -/
structure Message where
  configs : List Str
  link : ∀ c ∈ configs, FullMatch configPattern c
  distinct : (configs.map configHash).Nodup
  /-- What its tag has besides its name. -/
  attributes : Str
  closed : '>' ∉ attributes

namespace Message

/-- `str` of the message's `div`. -/
def html (message : Message) : Str :=
  '<' :: ("div".toList ++ message.attributes ++
    '>' :: ("<br/>".toList.intercalate (message.configs.map escape) ++ "</div>".toList))

/-- A page with no other message and no `pre`. -/
def page (message : Message) (text : Str) : Soup := ⟨[], [message.html], text⟩

/-- The links one after the other. -/
def joined (message : Message) : Str := message.configs.flatten

variable (E : Entities) {message : Message} {text : Str}

/-- The links of a message are found, each once and as it is, and nothing else is. -/
def Exact (message : Message) (text : Str) : Prop :=
  ∃ rs, parseConfigs E (message.page text) = some rs ∧ rs.Perm message.configs

variable {E}

theorem noSpace_joined (message : Message) : NoSpace message.joined := by
  intro d hd
  obtain ⟨c, hc, hd⟩ := List.mem_flatten.mp hd
  exact noSpace_of_fullMatch (message.link c hc) d hd

/-! ## What is read -/

theorem sub_lines (cs : List Str) (s : Str) :
    sub tagPattern [] ("<br/>".toList.intercalate (cs.map escape) ++ s) =
      escape cs.flatten ++ sub tagPattern [] s := by
  induction cs with
  | nil => rfl
  | cons c cs ih =>
    have hflatten : escape (c :: cs).flatten = escape c ++ escape cs.flatten := by
      simp [escape]
    cases cs with
    | nil => simp [sub_tag_text (notMem_escape c)]
    | cons d cs =>
      have htag : ∀ y, sub tagPattern [] ("<br/>".toList ++ y) = sub tagPattern [] y := by
        intro y
        exact sub_tag (a := "br/".toList) (by decide) (by decide)
      rw [List.map_cons, List.map_cons, List.intercalate_cons_cons, ← List.map_cons,
        List.append_assoc, List.append_assoc, sub_tag_text (notMem_escape c), htag, ih, hflatten,
        List.append_assoc]

/-- **The line breaks are lost**: a message is read as its links, one after the other. -/
theorem cleanHtmlToText_html (message : Message) :
    cleanHtmlToText E message.html = some message.joined := by
  have hsub : sub tagPattern [] message.html = escape message.joined := by
    have hclosed : '>' ∉ "div".toList ++ message.attributes := by
      simpa using message.closed
    have hend : sub tagPattern [] "</div>".toList = [] := by decide
    rw [html, sub_tag (by simp) hclosed, sub_lines, hend, List.append_nil, joined]
  rw [cleanHtmlToText, hsub, unescape_escape, Option.map_some,
    sub_blank_of_noSpace (noSpace_joined message), strip_of_noSpace (noSpace_joined message)]

theorem parseConfigs_page (message : Message) (text : Str) :
    parseConfigs E (message.page text) =
      (extractConfigsFromText E message.joined).map fun found =>
        (found ++ findall configRegex message.joined).foldl keepNew [] := by
  have hmessages : (message.page text).messages.mapM (cleanHtmlToText E) =
      some [message.joined] := by
    simp [page, cleanHtmlToText_html]
  have hnodes : extractTextNodes E (message.page text) =
      some (if message.joined = [] then [] else [message.joined]) := by
    rw [extractTextNodes, hmessages]
    by_cases hnil : message.joined = [] <;> simp [page, hnil]
  have hdirect : extractConfigsFromHtml E (message.page text) =
      some (findall configRegex message.joined) := by
    rw [extractConfigsFromHtml, hmessages]
    simp [page]
  rw [parseConfigs, hnodes, hdirect, Option.bind_some]
  by_cases hnil : message.joined = []
  · rw [hnil]
    rfl
  · rw [if_neg hnil]
    cases hfound : extractConfigsFromText E message.joined <;> simp [hfound]

/-! ## One link -/

theorem exact_iff_found :
    Exact E message text ↔ ∃ found, extractConfigsFromText E message.joined = some found ∧
      ((found ++ findall configRegex message.joined).foldl keepNew []).Perm message.configs := by
  rw [Exact, parseConfigs_page]
  constructor
  · rintro ⟨rs, hrs, hperm⟩
    obtain ⟨found, hfound, rfl⟩ := Option.map_eq_some_iff.mp hrs
    exact ⟨found, hfound, hperm⟩
  · rintro ⟨found, hfound, hperm⟩
    exact ⟨_, by rw [hfound, Option.map_some], hperm⟩

/-- What unescaping leaves as it is, is found twice and kept once. -/
theorem exact_of_length_le_one (hn : message.configs.length ≤ 1)
    (hu : unescape E message.joined = some message.joined) : Exact E message text := by
  rw [exact_iff_found, extractConfigsFromText, hu]
  refine ⟨_, rfl, ?_⟩
  cases hc : message.configs with
  | nil =>
    rw [joined, hc]
    exact List.Perm.refl _
  | cons c cs =>
    obtain rfl : cs = [] := by
      rw [hc, List.length_cons] at hn
      exact List.length_eq_zero_iff.mp (by omega)
    obtain ⟨hpattern, hregex⟩ := findall_of_fullMatch (message.link c (by simp [hc]))
    have hjoined : message.joined = c := by simp [joined, hc]
    rw [hjoined, hpattern, hregex]
    exact List.Perm.of_eq (by simp [keepNew])

/-- A single link that unescaping changes is returned exactly if no link is left in it. -/
theorem exact_singleton_iff {c : Str} (hc : message.configs = [c]) (hu : unescape E c ≠ some c) :
    Exact E message text ↔ extractConfigsFromText E c = some [] := by
  have hjoined : message.joined = c := by simp [joined, hc]
  have hregex := (findall_of_fullMatch (message.link c (by simp [hc]))).2
  rw [exact_iff_found, hjoined, hregex, hc]
  constructor
  · rintro ⟨found, hfound, hperm⟩
    cases found with
    | nil => exact hfound
    | cons e es =>
      -- the first link found is kept, and it is shorter than the posted one
      obtain ⟨u, huc, hes⟩ := Option.map_eq_some_iff.mp hfound
      have hlt : u.length < c.length :=
        (unescape_eq_or_lt huc).resolve_left fun h => hu (h ▸ huc)
      have hkept := prefix_foldl_keepNew [e] (es ++ [c])
      have hmem : e ∈ [c] := hperm.mem_iff.mp (hkept.mem (List.mem_singleton_self e))
      obtain rfl := List.mem_singleton.mp hmem
      have hle := length_findall configPattern u
      rw [hes, List.map_cons, List.sum_cons] at hle
      omega
  · intro hnil
    exact ⟨[], hnil, List.Perm.of_eq (by simp [keepNew])⟩

/-! ## Several links -/

/-- Some text found is taken for a link of the message, as their hashes are equal. -/
def Confused (message : Message) : Prop :=
  ∃ e ∈ findall configRegex message.joined, ∃ c ∈ message.configs,
    Collide (normalized e) (normalized c)

/-- If the links are returned, both patterns find the same. -/
theorem scan_eq_of_exact (hconfused : ¬ Confused message)
    (h : ∀ e ∈ findall configRegex message.joined,
      configHash e ∈ message.configs.map configHash) :
    findall configPattern message.joined = findall configRegex message.joined := by
  have hspace := noSpace_joined message
  rw [findall, findall, scan_congr 0 fun v _ hv => match?_eq_none_of_configRegex hv]
  intro v m hv hm hmem
  have hfound : m.text ∈ findall configRegex message.joined := List.mem_map_of_mem hmem
  obtain ⟨c, hc, hhash⟩ := List.mem_map.mp (h _ hfound)
  have hn := (configHash_eq_iff.mp hhash.symm).resolve_right
    fun hcol => hconfused ⟨_, hfound, c, hc, hcol⟩
  exact match?_of_configRegex (fun d hd => hspace d (hv.mem hd)) hm (message.link c hc) hn

/-- **Several links are never returned**: found as a whole, the lines are one link; found in
part, their lengths do not add up. -/
theorem length_le_one_of_exact (hconfused : ¬ Confused message)
    (hu : unescape E message.joined = some message.joined) (h : Exact E message text) :
    message.configs.length ≤ 1 := by
  rw [exact_iff_found, extractConfigsFromText, hu] at h
  obtain ⟨found, hfound, hperm⟩ := h
  cases hfound
  have hseen : ∀ e ∈ findall configRegex message.joined,
      configHash e ∈ message.configs.map configHash := by
    intro e he
    rw [← (hperm.map configHash).mem_iff, mem_map_foldl_keepNew]
    exact .inr (List.mem_map_of_mem (List.mem_append_right _ he))
  rw [← scan_eq_of_exact hconfused hseen, List.foldl_append, foldl_keepNew_of_seen fun e he =>
    mem_map_foldl_keepNew.mpr (.inr (List.mem_map_of_mem he))] at hperm
  by_cases hne : message.joined = []
  · rw [hne] at hperm
    rw [← hperm.length_eq]
    exact Nat.zero_le 1
  -- The matches are the joined text as a whole, or they leave a part of it out.
  rcases findall_eq_or_lt (noSpace_joined message) hne with hwhole | hpart
  · rw [hwhole] at hperm
    rw [← hperm.length_eq]
    simp [keepNew]
  · have hsum := (hperm.map List.length).sum_eq
    have hkept := foldl_keepNew_sublist [] (findall configPattern message.joined)
    have hle := (hkept.map List.length).sum_le_sum (fun _ _ => Nat.zero_le _)
    rw [List.nil_append] at hle
    have hlen : message.joined.length = (message.configs.map List.length).sum :=
      List.length_flatten
    omega

/-- **When the links of a message are returned.**  Where unescaping leaves the lines as they
are: exactly if there is at most one (two texts with one MD5 apart).  A single link that
it changes: exactly if no link is left in it. -/
theorem exact_iff (E : Entities) (message : Message) (text : Str) :
    (unescape E message.joined = some message.joined →
      (Exact E message text ↔ message.configs.length ≤ 1) ∨ Confused message) ∧
    ∀ c, message.configs = [c] → unescape E c ≠ some c →
      (Exact E message text ↔ extractConfigsFromText E c = some []) := by
  refine ⟨fun hu => ?_, fun c hc hne => exact_singleton_iff hc hne⟩
  by_cases hconfused : Confused message
  · exact .inr hconfused
  · exact .inl ⟨length_le_one_of_exact hconfused hu, fun hn => exact_of_length_le_one hn hu⟩

/-- Some of the names of HTML. -/
def sampleEntities : Entities where
  named name :=
    if name = "amp;".toList then some ['&']
    else if name = "lt;".toList then some ['<']
    else if name = "gt;".toList then some ['>']
    else if name = "NewLine;".toList then some ['\n']
    else none
  named_amp := rfl
  named_lt := rfl
  named_gt := rfl
  length_le name value h := by
    have hlen : ∀ n ∈ ["amp;".toList, "lt;".toList, "gt;".toList, "NewLine;".toList],
        1 ≤ n.length := by decide
    split_ifs at h with h₁ h₂ h₃ h₄
    · cases h; exact h₁ ▸ hlen _ (by simp)
    · cases h; exact h₂ ▸ hlen _ (by simp)
    · cases h; exact h₃ ▸ hlen _ (by simp)
    · cases h; exact h₄ ▸ hlen _ (by simp)

/-- A message with these links, if they are links of different hashes. -/
def sample (configs : List Str) (link : ∀ c ∈ configs, FullMatch configPattern c)
    (distinct : (configs.map configHash).Nodup) : Message where
  configs := configs
  link := link
  distinct := distinct
  attributes := " class=\"tgme_widget_message_text\"".toList
  closed := by decide

/-- A message of one line. -/
def oneLine : Message := sample [sampleLink] (by decide +kernel) (by decide +kernel)

/-- A link with a reference written out. -/
def referenceLink : Str := "vless://u@h:1?a=1&lt;2".toList

/-- A message of this link. -/
def oneReference : Message := sample [referenceLink] (by decide +kernel) (by decide +kernel)

/-- A message of two lines. -/
def twoLines : Message :=
  sample ["vless://a@b:1".toList, "vless://c@d:2".toList] (by decide +kernel) (by decide +kernel)

theorem exact_sample :
    ((Exact sampleEntities oneLine [] ↔ oneLine.configs.length ≤ 1) ∨ Confused oneLine) ∧
      (Exact sampleEntities oneReference [] ↔
        extractConfigsFromText sampleEntities referenceLink = some []) :=
  ⟨(exact_iff sampleEntities oneLine []).1 (by decide +kernel),
    (exact_iff sampleEntities oneReference []).2 referenceLink rfl (by decide +kernel)⟩

/-- Two lines are returned as one link, and a reference is read a second time. -/
theorem not_exact_twoLines :
    parseConfigs sampleEntities (twoLines.page []) =
      some ["vless://a@b:1vless://c@d:2".toList] ∧
    ¬ Exact sampleEntities twoLines [] ∧ ¬ Exact sampleEntities oneReference [] := by
  have hmerged : parseConfigs sampleEntities (twoLines.page []) =
      some ["vless://a@b:1vless://c@d:2".toList] := by decide +kernel
  have hread : parseConfigs sampleEntities (oneReference.page []) =
      some ["vless://u@h:1?a=1<2".toList, referenceLink] := by decide +kernel
  refine ⟨hmerged, ?_, ?_⟩
  · rintro ⟨rs, hrs, hperm⟩
    rw [hmerged] at hrs
    cases hrs
    exact absurd hperm.length_eq (by decide)
  · rintro ⟨rs, hrs, hperm⟩
    rw [hread] at hrs
    cases hrs
    exact absurd hperm.length_eq (by decide)

/-- Several lines that unescaping changes may be returned after all: here one has a line
break written out. -/
example : parseConfigs sampleEntities ((sample ["ss://B".toList,
    "vless://&NewLine;ss://B&NewLine;".toList] (by decide +kernel) (by decide +kernel)).page []) =
      some ["ss://B".toList, "vless://&NewLine;ss://B&NewLine;".toList] := by
  decide +kernel

end Message
end ConfigManager
