import ConfigManager.LinkScan
import ConfigManager.Py.Html
import Mathlib.Data.List.Nodup

/-! # The channel scraper (`scraper.base.TelegramChannelScraper`)

`parse_configs` reads a channel's page along two routes.  One takes the page's text
nodes, unescapes each again and searches it with `CONFIG_PATTERN`; the other cleans each
message and searches it with `CONFIG_REGEX`.  Of what both find, the first link of each
hash is kept.

What BeautifulSoup finds in the page is given (`Soup`), and so is the table of HTML's
character references.
-/
namespace ConfigManager

open Py Regex Html

/-- What `BeautifulSoup(html, "html.parser")` finds in a page. -/
structure Soup where
  /-- `pre.get_text(strip=True)` of each `pre`. -/
  pres : List Str
  /-- `str(msg)` of each `div` of class `tgme_widget_message_text`. -/
  messages : List Str
  /-- `soup.get_text("\n", strip=True)`. -/
  text : Str

/-- `<[^>]+>`. -/
def tagPattern : Regex := seq (lit ['<']) (seq (rep true 1 (· != '>')) (lit ['>']))

/-- `[ \t]+`. -/
def blankPattern : Regex := rep true 1 fun c => c == ' ' || c == '\t'

/-- `any(text.startswith(p) for p in (...))`. -/
def startsWithScheme (text : Str) : Bool := schemes.any (·.isPrefixOf text)

variable (E : Entities)

/-- `_clean_html_to_text`, `none` where it raises. -/
def cleanHtmlToText (htmlFragment : Str) : Option Str :=
  (unescape E (sub tagPattern [] htmlFragment)).map fun text =>
    strip (sub blankPattern [' '] text)

/-- `extract_configs_from_text`. -/
def extractConfigsFromText (text : Str) : Option (List Str) :=
  (unescape E text).map (findall configPattern)

/-- `_extract_text_nodes`. -/
def extractTextNodes (soup : Soup) : Option (List Str) :=
  (soup.messages.mapM (cleanHtmlToText E)).map fun messages =>
    soup.pres.filter (fun text => text ≠ [] ∧ startsWithScheme text) ++
      messages.filter (· ≠ []) ++
      if soup.messages = [] ∧ soup.text ≠ [] then [soup.text] else []

/-- `_extract_configs_from_html`. -/
def extractConfigsFromHtml (soup : Soup) : Option (List Str) :=
  ((soup.pres.filter startsWithScheme).mapM (unescape E)).bind fun pres =>
    (soup.messages.mapM (cleanHtmlToText E)).map fun messages =>
      pres.flatMap (findall configRegex) ++ messages.flatMap (findall configRegex)

/-- One link is kept, unless its hash was seen; `seen` holds the hashes of `configs`. -/
def keepNew (configs : List Str) (cfg : Str) : List Str :=
  if configHash cfg ∈ configs.map configHash then configs else configs ++ [cfg]

/-- `parse_configs`, `none` where it raises. -/
def parseConfigs (soup : Soup) : Option (List Str) :=
  (extractTextNodes E soup).bind fun nodes =>
    (nodes.mapM (extractConfigsFromText E)).bind fun found =>
      (extractConfigsFromHtml E soup).map fun direct =>
        (found.flatten ++ direct).foldl keepNew []

/-! ## What is kept -/

variable {E} {soup : Soup} {cfg : Str} {configs found rs : List Str}

theorem nodup_keepNew (h : (configs.map configHash).Nodup) :
    ((keepNew configs cfg).map configHash).Nodup := by
  unfold keepNew
  split
  · exact h
  next hnew =>
    rw [List.map_append, List.map_singleton, List.nodup_append]
    refine ⟨h, List.nodup_singleton _, fun a ha b hb => ?_⟩
    rw [List.mem_singleton.mp hb]
    exact fun hab => hnew (hab ▸ ha)

theorem nodup_foldl_keepNew (h : (configs.map configHash).Nodup) :
    ((found.foldl keepNew configs).map configHash).Nodup := by
  induction found generalizing configs with
  | nil => exact h
  | cons cfg found ih => exact ih (nodup_keepNew h)

/-- **What a channel returns has distinct hashes.** -/
theorem nodup_parseConfigs (h : parseConfigs E soup = some rs) : (rs.map configHash).Nodup := by
  obtain ⟨nodes, -, h⟩ := Option.bind_eq_some_iff.mp h
  obtain ⟨found, -, h⟩ := Option.bind_eq_some_iff.mp h
  obtain ⟨direct, -, rfl⟩ := Option.map_eq_some_iff.mp h
  exact nodup_foldl_keepNew List.nodup_nil

theorem foldl_keepNew_sublist (configs found : List Str) :
    (found.foldl keepNew configs).Sublist (configs ++ found) := by
  induction found generalizing configs with
  | nil => simp
  | cons cfg found ih =>
    refine (ih (keepNew configs cfg)).trans ?_
    unfold keepNew
    split
    · exact (List.sublist_cons_self cfg found).append_left configs
    · rw [List.append_assoc, List.singleton_append]

/-- Every hash found is kept once. -/
theorem mem_map_foldl_keepNew {hash : Str} :
    hash ∈ (found.foldl keepNew configs).map configHash ↔
      hash ∈ configs.map configHash ∨ hash ∈ found.map configHash := by
  induction found generalizing configs with
  | nil => simp
  | cons cfg found ih =>
    rw [List.foldl_cons, ih, keepNew]
    split
    next hold =>
      rw [List.map_cons, List.mem_cons]
      constructor
      · rintro (h | h)
        · exact .inl h
        · exact .inr (.inr h)
      · rintro (h | rfl | h)
        · exact .inl h
        · exact .inl hold
        · exact .inr h
    next => simp [or_assoc]

/-- What was seen before is not kept again. -/
theorem foldl_keepNew_of_seen (h : ∀ e ∈ found, configHash e ∈ configs.map configHash) :
    found.foldl keepNew configs = configs := by
  induction found with
  | nil => rfl
  | cons cfg found ih =>
    rw [List.foldl_cons, keepNew, if_pos (h cfg (List.mem_cons_self ..))]
    exact ih fun e he => h e (List.mem_cons_of_mem _ he)

theorem prefix_foldl_keepNew (configs found : List Str) :
    configs <+: found.foldl keepNew configs := by
  induction found generalizing configs with
  | nil => exact List.prefix_rfl
  | cons cfg found ih =>
    refine List.IsPrefix.trans ?_ (ih (keepNew configs cfg))
    unfold keepNew
    split
    · exact List.prefix_rfl
    · exact List.prefix_append ..

/-! ## Removing tags -/

variable {s u : Str}

theorem sub_tag {a : Str} (hne : a ≠ []) (ha : '>' ∉ a) :
    sub tagPattern [] ('<' :: (a ++ '>' :: s)) = sub tagPattern [] s := by
  have hm : tagPattern.match? ('<' :: (a ++ '>' :: s)) = some ⟨'<' :: (a ++ ['>']), none, s⟩ :=
    (match?_delimited mem_until).mpr ⟨a, s, rfl, hne, ha, rfl⟩
  rw [sub_of_match hm (by simp), List.nil_append]

theorem sub_tag_text (hu : '<' ∉ u) : sub tagPattern [] (u ++ s) = u ++ sub tagPattern [] s := by
  refine sub_append fun c v hv => Option.eq_none_iff_forall_ne_some.mpr fun m hm => ?_
  obtain ⟨a, y, h, -⟩ := (match?_delimited mem_until).mp hm
  exact hu ((List.cons.inj h).1 ▸ hv.mem (List.mem_cons_self ..))

theorem sub_blank_of_noSpace (hs : NoSpace s) : sub blankPattern [' '] s = s := by
  have hnone : ∀ c v, c :: v <:+ s → blankPattern.match? (c :: v ++ []) = none := by
    intro c v hv
    have hc := hs c (hv.mem (List.mem_cons_self ..))
    rw [match?_eq_none]
    intro m hm
    obtain ⟨a, b, hab, hlen, ha, -⟩ := mem_rep.mp hm
    obtain ⟨d, a, rfl⟩ := List.exists_cons_of_ne_nil (List.ne_nil_of_length_pos hlen)
    obtain ⟨rfl, -⟩ := List.cons.inj hab
    have hd := ha _ (List.mem_cons_self ..)
    simp only [Bool.or_eq_true, beq_iff_eq] at hd
    rcases hd with rfl | rfl <;> cases hc
  have hsub : sub blankPattern [' '] (s ++ []) = s ++ sub blankPattern [' '] [] := sub_append hnone
  simpa [sub, subFrom] using hsub

end ConfigManager
