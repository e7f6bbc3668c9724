import ConfigManager.MixedSubscriptions
import ConfigManager.PayloadDialects

/-! # What a link looks like

`CONFIG_PATTERN` matches a text in full exactly if the text has the shape of a link
(`fullMatch_iff`): a scheme with anything behind it, or with a payload that ends at a
remark or an address.  The rest of the development builds links from others, and a shape is
easier to keep than a match: a watermarked link is a link (`fullMatch_injectWatermark`).
-/
namespace ConfigManager

open Py Regex

variable {s t p : Str} {m : Match}

/-- Behind a payload there is nothing, a remark, or, where that is allowed, an address. -/
def PayloadEnd (address : Bool) (f : Str) : Prop :=
  f = [] ∨ (∃ r, f = '#' :: r) ∨ address = true ∧ ∃ r, r ≠ [] ∧ f = '@' :: r

/-- A payload and its end. -/
def IsPayloadText (address : Bool) (t : Str) : Prop :=
  ∃ p f, t = p ++ f ∧ p ≠ [] ∧ (∀ c ∈ p, isPayload c = true) ∧ PayloadEnd address f

/-- **The shape of a link.** -/
inductive IsLink : Str → Prop
  | vmess {t : Str} (body : IsPayloadText false t) : IsLink ("vmess://".toList ++ t)
  | vless {t : Str} (body : t ≠ []) : IsLink ("vless://".toList ++ t)
  | trojan {t : Str} (body : t ≠ []) : IsLink ("trojan://".toList ++ t)
  | shadowsocks {t : Str} (body : IsPayloadText true t) : IsLink ("ss://".toList ++ t)

/-! ## What the parts of the pattern match in full -/

theorem fullMatch_remark : FullMatch remark t ↔ ∃ r, NoSpace r ∧ t = '#' :: r := by
  constructor
  · rintro ⟨m, hm, hrest⟩
    obtain ⟨k, hk, l, hl, rfl⟩ := mem_seq.mp hm
    obtain ⟨u, rfl, rfl⟩ := mem_lit.mp hk
    obtain ⟨a, b, rfl, -, ha, rfl⟩ := mem_rep.mp hl
    obtain rfl : b = [] := hrest
    exact ⟨a, fun c hc => by simpa [isVisible] using ha c hc, by simp⟩
  · rintro ⟨r, hr, rfl⟩
    refine ⟨_, mem_seq.mpr ⟨_, mem_lit.mpr ⟨r, rfl, rfl⟩, ⟨r, none, []⟩,
      mem_rep.mpr ⟨r, [], by simp, Nat.zero_le _, fun c hc => ?_, rfl⟩, rfl⟩, rfl⟩
    simp [isVisible, hr c hc]

theorem fullMatch_seq_rep {greedy : Bool} {q : Char → Bool} {r : Regex} :
    FullMatch (seq (rep greedy 1 q) r) t ↔
      ∃ a b, t = a ++ b ∧ a ≠ [] ∧ (∀ c ∈ a, q c = true) ∧ FullMatch r b := by
  constructor
  · rintro ⟨m, hm, hrest⟩
    obtain ⟨k, hk, l, hl, rfl⟩ := mem_seq.mp hm
    obtain ⟨a, b, rfl, hlen, ha, rfl⟩ := mem_rep.mp hk
    exact ⟨a, b, rfl, List.ne_nil_of_length_pos hlen, ha, l, hl, hrest⟩
  · rintro ⟨a, b, rfl, hne, ha, l, hl, hrest⟩
    exact ⟨_, mem_seq.mpr ⟨⟨a, none, b⟩, mem_rep.mpr ⟨a, b, rfl, List.length_pos_of_ne_nil hne,
      ha, rfl⟩, l, hl, rfl⟩, hrest⟩

theorem fullMatch_lineEnd : FullMatch lineEnd t ↔ t = [] := by
  constructor
  · rintro ⟨m, hm, hrest⟩
    obtain ⟨-, rfl⟩ := mem_ahead.mp hm
    exact hrest
  · rintro rfl
    exact ⟨⟨[], none, []⟩, mem_ahead.mpr ⟨⟨_, mem_alt.mpr (.inr (mem_eos.mpr ⟨.inl rfl, rfl⟩))⟩,
      rfl⟩, rfl⟩

theorem fullMatch_opt {r : Regex} : FullMatch (opt r) t ↔ FullMatch r t ∨ t = [] := by
  constructor
  · rintro ⟨m, hm, hrest⟩
    rcases mem_opt.mp hm with hm | rfl
    · exact .inl ⟨m, hm, hrest⟩
    · exact .inr hrest
  · rintro (⟨m, hm, hrest⟩ | rfl)
    · exact ⟨m, mem_opt.mpr (.inl hm), hrest⟩
    · exact ⟨_, mem_opt.mpr (.inr rfl), rfl⟩

theorem fullMatch_lit_seq {l : Str} {r : Regex} :
    FullMatch (seq (lit l) r) t ↔ ∃ u, t = l ++ u ∧ FullMatch r u := by
  constructor
  · rintro ⟨m, hm, hrest⟩
    obtain ⟨k, hk, n, hn, rfl⟩ := mem_seq.mp hm
    obtain ⟨u, rfl, rfl⟩ := mem_lit.mp hk
    exact ⟨u, rfl, n, hn, hrest⟩
  · rintro ⟨u, rfl, n, hn, hrest⟩
    exact ⟨_, mem_seq.mpr ⟨_, mem_lit.mpr ⟨u, rfl, rfl⟩, n, hn, rfl⟩, hrest⟩

/-- The pattern matches what one of its alternatives matches. -/
theorem fullMatch_configPattern :
    FullMatch configPattern s ↔
      ∃ a ∈ alternatives payload, ∃ t, s = a.1 ++ t ∧ FullMatch a.2 t := by
  refine ⟨exists_alternative, ?_⟩
  rintro ⟨a, ha, t, rfl, hm⟩
  obtain ⟨m, hm, hrest⟩ := fullMatch_lit_seq.mpr ⟨t, rfl, hm⟩
  refine ⟨_, mem_group.mpr ⟨m, mem_anyOf.mpr ⟨_, ?_, hm⟩, rfl⟩, hrest⟩
  rw [configAlternatives_eq]
  exact List.mem_map_of_mem ha

/-! ## Links -/

theorem fullMatch_shortest (ht : NoSpace t) :
    FullMatch (seq shortest remark) t ∨ FullMatch (seq shortest lineEnd) t ↔ t ≠ [] := by
  have hvisible : ∀ c ∈ t, isVisible c = true := fun c hc => by simp [isVisible, ht c hc]
  constructor
  · rintro (h | h) rfl
    all_goals
      obtain ⟨a, b, hab, hne, -⟩ := fullMatch_seq_rep.mp h
      exact hne (List.append_eq_nil_iff.mp hab.symm).1
  · intro hne
    exact .inr (fullMatch_seq_rep.mpr
      ⟨t, [], (List.append_nil t).symm, hne, hvisible, fullMatch_lineEnd.mpr rfl⟩)

/-- Where the pattern reads a payload, it reads the whole text. -/
theorem isPayloadText_of_fullMatch {address : Bool} {r : Regex}
    (hr : ∀ f, FullMatch r f → PayloadEnd address f) (h : FullMatch (seq payload r) t) :
    IsPayloadText address t := by
  obtain ⟨p, f, rfl, hne, hp, hf⟩ := fullMatch_seq_rep.mp h
  exact ⟨p, f, rfl, hne, hp, hr f hf⟩

theorem isLink_of_fullMatch (h : FullMatch configPattern s) : IsLink s := by
  have hspace := noSpace_of_fullMatch h
  obtain ⟨a, ha, t, rfl, hm⟩ := fullMatch_configPattern.mp h
  have ht : NoSpace t := (noSpace_append.mp hspace).2
  have hremark : ∀ {address : Bool} f, FullMatch remark f → PayloadEnd address f := by
    intro address f hf
    obtain ⟨r, -, rfl⟩ := fullMatch_remark.mp hf
    exact .inr (.inl ⟨r, rfl⟩)
  have haddress : ∀ {r : Regex} f, FullMatch (seq (lit "@".toList) (seq shortest r)) f →
      PayloadEnd true f := by
    intro r f hf
    obtain ⟨u, rfl, hu⟩ := fullMatch_lit_seq.mp hf
    obtain ⟨a, b, rfl, hne, -⟩ := fullMatch_seq_rep.mp hu
    exact .inr (.inr ⟨rfl, a ++ b, by simp [hne], rfl⟩)
  simp only [alternatives, List.mem_cons, List.not_mem_nil, or_false] at ha
  rcases ha with rfl | rfl | rfl | rfl | rfl | rfl | rfl | rfl | rfl
  · refine .vmess (isPayloadText_of_fullMatch (fun f hf => ?_) hm)
    exact (fullMatch_opt.mp hf).elim (hremark f) .inl
  · exact .vless ((fullMatch_shortest ht).mp (.inl hm))
  · exact .vless ((fullMatch_shortest ht).mp (.inr hm))
  · exact .trojan ((fullMatch_shortest ht).mp (.inl hm))
  · exact .trojan ((fullMatch_shortest ht).mp (.inr hm))
  · exact .shadowsocks (isPayloadText_of_fullMatch haddress hm)
  · exact .shadowsocks (isPayloadText_of_fullMatch haddress hm)
  · exact .shadowsocks (isPayloadText_of_fullMatch hremark hm)
  · exact .shadowsocks (isPayloadText_of_fullMatch (fun f hf => .inl (fullMatch_lineEnd.mp hf)) hm)

theorem fullMatch_of_isLink (hspace : NoSpace s) (h : IsLink s) : FullMatch configPattern s := by
  rw [fullMatch_configPattern]
  cases h with
  | vmess body =>
    obtain ⟨p, f, rfl, hne, hp, hf⟩ := body
    have hspacef : NoSpace f := (noSpace_append.mp (noSpace_append.mp hspace).2).2
    refine ⟨("vmess://".toList, seq payload (opt remark)), by simp [alternatives], _, rfl,
      fullMatch_seq_rep.mpr ⟨p, f, rfl, hne, hp, fullMatch_opt.mpr ?_⟩⟩
    rcases hf with rfl | ⟨r, rfl⟩ | ⟨h, -⟩
    · exact .inr rfl
    · exact .inl (fullMatch_remark.mpr ⟨r, (noSpace_cons.mp hspacef).2, rfl⟩)
    · cases h
  | @vless t body =>
    rcases (fullMatch_shortest (noSpace_append.mp hspace).2).mpr body with h | h
    · exact ⟨("vless://".toList, seq shortest remark), by simp [alternatives], t, rfl, h⟩
    · exact ⟨("vless://".toList, seq shortest lineEnd), by simp [alternatives], t, rfl, h⟩
  | @trojan t body =>
    rcases (fullMatch_shortest (noSpace_append.mp hspace).2).mpr body with h | h
    · exact ⟨("trojan://".toList, seq shortest remark), by simp [alternatives], t, rfl, h⟩
    · exact ⟨("trojan://".toList, seq shortest lineEnd), by simp [alternatives], t, rfl, h⟩
  | shadowsocks body =>
    obtain ⟨p, f, rfl, hne, hp, hf⟩ := body
    have hspacef : NoSpace f := (noSpace_append.mp (noSpace_append.mp hspace).2).2
    have hbody : ∀ {r : Regex}, FullMatch r f → FullMatch (seq payload r) (p ++ f) := fun h =>
      fullMatch_seq_rep.mpr ⟨p, f, rfl, hne, hp, h⟩
    rcases hf with rfl | ⟨r, rfl⟩ | ⟨-, r, hr, rfl⟩
    · exact ⟨("ss://".toList, seq payload lineEnd), by simp [alternatives], _, rfl,
        hbody (fullMatch_lineEnd.mpr rfl)⟩
    · exact ⟨("ss://".toList, seq payload remark), by simp [alternatives], _, rfl,
        hbody (fullMatch_remark.mpr ⟨r, (noSpace_cons.mp hspacef).2, rfl⟩)⟩
    · have hsr : NoSpace r := (noSpace_cons.mp hspacef).2
      rcases (fullMatch_shortest hsr).mpr hr with h | h
      · exact ⟨("ss://".toList, seq payload (seq (lit "@".toList) (seq shortest remark))),
          by simp [alternatives], _, rfl, hbody (fullMatch_lit_seq.mpr ⟨r, rfl, h⟩)⟩
      · exact ⟨("ss://".toList, seq payload (seq (lit "@".toList) (seq shortest lineEnd))),
          by simp [alternatives], _, rfl, hbody (fullMatch_lit_seq.mpr ⟨r, rfl, h⟩)⟩

/-- **What the pattern matches in full.** -/
theorem fullMatch_iff : FullMatch configPattern s ↔ NoSpace s ∧ IsLink s :=
  ⟨fun h => ⟨noSpace_of_fullMatch h, isLink_of_fullMatch h⟩, fun h => fullMatch_of_isLink h.1 h.2⟩

/-! ## Links with another remark -/

/-- A payload text that is cut at its `#` can be given a remark. -/
theorem IsPayloadText.mark {address : Bool} (h : IsPayloadText address t) (r : Str) :
    IsPayloadText address (before '#' t ++ '#' :: r) := by
  obtain ⟨p, f, rfl, hne, hp, hf⟩ := h
  have hhash : '#' ∉ p := fun hmem => absurd (hp _ hmem) (by decide)
  refine ⟨p, before '#' f ++ '#' :: r, ?_, hne, hp, ?_⟩
  · rw [before_append hhash, List.append_assoc]
  · rcases hf with rfl | ⟨r', rfl⟩ | ⟨h, r', -, rfl⟩
    · exact .inr (.inl ⟨r, rfl⟩)
    · exact .inr (.inl ⟨r, rfl⟩)
    · exact .inr (.inr ⟨h, before '#' r' ++ '#' :: r, by simp, rfl⟩)

/-- **A link that is cut at its `#` can be given a remark.** -/
theorem IsLink.mark (h : IsLink s) (r : Str) : IsLink (before '#' s ++ '#' :: r) := by
  cases h with
  | vmess body =>
    rw [before_scheme (by decide), List.append_assoc]
    exact .vmess (body.mark r)
  | vless body =>
    rw [before_scheme (by decide), List.append_assoc]
    exact .vless (by simp)
  | trojan body =>
    rw [before_scheme (by decide), List.append_assoc]
    exact .trojan (by simp)
  | shadowsocks body =>
    rw [before_scheme (by decide), List.append_assoc]
    exact .shadowsocks (body.mark r)

theorem fullMatch_withFragment {c : Str} (h : FullMatch configPattern c) (mark : Str) :
    FullMatch configPattern (withFragment c mark) := by
  have hspace := noSpace_of_fullMatch h
  refine fullMatch_iff.mpr ⟨noSpace_withFragment hspace, ?_⟩
  rw [withFragment_eq hspace]
  exact (isLink_of_fullMatch h).mark _

theorem fullMatch_vmessLink {ms : List (JStr × Json)} {d : Str}
    (h : vmessLink (.obj ms) = some d) : FullMatch configPattern d := by
  have hspace := noSpace_vmessLink h
  obtain ⟨-, rfl⟩ := vmessLink_eq_some.mp h
  have htext : Json.dumps (.obj ms) ≠ [] := by
    cases ms with
    | nil => decide
    | cons m ms => simp [Json.dumps]
  have hne : payloadOf (.obj ms) ≠ [] := Base64.b64encode_ne_nil (Utf8.encode_ne_nil htext)
  exact fullMatch_iff.mpr ⟨hspace, .vmess ⟨payloadOf (.obj ms), [], (List.append_nil _).symm, hne,
    fun c hc => Payload.isPayload_of_isAlphabet (Base64.isAlphabet_of_mem hc), .inl rfl⟩⟩

/-- **A watermarked link is a link.** -/
theorem fullMatch_injectWatermark {env : Env} {c code marked : Str}
    (hc : FullMatch configPattern c) (h : injectWatermark env c code = some marked) :
    FullMatch configPattern marked := by
  obtain ⟨mark, -, h⟩ := Option.map_eq_some_iff.mp h
  by_cases hno : ∀ ms, ¬Rewritten env c mark ms
  · rw [injected_of_not hno] at h
    exact h ▸ fullMatch_withFragment hc mark
  · obtain ⟨ms, hms⟩ := not_forall_not.mp hno
    obtain ⟨d, hd, hinj⟩ := injected_of_rewritten hms
    rw [hinj] at h
    exact h ▸ fullMatch_vmessLink hd

/-! ## Links among other text -/

/-- What is found in links are the links. -/
theorem flatMap_findall {links : List Str} (h : ∀ c ∈ links, FullMatch configPattern c) :
    links.flatMap (findall configPattern) = links := by
  induction links with
  | nil => rfl
  | cons c links ih =>
    obtain ⟨hc, hlinks⟩ := List.forall_mem_cons.mp h
    rw [List.flatMap_cons, (findall_of_fullMatch hc).1, ih hlinks]
    rfl

/-- A text without a slash has no link in it. -/
theorem findall_of_noSlash (h : '/' ∉ s) : findall configPattern s = [] := by
  by_contra hne
  obtain ⟨p, hp, hin⟩ := containsScheme_of_findall hne
  have hslash : ∀ p ∈ schemes, '/' ∈ p := by decide
  exact h (hin.mem (hslash p hp))

/-- A character of whitespace at the end of a text is not read. -/
theorem findall_concat {c : Char} (hc : isSpace c = true) (s : Str) :
    findall configPattern (s ++ [c]) = findall configPattern s := by
  rw [findall_cut hc]
  exact List.append_nil _

end ConfigManager
