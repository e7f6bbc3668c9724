import ConfigManager.LinkUtils
import ConfigManager.Py.RegexRules

/-! # What the link pattern matches

A text that `CONFIG_PATTERN` matches in full has no whitespace and starts with one of
the four schemes, in lower case; behind `vmess://` stand a payload and, perhaps, a
fragment.
-/
namespace ConfigManager

open Py Regex

theorem mem_anyOf {rs : List Regex} {s : Str} {m : Match} :
    m ∈ (anyOf rs).matchesAt s ↔ ∃ r ∈ rs, m ∈ r.matchesAt s := by
  induction rs with
  | nil => cases s <;> simp [anyOf, matchesAt]
  | cons r rs ih =>
    cases rs with
    | nil => simp [anyOf]
    | cons t rs =>
      rw [anyOf, mem_alt, ih]
      · simp
      · simp

/-- The schemes of the alternatives. -/
def schemes : List Str := ["vmess://".toList, "vless://".toList, "trojan://".toList, "ss://".toList]

/-- What follows a scheme does not matter to the protocol. -/
theorem detectProtocol_append {s : Str} (hs : s ∈ schemes) (t : Str) :
    detectProtocol (s ++ t) = detectProtocol s := by
  have hfacts : ∀ s ∈ schemes, lower s = s ∧ s ≠ [] ∧ ∀ c ∈ s, isSpace c = false := by decide
  obtain ⟨hlower, hne, hspace⟩ := hfacts s hs
  have hfull : strip (lower (s ++ t)) = s ++ rstrip (lower t) := by
    rw [lower, List.map_append, ← lower, hlower, strip_append hspace hne]
    rfl
  have hself : strip (lower s) = s := by rw [hlower, strip_of_noSpace hspace]
  rw [detectProtocol, detectProtocol]
  simp only [hfull, hself]
  simp only [schemes, List.mem_cons, List.not_mem_nil, or_false] at hs
  rcases hs with rfl | rfl | rfl | rfl <;> rfl

theorem isVisible_of_isPayload {c : Char} (h : isPayload c = true) : isVisible c = true := by
  simp only [isPayload, Bool.or_eq_true, Bool.and_eq_true, decide_eq_true_eq, beq_iff_eq] at h
  simp only [isVisible, isSpace, Bool.not_eq_true', Bool.or_eq_false_iff, Bool.and_eq_false_iff,
    decide_eq_false_iff_not, beq_eq_false_iff_ne]
  omega

/-- No alternative matches whitespace. -/
theorem over_visible : configPattern.Over fun c => isVisible c = true := by
  have hpayload : payload.Over fun c => isVisible c = true := fun _ => isVisible_of_isPayload
  have hshortest : shortest.Over fun c => isVisible c = true := fun _ h => h
  have hremark : remark.Over fun c => isVisible c = true := ⟨over_lit (by decide), fun _ h => h⟩
  have hend : lineEnd.Over fun c => isVisible c = true := trivial
  have hat : (lit "@".toList).Over fun c => isVisible c = true := over_lit (by decide)
  have hlit : ∀ s ∈ schemes, (lit s).Over fun c => isVisible c = true := by
    have h : ∀ s ∈ schemes, ∀ c ∈ s, isVisible c = true := by decide
    exact fun s hs => over_lit (h s hs)
  refine ⟨⟨hlit _ ?_, hpayload, hremark⟩, ⟨hlit _ ?_, hshortest, hremark⟩,
    ⟨hlit _ ?_, hshortest, hend⟩, ⟨hlit _ ?_, hshortest, hremark⟩, ⟨hlit _ ?_, hshortest, hend⟩,
    ⟨hlit _ ?_, hpayload, hat, hshortest, hremark⟩, ⟨hlit _ ?_, hpayload, hat, hshortest, hend⟩,
    ⟨hlit _ ?_, hpayload, hremark⟩, ⟨hlit _ ?_, hpayload, hend⟩⟩ <;> decide

variable {c : Str}

theorem noSpace_of_fullMatch (h : FullMatch configPattern c) : NoSpace c := by
  obtain ⟨m, hm, hrest⟩ := h
  have htext := text_append_rest hm
  rw [hrest, List.append_nil] at htext
  subst htext
  intro d hd
  simpa [isVisible] using text_over over_visible hm d hd

/-- The alternatives, each a scheme and what follows it, with the run of payload
characters as a parameter. -/
def alternatives (run : Regex) : List (Str × Regex) :=
  [("vmess://".toList, seq run (opt remark)),
    ("vless://".toList, seq shortest remark),
    ("vless://".toList, seq shortest lineEnd),
    ("trojan://".toList, seq shortest remark),
    ("trojan://".toList, seq shortest lineEnd),
    ("ss://".toList, seq run (seq (lit "@".toList) (seq shortest remark))),
    ("ss://".toList, seq run (seq (lit "@".toList) (seq shortest lineEnd))),
    ("ss://".toList, seq run remark),
    ("ss://".toList, seq run lineEnd)]

theorem configAlternatives_eq :
    configAlternatives = (alternatives payload).map fun a => seq (lit a.1) a.2 := rfl

theorem mem_schemes {run : Regex} : ∀ a ∈ alternatives run, a.1 ∈ schemes := by
  simp [alternatives, schemes]

/-- What is matched starts with the scheme of an alternative. -/
theorem exists_alternative (h : FullMatch configPattern c) :
    ∃ a ∈ alternatives payload, ∃ t, c = a.1 ++ t ∧ FullMatch a.2 t := by
  obtain ⟨m, hm, hrest⟩ := h
  obtain ⟨n, hn, rfl⟩ := mem_group.mp hm
  obtain ⟨r, hr, hn⟩ := mem_anyOf.mp hn
  rw [configAlternatives_eq, List.mem_map] at hr
  obtain ⟨a, ha, rfl⟩ := hr
  obtain ⟨k, hk, l, hl, rfl⟩ := mem_seq.mp hn
  obtain ⟨t, rfl, rfl⟩ := mem_lit.mp hk
  exact ⟨a, ha, t, rfl, l, hl, hrest⟩

theorem exists_scheme (h : FullMatch configPattern c) : ∃ s ∈ schemes, ∃ t, c = s ++ t := by
  obtain ⟨a, ha, t, rfl, -⟩ := exists_alternative h
  exact ⟨a.1, mem_schemes a ha, t, rfl⟩

/-- A link is a vmess link or names its server in its url. -/
theorem isVmess_or_isUrlLink (h : FullMatch configPattern c) :
    isVmess c = true ∨ isUrlLink c = true := by
  obtain ⟨s, hs, t, rfl⟩ := exists_scheme h
  simp only [schemes, List.mem_cons, List.not_mem_nil, or_false] at hs
  rcases hs with rfl | rfl | rfl | rfl
  · exact .inl rfl
  · exact .inr rfl
  · exact .inr rfl
  · exact .inr rfl

/-- A vmess link is a payload and, perhaps, a fragment. -/
theorem exists_payload (h : FullMatch configPattern c) (hv : isVmess c = true) :
    ∃ p f, c = "vmess://".toList ++ (p ++ f) ∧ (∀ d ∈ p, isPayload d = true) ∧
      (f = [] ∨ ∃ r, f = '#' :: r) := by
  obtain ⟨a, ha, t, rfl, hm⟩ := exists_alternative h
  have hfirst : a = ("vmess://".toList, seq payload (opt remark)) := by
    simp only [alternatives, List.mem_cons, List.not_mem_nil, or_false] at ha
    rcases ha with rfl | rfl | rfl | rfl | rfl | rfl | rfl | rfl | rfl
    · rfl
    all_goals cases hv
  subst hfirst
  obtain ⟨m, hm, hrest⟩ := hm
  obtain ⟨k, hk, l, hl, rfl⟩ := mem_seq.mp hm
  obtain ⟨p, f, rfl, -, hp, rfl⟩ := mem_rep.mp hk
  refine ⟨p, f, rfl, hp, ?_⟩
  rcases mem_opt.mp hl with hl | rfl
  · obtain ⟨k, hk, -⟩ := mem_seq.mp hl
    obtain ⟨u, hu, -⟩ := mem_lit.mp hk
    exact .inr ⟨u, hu⟩
  · exact .inl hrest

end ConfigManager
