import ConfigManager.LinkScan
import ConfigManager.Py.RegexLocal

/-! # Links in a text

No alternative of `CONFIG_PATTERN` goes past whitespace or looks behind it, so a text is
searched word by word (`local_configPattern`); and what is found in a word is a link by
itself (`fullMatch_of_mem_findall`).
-/
namespace ConfigManager

open Py Regex

/-! ## The pattern and whitespace -/

variable {s : Str} {m : Match}

theorem local_payload : Local isSpace payload := local_rep fun c hc => by
  by_contra h
  have hvisible := isVisible_of_isPayload (Bool.not_eq_false _ ▸ h)
  rw [isVisible, hc] at hvisible
  cases hvisible

theorem not_isVisible {c : Char} (hc : isSpace c = true) : isVisible c = false := by
  rw [isVisible, hc]
  rfl

theorem local_shortest : Local isSpace shortest := local_rep fun _ => not_isVisible

theorem local_noSpace {l : Str} (h : NoSpace l) : Local isSpace (lit l) :=
  local_lit fun c hc hm => by
    rw [h c hm] at hc
    cases hc

theorem local_remark : Local isSpace remark :=
  local_seq (local_noSpace (by unfold NoSpace; decide)) (local_rep fun _ => not_isVisible)

/-- The end of a word is seen the same before whitespace and at the end of the text. -/
theorem local_lineEnd : Local isSpace lineEnd := by
  intro s c t hc
  have hspace : ∀ d u, isSpace d = true →
      lineEnd.matchesAt (d :: u) = [⟨[], none, d :: u⟩] := by
    intro d u hd
    simp [lineEnd, matchesAt, hd]
  cases s with
  | nil =>
    rw [List.nil_append, hspace c t hc]
    rfl
  | cons d s =>
    by_cases hd : isSpace d = true
    · rw [List.cons_append, hspace d _ hd, hspace d _ hd]
      rfl
    · have hne : d ≠ '\n' := by
        rintro rfl
        exact hd (by decide)
      simp [lineEnd, matchesAt, hd, hne]

theorem local_anyOf {sep : Char → Bool} {rs : List Regex} (h : ∀ r ∈ rs, Local sep r) :
    Local sep (anyOf rs) := by
  induction rs using anyOf.induct with
  | case1 => exact local_cls fun _ _ => rfl
  | case2 r => exact h r (List.mem_singleton_self r)
  | case3 r rs hrs ih =>
    rw [anyOf]
    · exact local_alt (h r (List.mem_cons_self ..)) (ih fun t ht => h t (List.mem_cons_of_mem _ ht))
    · exact hrs

theorem local_configPattern : Local isSpace configPattern := by
  have hschemes : ∀ b ∈ schemes, NoSpace b := by
    unfold NoSpace
    decide
  have hat : Local isSpace (lit "@".toList) := local_noSpace (by unfold NoSpace; decide)
  have hbodies : ∀ a ∈ alternatives payload, Local isSpace a.2 := by
    simp only [alternatives, List.forall_mem_cons, List.not_mem_nil, false_imp_iff, implies_true,
      and_true]
    exact ⟨local_seq local_payload (local_opt local_remark),
      local_seq local_shortest local_remark, local_seq local_shortest local_lineEnd,
      local_seq local_shortest local_remark, local_seq local_shortest local_lineEnd,
      local_seq local_payload (local_seq hat (local_seq local_shortest local_remark)),
      local_seq local_payload (local_seq hat (local_seq local_shortest local_lineEnd)),
      local_seq local_payload local_remark, local_seq local_payload local_lineEnd⟩
  refine local_group (local_anyOf ?_)
  rw [configAlternatives_eq]
  intro r hr
  obtain ⟨a, ha, rfl⟩ := List.mem_map.mp hr
  exact local_seq (local_noSpace (hschemes a.1 (mem_schemes a ha))) (hbodies a ha)

theorem text_ne_nil (s : Str) (m : Match) (h : m ∈ configPattern.matchesAt s) : m.text ≠ [] := by
  obtain ⟨n, hn, rfl⟩ := mem_group.mp h
  obtain ⟨r, hr, hn⟩ := mem_anyOf.mp hn
  rw [configAlternatives_eq, List.mem_map] at hr
  obtain ⟨a, ha, rfl⟩ := hr
  obtain ⟨k, hk, l, -, rfl⟩ := mem_seq.mp hn
  obtain ⟨u, -, rfl⟩ := mem_lit.mp hk
  have hne : ∀ b ∈ schemes, b ≠ [] := by decide
  show a.1 ++ l.text ≠ []
  exact List.append_ne_nil_of_left_ne_nil (hne a.1 (mem_schemes a ha)) _

/-! ## What is found is a link -/

/-- A payload behind `vmess://` is a link. -/
theorem fullMatch_payload {w : Str} (hlen : 1 ≤ w.length) (hw : ∀ c ∈ w, isPayload c = true) :
    FullMatch configPattern ("vmess://".toList ++ w) := by
  refine ⟨⟨"vmess://".toList ++ w, some ("vmess://".toList ++ w), []⟩, ?_, rfl⟩
  rw [configPattern_eq, matchesAt_linkPattern literals_lit (List.mem_cons_self ..)]
  refine List.mem_map.mpr ⟨⟨w, none, []⟩, ?_, rfl⟩
  change (⟨w, none, []⟩ : Match) ∈ (seq payload (opt remark)).matchesAt w
  exact mem_seq.mpr ⟨⟨w, none, []⟩, mem_rep.mpr ⟨w, [], by simp, hlen, hw, rfl⟩,
    ⟨[], none, []⟩, mem_opt.mpr (.inr rfl), by simp [Match.andThen]⟩

/-- A match in a word is a link by itself. -/
theorem fullMatch_of_match? (hs : NoSpace s) (h : configPattern.match? s = some m) :
    FullMatch configPattern m.text := by
  obtain ⟨b, hb, u, rfl⟩ := exists_scheme_of_match? h
  have hmem : m ∈ configPattern.matchesAt (b ++ u) := List.mem_of_mem_head? h
  rcases rest_of_match? literals_lit hb (noSpace_append.mp hs).2 h with hrest | ⟨rfl, htext, -⟩
  · -- It goes on to the end of the word.
    have hall := match?_append h
    rw [hrest, List.append_nil] at hall
    exact ⟨m, hall ▸ hmem, hrest⟩
  · -- It is a payload that stops before some other character.
    have hrun : 1 ≤ (u.takeWhile isPayload).length := by
      rw [configPattern_eq, matchesAt_linkPattern literals_lit hb, List.mem_map] at hmem
      obtain ⟨n, hn, -⟩ := hmem
      change n ∈ (seq payload (opt remark)).matchesAt u at hn
      obtain ⟨k, hk, -⟩ := mem_seq.mp hn
      obtain ⟨a, v, rfl, hlen, ha, -⟩ := mem_rep.mp hk
      rw [List.takeWhile_append_of_pos ha, List.length_append]
      omega
    have hall : ∀ c ∈ u.takeWhile isPayload, isPayload c = true := fun _ hc =>
      List.mem_takeWhile_imp hc
    exact htext ▸ fullMatch_payload hrun hall

/-- The same in any text: whitespace ends the word. -/
theorem fullMatch_of_match?_text (h : configPattern.match? s = some m) :
    FullMatch configPattern m.text := by
  have hcut := List.takeWhile_append_dropWhile (p := isVisible) (l := s)
  have hword : NoSpace (s.takeWhile isVisible) := fun c hc => by
    simpa [isVisible] using List.mem_takeWhile_imp hc
  cases hd : s.dropWhile isVisible with
  | nil =>
    rw [hd, List.append_nil] at hcut
    exact fullMatch_of_match? (hcut ▸ hword) h
  | cons c t =>
    have hc : isSpace c = true := by
      have hhead := List.head_dropWhile_not (p := isVisible) (l := s) (by simp [hd])
      simpa [hd, isVisible] using hhead
    rw [hd] at hcut
    rw [← hcut, match?_append_sep local_configPattern hc, Option.map_eq_some_iff] at h
    obtain ⟨n, hn, rfl⟩ := h
    have hlink : FullMatch configPattern n.text := fullMatch_of_match? hword hn
    exact hlink

/-- **What is found in a text is a link**, wherever it stands. -/
theorem fullMatch_of_mem_findall {e : Str} (h : e ∈ findall configPattern s) :
    FullMatch configPattern e := by
  induction hn : s.length using Nat.strong_induction_on generalizing s with
  | _ n ih =>
    subst hn
    cases s with
    | nil => cases h
    | cons c s =>
      cases hm : configPattern.match? (c :: s) with
      | none =>
        rw [findall_cons_of_noMatch hm] at h
        exact ih _ (Nat.lt_succ_self _) h rfl
      | some m =>
        have htext := text_ne_nil _ m (List.mem_of_mem_head? hm)
        rw [findall_of_match hm htext, List.mem_cons] at h
        rcases h with rfl | h
        · exact fullMatch_of_match?_text hm
        · refine ih _ ?_ h rfl
          have := congrArg List.length (match?_append hm)
          have := List.length_pos_of_ne_nil htext
          rw [List.length_append] at *
          omega

/-- A link has a protocol. -/
theorem detectProtocol_ne_unknown {c : Str} (h : FullMatch configPattern c) :
    detectProtocol c ≠ .unknown := by
  obtain ⟨b, hb, t, rfl⟩ := exists_scheme h
  have hschemes : ∀ b ∈ schemes, detectProtocol b ≠ .unknown := by decide
  rw [detectProtocol_append hb]
  exact hschemes b hb

/-- Whitespace cuts the search in two. -/
theorem findall_cut {c : Char} (hc : isSpace c = true) (s u : Str) :
    findall configPattern (s ++ c :: u) = findall configPattern s ++ findall configPattern u :=
  findall_append local_configPattern text_ne_nil hc s u

theorem findall_rstrip (s : Str) : findall configPattern (rstrip s) = findall configPattern s := by
  have hright : ∀ c ∈ s.rtakeWhile isSpace, isSpace c = true := fun _ hc =>
    List.mem_rtakeWhile_imp hc
  have hcut : s = rstrip s ++ s.rtakeWhile isSpace := List.rdropWhile_append_rtakeWhile.symm
  conv_rhs => rw [hcut]
  by_cases hnil : s.rtakeWhile isSpace = []
  · rw [hnil, List.append_nil]
  · have hend := findall_append_seps local_configPattern text_ne_nil hright hnil (rstrip s) []
    rw [List.append_nil] at hend
    rw [hend]
    exact (List.append_nil _).symm

/-- Whitespace around a text hides no link. -/
theorem findall_strip (s : Str) : findall configPattern (strip s) = findall configPattern s := by
  have hleft : ∀ c ∈ s.takeWhile isSpace, isSpace c = true := fun _ hc => List.mem_takeWhile_imp hc
  rw [strip, ← rstrip, findall_rstrip]
  conv_rhs => rw [← List.takeWhile_append_dropWhile (p := isSpace) (l := s)]
  rw [findall_seps_append local_configPattern text_ne_nil hleft]

end ConfigManager
