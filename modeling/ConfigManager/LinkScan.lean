import ConfigManager.ConfigPattern
import ConfigManager.Py.RegexScan

/-! # Finding links in a text

`findall` of `CONFIG_PATTERN` and of `CONFIG_REGEX` in a text without whitespace.  The
two patterns differ in how they read a scheme and in what a payload is made of, so both
are a `linkPattern`.  Every alternative but the first goes on to the end of the text,
and the first goes on to the end or stops before a character that is in no payload;
hence a text is found as a whole, or some of it is lost (`findall_eq_or_lt`).
-/
namespace ConfigManager

open Py Regex

/-- The link pattern, from a way to read a scheme and a run of payload characters. -/
def linkPattern (scheme : Str → Regex) (run : Regex) : Regex :=
  group (anyOf ((alternatives run).map fun a => seq (scheme a.1) a.2))

theorem configPattern_eq : configPattern = linkPattern lit payload := rfl

theorem configRegex_eq :
    configRegex = linkPattern (fun s => (lit s).ignoreCase) payload.ignoreCase := by
  -- No class but that of the payload gains a character when case is ignored.
  have hspace : foldClass isSpace = isSpace := foldClass_eq false (by decide) (by decide)
  have hvisible : foldClass isVisible = isVisible := foldClass_eq true (by decide) (by decide)
  have hhash : foldClass (· == '#') = (· == '#') := foldClass_eq false (by decide) (by decide)
  have hat : foldClass (· == '@') = (· == '@') := foldClass_eq false (by decide) (by decide)
  have hremark : remark.ignoreCase = remark := by
    change seq (cls (foldClass (· == '#'))) (rep true 0 (foldClass isVisible)) = _
    rw [hhash, hvisible]
    rfl
  have hshortest : shortest.ignoreCase = shortest := by
    change rep false 1 (foldClass isVisible) = _
    rw [hvisible]
    rfl
  have hend : lineEnd.ignoreCase = lineEnd := by
    change ahead (alt (cls (foldClass isSpace)) eos) = _
    rw [hspace]
    rfl
  have hlit : (lit "@".toList).ignoreCase = lit "@".toList := by
    change cls (foldClass (· == '@')) = _
    rw [hat]
    rfl
  change group (anyOf ((alternatives payload).map fun a =>
    seq (lit a.1).ignoreCase a.2.ignoreCase)) = _
  simp only [alternatives, linkPattern, List.map_cons, List.map_nil, ignoreCase, hremark,
    hshortest, hend, hlit]

/-! ## A scheme and what follows it -/

/-- A scheme is read where it stands, and nowhere else a scheme stands. -/
structure Literals (scheme : Str → Regex) : Prop where
  self : ∀ b ∈ schemes, ∀ u, (scheme b).matchesAt (b ++ u) = [⟨b, none, u⟩]
  other : ∀ a ∈ schemes, ∀ b ∈ schemes, a ≠ b → ∀ u, (scheme a).matchesAt (b ++ u) = []

theorem literals_ignoreCase : Literals fun s => (lit s).ignoreCase := by
  have hconflict : ∀ a ∈ schemes, ∀ b ∈ schemes, a ≠ b →
      conflict (fun c => foldClass (· == c)) a b = true := by decide +kernel
  constructor
  · intro b _ u
    rw [ignoreCase_lit]
    exact matchesAt_letters_self (fun c => by simp [foldClass]) b u
  · intro a ha b hb hab u
    rw [ignoreCase_lit]
    exact matchesAt_letters_conflict (hconflict a ha b hb hab) u

theorem literals_lit : Literals lit := by
  constructor
  · intro b _ u
    rw [lit_eq]
    exact matchesAt_letters_self (fun c => by simp) b u
  · intro a ha b hb hab u
    refine List.eq_nil_iff_forall_not_mem.mpr fun m hm => ?_
    have h := mem_ignoreCase hm
    rw [literals_ignoreCase.other a ha b hb hab u] at h
    cases h

/-- What may follow a scheme. -/
def bodies (run : Regex) (b : Str) : List Regex :=
  (alternatives run).filterMap fun a => if a.1 = b then some a.2 else none

theorem matchesAt_anyOf (rs : List Regex) (s : Str) :
    (anyOf rs).matchesAt s = rs.flatMap (·.matchesAt s) := by
  induction rs with
  | nil => cases s <;> rfl
  | cons r rs ih =>
    cases rs with
    | nil => simp [anyOf]
    | cons t rs =>
      have hstep : anyOf (r :: t :: rs) = alt r (anyOf (t :: rs)) := rfl
      rw [hstep, matchesAt, ih]
      rfl

variable {scheme : Str → Regex} {run : Regex} {b s u : Str} {m : Match}

theorem matchesAt_linkPattern (hs : Literals scheme) (hb : b ∈ schemes) :
    (linkPattern scheme run).matchesAt (b ++ u) =
      ((anyOf (bodies run b)).matchesAt u).map fun m =>
        ⟨b ++ m.text, some (b ++ m.text), m.rest⟩ := by
  have hseq : ∀ as : List (Str × Regex), (∀ a ∈ as, a.1 ∈ schemes) →
      (as.map fun a => seq (scheme a.1) a.2).flatMap (·.matchesAt (b ++ u)) =
        ((as.filterMap fun a => if a.1 = b then some a.2 else none).flatMap
          (·.matchesAt u)).map (Match.andThen ⟨b, none, u⟩) := by
    intro as has
    induction as with
    | nil => rfl
    | cons a as ih =>
      have ih' := ih fun a' ha' => has a' (List.mem_cons_of_mem _ ha')
      rw [List.map_cons, List.flatMap_cons, ih', List.filterMap_cons]
      by_cases hab : a.1 = b
      · subst hab
        simp [matchesAt, hs.self _ hb]
      · simp [matchesAt, hs.other _ (has a (List.mem_cons_self ..)) _ hb hab, hab]
  rw [linkPattern, matchesAt, matchesAt_anyOf, hseq _ mem_schemes, matchesAt_anyOf, bodies,
    List.map_map]
  rfl

theorem match?_linkPattern (hs : Literals scheme) (hb : b ∈ schemes) :
    (linkPattern scheme run).match? (b ++ u) =
      ((anyOf (bodies run b)).match? u).map fun m =>
        ⟨b ++ m.text, some (b ++ m.text), m.rest⟩ := by
  rw [match?, matchesAt_linkPattern hs hb, List.head?_map, match?]

/-! ## Where a match ends -/

theorem mem_remark (v : Str) : (⟨['#'], none, v⟩ : Match) ∈ remark.matchesAt ('#' :: v) :=
  mem_seq.mpr ⟨⟨['#'], none, v⟩, mem_lit.mpr ⟨v, rfl, rfl⟩, ⟨[], none, v⟩,
    mem_rep.mpr ⟨[], v, rfl, by simp, by simp, rfl⟩, rfl⟩

theorem takesRest_remark : TakesRest (fun c => isVisible c = true) remark :=
  takesRest_seq (takesRest_rep fun _ h => h)

theorem takesRest_lineEnd : TakesRest (fun c => isVisible c = true) lineEnd := by
  intro s hs m hm
  obtain ⟨⟨n, hn⟩, rfl⟩ := mem_ahead.mp (List.mem_of_mem_head? hm)
  rcases mem_alt.mp hn with hn | hn
  · obtain ⟨c, v, rfl, hc, -⟩ := mem_cls.mp hn
    have hv := hs c (List.mem_cons_self ..)
    simp [isVisible, hc] at hv
  · obtain ⟨hnil | hnil, -⟩ := mem_eos.mp hn
    · exact hnil
    · have hv := hs '\n' (by simp [hnil])
      cases hv

theorem takesRest_anyOf {p : Char → Prop} {rs : List Regex} (h : ∀ r ∈ rs, TakesRest p r) :
    TakesRest p (anyOf rs) := by
  induction rs with
  | nil =>
    intro s _ m hm
    rw [match?, matchesAt_anyOf] at hm
    cases hm
  | cons r rs ih =>
    cases rs with
    | nil => exact h r (List.mem_cons_self ..)
    | cons t rs =>
      exact takesRest_alt (h r (List.mem_cons_self ..))
        (ih fun r' hr' => h r' (List.mem_cons_of_mem _ hr'))

/-- Behind any scheme but the first, a match takes the rest of the text. -/
theorem takesRest_bodies (hne : b ≠ "vmess://".toList) :
    TakesRest (fun c => isVisible c = true) (anyOf (bodies run b)) := by
  have hall : ∀ a ∈ alternatives run, a.1 ≠ "vmess://".toList →
      TakesRest (fun c => isVisible c = true) a.2 := by
    intro a ha hne
    simp only [alternatives, List.mem_cons, List.not_mem_nil, or_false] at ha
    rcases ha with rfl | rfl | rfl | rfl | rfl | rfl | rfl | rfl | rfl
    · exact absurd rfl hne
    · exact takesRest_seq takesRest_remark
    · exact takesRest_seq takesRest_lineEnd
    · exact takesRest_seq takesRest_remark
    · exact takesRest_seq takesRest_lineEnd
    · exact takesRest_seq (takesRest_seq (takesRest_seq takesRest_remark))
    · exact takesRest_seq (takesRest_seq (takesRest_seq takesRest_lineEnd))
    · exact takesRest_seq takesRest_remark
    · exact takesRest_seq takesRest_lineEnd
  refine takesRest_anyOf fun r hr => ?_
  obtain ⟨a, ha, hr⟩ := List.mem_filterMap.mp hr
  split at hr
  next hab =>
    cases hr
    exact hall a ha (hab ▸ hne)
  next => cases hr

theorem isVisible_of_noSpace (h : NoSpace s) : ∀ c ∈ s, isVisible c = true := by
  intro c hc
  simp [isVisible, h c hc]

/-- Where the pattern's first match ends: with the text, or behind the payload of a vmess
link without a remark. -/
theorem rest_of_match? {q : Char → Bool} (hs : Literals scheme) (hb : b ∈ schemes)
    (hu : NoSpace u) (h : (linkPattern scheme (rep true 1 q)).match? (b ++ u) = some m) :
    m.rest = [] ∨ (b = "vmess://".toList ∧ m.text = b ++ u.takeWhile q ∧
      m.rest = u.dropWhile q ∧ m.rest.head? ≠ some '#') := by
  rw [match?_linkPattern hs hb, Option.map_eq_some_iff] at h
  obtain ⟨n, hn, rfl⟩ := h
  by_cases hv : b = "vmess://".toList
  · subst hv
    change (seq (rep true 1 q) (opt remark)).match? u = some n at hn
    -- The payload takes all it can, and then a remark is read if there is one.
    have hrun := match?_rep (p := q) (k := 1) (s := u)
    split at hrun
    next hlen =>
      cases hr : remark.match? (u.dropWhile q) with
      | some k =>
        have hseq := match?_seq (t := opt remark) hrun (by rw [match?_opt, hr, Option.some_or])
        rw [hseq] at hn
        cases hn
        refine .inl (takesRest_remark _ (fun c hc => ?_) k hr)
        exact isVisible_of_noSpace hu c ((List.dropWhile_suffix q).mem hc)
      | none =>
        have hseq := match?_seq (t := opt remark) hrun (by rw [match?_opt, hr, Option.none_or])
        rw [hseq] at hn
        cases hn
        -- Where the remark fails, the rest does not start with its mark.
        refine .inr ⟨rfl, by simp, by simp, fun hhash => ?_⟩
        obtain ⟨v, hv⟩ := List.head?_eq_some_iff.mp hhash
        have hrest : u.dropWhile q = '#' :: v := hv
        rw [hrest] at hr
        exact match?_eq_none.mp hr _ (mem_remark v)
    next hlen =>
      obtain ⟨a, ha, -⟩ := mem_seq.mp (List.mem_of_mem_head? hn)
      exact absurd ha (match?_eq_none.mp hrun a)
  · -- Every other scheme ends in a part that takes all that is left.
    exact .inl (takesRest_bodies hv u (isVisible_of_noSpace hu) n hn)

/-! ## Texts found as a whole -/

/-- A match starts with a scheme. -/
theorem exists_scheme_of_match? (h : configPattern.match? s = some m) :
    ∃ b ∈ schemes, ∃ u, s = b ++ u := by
  obtain ⟨n, hn, -⟩ := mem_group.mp (List.mem_of_mem_head? h)
  obtain ⟨r, hr, hn⟩ := mem_anyOf.mp hn
  rw [configAlternatives_eq, List.mem_map] at hr
  obtain ⟨a, ha, rfl⟩ := hr
  obtain ⟨k, hk, -⟩ := mem_seq.mp hn
  obtain ⟨u, hu, -⟩ := mem_lit.mp hk
  exact ⟨a.1, mem_schemes a ha, u, hu⟩

/-- Behind a match that does not reach the end of a text, no match starts. -/
theorem match?_rest (hs : NoSpace s) (h : configPattern.match? s = some m) :
    m.rest = [] ∨ ∃ d v, m.rest = d :: v ∧ configPattern.match? (d :: v) = none := by
  obtain ⟨b, hb, u, rfl⟩ := exists_scheme_of_match? h
  rcases rest_of_match? literals_lit hb (noSpace_append.mp hs).2 h with hrest | ⟨-, -, hrest, -⟩
  · exact .inl hrest
  cases hd : m.rest with
  | nil => exact .inl rfl
  | cons d v =>
    refine .inr ⟨d, v, rfl, ?_⟩
    -- The payload has stopped at this character, so no scheme can start with it.
    have hclass : isPayload d = false := by
      have hhead := List.head_dropWhile_not (p := isPayload) (l := u) (by simp [← hrest, hd])
      simpa [← hrest, hd] using hhead
    rw [Option.eq_none_iff_forall_ne_some]
    intro n hn
    obtain ⟨b', hb', w, hw⟩ := exists_scheme_of_match? hn
    have hletters : ∀ b ∈ schemes, ∃ e t, b = e :: t ∧ isPayload e = true := by
      simp only [schemes, List.forall_mem_cons, List.not_mem_nil, false_imp_iff, implies_true,
        and_true]
      exact ⟨⟨_, _, rfl, rfl⟩, ⟨_, _, rfl, rfl⟩, ⟨_, _, rfl, rfl⟩, ⟨_, _, rfl, rfl⟩⟩
    obtain ⟨e, t, rfl, he⟩ := hletters b' hb'
    obtain ⟨rfl, -⟩ := List.cons.inj hw
    rw [hclass] at he
    cases he

/-- **A text without whitespace is found as a whole, or part of it is lost.** -/
theorem findall_eq_or_lt (hs : NoSpace s) (hne : s ≠ []) :
    findall configPattern s = [s] ∨ ((findall configPattern s).map List.length).sum < s.length := by
  obtain ⟨c, v, rfl⟩ := List.exists_cons_of_ne_nil hne
  cases hm : configPattern.match? (c :: v) with
  | none =>
    have hlen := length_findall configPattern v
    rw [findall_cons_of_noMatch hm]
    exact .inr (by rw [List.length_cons]; omega)
  | some m =>
    rcases match?_rest hs hm with hrest | ⟨d, w, hrest, hnone⟩
    · exact .inl (findall_of_rest_nil hm hrest hne)
    · have htext : m.text ≠ [] := by
        intro h
        have hall := match?_append hm
        rw [h, List.nil_append, hrest] at hall
        rw [← hall, hnone] at hm
        cases hm
      have hlen := length_findall configPattern w
      have hsum := congrArg List.length (match?_append hm)
      rw [List.length_append, hrest, List.length_cons] at hsum
      rw [findall_of_match hm htext, hrest, findall_cons_of_noMatch hnone, List.map_cons,
        List.sum_cons]
      exact .inr (by omega)

/-! ## Links -/

/-- A payload, up to a remark or an address. -/
def Bounded (t : Str) : Prop :=
  ∃ p f, t = p ++ f ∧ (∀ d ∈ p, isPayload d = true) ∧ ∀ d, f.head? = some d → d = '#' ∨ d = '@'

/-- What a payload is followed by, in a text matched in full. -/
theorem bounded_of_fullMatch {r : Regex} {t : Str} (h : FullMatch (seq payload r) t)
    (hr : ∀ f m, m ∈ r.matchesAt f → m.rest = [] → ∀ d, f.head? = some d → d = '#' ∨ d = '@') :
    Bounded t := by
  obtain ⟨m, hm, hrest⟩ := h
  obtain ⟨a, ha, n, hn, rfl⟩ := mem_seq.mp hm
  obtain ⟨p, f, rfl, -, hp, rfl⟩ := mem_rep.mp ha
  exact ⟨p, f, rfl, hp, hr f n hn hrest⟩

theorem head?_of_lit {c : Char} {r : Regex} {f : Str} (h : m ∈ (seq (lit [c]) r).matchesAt f)
    {d : Char} (hd : f.head? = some d) : d = c := by
  obtain ⟨a, ha, -⟩ := mem_seq.mp h
  obtain ⟨v, rfl, -⟩ := mem_lit.mp ha
  exact (Option.some.inj hd).symm

/-- A link is a scheme and, where the pattern reads a payload, a payload that ends at a
remark or an address. -/
theorem exists_bounded {c : Str} (h : FullMatch configPattern c) :
    ∃ b ∈ schemes, ∃ t, c = b ++ t ∧
      (b = "vless://".toList ∨ b = "trojan://".toList ∨ Bounded t) := by
  obtain ⟨a, ha, t, rfl, hm⟩ := exists_alternative h
  refine ⟨a.1, mem_schemes a ha, t, rfl, ?_⟩
  -- Where the pattern asks for the end of the line, nothing is left.
  have hend : ∀ f m, m ∈ lineEnd.matchesAt f → m.rest = [] →
      ∀ d, f.head? = some d → d = '#' ∨ d = '@' := by
    intro f m hm hrest d hd
    obtain ⟨-, rfl⟩ := mem_ahead.mp hm
    simp only at hrest
    simp [hrest] at hd
  simp only [alternatives, List.mem_cons, List.not_mem_nil, or_false] at ha
  rcases ha with rfl | rfl | rfl | rfl | rfl | rfl | rfl | rfl | rfl
  · refine .inr (.inr (bounded_of_fullMatch hm fun f m hm hrest d hd => ?_))
    rcases mem_opt.mp hm with hm | rfl
    · exact .inl (head?_of_lit hm hd)
    · simp only at hrest
      simp [hrest] at hd
  · exact .inl rfl
  · exact .inl rfl
  · exact .inr (.inl rfl)
  · exact .inr (.inl rfl)
  · exact .inr (.inr (bounded_of_fullMatch hm fun f m hm _ d hd => .inr (head?_of_lit hm hd)))
  · exact .inr (.inr (bounded_of_fullMatch hm fun f m hm _ d hd => .inr (head?_of_lit hm hd)))
  · exact .inr (.inr (bounded_of_fullMatch hm fun f m hm _ d hd => .inl (head?_of_lit hm hd)))
  · exact .inr (.inr (bounded_of_fullMatch hm hend))

/-- The payload characters of `CONFIG_REGEX`. -/
def isPayloadFold : Char → Bool := foldClass isPayload

theorem isPayloadFold_of_isPayload {d : Char} (h : isPayload d = true) :
    isPayloadFold d = true := by
  simp [isPayloadFold, foldClass, h]

/-- Ignoring case, a payload ends no later. -/
theorem isPayload_of_mem_takeWhile {t : Str} (h : Bounded t) :
    ∀ d ∈ t.takeWhile isPayloadFold, isPayload d = true := by
  obtain ⟨p, f, rfl, hp, hf⟩ := h
  have hstop : f.takeWhile isPayloadFold = [] := by
    cases f with
    | nil => rfl
    | cons d f =>
      rw [List.takeWhile_cons_of_neg]
      rcases hf d rfl with rfl | rfl <;> decide
  rw [List.takeWhile_append_of_pos fun d hd => isPayloadFold_of_isPayload (hp d hd), hstop,
    List.append_nil]
  exact hp

/-- The two patterns match alike behind a scheme, if no payload is read there or the run of
payload characters is the same. -/
theorem configRegex_matchesAt (hb : b ∈ schemes)
    (hu : b = "vless://".toList ∨ b = "trojan://".toList ∨
      ∀ d ∈ u.takeWhile isPayloadFold, isPayload d = true) :
    configRegex.matchesAt (b ++ u) = configPattern.matchesAt (b ++ u) := by
  rw [configRegex_eq, configPattern_eq, matchesAt_linkPattern literals_ignoreCase hb,
    matchesAt_linkPattern literals_lit hb]
  congr 1
  rcases hu with rfl | rfl | hu
  · rfl
  · rfl
  · -- Both runs stop at the same character, so what follows sees the same texts.
    have hruns : runs isPayloadFold u = runs isPayload u :=
      (runs_congr (takeWhile_eq_of_subset (fun _ => isPayloadFold_of_isPayload) hu)).symm
    have hseq : ∀ r, (seq payload.ignoreCase r).matchesAt u = (seq payload r).matchesAt u := by
      intro r
      change ((rep true 1 isPayloadFold).matchesAt u).flatMap _ = _
      rw [matchesAt, hruns]
      rfl
    simp only [schemes, List.mem_cons, List.not_mem_nil, or_false] at hb
    rcases hb with rfl | rfl | rfl | rfl
    · exact hseq _
    · rfl
    · rfl
    · rw [matchesAt_anyOf, matchesAt_anyOf]
      change List.flatMap _ [seq payload.ignoreCase _, seq payload.ignoreCase _,
        seq payload.ignoreCase _, seq payload.ignoreCase _] = _
      simp only [List.flatMap_cons, List.flatMap_nil, hseq]
      rfl

variable {c : Str}

theorem ne_nil_of_fullMatch (h : FullMatch configPattern c) : c ≠ [] := by
  obtain ⟨b, hb, t, rfl⟩ := exists_scheme h
  have hne : ∀ b ∈ schemes, b ≠ [] := by decide
  exact fun h => hne b hb (List.append_eq_nil_iff.mp h).1

/-- A link is matched as a whole by the first match. -/
theorem match?_of_fullMatch (h : FullMatch configPattern c) :
    ∃ m, configPattern.match? c = some m ∧ m.rest = [] := by
  have hspace := noSpace_of_fullMatch h
  obtain ⟨m, hm⟩ : ∃ m, configPattern.match? c = some m := by
    obtain ⟨m, hm, -⟩ := h
    rw [← Option.isSome_iff_exists, match?, List.isSome_head?]
    simpa using List.ne_nil_of_mem hm
  refine ⟨m, hm, ?_⟩
  obtain ⟨b, hb, t, rfl⟩ := exists_scheme h
  rcases rest_of_match? literals_lit hb (noSpace_append.mp hspace).2 hm with
    hrest | ⟨rfl, -, hrest, hhash⟩
  · exact hrest
  obtain ⟨p, f, ht, hp, hf⟩ := exists_payload h rfl
  obtain rfl := List.append_cancel_left ht
  rw [List.dropWhile_append_of_pos hp] at hrest
  rcases hf with rfl | ⟨r, rfl⟩
  · exact hrest
  · rw [List.dropWhile_cons_of_neg (by decide)] at hrest
    exact absurd (by rw [hrest]; rfl) hhash

/-- A link is all that either pattern finds in it. -/
theorem findall_of_fullMatch (h : FullMatch configPattern c) :
    findall configPattern c = [c] ∧ findall configRegex c = [c] := by
  obtain ⟨m, hm, hrest⟩ := match?_of_fullMatch h
  have hne := ne_nil_of_fullMatch h
  refine ⟨findall_of_rest_nil hm hrest hne, findall_of_rest_nil (m := m) ?_ hrest hne⟩
  obtain ⟨b, hb, t, rfl, ht⟩ := exists_bounded h
  rw [match?, configRegex_matchesAt hb (ht.imp_right fun h => h.imp_right
    isPayload_of_mem_takeWhile)]
  exact hm

/-- Where `CONFIG_REGEX` finds nothing, `CONFIG_PATTERN` finds nothing. -/
theorem match?_eq_none_of_configRegex (h : configRegex.match? s = none) :
    configPattern.match? s = none :=
  match?_eq_none.mpr fun m hm => match?_eq_none.mp h m (mem_ignoreCase hm)

/-- What `CONFIG_REGEX` matches is what `CONFIG_PATTERN` matches, if its hash is taken of
the same text as a link's. -/
theorem match?_of_configRegex (hs : NoSpace s) (hm : configRegex.match? s = some m)
    (hc : FullMatch configPattern c) (hn : normalized m.text = normalized c) :
    configPattern.match? s = some m := by
  have hnormal : ∀ {e : Str}, NoSpace e → normalized e = before '#' e := fun he =>
    strip_of_noSpace fun d hd => he d ((before_isPrefix '#' _).mem hd)
  have hs' := match?_append hm
  have htext : NoSpace m.text := fun d hd => hs d (hs' ▸ List.mem_append_left _ hd)
  rw [hnormal htext, hnormal (noSpace_of_fullMatch hc)] at hn
  obtain ⟨b, hb, t, rfl, ht⟩ := exists_bounded hc
  have hhash : ∀ b ∈ schemes, '#' ∉ b := by decide
  rw [before_append (hhash b hb)] at hn
  obtain ⟨t', ht'⟩ : b <+: m.text :=
    (List.prefix_append b (before '#' t)).trans (hn ▸ before_isPrefix '#' m.text)
  rw [← ht', before_append (hhash b hb)] at hn
  have hbefore : before '#' t' = before '#' t := List.append_cancel_left hn
  rw [← ht', List.append_assoc] at hs'
  subst hs'
  -- the run of payload characters is within the match, and it ends before a remark
  have hrun : (t' ++ m.rest).takeWhile isPayloadFold <+: t' := by
    rw [configRegex_eq] at hm
    rcases rest_of_match? literals_ignoreCase hb (noSpace_append.mp hs).2 hm with
      hrest | ⟨-, hmt, -⟩
    · rw [hrest, List.append_nil]
      exact List.takeWhile_prefix _
    · rw [← ht'] at hmt
      exact ⟨[], by rw [List.append_nil]; exact (List.append_cancel_left hmt).symm⟩
  have hsub : ∀ d ∈ (t' ++ m.rest).takeWhile isPayloadFold, d ∈ t.takeWhile isPayloadFold := by
    have hno : '#' ∉ (t' ++ m.rest).takeWhile isPayloadFold := by
      intro h
      have hfold := List.mem_takeWhile_imp h
      exact absurd hfold (by decide)
    have hprefix := prefix_before hno hrun
    rw [hbefore] at hprefix
    obtain ⟨y, hy⟩ := hprefix.trans (before_isPrefix '#' t)
    intro d hd
    rw [← hy, List.takeWhile_append_of_pos fun e he => List.mem_takeWhile_imp he]
    exact List.mem_append_left _ hd
  rw [match?, ← configRegex_matchesAt hb (ht.imp_right fun h => h.imp_right
    fun h d hd => isPayload_of_mem_takeWhile h d (hsub d hd))]
  exact hm

end ConfigManager
