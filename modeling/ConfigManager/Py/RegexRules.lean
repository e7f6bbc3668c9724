import ConfigManager.Py.Regex

/-! # What a pattern matches

`Regex.matchesAt` lists matches in the order they are tried; the rules `mem_…` say
which matches are in the list, constructor by constructor, and together they are
the relation between a text, the characters matched and what follows.

Where a pattern has only one way to match, order does not matter and `match?` is
that relation (`match?_of_unique`).  The rules for `sub` cut a text into a part in
which no match starts and a match.
-/
namespace Py.Regex

variable {r t : Regex} {s u : Str} {m n : Match}

/-! ## Each constructor -/

theorem mem_drop_runs {p : Char → Bool} {k : Nat} {a b : Str} :
    (a, b) ∈ (runs p s).drop k ↔ s = a ++ b ∧ k ≤ a.length ∧ ∀ c ∈ a, p c = true := by
  induction s generalizing k a with
  | nil =>
    cases k with
    | zero =>
      simp only [runs, List.drop_zero, List.mem_singleton, Prod.mk.injEq, Nat.zero_le, true_and]
      exact ⟨by rintro ⟨rfl, rfl⟩; simp, fun h => by simpa [eq_comm] using h.1⟩
    | succ k =>
      simp only [runs, List.drop_succ_cons, List.drop_nil, List.not_mem_nil, false_iff]
      rintro ⟨h, hk, -⟩
      simp_all
  | cons c s ih =>
    -- The runs longer than the empty one are those of the tail, one character longer.
    have htail : ∀ k,
        (a, b) ∈ (if p c then (runs p s).map fun m => (c :: m.1, m.2) else []).drop k ↔
        ∃ a', a = c :: a' ∧ p c = true ∧ (a', b) ∈ (runs p s).drop k := by
      intro k
      split
      next hc =>
        rw [← List.map_drop, List.mem_map]
        constructor
        · rintro ⟨⟨a', b'⟩, h, he⟩
          cases he
          exact ⟨a', rfl, hc, h⟩
        · rintro ⟨a', rfl, -, h⟩
          exact ⟨_, h, rfl⟩
      next hc => simp [hc]
    cases k with
    | zero =>
      have h0 := htail 0
      simp only [List.drop_zero] at h0
      simp only [runs, List.drop_zero, List.mem_cons, h0, Nat.zero_le, true_and, Prod.mk.injEq]
      constructor
      · rintro (⟨rfl, rfl⟩ | ⟨a', rfl, hc, h⟩)
        · simp
        · have hs := runs_append h
          exact ⟨by simp [hs.1], by simpa [hc] using hs.2⟩
      · rintro ⟨h, hp⟩
        cases a with
        | nil => exact .inl ⟨rfl, h.symm⟩
        | cons d a =>
          obtain ⟨rfl, hs⟩ := List.cons.inj h
          refine .inr ⟨a, rfl, hp _ (List.mem_cons_self ..), ?_⟩
          exact (ih (k := 0)).mpr
            ⟨hs, Nat.zero_le _, fun e he => hp e (List.mem_cons_of_mem _ he)⟩
    | succ k =>
      simp only [runs, List.drop_succ_cons, htail, ih]
      constructor
      · rintro ⟨a', rfl, hc, rfl, hk, hp⟩
        exact ⟨rfl, by simpa using hk, by simpa [hc] using hp⟩
      · rintro ⟨h, hk, hp⟩
        cases a with
        | nil => simp at hk
        | cons d a =>
          obtain ⟨rfl, hs⟩ := List.cons.inj h
          exact ⟨a, rfl, hp _ (List.mem_cons_self ..), hs, by simpa using hk,
            fun e he => hp e (List.mem_cons_of_mem _ he)⟩

theorem mem_cls {p : Char → Bool} :
    m ∈ (cls p).matchesAt s ↔ ∃ c u, s = c :: u ∧ p c = true ∧ m = ⟨[c], none, u⟩ := by
  cases s with
  | nil => simp [matchesAt]
  | cons c u =>
    by_cases hc : p c = true
    · simp [matchesAt, hc]
    · simp [matchesAt, hc]

theorem mem_rep {g : Bool} {k : Nat} {p : Char → Bool} :
    m ∈ (rep g k p).matchesAt s ↔
      ∃ a b, s = a ++ b ∧ k ≤ a.length ∧ (∀ c ∈ a, p c = true) ∧ m = ⟨a, none, b⟩ := by
  have hmem : m ∈ (rep g k p).matchesAt s ↔
      m ∈ ((runs p s).drop k).map fun m => (⟨m.1, none, m.2⟩ : Match) := by
    cases g <;> simp [matchesAt]
  rw [hmem, List.mem_map]
  constructor
  · rintro ⟨⟨a, b⟩, h, rfl⟩
    obtain ⟨hs, hk, hp⟩ := mem_drop_runs.mp h
    exact ⟨a, b, hs, hk, hp, rfl⟩
  · rintro ⟨a, b, hs, hk, hp, rfl⟩
    exact ⟨(a, b), mem_drop_runs.mpr ⟨hs, hk, hp⟩, rfl⟩

theorem mem_opt : m ∈ (opt r).matchesAt s ↔ m ∈ r.matchesAt s ∨ m = ⟨[], none, s⟩ := by
  simp [matchesAt]

theorem mem_seq :
    m ∈ (seq r t).matchesAt s ↔
      ∃ a ∈ r.matchesAt s, ∃ b ∈ t.matchesAt a.rest, a.andThen b = m := by
  simp [matchesAt]

theorem mem_alt : m ∈ (alt r t).matchesAt s ↔ m ∈ r.matchesAt s ∨ m ∈ t.matchesAt s := by
  simp [matchesAt]

theorem mem_ahead :
    m ∈ (ahead r).matchesAt s ↔ (∃ n, n ∈ r.matchesAt s) ∧ m = ⟨[], none, s⟩ := by
  simp only [matchesAt]
  split
  next h => simp [List.isEmpty_iff.mp h]
  next h =>
    have : ∃ n, n ∈ r.matchesAt s := List.exists_mem_of_ne_nil _ fun he => h (by simp [he])
    simp [this]

theorem mem_eos : m ∈ eos.matchesAt s ↔ (s = [] ∨ s = ['\n']) ∧ m = ⟨[], none, s⟩ := by
  simp only [matchesAt]
  split
  next h => simp [h]
  next h => simp [h]

theorem mem_group :
    m ∈ (group r).matchesAt s ↔ ∃ n ∈ r.matchesAt s, { n with group := some n.text } = m := by
  simp [matchesAt]

theorem mem_lit {l : Str} : m ∈ (lit l).matchesAt s ↔ ∃ u, s = l ++ u ∧ m = ⟨l, none, u⟩ := by
  induction l generalizing s m with
  -- The empty literal is a run of characters that no class has.
  | nil =>
    rw [lit, mem_rep]
    constructor
    · rintro ⟨a, b, rfl, -, ha, rfl⟩
      cases a with
      | nil => exact ⟨b, rfl, rfl⟩
      | cons c a' => exact absurd (ha c (List.mem_cons_self ..)) (by simp)
    · rintro ⟨u, rfl, rfl⟩
      exact ⟨[], _, rfl, by simp, by simp, rfl⟩
  | cons c l ih =>
    cases l with
    | nil =>
      rw [lit, mem_cls]
      constructor
      · rintro ⟨d, u, rfl, hd, rfl⟩
        obtain rfl := beq_iff_eq.mp hd
        exact ⟨u, rfl, rfl⟩
      · rintro ⟨u, rfl, rfl⟩
        exact ⟨c, u, rfl, by simp, rfl⟩
    | cons d l =>
      -- A literal of two characters or more reads the first and then the rest.
      have hl : lit (c :: d :: l) = seq (cls (· == c)) (lit (d :: l)) := rfl
      rw [hl, mem_seq]
      constructor
      · rintro ⟨a, ha, b, hb, rfl⟩
        obtain ⟨e, u, rfl, he, rfl⟩ := mem_cls.mp ha
        obtain ⟨v, rfl, rfl⟩ := ih.mp hb
        obtain rfl := beq_iff_eq.mp he
        exact ⟨v, rfl, rfl⟩
      · rintro ⟨u, rfl, rfl⟩
        exact ⟨⟨[c], none, d :: l ++ u⟩, mem_cls.mpr ⟨c, _, rfl, by simp, rfl⟩,
          ⟨d :: l, none, u⟩, ih.mpr ⟨u, rfl, rfl⟩, rfl⟩

/-! ## The characters a pattern can match -/

/-- Every class of a pattern is within a set of characters. -/
def Over (p : Char → Prop) : Regex → Prop
  | cls q => ∀ c, q c = true → p c
  | rep _ _ q => ∀ c, q c = true → p c
  | opt r => Over p r
  | seq r t => Over p r ∧ Over p t
  | alt r t => Over p r ∧ Over p t
  | ahead _ => True
  | eos => True
  | group r => Over p r

theorem over_lit {p : Char → Prop} {l : Str} (h : ∀ c ∈ l, p c) : (lit l).Over p := by
  induction l with
  | nil => simp [lit, Over]
  | cons c l ih =>
    have hc : ∀ d, (d == c) = true → p d := by
      intro d hd
      obtain rfl := beq_iff_eq.mp hd
      exact h d (List.mem_cons_self ..)
    cases l with
    | nil => exact hc
    | cons d l => exact ⟨hc, ih fun e he => h e (List.mem_cons_of_mem _ he)⟩

/-- What is matched has only characters of the pattern's classes. -/
theorem text_over {p : Char → Prop} (h : r.Over p) (hm : m ∈ r.matchesAt s) :
    ∀ c ∈ m.text, p c := by
  induction r generalizing s m with
  | cls q =>
    obtain ⟨c, u, -, hc, rfl⟩ := mem_cls.mp hm
    simpa using h c hc
  | rep g k q =>
    obtain ⟨a, b, -, -, ha, rfl⟩ := mem_rep.mp hm
    exact fun c hc => h c (ha c hc)
  | opt r ih =>
    rcases mem_opt.mp hm with hm | rfl
    · exact ih h hm
    · simp
  | seq r t ihr iht =>
    obtain ⟨a, ha, b, hb, rfl⟩ := mem_seq.mp hm
    intro c hc
    rcases List.mem_append.mp hc with hc | hc
    · exact ihr h.1 ha c hc
    · exact iht h.2 hb c hc
  | alt r t ihr iht =>
    rcases mem_alt.mp hm with hm | hm
    · exact ihr h.1 hm
    · exact iht h.2 hm
  -- What is looked at ahead is not part of the text.
  | ahead r _ =>
    obtain ⟨-, rfl⟩ := mem_ahead.mp hm
    simp
  | eos =>
    obtain ⟨-, rfl⟩ := mem_eos.mp hm
    simp
  | group r ih =>
    obtain ⟨n, hn, rfl⟩ := mem_group.mp hm
    have htext := ih h hn
    exact htext

/-! ## Patterns with one way to match -/

/-- If a pattern has at most one way to match, `match?` finds it. -/
theorem match?_of_unique (h : ∀ m ∈ r.matchesAt s, ∀ n ∈ r.matchesAt s, m = n) :
    r.match? s = some m ↔ m ∈ r.matchesAt s := by
  refine ⟨List.mem_of_mem_head?, fun hm => ?_⟩
  cases hs : r.matchesAt s with
  | nil => simp [hs] at hm
  | cons a as =>
    have ha : a ∈ r.matchesAt s := by simp [hs]
    simp [match?, hs, h a ha m hm]

theorem match?_eq_none : r.match? s = none ↔ ∀ m, m ∉ r.matchesAt s := by
  rw [match?, List.head?_eq_none_iff, List.eq_nil_iff_forall_not_mem]

/-- A run of characters that ends where the class does is cut off in one way. -/
theorem append_inj_of_class {p : Char → Bool} {a b u v : Str} (ha : ∀ c ∈ a, p c = true)
    (hb : ∀ c ∈ b, p c = true) {d e : Char} (hd : p d = false) (he : p e = false)
    (h : a ++ d :: u = b ++ e :: v) : a = b ∧ d = e ∧ u = v := by
  induction a generalizing b with
  | nil =>
    cases b with
    | nil => simpa using h
    | cons x b =>
      obtain ⟨rfl, -⟩ := List.cons.inj h
      simp [hb d (List.mem_cons_self ..)] at hd
  | cons x a ih =>
    cases b with
    | nil =>
      obtain ⟨rfl, -⟩ := List.cons.inj h
      simp [ha x (List.mem_cons_self ..)] at he
    | cons y b =>
      obtain ⟨rfl, h'⟩ := List.cons.inj h
      obtain ⟨rfl, hde, huv⟩ := ih (fun c hc => ha c (List.mem_cons_of_mem _ hc))
        (fun c hc => hb c (List.mem_cons_of_mem _ hc)) h'
      exact ⟨rfl, hde, huv⟩

/-- A text is cut in one way at its first `c`. -/
theorem append_inj_of_notMem {c : Char} {a b u v : Str} (ha : c ∉ a) (hb : c ∉ b)
    (h : a ++ c :: u = b ++ c :: v) : a = b ∧ u = v :=
  (append_inj_of_class (p := (· != c)) (fun d hd => by simpa using fun he : d = c => ha (he ▸ hd))
    (fun d hd => by simpa using fun he : d = c => hb (he ▸ hd)) (by simp) (by simp) h).imp_right
    And.right

/-- A run that stops before a character. -/
theorem mem_until {c : Char} :
    m ∈ (rep true 1 (· != c)).matchesAt s ↔
      ∃ a b, s = a ++ b ∧ a ≠ [] ∧ c ∉ a ∧ m = ⟨a, none, b⟩ := by
  simp only [mem_rep, Nat.one_le_iff_ne_zero, ne_eq, List.length_eq_zero_iff, bne_iff_ne,
    List.forall_mem_ne']

/-- The matches of a pattern for what stands between a character and the next `c`;
`g` is the group it captures. -/
theorem mem_delimited {o c : Char} {inner : Regex} {g : Str → Option Str}
    (hinner : ∀ {s m}, m ∈ inner.matchesAt s ↔
      ∃ a b, s = a ++ b ∧ a ≠ [] ∧ c ∉ a ∧ m = ⟨a, g a, b⟩) :
    m ∈ (seq (lit [o]) (seq inner (lit [c]))).matchesAt s ↔
      ∃ a y, s = o :: (a ++ c :: y) ∧ a ≠ [] ∧ c ∉ a ∧ m = ⟨o :: (a ++ [c]), g a, y⟩ := by
  rw [mem_seq]
  constructor
  · rintro ⟨n, hn, k, hk, rfl⟩
    obtain ⟨u, rfl, rfl⟩ := mem_lit.mp hn
    obtain ⟨k₁, hk₁, k₂, hk₂, rfl⟩ := mem_seq.mp hk
    obtain ⟨a, b, hab, hne, hc, rfl⟩ := hinner.mp hk₁
    obtain ⟨y, hy, rfl⟩ := mem_lit.mp hk₂
    exact ⟨a, y, by simp_all, hne, hc, by simp [Match.andThen]⟩
  · rintro ⟨a, y, rfl, hne, hc, rfl⟩
    have ha := hinner.mpr ⟨a, c :: y, rfl, hne, hc, rfl⟩
    refine ⟨⟨[o], none, a ++ c :: y⟩, mem_lit.mpr ⟨_, rfl, rfl⟩, ⟨a ++ [c], g a, y⟩, ?_, ?_⟩
    · exact mem_seq.mpr ⟨_, ha, ⟨[c], none, y⟩, mem_lit.mpr ⟨y, rfl, rfl⟩, by simp [Match.andThen]⟩
    · simp [Match.andThen]

/-- Such a pattern matches in one way, to the next `c`. -/
theorem match?_delimited {o c : Char} {inner : Regex} {g : Str → Option Str}
    (hinner : ∀ {s m}, m ∈ inner.matchesAt s ↔
      ∃ a b, s = a ++ b ∧ a ≠ [] ∧ c ∉ a ∧ m = ⟨a, g a, b⟩) :
    (seq (lit [o]) (seq inner (lit [c]))).match? s = some m ↔
      ∃ a y, s = o :: (a ++ c :: y) ∧ a ≠ [] ∧ c ∉ a ∧ m = ⟨o :: (a ++ [c]), g a, y⟩ := by
  rw [match?_of_unique, mem_delimited hinner]
  intro m hm n hn
  obtain ⟨a, y, rfl, -, ha, rfl⟩ := (mem_delimited hinner).mp hm
  obtain ⟨b, z, hs, -, hb, rfl⟩ := (mem_delimited hinner).mp hn
  obtain ⟨rfl, rfl⟩ := append_inj_of_notMem ha hb (List.cons.inj hs).2
  rfl

/-! ## `search` and `sub` -/

theorem search_append (h : ∀ c v, c :: v <:+ u → r.match? (c :: v ++ s) = none) :
    r.search (u ++ s) = r.search s := by
  induction u with
  | nil => rfl
  | cons c u ih =>
    rw [List.cons_append, search, ← List.cons_append, h c u List.suffix_rfl, Option.none_or]
    exact ih fun d v hv => h d v (hv.trans (List.suffix_cons ..))

/-- **What `search` finds** is the match at the first place that has one. -/
theorem search_eq_some_iff :
    r.search s = some m ↔
      ∃ u v, s = u ++ v ∧ r.match? v = some m ∧
        ∀ u' v', s = u' ++ v' → u'.length < u.length → r.match? v' = none := by
  induction s with
  | nil =>
    constructor
    · exact fun h => ⟨[], [], rfl, h, by simp⟩
    · rintro ⟨u, v, hs, hm, -⟩
      obtain ⟨rfl, rfl⟩ := List.append_eq_nil_iff.mp hs.symm
      exact hm
  | cons c s ih =>
    rw [search, Option.or_eq_some_iff, ih]
    constructor
    · rintro (hm | ⟨hnone, u, v, rfl, hm, hfirst⟩)
      · exact ⟨[], c :: s, rfl, hm, by simp⟩
      · refine ⟨c :: u, v, rfl, hm, ?_⟩
        rintro (_ | ⟨d, u'⟩) v' hs hlt
        · rw [List.nil_append] at hs
          rw [← hs, hnone]
        · exact hfirst u' v' (List.cons.inj hs).2 (Nat.lt_of_succ_lt_succ hlt)
    · rintro ⟨_ | ⟨d, u⟩, v, hs, hm, hfirst⟩
      · rw [List.nil_append] at hs
        exact .inl (hs ▸ hm)
      · obtain ⟨rfl, rfl⟩ := List.cons.inj hs
        -- A match inside the tail: nothing matches at the head, which comes before it.
        refine .inr ⟨hfirst [] _ rfl (Nat.succ_pos _), u, v, rfl, hm, fun u' v' hs' hlt => ?_⟩
        exact hfirst (c :: u') v' (by rw [hs']; rfl) (Nat.succ_lt_succ hlt)

theorem exists_of_search (h : r.search s = some m) : ∃ u v, s = u ++ v ∧ r.match? v = some m := by
  obtain ⟨u, v, hs, hm, -⟩ := search_eq_some_iff.mp h
  exact ⟨u, v, hs, hm⟩

/-- Where something is found in the end of a text, something is found in all of it. -/
theorem search_isSome_append (h : (r.search s).isSome) (u : Str) : (r.search (u ++ s)).isSome := by
  induction u with
  | nil => exact h
  | cons c u ih =>
    rw [List.cons_append, search, Option.isSome_or, ih, Bool.or_true]

theorem search_of_match (h : r.match? s = some m) : r.search s = some m := by
  cases s with
  | nil => exact h
  | cons c s => rw [search, h, Option.some_or]

/-- A search goes through a text and then through the one after it, if what follows the
first does not change how the pattern matches in it. -/
theorem search_append_group (hnil : r.match? [] = none)
    (h : ∀ c v, c :: v <:+ u →
      (r.match? (c :: v ++ s)).map Match.group = (r.match? (c :: v)).map Match.group) :
    (r.search (u ++ s)).map Match.group =
      ((r.search u).map Match.group).or ((r.search s).map Match.group) := by
  induction u with
  | nil => simp [search, hnil]
  | cons c u ih =>
    have hc := h c u List.suffix_rfl
    rw [List.cons_append] at hc ⊢
    rw [search, search, Option.map_or, Option.map_or, hc,
      ih fun d v hv => h d v (hv.trans (List.suffix_cons ..)), Option.or_assoc]

variable {new : Str}

theorem subFrom_skip (u : Str) : subFrom r new (u ++ s) u.length = sub r new s := by
  induction u with
  | nil => rfl
  | cons c u ih => simpa [subFrom] using ih

theorem mem_of_mem_sub {c : Char} (h : c ∈ sub r new s) : c ∈ new ∨ c ∈ s := by
  have key : ∀ s k, c ∈ subFrom r new s k → c ∈ new ∨ c ∈ s := by
    intro s
    induction s with
    | nil => exact fun _ h => .inr h
    | cons d s ih =>
      intro k h
      cases k with
      | succ k => exact (ih k h).imp_right (List.mem_cons_of_mem d)
      | zero =>
        rw [subFrom] at h
        split at h
        · rcases List.mem_append.mp h with h | h
          · exact .inl h
          · exact (ih _ h).imp_right (List.mem_cons_of_mem d)
        · rcases List.mem_cons.mp h with rfl | h
          · exact .inr (List.mem_cons_self ..)
          · exact (ih _ h).imp_right (List.mem_cons_of_mem d)
  exact key s 0 h

theorem sub_cons_of_noMatch {c : Char} (h : r.match? (c :: s) = none) :
    sub r new (c :: s) = c :: sub r new s := by
  rw [sub, subFrom, h, sub]

/-- No match starts in the first part of a text. -/
theorem sub_append (h : ∀ c v, c :: v <:+ u → r.match? (c :: v ++ s) = none) :
    sub r new (u ++ s) = u ++ sub r new s := by
  induction u with
  | nil => rfl
  | cons c u ih =>
    have hc : r.match? (c :: (u ++ s)) = none := h c u List.suffix_rfl
    rw [List.cons_append, sub_cons_of_noMatch hc,
      ih fun d v hv => h d v (hv.trans (List.suffix_cons ..)), List.cons_append]

theorem sub_of_match (h : r.match? s = some m) (hne : m.text ≠ []) :
    sub r new s = new ++ sub r new m.rest := by
  obtain ⟨c, u, hu⟩ := List.exists_cons_of_ne_nil hne
  have hs := match?_append h
  rw [hu, List.cons_append] at hs
  rw [← hs, sub, subFrom, hs, h]
  simp only [hu, List.length_cons, Nat.add_sub_cancel]
  rw [subFrom_skip]

/-- No run of a class starts in a text without its characters. -/
theorem sub_rep_of_notMem {p : Char → Bool} (h : ∀ c ∈ s, p c = false) :
    sub (rep true 1 p) new s = s := by
  induction s with
  | nil => rfl
  | cons c s ih =>
    have hc : p c = false := h c (List.mem_cons_self ..)
    have hmatch : (rep true 1 p).match? (c :: s) = none := by
      simp [match?, matchesAt, runs, hc]
    rw [sub_cons_of_noMatch hmatch, ih fun d hd => h d (List.mem_cons_of_mem c hd)]

/-- Replacing the characters of a class by one character. -/
theorem sub_cls (p : Char → Bool) (d : Char) (s : Str) :
    sub (cls p) [d] s = s.map fun c => if p c then d else c := by
  induction s with
  | nil => rfl
  | cons c s ih =>
    rw [List.map_cons]
    by_cases hc : p c = true
    · have hmatch : (cls p).match? (c :: s) = some ⟨[c], none, s⟩ := by
        rw [match?, matchesAt, if_pos hc]
        rfl
      rw [sub_of_match hmatch (by simp), ih, if_pos hc]
      rfl
    · have hmatch : (cls p).match? (c :: s) = none := by
        rw [match?, matchesAt, if_neg hc]
        rfl
      rw [sub_cons_of_noMatch hmatch, ih, if_neg hc]

end Py.Regex
