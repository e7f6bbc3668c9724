import ConfigManager.Py.RegexRules
import Mathlib.Algebra.Order.BigOperators.Group.List
import Mathlib.Algebra.Order.Ring.Nat
import Mathlib.Algebra.BigOperators.Group.List.Basic

/-! # The first match, and all matches

`match?` of each constructor, for patterns whose order of matches matters; patterns that
take all of a text (`TakesRest`); and what `findall` returns, with the lengths of the
matches bounded by the length of the text.

A pattern compiled with `IGNORECASE` matches what the pattern matches
(`mem_ignoreCase`), and a class that contains no letter, or all of them, is not changed
(`foldClass_eq`).
-/
namespace Py.Regex

variable {r t : Regex} {s u : Str} {m n : Match}

/-! ## The first match -/

theorem runs_eq (p : Char → Bool) (s : Str) :
    (runs p s).length = (s.takeWhile p).length + 1 ∧
      (runs p s).getLast? = some (s.takeWhile p, s.dropWhile p) := by
  induction s with
  | nil => exact ⟨rfl, rfl⟩
  | cons c s ih =>
    by_cases hc : p c = true
    · have hne : (runs p s).map (fun m => (c :: m.1, m.2)) ≠ [] := by
        intro h
        simp [List.map_eq_nil_iff.mp h] at ih
      rw [runs, if_pos hc, List.takeWhile_cons_of_pos hc, List.dropWhile_cons_of_pos hc]
      refine ⟨by simp [ih.1], ?_⟩
      rw [List.getLast?_cons, List.getLast?_map, ih.2]
      rfl
    · rw [runs, if_neg hc, List.takeWhile_cons_of_neg hc, List.dropWhile_cons_of_neg hc]
      exact ⟨rfl, rfl⟩

/-- Classes with the same longest run are cut in the same ways. -/
theorem runs_congr {p q : Char → Bool} (h : s.takeWhile p = s.takeWhile q) :
    runs p s = runs q s := by
  induction s with
  | nil => rfl
  | cons c s ih =>
    rw [List.takeWhile_cons, List.takeWhile_cons] at h
    rw [runs, runs]
    cases hp : p c <;> cases hq : q c <;> simp_all

/-- A larger class has the same longest run, if all of that run is in the smaller one. -/
theorem takeWhile_eq_of_subset {p q : Char → Bool} (hpq : ∀ c, p c = true → q c = true)
    (h : ∀ c ∈ s.takeWhile q, p c = true) : s.takeWhile p = s.takeWhile q := by
  induction s with
  | nil => rfl
  | cons c s ih =>
    by_cases hc : q c = true
    · rw [List.takeWhile_cons_of_pos hc] at h ⊢
      rw [List.takeWhile_cons_of_pos (h c (List.mem_cons_self ..)),
        ih fun d hd => h d (List.mem_cons_of_mem _ hd)]
    · rw [List.takeWhile_cons_of_neg hc, List.takeWhile_cons_of_neg fun hp => hc (hpq c hp)]

/-- A greedy run is tried at its full length first. -/
theorem match?_rep {p : Char → Bool} {k : Nat} :
    (rep true k p).match? s =
      if k ≤ (s.takeWhile p).length then some ⟨s.takeWhile p, none, s.dropWhile p⟩ else none := by
  obtain ⟨hlen, hlast⟩ := runs_eq p s
  have hm : (rep true k p).match? s =
      ((runs p s).drop k).getLast?.map fun m => (⟨m.1, none, m.2⟩ : Match) := by
    rw [match?, matchesAt, if_pos rfl, List.head?_reverse, List.getLast?_map]
  rw [hm, List.getLast?_drop, hlen, hlast]
  split
  next h => rw [if_neg (by omega)]; rfl
  next h => rw [if_pos (by omega)]; rfl

theorem match?_alt : (alt r t).match? s = (r.match? s).or (t.match? s) := by
  rw [match?, matchesAt, List.head?_append]
  rfl

theorem match?_opt : (opt r).match? s = (r.match? s).or (some ⟨[], none, s⟩) := by
  rw [match?, matchesAt, List.head?_append]
  rfl

/-- The first match of a sequence, if the first match of its first part can go on. -/
theorem match?_seq (h : r.match? s = some m) (ht : t.match? m.rest = some n) :
    (seq r t).match? s = some (m.andThen n) := by
  obtain ⟨ms, hms⟩ : ∃ ms, r.matchesAt s = m :: ms := by
    cases hs : r.matchesAt s with
    | nil => simp [match?, hs] at h
    | cons a ms => exact ⟨ms, by simpa [match?, hs] using h⟩
  rw [match?, matchesAt, hms, List.flatMap_cons, List.head?_append, List.head?_map]
  rw [match?] at ht
  rw [ht]
  rfl

/-! ## Patterns that take all of a text -/

/-- In a text of such characters, the first match ends where the text ends. -/
def TakesRest (p : Char → Prop) (r : Regex) : Prop :=
  ∀ s, (∀ c ∈ s, p c) → ∀ m, r.match? s = some m → m.rest = []

variable {p : Char → Prop}

theorem takesRest_rep {q : Char → Bool} {k : Nat} (h : ∀ c, p c → q c = true) :
    TakesRest p (rep true k q) := by
  intro s hs m hm
  rw [match?_rep] at hm
  split at hm
  · cases hm
    exact List.dropWhile_eq_nil_iff.mpr fun c hc => h c (hs c hc)
  · cases hm

theorem takesRest_alt (hr : TakesRest p r) (ht : TakesRest p t) : TakesRest p (alt r t) := by
  intro s hs m hm
  rw [match?_alt, Option.or_eq_some_iff] at hm
  rcases hm with hm | ⟨-, hm⟩
  · exact hr s hs m hm
  · exact ht s hs m hm

/-- The first match of a sequence is, for some match of the first part, the first match of
the second. -/
theorem takesRest_seq (ht : TakesRest p t) : TakesRest p (seq r t) := by
  intro s hs m hm
  rw [match?, matchesAt, List.head?_flatMap, List.findSome?_eq_some_iff] at hm
  obtain ⟨l₁, a, l₂, hl, ha, -⟩ := hm
  rw [List.head?_map, Option.map_eq_some_iff] at ha
  obtain ⟨n, hn, rfl⟩ := ha
  have hmem : a ∈ r.matchesAt s := by simp [hl]
  have htext := text_append_rest hmem
  exact ht a.rest (fun c hc => hs c (by rw [← htext]; exact List.mem_append_right _ hc)) n hn

/-! ## `findall` -/

theorem scan_skip (u : Str) : scan r (u ++ s) u.length = scan r s 0 := by
  induction u with
  | nil => rfl
  | cons c u ih => simpa [scan] using ih

theorem findall_cons_of_noMatch {c : Char} (h : r.match? (c :: s) = none) :
    findall r (c :: s) = findall r s := by
  rw [findall, scan, h, findall]

theorem findall_of_match (h : r.match? s = some m) (hne : m.text ≠ []) :
    findall r s = m.text :: findall r m.rest := by
  obtain ⟨c, u, hu⟩ := List.exists_cons_of_ne_nil hne
  have hs := match?_append h
  rw [hu, List.cons_append] at hs
  rw [← hs, findall, scan, hs, h]
  simp only [hu, List.length_cons, Nat.add_sub_cancel, List.map_cons]
  rw [scan_skip, findall]

/-- A text that is matched as a whole is all that is found. -/
theorem findall_of_rest_nil (h : r.match? s = some m) (hrest : m.rest = []) (hne : s ≠ []) :
    findall r s = [s] := by
  have hs : m.text = s := by simpa [hrest] using match?_append h
  rw [findall_of_match h (hs ▸ hne), hs, hrest]
  rfl

/-- What is found is matched somewhere. -/
theorem exists_match_of_mem_scan {skip : Nat} (h : m ∈ scan r s skip) :
    ∃ v, m ∈ r.matchesAt v := by
  induction s generalizing skip with
  | nil => cases h
  | cons c s ih =>
    cases skip with
    | succ skip => exact ih h
    | zero =>
      rw [scan] at h
      split at h
      next n hn =>
        rcases List.mem_cons.mp h with rfl | h
        · exact ⟨_, List.mem_of_mem_head? hn⟩
        · exact ih h
      next => exact ih h

/-- The matches found do not overlap. -/
theorem length_scan (r : Regex) (s : Str) (skip : Nat) :
    ((scan r s skip).map fun m => m.text.length).sum ≤ s.length - skip := by
  induction s generalizing skip with
  | nil => simp [scan]
  | cons c s ih =>
    cases skip with
    | succ skip => simpa [scan] using ih skip
    | zero =>
      rw [scan]
      split
      next m hm =>
        have hlen := congrArg List.length (match?_append hm)
        rw [List.length_append, List.length_cons] at hlen
        have hrest := ih (m.text.length - 1)
        simp only [List.map_cons, List.sum_cons, List.length_cons]
        omega
      next => exact (ih 0).trans (by simp)

theorem length_findall (r : Regex) (s : Str) :
    ((findall r s).map List.length).sum ≤ s.length := by
  rw [findall, List.map_map]
  exact length_scan r s 0

/-- Two patterns find the same, if what the second finds the first matches too, in the
same places. -/
theorem scan_congr (skip : Nat) (hnone : ∀ v, v <:+ s → t.match? v = none → r.match? v = none)
    (hsome : ∀ v m, v <:+ s → t.match? v = some m → m ∈ scan t s skip → r.match? v = some m) :
    scan r s skip = scan t s skip := by
  induction s generalizing skip with
  | nil => rfl
  | cons c s ih =>
    have hsuffix : ∀ {v}, v <:+ s → v <:+ c :: s := fun h => h.trans (List.suffix_cons ..)
    have ih' := fun k => ih k fun v hv => hnone v (hsuffix hv)
    cases skip with
    | succ skip => exact ih' _ fun v m hv => hsome v m (hsuffix hv)
    | zero =>
      rw [scan, scan]
      cases hm : t.match? (c :: s) with
      | none =>
        rw [hnone _ List.suffix_rfl hm]
        exact ih' _ fun v m hv hv' hmem => hsome v m (hsuffix hv) hv' (by rwa [scan, hm])
      | some m =>
        have hscan : scan t (c :: s) 0 = m :: scan t s (m.text.length - 1) := by rw [scan, hm]
        rw [hsome _ m List.suffix_rfl hm (by simp [hscan])]
        refine congrArg _ (ih' _ fun v k hv hv' hmem => hsome v k (hsuffix hv) hv' ?_)
        rw [hscan]
        exact List.mem_cons_of_mem _ hmem

/-! ## Ignoring case -/

/-- A pattern that ignores case matches what the pattern itself matches. -/
theorem mem_ignoreCase (h : m ∈ r.matchesAt s) : m ∈ r.ignoreCase.matchesAt s := by
  have hfold : ∀ {q : Char → Bool} {c}, q c = true → foldClass q c = true := by
    intro q c hc
    simp [foldClass, hc]
  induction r generalizing s m with
  | cls q =>
    obtain ⟨c, u, rfl, hc, rfl⟩ := mem_cls.mp h
    exact mem_cls.mpr ⟨c, u, rfl, hfold hc, rfl⟩
  | rep g k q =>
    obtain ⟨a, b, rfl, hk, ha, rfl⟩ := mem_rep.mp h
    exact mem_rep.mpr ⟨a, b, rfl, hk, fun c hc => hfold (ha c hc), rfl⟩
  | opt r ih => exact mem_opt.mpr ((mem_opt.mp h).imp_left ih)
  | seq r t ihr iht =>
    obtain ⟨a, ha, b, hb, rfl⟩ := mem_seq.mp h
    exact mem_seq.mpr ⟨a, ihr ha, b, iht hb, rfl⟩
  | alt r t ihr iht => exact mem_alt.mpr ((mem_alt.mp h).imp ihr iht)
  | ahead r ih =>
    obtain ⟨⟨n, hn⟩, rfl⟩ := mem_ahead.mp h
    exact mem_ahead.mpr ⟨⟨n, ih hn⟩, rfl⟩
  | eos => exact h
  | group r ih =>
    obtain ⟨n, hn, rfl⟩ := mem_group.mp h
    exact mem_group.mpr ⟨n, ih hn, rfl⟩

/-- The characters outside ASCII that are variants of a letter. -/
def letterVariants : List Char := ['\u017F', '\u212A', '\u0130', '\u0131']

/-- Outside ASCII no letter is lowered to another one. -/
theorem toLower_of_not_ascii {c : Char} (hc : ¬c.toNat < 128) : c.toLower = c := by
  have hval : c.val.toNat = c.toNat := rfl
  refine dif_neg fun h => ?_
  simp only [UInt32.le_iff_toNat_le] at h
  simp at h
  omega

theorem foldCase_cases (c : Char) :
    (c.toNat < 128 ∧ c.isAlpha = true) ∨ c ∈ letterVariants ∨
      (foldCase c = c ∧ (foldCase c).toUpper = c) := by
  by_cases hv : c ∈ letterVariants
  · exact .inr (.inl hv)
  have hfold : foldCase c = c.toLower := by
    simp only [letterVariants, List.mem_cons, List.not_mem_nil, or_false, not_or] at hv
    rw [foldCase, if_neg hv.1, if_neg hv.2.1, if_neg (not_or.mpr hv.2.2)]
  -- Inside ASCII the letters are enumerated; outside it nothing is folded.
  by_cases hc : c.toNat < 128
  · have hascii : ∀ n < 128, (Char.ofNat n).isAlpha = true ∨
        ((Char.ofNat n).toLower = Char.ofNat n ∧
          (Char.ofNat n).toLower.toUpper = Char.ofNat n) := by decide
    have h := hascii c.toNat hc
    rw [Char.ofNat_toNat] at h
    exact h.imp (⟨hc, ·⟩) fun h => .inr (by rwa [hfold])
  · have hval : c.val.toNat = c.toNat := rfl
    have hupper : c.toUpper = c := by
      refine dif_neg fun h => ?_
      simp only [UInt32.le_iff_toNat_le] at h
      simp at h
      omega
    exact .inr (.inr (by rw [hfold, toLower_of_not_ascii hc, hupper]; exact ⟨rfl, rfl⟩))

/-- A class with all letters, or none, is not changed. -/
theorem foldClass_eq {q : Char → Bool} (b : Bool)
    (hascii : ∀ n < 128, (Char.ofNat n).isAlpha = true → q (Char.ofNat n) = b)
    (hvariants : ∀ c ∈ letterVariants, q c = b) : foldClass q = q := by
  have hletter : ∀ c : Char, c.toNat < 128 → c.isAlpha = true → q c = b := by
    intro c hc ha
    have h := hascii c.toNat hc
    rw [Char.ofNat_toNat] at h
    exact h ha
  -- The cases of a letter are letters or variants, which the class treats alike.
  have hall : ∀ c, (c.toNat < 128 ∧ c.isAlpha = true) ∨ c ∈ letterVariants →
      q c = b ∧ q (foldCase c) = b ∧ q (foldCase c).toUpper = b := by
    have hfold : ∀ n < 128, (Char.ofNat n).isAlpha = true →
        (foldCase (Char.ofNat n)).toNat < 128 ∧ (foldCase (Char.ofNat n)).isAlpha = true ∧
        (foldCase (Char.ofNat n)).toUpper.toNat < 128 ∧
        (foldCase (Char.ofNat n)).toUpper.isAlpha = true := by decide
    rintro c (⟨hc, ha⟩ | hc)
    · have h := hfold c.toNat hc
      rw [Char.ofNat_toNat] at h
      obtain ⟨h₁, h₂, h₃, h₄⟩ := h ha
      exact ⟨hletter c hc ha, hletter _ h₁ h₂, hletter _ h₃ h₄⟩
    · have hv : ∀ c ∈ letterVariants, (foldCase c).toNat < 128 ∧ (foldCase c).isAlpha = true ∧
          (foldCase c).toUpper.toNat < 128 ∧ (foldCase c).toUpper.isAlpha = true := by decide
      obtain ⟨h₁, h₂, h₃, h₄⟩ := hv c hc
      exact ⟨hvariants c hc, hletter _ h₁ h₂, hletter _ h₃ h₄⟩
  funext c
  rcases foldCase_cases c with h | h | ⟨h, h'⟩
  · obtain ⟨h₁, h₂, h₃⟩ := hall c (.inl h)
    cases b <;> simp [foldClass, h₁, h₂, h₃]
  · obtain ⟨h₁, h₂, h₃⟩ := hall c (.inr h)
    cases b <;> simp [foldClass, h₁, h₂, h₃]
  · rw [foldClass, h', h, Bool.or_self, Bool.or_self]

/-- A class of some letters has, ignoring case, letters and their variants besides its own
characters. -/
theorem foldClass_cases {q : Char → Bool} {c : Char} (h : foldClass q c = true) :
    (c.toNat < 128 ∧ c.isAlpha = true) ∨ c ∈ letterVariants ∨ q c = true := by
  rcases foldCase_cases c with hc | hc | ⟨hc, hc'⟩
  · exact .inl hc
  · exact .inr (.inl hc)
  · rw [foldClass, hc', hc, Bool.or_self, Bool.or_self] at h
    exact .inr (.inr h)

/-- Ignoring case, what is matched is in any set that has the letters and their variants. -/
theorem over_ignoreCase (h : r.Over p)
    (hascii : ∀ n < 128, (Char.ofNat n).isAlpha = true → p (.ofNat n))
    (hvariants : ∀ c ∈ letterVariants, p c) : r.ignoreCase.Over p := by
  have hfold : ∀ {q : Char → Bool}, (∀ c, q c = true → p c) → ∀ c, foldClass q c = true → p c := by
    intro q hq c hc
    rcases foldClass_cases hc with ⟨hlt, ha⟩ | hc | hc
    · have hletter := hascii c.toNat hlt
      rw [Char.ofNat_toNat] at hletter
      exact hletter ha
    · exact hvariants c hc
    · exact hq c hc
  induction r with
  | cls q | rep g k q => exact hfold h
  | opt r ih | group r ih => exact ih h
  | seq r t ihr iht | alt r t ihr iht => exact ⟨ihr h.1, iht h.2⟩
  | ahead r ih | eos => trivial

/-! ## Literals, in any case -/

/-- The characters of a literal, each read as a class. -/
def letters (k : Char → Char → Bool) : Str → Regex
  | [] => rep true 0 fun _ => false
  | [c] => cls (k c)
  | c :: l => seq (cls (k c)) (letters k l)

variable {k : Char → Char → Bool} {l : Str}

theorem lit_eq (l : Str) : lit l = letters (fun c => (· == c)) l := by
  induction l with
  | nil => rfl
  | cons c l ih =>
    cases l with
    | nil => rfl
    | cons d l => exact congrArg _ ih

theorem ignoreCase_lit (l : Str) :
    (lit l).ignoreCase = letters (fun c => foldClass (· == c)) l := by
  induction l with
  | nil => rfl
  | cons c l ih =>
    cases l with
    | nil => rfl
    | cons d l => exact congrArg _ ih

theorem matchesAt_letters_self (hk : ∀ c, k c c = true) (l u : Str) :
    (letters k l).matchesAt (l ++ u) = [⟨l, none, u⟩] := by
  induction l with
  | nil => cases u <;> rfl
  | cons c l ih =>
    cases l with
    | nil => simp [letters, matchesAt, hk]
    | cons d l =>
      have hstep : letters k (c :: d :: l) = seq (cls (k c)) (letters k (d :: l)) := rfl
      rw [hstep, matchesAt, List.cons_append, matchesAt, if_pos (hk c), List.flatMap_singleton, ih]
      rfl

/-- The characters matched are, one by one, in the classes of the literal's. -/
theorem text_letters (h : m ∈ (letters k l).matchesAt s) :
    List.Forall₂ (fun c d => k c d = true) l m.text := by
  induction l generalizing s m with
  | nil =>
    obtain ⟨a, b, rfl, -, ha, rfl⟩ := mem_rep.mp h
    cases a with
    | nil => exact .nil
    | cons c a => cases ha c (List.mem_cons_self ..)
  | cons c l ih =>
    cases l with
    | nil =>
      obtain ⟨d, u, rfl, hd, rfl⟩ := mem_cls.mp h
      exact .cons hd .nil
    | cons d l =>
      obtain ⟨a, ha, b, hb, rfl⟩ := mem_seq.mp h
      obtain ⟨e, u, -, he, rfl⟩ := mem_cls.mp ha
      exact .cons he (ih hb)

/-- Two literals differ before either ends. -/
def conflict (k : Char → Char → Bool) : Str → Str → Bool
  | c :: l, d :: b => !k c d || conflict k l b
  | _, _ => false

theorem matchesAt_letters_conflict {b : Str} (h : conflict k l b = true) (u : Str) :
    (letters k l).matchesAt (b ++ u) = [] := by
  induction l generalizing b with
  | nil => simp [conflict] at h
  | cons c l ih =>
    cases b with
    | nil => simp [conflict] at h
    | cons d b =>
      simp only [conflict, Bool.or_eq_true, Bool.not_eq_true'] at h
      have hhead : k c d = false → (cls (k c)).matchesAt (d :: b ++ u) = [] := by
        intro hcd
        simp [matchesAt, hcd]
      cases l with
      | nil => exact hhead (h.resolve_right (by simp [conflict]))
      | cons e l =>
        have hstep : letters k (c :: e :: l) = seq (cls (k c)) (letters k (e :: l)) := rfl
        rw [hstep, matchesAt]
        -- The literals differ at the head, or behind it.
        by_cases hcd : k c d = true
        · have htail := ih (h.resolve_left (by simp [hcd]))
          rw [List.cons_append, matchesAt, if_pos hcd, List.flatMap_singleton, htail]
          rfl
        · rw [hhead (by simpa using hcd)]
          rfl

end Py.Regex
