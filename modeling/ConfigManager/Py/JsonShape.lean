import ConfigManager.Py.JsonRoundTrip
import Mathlib.Algebra.Group.Nat.Defs

/-! # What `json.loads` returns, and what it accepts

Every value read is well formed (`loads_wf`), and stays so when a member of an
object is set to a text (`wf_put`); so a program that reads an object, sets a
member and writes it back writes what it can read.

Nothing but printable text is read: a control character outside JSON's
whitespace is an error wherever it stands (`loads_clean`).

Both are shown by one rule for the three readers (`Rules.reading`).
-/
namespace Py.Json

variable {F : Floats}

/-! ## Tokens -/

/-- The text does not go on with a digit. -/
def NoDigit (s : Str) : Prop := ∀ c t, s = c :: t → isDigit c = false

theorem spanDigits_of {a b : Str} (ha : ∀ c ∈ a, isDigit c = true) (hb : NoDigit b) :
    spanDigits (a ++ b) = (a, b) := by
  have hnil : b.takeWhile isDigit = [] ∧ b.dropWhile isDigit = b := by
    cases b with
    | nil => simp
    | cons c b => simp [hb c b rfl]
  simp [spanDigits, List.takeWhile_append_of_pos ha, List.dropWhile_append_of_pos ha, hnil]

theorem isDigit_of_mem_spanDigits {s : Str} {c : Char} (h : c ∈ (spanDigits s).1) :
    isDigit c = true := List.mem_takeWhile_imp h

/-- The digits of an integer token are read the same whatever follows them. -/
theorem natToken_shorten {s a b : Str} (h : natToken s = some (a, b)) :
    a ≠ [] ∧ (∀ c ∈ a, isDigit c = true) ∧
      ∀ t, NoDigit t → natToken (a ++ t) = some (a, t) := by
  obtain ⟨c, s, rfl, hd, ⟨rfl, rfl, rfl⟩ | ⟨h0, rfl, rfl⟩⟩ := natToken_cases h
  · exact ⟨by simp, by simpa using hd, fun t _ => rfl⟩
  · refine ⟨by simp, ?_, fun t ht => ?_⟩
    · rintro x (_ | ⟨_, hx⟩)
      · exact hd
      · exact isDigit_of_mem_spanDigits hx
    · rw [List.cons_append, natToken, if_neg h0, if_pos hd,
        spanDigits_of (fun _ => isDigit_of_mem_spanDigits) ht]

theorem intToken_shorten {s a b : Str} (h : intToken s = some (a, b)) :
    ∀ t, NoDigit t → intToken (a ++ t) = some (a, t) := by
  intro t ht
  rcases intToken_cases h with hn | ⟨s, a, rfl, rfl, hn⟩
  · obtain ⟨hne, hall, hread⟩ := natToken_shorten hn
    obtain ⟨d, a, rfl⟩ := List.exists_cons_of_ne_nil hne
    have hd : d ≠ '-' := by
      rintro rfl
      exact absurd (hall _ (List.mem_cons_self ..)) (by decide)
    rw [List.cons_append, intToken, if_neg hd]
    exact hread t ht
  · rw [List.cons_append, intToken, if_pos rfl, (natToken_shorten hn).2.2 t ht]
    rfl

/-- Nothing, or the start of an exponent. -/
def ExpStart (s : Str) : Prop := ∀ c t, s = c :: t → c = 'e' ∨ c = 'E'

theorem ExpStart.noDigit {s : Str} (h : ExpStart s) : NoDigit s := by
  intro c t he
  rcases h c t he with rfl | rfl <;> decide

theorem fracToken_shorten (s t : Str) (h : ExpStart t) :
    fracToken ((fracToken s).1 ++ t) = ((fracToken s).1, t) ∧ NoDigit ((fracToken s).1 ++ t) := by
  have hnil : fracToken t = ([], t) := by
    cases t with
    | nil => rfl
    | cons c t =>
      have hc : c ≠ '.' := by rintro rfl; simpa using h _ _ rfl
      simp [fracToken, hc]
  cases s with
  | nil => exact ⟨hnil, h.noDigit⟩
  | cons c s =>
    simp only [fracToken]
    split_ifs with hc
    · refine ⟨?_, ?_⟩
      · simp only [List.cons_append, spanDigits_of (fun _ => isDigit_of_mem_spanDigits) h.noDigit]
        rw [if_pos ⟨trivial, hc.2⟩]
      · rintro _ _ ⟨⟩
        rfl
    · exact ⟨hnil, h.noDigit⟩

theorem expToken_shorten (s : Str) :
    expToken (expToken s).1 = ((expToken s).1, []) ∧ ExpStart (expToken s).1 := by
  cases s with
  | nil => exact ⟨rfl, by rintro _ _ ⟨⟩⟩
  | cons c s =>
    simp only [expToken]
    split_ifs with h
    · refine ⟨?_, by rintro _ _ ⟨⟩; exact h.1⟩
      obtain ⟨hc, hd⟩ := h
      have hsign : signToken ((signToken s).1 ++ (spanDigits (signToken s).2).1) =
          ((signToken s).1, (spanDigits (signToken s).2).1) := by
        have hdigits : ∀ u : Str, (∀ x ∈ u, isDigit x = true) → signToken u = ([], u) := by
          rintro (_ | ⟨x, u⟩) hu
          · rfl
          · have hx := hu x (List.mem_cons_self ..)
            rw [signToken, if_neg]
            rintro (rfl | rfl) <;> exact absurd hx (by decide)
        cases s with
        | nil => rfl
        | cons x s =>
          by_cases hx : x = '+' ∨ x = '-'
          · simp [signToken, hx]
          · have hs : signToken (x :: s) = ([], x :: s) := by rw [signToken, if_neg hx]
            rw [hs]
            exact hdigits _ fun _ => isDigit_of_mem_spanDigits
      have hspan : spanDigits (spanDigits (signToken s).2).1 =
          ((spanDigits (signToken s).2).1, []) := by
        simpa using spanDigits_of (b := [])
          (fun _ => isDigit_of_mem_spanDigits (s := (signToken s).2)) (by rintro _ _ ⟨⟩)
      simp only [hsign, hspan]
      rw [if_pos ⟨hc, hd⟩]
    · exact ⟨rfl, by rintro _ _ ⟨⟩⟩

/-- What a number token took is the same token on its own. -/
theorem numberToken_shorten {s i f r : Str} (h : numberToken s = some (i, f, r)) :
    numberToken (i ++ f) = some (i, f, []) := by
  obtain ⟨⟨a, b⟩, hi, he⟩ := Option.map_eq_some_iff.mp h
  simp only [Prod.mk.injEq] at he
  obtain ⟨rfl, rfl, -⟩ := he
  obtain ⟨hexp, hstart⟩ := expToken_shorten (fracToken b).2
  obtain ⟨hfrac, hnd⟩ := fracToken_shorten b _ hstart
  simp only [numberToken, intToken_shorten hi _ hnd, Option.map_some, hfrac, hexp]

/-- An integer token: digits, after a minus or not. -/
theorem intToken_digits {s i r : Str} (h : intToken s = some (i, r)) :
    ∃ a, a ≠ [] ∧ (∀ c ∈ a, isDigit c = true) ∧ (i = a ∨ i = '-' :: a) ∧
      (intValue i).natAbs = Nat.ofDigitChars 10 a 0 := by
  rcases intToken_cases h with hn | ⟨s, a, rfl, rfl, hn⟩
  · obtain ⟨hne, hall, -⟩ := natToken_shorten hn
    refine ⟨i, hne, hall, Or.inl rfl, ?_⟩
    obtain ⟨d, a, rfl⟩ := List.exists_cons_of_ne_nil hne
    have hd : d ≠ '-' := by
      rintro rfl
      exact absurd (hall _ (List.mem_cons_self ..)) (by decide)
    simp [intValue, hd]
  · obtain ⟨hne, hall, -⟩ := natToken_shorten hn
    exact ⟨a, hne, hall, Or.inr rfl, by simp [intValue]⟩

/-- Digits denote a number below the power of their count. -/
theorem ofDigitChars_lt {a : Str} (h : ∀ c ∈ a, isDigit c = true) :
    Nat.ofDigitChars 10 a 0 < 10 ^ a.length := by
  induction a with
  | nil => simp
  | cons c a ih =>
    have hc : 48 ≤ c.toNat ∧ c.toNat ≤ 57 := by simpa [isDigit] using h c (List.mem_cons_self ..)
    have hrest := ih fun x hx => h x (List.mem_cons_of_mem _ hx)
    rw [Nat.ofDigitChars_cons, Nat.ofDigitChars_eq_ofDigitChars_zero, List.length_cons,
      Nat.pow_succ]
    have hdigit : 10 * 0 + (c.toNat - '0'.toNat) ≤ 9 := by
      change 10 * 0 + (c.toNat - 48) ≤ 9
      omega
    calc 10 ^ a.length * (10 * 0 + (c.toNat - '0'.toNat)) + Nat.ofDigitChars 10 a 0
        < 10 ^ a.length * 9 + 10 ^ a.length :=
          Nat.add_lt_add_of_le_of_lt (Nat.mul_le_mul_left _ hdigit) hrest
      _ = 10 ^ a.length * 10 := by omega

/-- An integer is written with no more digits than the literal it was read from. -/
theorem countP_dumpsInt_le {s i r : Str} (h : intToken s = some (i, r)) :
    (dumpsInt (intValue i)).countP isDigit ≤ i.countP isDigit := by
  obtain ⟨a, hne, hall, hi, hv⟩ := intToken_digits h
  have hcount : a.countP isDigit = a.length := List.countP_eq_length.mpr hall
  have hia : i.countP isDigit = a.length := by
    rcases hi with rfl | rfl
    · exact hcount
    · rw [List.countP_cons_of_neg (by decide), hcount]
  have hdigits : (Nat.toDigits 10 (intValue i).natAbs).length ≤ a.length := by
    rw [Nat.length_toDigits_le_iff (by decide) (List.length_pos_iff.mpr hne), hv]
    exact ofDigitChars_lt hall
  rw [hia]
  refine le_trans ?_ hdigits
  unfold dumpsInt
  split
  · rw [List.countP_cons_of_neg (by decide)]
    exact List.countP_le_length
  · exact List.countP_le_length

/-! ## Strings -/

/-- The ways a string is read, up to its closing quote. -/
inductive Units : Str → JStr → Str → Prop
  | quote {s : Str} : Units ('"' :: s) [] s
  | hex {a b c d : Char} {n : Nat} {s r : Str} {k : JStr} (digits : hex4 a b c d = some n)
      (rest : Units s k r) : Units ('\\' :: 'u' :: a :: b :: c :: d :: s) (unit n :: k) r
  | letter {e x : Char} {s r : Str} {k : JStr} (plain : e ≠ 'u') (named : unescape e = some x)
      (rest : Units s k r) : Units ('\\' :: e :: s) (.scalar x :: k) r
  | plain {c : Char} {s r : Str} {k : JStr} (notQuote : c ≠ '"') (notEscape : c ≠ '\\')
      (notControl : 32 ≤ c.toNat) (rest : Units s k r) : Units (c :: s) (.scalar c :: k) r

theorem units_of_stringUnits (s : Str) : ∀ p, stringUnits s = some p → Units s p.1 p.2 := by
  induction s using stringUnits.induct with
  | case1 => simp [stringUnits]
  | case2 s =>
    intro p h
    rw [stringUnits_quote] at h
    cases h
    exact .quote
  | case3 =>
    intro p h
    rw [stringUnits.eq_def] at h
    simp at h
  -- An escape with four hexadecimal digits.
  | case4 a b c d s _ ih =>
    intro p h
    rw [stringUnits.eq_def] at h
    simp only [if_neg (show ('\\' : Char) ≠ '"' by decide), if_true] at h
    obtain ⟨n, hn, h⟩ := Option.bind_eq_some_iff.mp h
    obtain ⟨q, hq, he⟩ := Option.map_eq_some_iff.mp h
    cases he
    exact .hex hn (ih q hq)
  | case5 s _ _ =>
    intro p h
    rw [stringUnits.eq_def] at h
    simp only [if_neg (show ('\\' : Char) ≠ '"' by decide), if_true] at h
    cases h
  -- An escape with one letter.
  | case6 e s he _ ih =>
    intro p h
    rw [stringUnits.eq_def] at h
    simp only [if_neg (show ('\\' : Char) ≠ '"' by decide), if_true, if_neg he] at h
    obtain ⟨x, hx, h⟩ := Option.bind_eq_some_iff.mp h
    obtain ⟨q, hq, hp⟩ := Option.map_eq_some_iff.mp h
    cases hp
    exact .letter he hx (ih q hq)
  -- A control character is refused.
  | case7 c s hq hb hc =>
    intro p h
    rw [stringUnits.eq_def] at h
    simp [hq, hb, hc] at h
  | case8 c s hq hb hc ih =>
    intro p h
    rw [stringUnits_plain s hq hb (Nat.not_lt.mp hc)] at h
    obtain ⟨q, hr, he⟩ := Option.map_eq_some_iff.mp h
    cases he
    exact .plain hq hb (Nat.not_lt.mp hc) (ih q hr)

/-! ## Reading gives well-formed values -/

theorem number_wf {s r : Str} {v : Json} (h : number F s = some (v, r)) : WF F v := by
  obtain ⟨⟨i, f, t⟩, hn, he⟩ := Option.bind_eq_some_iff.mp h
  simp only at he
  split_ifs at he with hf hlong
  · obtain ⟨p, hp, hq⟩ := Option.map_eq_some_iff.mp hn
    cases hq
    cases he
    exact le_trans (countP_dumpsInt_le hp) (Nat.not_lt.mp hlong)
  · cases he
    rcases F.repr_literal _ ⟨i, f, hf, rfl, numberToken_shorten hn⟩ with hl | hl | hl
    · exact Or.inl hl
    · exact Or.inr (Or.inr (Or.inl hl))
    · exact Or.inr (Or.inr (Or.inr hl))

theorem scalar_wf {s r : Str} {v : Json} (h : scalar F s = some (v, r)) : WF F v := by
  unfold scalar at h
  split at h
  · rename_i p hp
    cases h
    have hmem := List.mem_of_find?_eq_some hp
    simp only [constants, List.mem_cons, List.not_mem_nil, or_false] at hmem
    rcases hmem with rfl | rfl | rfl | rfl | rfl | rfl
    · trivial
    · trivial
    · trivial
    · exact Or.inr (Or.inl rfl)
    · exact Or.inr (Or.inr (Or.inl rfl))
    · exact Or.inr (Or.inr (Or.inr rfl))
  · exact number_wf h

theorem map_fst_put (k : JStr) (v : Json) (ms : List (JStr × Json)) :
    (put k v ms).map Prod.fst =
      if k ∈ ms.map Prod.fst then ms.map Prod.fst else ms.map Prod.fst ++ [k] := by
  induction ms with
  | nil => simp [put]
  | cons m ms ih =>
    obtain ⟨l, w⟩ := m
    by_cases h : l = k
    · simp [put, h]
    · have h' : k ≠ l := Ne.symm h
      simp only [put, if_neg h, List.map_cons, ih, List.mem_cons, h', false_or]
      split_ifs <;> rfl

theorem nodup_put {k : JStr} {v : Json} {ms : List (JStr × Json)} (h : (ms.map Prod.fst).Nodup) :
    ((put k v ms).map Prod.fst).Nodup := by
  rw [map_fst_put]
  split_ifs with hk
  · exact h
  · rw [List.nodup_append]
    refine ⟨h, by simp, ?_⟩
    rintro a ha b hb rfl
    exact hk (List.mem_singleton.mp hb ▸ ha)

theorem wfMembers_put {k : JStr} {v : Json} {ms : List (JStr × Json)} (h : WFMembers F ms)
    (hv : WF F v) : WFMembers F (put k v ms) := by
  induction ms with
  | nil => exact ⟨hv, trivial⟩
  | cons m ms ih =>
    obtain ⟨l, w⟩ := m
    rw [put]
    split_ifs
    · exact ⟨hv, h.2⟩
    · exact ⟨h.1, ih h.2⟩

/-- **Setting a member of a well-formed object** leaves it well formed. -/
theorem wf_put {k : JStr} {v : Json} {ms : List (JStr × Json)} (h : WF F (obj ms)) (hv : WF F v) :
    WF F (obj (put k v ms)) := ⟨nodup_put h.1, wfMembers_put h.2 hv⟩

theorem wf_text (s : Str) : WF F (text s) := trivial

theorem dictOf_wf {ms : List (JStr × Json)} (h : WFMembers F ms) : WF F (obj (dictOf ms)) := by
  have key : ∀ (ms acc : List (JStr × Json)), WFMembers F ms → WF F (obj acc) →
      WF F (obj (ms.foldl (fun d m => put m.1 m.2 d) acc)) := by
    intro ms
    induction ms with
    | nil => exact fun _ _ hacc => hacc
    | cons m ms ih => exact fun acc hms hacc => ih _ hms.2 (wf_put hacc hms.1)
  exact key ms [] h ⟨List.nodup_nil, trivial⟩

variable (F) in
/-- Three properties of what the three readers read, closed under the ways they read it. -/
structure Rules (V : Str → Json → Str → Prop) (E : Str → List Json → Str → Prop)
    (M : Str → List (JStr × Json) → Str → Prop) : Prop where
  str : ∀ {s k r}, stringToken s = some (k, r) → V ('"' :: s) (str k) r
  arrNil : ∀ {s r}, skipWs s = ']' :: r → V ('[' :: s) (arr []) r
  arr : ∀ {s vs r}, E (skipWs s) vs r → V ('[' :: s) (arr vs) r
  objNil : ∀ {s r}, skipWs s = '}' :: r → V ('{' :: s) (obj []) r
  obj : ∀ {s ms r}, M (skipWs s) ms r → V ('{' :: s) (obj (dictOf ms)) r
  scalar : ∀ {s v r}, scalar F s = some (v, r) → V s v r
  last : ∀ {s v t r}, V s v t → skipWs t = ']' :: r → E s [v] r
  next : ∀ {s v t u vs r}, V s v t → skipWs t = ',' :: u → E (skipWs u) vs r → E s (v :: vs) r
  lastMember : ∀ {s k t u v w r}, stringToken s = some (k, t) → skipWs t = ':' :: u →
    V (skipWs u) v w → skipWs w = '}' :: r → M ('"' :: s) [(k, v)] r
  nextMember : ∀ {s k t u v w x ms r}, stringToken s = some (k, t) → skipWs t = ':' :: u →
    V (skipWs u) v w → skipWs w = ',' :: x → M (skipWs x) ms r →
    M ('"' :: s) ((k, v) :: ms) r

/-- **The rule for the three readers**, by induction on the fuel they share. -/
theorem Rules.reading {V : Str → Json → Str → Prop} {E : Str → List Json → Str → Prop}
    {M : Str → List (JStr × Json) → Str → Prop} (h : Rules F V E M) (fuel : Nat) :
    (∀ s v r, value F fuel s = some (v, r) → V s v r) ∧
    (∀ s vs r, elements F fuel s = some (vs, r) → E s vs r) ∧
    (∀ s ms r, members F fuel s = some (ms, r) → M s ms r) := by
  induction fuel with
  | zero => simp [value, elements, members]
  | succ fuel ih =>
    obtain ⟨hvalue, helements, hmembers⟩ := ih
    refine ⟨?_, ?_, ?_⟩
    · intro s v r hs
      -- A string, an array, an object, or a scalar, by the first character.
      cases s with
      | nil => simp [value] at hs
      | cons c s =>
        simp only [value] at hs
        split_ifs at hs with hq hb hc
        · subst hq
          obtain ⟨p, hp, he⟩ := Option.map_eq_some_iff.mp hs
          cases he
          exact h.str hp
        · subst hb
          split at hs
          · rename_i heq
            cases hs
            exact h.arrNil heq
          · obtain ⟨p, hp, he⟩ := Option.map_eq_some_iff.mp hs
            cases he
            exact h.arr (helements _ _ _ hp)
        · subst hc
          split at hs
          · rename_i heq
            cases hs
            exact h.objNil heq
          · obtain ⟨p, hp, he⟩ := Option.map_eq_some_iff.mp hs
            cases he
            exact h.obj (hmembers _ _ _ hp)
        · exact h.scalar hs
    · intro s vs r hs
      rw [elements] at hs
      obtain ⟨⟨v, t⟩, hv, he⟩ := Option.bind_eq_some_iff.mp hs
      split at he
      · rename_i heq
        cases he
        exact h.last (hvalue _ _ _ hv) heq
      · rename_i heq
        obtain ⟨q, hq, he⟩ := Option.map_eq_some_iff.mp he
        cases he
        exact h.next (hvalue _ _ _ hv) heq (helements _ _ _ hq)
      · cases he
    · intro s ms r hs
      cases s with
      | nil => simp [members] at hs
      | cons c s =>
        simp only [members] at hs
        split_ifs at hs with hc
        subst hc
        obtain ⟨⟨k, t⟩, hk, hs⟩ := Option.bind_eq_some_iff.mp hs
        split at hs
        · rename_i hcolon
          obtain ⟨⟨v, w⟩, hv, he⟩ := Option.bind_eq_some_iff.mp hs
          split at he
          · rename_i heq
            cases he
            exact h.lastMember hk hcolon (hvalue _ _ _ hv) heq
          · rename_i heq
            obtain ⟨q, hq, he⟩ := Option.map_eq_some_iff.mp he
            cases he
            exact h.nextMember hk hcolon (hvalue _ _ _ hv) heq (hmembers _ _ _ hq)
          · cases he
        · cases hs

theorem rules_wf :
    Rules F (fun _ v _ => WF F v) (fun _ vs _ => WFElements F vs)
      (fun _ ms _ => WFMembers F ms) where
  str _ := trivial
  arrNil _ := trivial
  arr h := h
  objNil _ := ⟨List.nodup_nil, trivial⟩
  obj h := dictOf_wf h
  scalar h := scalar_wf h
  last h _ := ⟨h, trivial⟩
  next h _ hs := ⟨h, hs⟩
  lastMember _ _ h _ := ⟨h, trivial⟩
  nextMember _ _ h _ hs := ⟨h, hs⟩

/-- **What `loads` returns is well formed.** -/
theorem loads_wf {s : Str} {v : Json} (h : loads F s = some v) : WF F v := by
  unfold loads at h
  split at h
  · rename_i w r hw
    split_ifs at h
    cases h
    exact (rules_wf.reading _).1 _ _ _ hw
  · cases h

/-! ## Members -/

theorem get?_put_ne {k l : JStr} (h : k ≠ l) (v : Json) (ms : List (JStr × Json)) :
    get? k (put l v ms) = get? k ms := by
  induction ms with
  | nil => simp [get?, put, h]
  | cons m ms ih =>
    obtain ⟨m, w⟩ := m
    simp only [get?] at ih
    rw [put]
    split_ifs with hm
    · subst hm
      simp [get?, List.lookup_cons, beq_false_of_ne h]
    · simp only [get?, List.lookup_cons, ih]

theorem get?_put_self (k : JStr) (v : Json) (ms : List (JStr × Json)) :
    get? k (put k v ms) = some v := by
  induction ms with
  | nil => simp [get?, put]
  | cons m ms ih =>
    obtain ⟨m, w⟩ := m
    simp only [get?] at ih
    rw [put]
    split_ifs with hm
    · simp [get?]
    · simp [get?, List.lookup_cons, beq_false_of_ne (Ne.symm hm), ih]

/-- Setting a member to its own value changes nothing. -/
theorem put_of_get? {k : JStr} {v : Json} {ms : List (JStr × Json)} (h : get? k ms = some v) :
    put k v ms = ms := by
  induction ms with
  | nil => simp [get?] at h
  | cons m ms ih =>
    obtain ⟨m, w⟩ := m
    by_cases hm : m = k
    · subst hm
      obtain rfl : w = v := by simpa [get?] using h
      simp [put]
    · rw [get?, List.lookup_cons, beq_false_of_ne (Ne.symm hm)] at h
      simp [put, hm, ih h]

/-- Whether an object can be encoded does not depend on what text a member is set to. -/
theorem encodableMembers_put {k : JStr} {v w : Json} (hv : encodable v = true)
    (hw : encodable w = true) (ms : List (JStr × Json)) :
    encodableMembers (put k v ms) = encodableMembers (put k w ms) := by
  induction ms with
  | nil => simp [put, encodableMembers, hv, hw]
  | cons m ms ih =>
    obtain ⟨m, x⟩ := m
    by_cases hm : m = k
    · simp [put, hm, encodableMembers, hv, hw]
    · simp [put, hm, encodableMembers, ih]

/-- An object that can be encoded still can if a member is set to what can be encoded. -/
theorem encodableMembers_put_of {k : JStr} {v : Json} {ms : List (JStr × Json)}
    (hk : isText k = true) (hv : encodable v = true) (h : encodableMembers ms = true) :
    encodableMembers (put k v ms) = true := by
  induction ms with
  | nil => simp [put, encodableMembers, hk, hv]
  | cons m ms ih =>
    obtain ⟨m, x⟩ := m
    rw [encodableMembers, Bool.and_eq_true, Bool.and_eq_true] at h
    rw [put]
    split_ifs with hm
    · simp [encodableMembers, hk, hv, h.2]
    · simp [encodableMembers, h.1, ih h.2]

/-- The last value a member is set to is its value. -/
theorem put_put (k : JStr) (v w : Json) (ms : List (JStr × Json)) :
    put k v (put k w ms) = put k v ms := by
  induction ms with
  | nil => simp [put]
  | cons m ms ih =>
    obtain ⟨m, x⟩ := m
    by_cases hm : m = k
    · simp [put, hm]
    · simp [put, hm, ih]

theorem encodable_text (s : Str) : encodable (text s) = true := by
  rw [text, encodable]
  exact isText_ofText s

/-! ## No control characters -/

/-- A character JSON text may hold somewhere. -/
def isClean (c : Char) : Bool := 32 ≤ c.toNat || isWs c

/-- `r` is left of `s` after some characters, none a control character. -/
def Consumes (s r : Str) : Prop := ∃ a, s = a ++ r ∧ ∀ c ∈ a, isClean c = true

namespace Consumes

theorem refl (s : Str) : Consumes s s := ⟨[], rfl, by simp⟩

theorem trans {s t r : Str} (h : Consumes s t) (h' : Consumes t r) : Consumes s r := by
  obtain ⟨a, rfl, ha⟩ := h
  obtain ⟨b, rfl, hb⟩ := h'
  refine ⟨a ++ b, by simp, fun c hc => ?_⟩
  exact (List.mem_append.mp hc).elim (ha c) (hb c)

theorem cons {c : Char} {s r : Str} (hc : isClean c = true) (h : Consumes s r) :
    Consumes (c :: s) r := trans ⟨[c], rfl, by simpa using hc⟩ h

theorem of_isPrefix {p s : Str} (h : p.isPrefixOf s = true) (hp : ∀ c ∈ p, isClean c = true) :
    Consumes s (s.drop p.length) := by
  obtain ⟨t, rfl⟩ := List.isPrefixOf_iff_prefix.mp h
  exact ⟨p, by simp, hp⟩

end Consumes

theorem isClean_of_isDigit {c : Char} (h : isDigit c = true) : isClean c = true := by
  have hc : 48 ≤ c.toNat ∧ c.toNat ≤ 57 := by simpa [isDigit] using h
  have : 32 ≤ c.toNat := by omega
  simp [isClean, this]

theorem consumes_skipWs (s : Str) : Consumes s (skipWs s) :=
  ⟨s.takeWhile isWs, List.takeWhile_append_dropWhile.symm, fun c hc => by
    simp [isClean, List.mem_takeWhile_imp hc]⟩

theorem consumes_spanDigits (s : Str) : Consumes s (spanDigits s).2 :=
  ⟨(spanDigits s).1, List.takeWhile_append_dropWhile.symm, fun _ hc =>
    isClean_of_isDigit (isDigit_of_mem_spanDigits hc)⟩

theorem consumes_natToken {s a r : Str} (h : natToken s = some (a, r)) : Consumes s r := by
  obtain ⟨c, s, rfl, hd, ⟨-, -, rfl⟩ | ⟨-, -, rfl⟩⟩ := natToken_cases h
  · exact .cons (isClean_of_isDigit hd) (.refl _)
  · exact .cons (isClean_of_isDigit hd) (consumes_spanDigits s)

theorem consumes_intToken {s a r : Str} (h : intToken s = some (a, r)) : Consumes s r := by
  rcases intToken_cases h with hn | ⟨s, a, rfl, rfl, hn⟩
  · exact consumes_natToken hn
  · exact .cons (by decide) (consumes_natToken hn)

theorem consumes_fracToken (s : Str) : Consumes s (fracToken s).2 := by
  cases s with
  | nil => exact .refl _
  | cons c s =>
    simp only [fracToken]
    split_ifs with h
    · exact .cons (h.1 ▸ by decide) (consumes_spanDigits s)
    · exact .refl _

theorem consumes_signToken (s : Str) : Consumes s (signToken s).2 := by
  cases s with
  | nil => exact .refl _
  | cons c s =>
    simp only [signToken]
    split_ifs with h
    · exact .cons (by rcases h with rfl | rfl <;> decide) (.refl _)
    · exact .refl _

theorem consumes_expToken (s : Str) : Consumes s (expToken s).2 := by
  cases s with
  | nil => exact .refl _
  | cons c s =>
    simp only [expToken]
    split_ifs with h
    · exact .cons (by rcases h.1 with rfl | rfl <;> decide)
        ((consumes_signToken s).trans (consumes_spanDigits _))
    · exact .refl _

theorem consumes_number {s r : Str} {v : Json} (h : number F s = some (v, r)) : Consumes s r := by
  obtain ⟨⟨i, f, t⟩, hn, he⟩ := Option.bind_eq_some_iff.mp h
  obtain ⟨⟨a, b⟩, hi, heq⟩ := Option.map_eq_some_iff.mp hn
  simp only [Prod.mk.injEq] at heq
  obtain ⟨-, -, rfl⟩ := heq
  have hr : r = (expToken (fracToken b).2).2 := by
    simp only at he
    split_ifs at he <;> (cases he; rfl)
  rw [hr]
  exact (consumes_intToken hi).trans ((consumes_fracToken b).trans (consumes_expToken _))

theorem consumes_scalar {s r : Str} {v : Json} (h : scalar F s = some (v, r)) : Consumes s r := by
  unfold scalar at h
  split at h
  · rename_i p hp
    cases h
    have hclean : ∀ q ∈ constants, ∀ c ∈ q.1, isClean c = true := by decide
    have hprefix : p.1.isPrefixOf s = true := by simpa using List.find?_some hp
    exact .of_isPrefix hprefix (hclean p (List.mem_of_find?_eq_some hp))
  · exact consumes_number h

theorem isClean_of_hexValue {c : Char} {n : Nat} (h : hexValue c = some n) : isClean c = true := by
  simp only [hexValue] at h
  have : 32 ≤ c.toNat := by split_ifs at h <;> omega
  simp [isClean, this]

theorem isClean_of_unescape {c x : Char} (h : unescape c = some x) : isClean c = true := by
  unfold unescape at h
  split_ifs at h with h1 h2 h3 h4 h5 h6
  · rcases h1 with rfl | rfl | rfl <;> decide
  all_goals (subst c; decide)

theorem consumes_units {s r : Str} {k : JStr} (h : Units s k r) : Consumes s r := by
  induction h with
  | quote => exact .cons (by decide) (.refl _)
  | hex digits _ ih =>
    simp only [hex4, Option.bind_eq_bind, Option.pure_def] at digits
    obtain ⟨_, ha, digits⟩ := Option.bind_eq_some_iff.mp digits
    obtain ⟨_, hb, digits⟩ := Option.bind_eq_some_iff.mp digits
    obtain ⟨_, hc, digits⟩ := Option.bind_eq_some_iff.mp digits
    obtain ⟨_, hd, -⟩ := Option.bind_eq_some_iff.mp digits
    exact .cons (by decide) (.cons (by decide) (.cons (isClean_of_hexValue ha)
      (.cons (isClean_of_hexValue hb) (.cons (isClean_of_hexValue hc)
        (.cons (isClean_of_hexValue hd) ih)))))
  | letter _ named _ ih => exact .cons (by decide) (.cons (isClean_of_unescape named) ih)
  | plain _ _ notControl _ ih => exact .cons (by simp [isClean, notControl]) ih

theorem consumes_stringToken {s r : Str} {k : JStr} (h : stringToken s = some (k, r)) :
    Consumes s r := by
  obtain ⟨p, hp, he⟩ := Option.map_eq_some_iff.mp h
  cases he
  exact consumes_units (units_of_stringUnits s p hp)

theorem consumes_of_skipWs {c : Char} {s t : Str} (h : skipWs s = c :: t) (hc : isClean c = true) :
    Consumes s t := (consumes_skipWs s).trans (h ▸ .cons hc (.refl t))

theorem rules_consumes :
    Rules F (fun s _ r => Consumes s r) (fun s _ r => Consumes s r)
      (fun s _ r => Consumes s r) where
  str h := .cons (by decide) (consumes_stringToken h)
  arrNil h := .cons (by decide) (consumes_of_skipWs h (by decide))
  arr h := .cons (by decide) ((consumes_skipWs _).trans h)
  objNil h := .cons (by decide) (consumes_of_skipWs h (by decide))
  obj h := .cons (by decide) ((consumes_skipWs _).trans h)
  scalar h := consumes_scalar h
  last h hend := h.trans (consumes_of_skipWs hend (by decide))
  next h hcomma hs :=
    h.trans ((consumes_of_skipWs hcomma (by decide)).trans ((consumes_skipWs _).trans hs))
  lastMember hk hcolon h hend :=
    have hvalue := (consumes_of_skipWs hcolon (by decide)).trans ((consumes_skipWs _).trans h)
    .cons (by decide) ((consumes_stringToken hk).trans
      (hvalue.trans (consumes_of_skipWs hend (by decide))))
  nextMember hk hcolon h hcomma hs :=
    have hvalue := (consumes_of_skipWs hcolon (by decide)).trans ((consumes_skipWs _).trans h)
    have hrest := (consumes_of_skipWs hcomma (by decide)).trans ((consumes_skipWs _).trans hs)
    .cons (by decide) ((consumes_stringToken hk).trans (hvalue.trans hrest))

/-- **A text that is read has no control character** but JSON whitespace. -/
theorem loads_clean {s : Str} {v : Json} (h : loads F s = some v) :
    ∀ c ∈ s, isClean c = true := by
  unfold loads at h
  split at h
  · rename_i w r hw
    split_ifs at h with hr
    have hread : Consumes s [] := by
      have := (rules_consumes.reading _).1 _ _ _ hw
      exact (consumes_skipWs s).trans (this.trans (hr ▸ consumes_skipWs r))
    obtain ⟨a, rfl, ha⟩ := hread
    simpa using ha
  · cases h

end Py.Json
