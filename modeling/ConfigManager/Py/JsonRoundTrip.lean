import ConfigManager.Py.Json

/-! # Reading JSON back

`json.loads(json.dumps(v)) = v` for well-formed values (`loads_dumps`).  What
makes a value well formed (`WF`) is what reading one gives it: the keys of an
object are distinct, a float is written as `dumps` writes it, and an integer is
short enough for `int`.  `JsonShape` shows that `loads` returns nothing else.
-/
namespace Py.Json

variable {F : Floats}

/-! ## Numbers -/

/-- A character a number token might go on with. -/
def isNumChar (c : Char) : Bool :=
  isDigit c || c == '.' || c == 'e' || c == 'E' || c == '+' || c == '-'

/-- What follows a number does not continue it. -/
def NumEnd (r : Str) : Prop := ∀ c s, r = c :: s → isNumChar c = false

theorem numEnd_nil : NumEnd [] := fun _ _ h => by cases h

theorem numEnd_cons {c : Char} {s : Str} (h : isNumChar c = false) : NumEnd (c :: s) := by
  rintro _ _ ⟨⟩
  exact h

theorem NumEnd.not_digit {c : Char} {s : Str} (h : NumEnd (c :: s)) : isDigit c = false := by
  have := h c s rfl
  simp only [isNumChar, Bool.or_eq_false_iff] at this
  exact this.1.1.1.1.1

theorem NumEnd.ne {c : Char} {s : Str} (h : NumEnd (c :: s)) :
    c ≠ '.' ∧ c ≠ 'e' ∧ c ≠ 'E' ∧ c ≠ '+' ∧ c ≠ '-' := by
  have := h c s rfl
  simp only [isNumChar, Bool.or_eq_false_iff, beq_eq_false_iff_ne] at this
  tauto

theorem spanDigits_append {s r : Str} (h : NumEnd r) :
    spanDigits (s ++ r) = ((spanDigits s).1, (spanDigits s).2 ++ r) := by
  induction s with
  | nil =>
    cases r with
    | nil => rfl
    | cons c r => simp [spanDigits, h.not_digit]
  | cons c s ih =>
    by_cases hc : isDigit c = true
    · simp only [spanDigits, Prod.mk.injEq] at ih
      simp [spanDigits, hc, ih.1, ih.2]
    · simp [spanDigits, hc]

theorem natToken_append {s r : Str} {p : Str × Str} (h : NumEnd r) (hs : natToken s = some p) :
    natToken (s ++ r) = some (p.1, p.2 ++ r) := by
  cases s with
  | nil => simp [natToken] at hs
  | cons c s =>
    simp only [natToken, List.cons_append] at hs ⊢
    split_ifs at hs ⊢
    · cases hs; rfl
    · cases hs; rw [spanDigits_append h]

theorem intToken_append {s r : Str} {p : Str × Str} (h : NumEnd r) (hs : intToken s = some p) :
    intToken (s ++ r) = some (p.1, p.2 ++ r) := by
  cases s with
  | nil => simp [intToken] at hs
  | cons c s =>
    simp only [intToken, List.cons_append] at hs ⊢
    split_ifs at hs ⊢
    · obtain ⟨q, hq, rfl⟩ := Option.map_eq_some_iff.mp hs
      rw [natToken_append h hq]
      rfl
    · exact natToken_append h hs

theorem fracToken_append {s r : Str} (h : NumEnd r) :
    fracToken (s ++ r) = ((fracToken s).1, (fracToken s).2 ++ r) := by
  cases s with
  | nil =>
    cases r with
    | nil => rfl
    | cons c r => simp [fracToken, h.ne.1]
  | cons c s =>
    simp only [fracToken, List.cons_append, spanDigits_append h]
    split_ifs <;> rfl

theorem signToken_append {s r : Str} (h : NumEnd r) :
    signToken (s ++ r) = ((signToken s).1, (signToken s).2 ++ r) := by
  cases s with
  | nil =>
    cases r with
    | nil => rfl
    | cons c r => simp [signToken, h.ne.2.2.2]
  | cons c s =>
    simp only [signToken, List.cons_append]
    split_ifs <;> rfl

theorem expToken_append {s r : Str} (h : NumEnd r) :
    expToken (s ++ r) = ((expToken s).1, (expToken s).2 ++ r) := by
  cases s with
  | nil =>
    cases r with
    | nil => rfl
    | cons c r => simp [expToken, h.ne.2.1, h.ne.2.2.1]
  | cons c s =>
    simp only [expToken, List.cons_append, signToken_append h, spanDigits_append h]
    split_ifs <;> rfl

/-- A number token does not depend on what ends it. -/
theorem numberToken_append {s r : Str} {i f t : Str} (h : NumEnd r)
    (hs : numberToken s = some (i, f, t)) : numberToken (s ++ r) = some (i, f, t ++ r) := by
  obtain ⟨p, hp, he⟩ := Option.map_eq_some_iff.mp hs
  simp only [Prod.mk.injEq] at he
  obtain ⟨rfl, rfl, rfl⟩ := he
  simp only [numberToken, intToken_append h hp, Option.map_some, fracToken_append h,
    expToken_append h]

theorem isDigit_of_isDigit {c : Char} (h : c.isDigit = true) : isDigit c = true := by
  simp only [Char.isDigit, Bool.and_eq_true, decide_eq_true_eq, ge_iff_le,
    UInt32.le_iff_toNat_le] at h
  have h0 : 48 ≤ c.toNat := h.1
  have h9 : c.toNat ≤ 57 := h.2
  simp [isDigit, h0, h9]

theorem toDigits_isDigit {n : Nat} {c : Char} (h : c ∈ Nat.toDigits 10 n) : isDigit c = true :=
  isDigit_of_isDigit (Nat.isDigit_of_mem_toDigits (by decide) (by decide) h)

/-- The digits of a positive number do not start with a zero. -/
theorem toDigits_head (n : Nat) (hn : 0 < n) :
    ∃ c s, Nat.toDigits 10 n = c :: s ∧ c ≠ '0' := by
  induction n using Nat.strongRecOn with
  | ind n ih =>
    rw [Nat.toDigits_eq_if (by decide)]
    split
    · rename_i hlt
      have hd : ∀ d < 10, 0 < d → Nat.digitChar d ≠ '0' := by decide
      exact ⟨_, [], rfl, hd n hlt hn⟩
    · obtain ⟨c, s, he, hc⟩ := ih (n / 10) (by omega) (by omega)
      exact ⟨c, s ++ [Nat.digitChar (n % 10)], by rw [he]; rfl, hc⟩

theorem natToken_toDigits (n : Nat) :
    natToken (Nat.toDigits 10 n) = some (Nat.toDigits 10 n, []) := by
  rcases Nat.eq_zero_or_pos n with rfl | hn
  · rfl
  · obtain ⟨c, s, he, hc⟩ := toDigits_head n hn
    have hall : ∀ x ∈ c :: s, isDigit x = true := fun x hx => toDigits_isDigit (he ▸ hx)
    have hs : ∀ x ∈ s, isDigit x = true := fun x hx => hall x (List.mem_cons_of_mem _ hx)
    rw [he, natToken, if_neg hc, if_pos (hall c (List.mem_cons_self ..))]
    simp only [spanDigits, List.takeWhile_eq_self_iff.mpr hs, List.dropWhile_eq_nil_iff.mpr hs]

theorem toDigits_ne_minus (n : Nat) : ∀ c s, Nat.toDigits 10 n = c :: s → c ≠ '-' := by
  rintro c s h rfl
  have := toDigits_isDigit (n := n) (c := '-') (by rw [h]; exact List.mem_cons_self ..)
  exact absurd this (by decide)

theorem intToken_dumpsInt (n : Int) : intToken (dumpsInt n) = some (dumpsInt n, []) := by
  unfold dumpsInt
  split
  · rw [intToken, if_pos rfl, natToken_toDigits]
    rfl
  · obtain ⟨c, s, he⟩ := List.exists_cons_of_ne_nil (Nat.toDigits_ne_nil (n := n.natAbs) (b := 10))
    rw [he, intToken, if_neg (toDigits_ne_minus _ _ _ he), ← he, natToken_toDigits]

theorem numberToken_dumpsInt (n : Int) : numberToken (dumpsInt n) = some (dumpsInt n, [], []) := by
  rw [numberToken, intToken_dumpsInt]
  rfl

theorem intValue_dumpsInt (n : Int) : intValue (dumpsInt n) = n := by
  unfold dumpsInt
  split
  · rw [intValue, if_pos rfl, Nat.ofDigitChars_ten_toDigits]
    omega
  · obtain ⟨c, s, he⟩ := List.exists_cons_of_ne_nil (Nat.toDigits_ne_nil (n := n.natAbs) (b := 10))
    rw [he, intValue, if_neg (toDigits_ne_minus _ _ _ he), ← he, Nat.ofDigitChars_ten_toDigits]
    omega

/-- A number without a sign is a zero, or digits that start with another one. -/
theorem natToken_cases {s a b : Str} (h : natToken s = some (a, b)) :
    ∃ c t, s = c :: t ∧ isDigit c = true ∧
      ((c = '0' ∧ a = [c] ∧ b = t) ∨
        (c ≠ '0' ∧ a = c :: (spanDigits t).1 ∧ b = (spanDigits t).2)) := by
  cases s with
  | nil => simp [natToken] at h
  | cons c s =>
    simp only [natToken] at h
    split_ifs at h with h0 hd
    · cases h
      subst h0
      exact ⟨'0', b, rfl, by decide, .inl ⟨rfl, rfl, rfl⟩⟩
    · cases h
      exact ⟨c, s, rfl, hd, .inr ⟨h0, rfl, rfl⟩⟩

/-- An integer is a number without a sign, or one behind a minus. -/
theorem intToken_cases {s a b : Str} (h : intToken s = some (a, b)) :
    natToken s = some (a, b) ∨
      ∃ s' a', s = '-' :: s' ∧ a = '-' :: a' ∧ natToken s' = some (a', b) := by
  cases s with
  | nil => simp [intToken] at h
  | cons c s =>
    simp only [intToken] at h
    split_ifs at h with hc
    · obtain ⟨⟨a', b'⟩, hn, he⟩ := Option.map_eq_some_iff.mp h
      cases he
      exact .inr ⟨s, a', by rw [hc], rfl, hn⟩
    · exact .inl h

/-- A number token starts with a digit, or with a minus and a digit. -/
theorem numberToken_head {s i f r : Str} (h : numberToken s = some (i, f, r)) :
    (∃ c t, s = c :: t ∧ isDigit c = true) ∨ (∃ c t, s = '-' :: c :: t ∧ isDigit c = true) := by
  obtain ⟨p, hp, -⟩ := Option.map_eq_some_iff.mp h
  rcases intToken_cases hp with hn | ⟨s, a, rfl, -, hn⟩
  · obtain ⟨c, t, rfl, hc, -⟩ := natToken_cases hn
    exact .inl ⟨c, t, rfl, hc⟩
  · obtain ⟨c, t, rfl, hc, -⟩ := natToken_cases hn
    exact .inr ⟨c, t, rfl, hc⟩

/-- No constant starts like a number. -/
theorem scalar_of_number {s i f r : Str} (h : numberToken s = some (i, f, r)) :
    scalar F s = number F s := by
  have hne : ∀ c : Char, isDigit c = true →
      c ≠ 'n' ∧ c ≠ 't' ∧ c ≠ 'f' ∧ c ≠ 'N' ∧ c ≠ 'I' ∧ c ≠ '-' := by
    rintro c hc
    refine ⟨?_, ?_, ?_, ?_, ?_, ?_⟩ <;> (rintro rfl; revert hc; decide)
  have hnone : constants.find? (fun p => p.1.isPrefixOf s) = none := by
    rw [List.find?_eq_none]
    rcases numberToken_head h with ⟨c, t, rfl, hc⟩ | ⟨c, t, rfl, hc⟩
    · obtain ⟨h1, h2, h3, h4, h5, h6⟩ := hne c hc
      simp [constants, h1.symm, h2.symm, h3.symm, h4.symm, h5.symm, h6.symm]
    · obtain ⟨-, -, -, -, h5, -⟩ := hne c hc
      simp [constants, h5.symm]
  simp [scalar, hnone]

/-! ## Strings -/

theorem stringUnits_quote (s : Str) : stringUnits ('"' :: s) = some ([], s) := by
  rw [stringUnits.eq_def]
  rfl

/-- An escape of one letter. -/
theorem stringUnits_letter {e x : Char} (s : Str) (he : e ≠ 'u') (hx : unescape e = some x) :
    stringUnits ('\\' :: e :: s) = (stringUnits s).map fun p => (.scalar x :: p.1, p.2) := by
  rw [stringUnits.eq_def]
  simp only [if_neg (show ('\\' : Char) ≠ '"' by decide), if_neg he, hx, Option.bind_some, if_true]

theorem stringUnits_hex {a b c d : Char} {n : Nat} (s : Str) (h : hex4 a b c d = some n) :
    stringUnits ('\\' :: 'u' :: a :: b :: c :: d :: s) =
      (stringUnits s).map fun p => (unit n :: p.1, p.2) := by
  rw [stringUnits.eq_def]
  simp only [if_neg (show ('\\' : Char) ≠ '"' by decide), if_true, h, Option.bind_some]

theorem stringUnits_plain {c : Char} (s : Str) (hq : c ≠ '"') (hb : c ≠ '\\')
    (hc : 32 ≤ c.toNat) :
    stringUnits (c :: s) = (stringUnits s).map fun p => (.scalar c :: p.1, p.2) := by
  rw [stringUnits.eq_def]
  simp only [if_neg hq, if_neg hb, if_neg (Nat.not_lt.mpr hc)]

theorem stringUnits_escape (c : Char) (r : Str) :
    stringUnits (escape c ++ r) = (stringUnits r).map fun p => (.scalar c :: p.1, p.2) := by
  unfold escape
  split_ifs with h1 h2 h3 h4 h5 h6 h7 h8
  · exact stringUnits_letter r (by decide) (by rw [h1]; rfl)
  · exact stringUnits_letter r (by decide) (by rw [h2]; rfl)
  · exact stringUnits_letter r (by decide) (by rw [h3]; rfl)
  · exact stringUnits_letter r (by decide) (by rw [h4]; rfl)
  · exact stringUnits_letter r (by decide) (by rw [h5]; rfl)
  · have hc : c = Char.ofNat 8 := by rw [← h6, Char.ofNat_toNat]
    exact stringUnits_letter r (by decide) (by rw [hc]; rfl)
  · have hc : c = Char.ofNat 12 := by rw [← h7, Char.ofNat_toNat]
    exact stringUnits_letter r (by decide) (by rw [hc]; rfl)
  · have hhex : ∀ d < 16, hexValue (hexDigit d) = some d := by decide
    have hx := hhex (c.toNat / 16) (by omega)
    have hy := hhex (c.toNat % 16) (by omega)
    have h4 : hex4 '0' '0' (hexDigit (c.toNat / 16)) (hexDigit (c.toNat % 16)) = some c.toNat := by
      have h0 : hexValue '0' = some 0 := rfl
      simp only [hex4, h0, hx, hy, Option.bind_eq_bind, Option.bind_some, Option.pure_def,
        Option.some.injEq]
      omega
    have hu : unit c.toNat = .scalar c := by
      rw [unit, if_neg (by omega), Char.ofNat_toNat]
    exact (stringUnits_hex r h4).trans (by rw [hu])
  · exact stringUnits_plain r h1 h2 (Nat.not_lt.mp h8)

/-- A text, as a string token after its opening quote. -/
theorem stringUnits_dumpsString (t : Str) (r : Str) :
    stringUnits (dumpsString (ofText t) ++ r) = some (ofText t, r) := by
  induction t with
  | nil => exact stringUnits_quote r
  | cons c t ih =>
    have he : dumpsString (ofText (c :: t)) ++ r = escape c ++ (dumpsString (ofText t) ++ r) := by
      simp [dumpsString, ofText, escapeUnit]
    rw [he, stringUnits_escape, ih]
    rfl

theorem joinSurrogates_ofText (t : Str) : joinSurrogates (ofText t) = ofText t := by
  induction t with
  | nil => rfl
  | cons c t ih =>
    change joinSurrogates (.scalar c :: ofText t) = _
    rw [joinSurrogates, ih]
    · rfl
    · simp

theorem stringToken_dumpsString (t : Str) (r : Str) :
    stringToken (dumpsString (ofText t) ++ r) = some (ofText t, r) := by
  rw [stringToken, stringUnits_dumpsString, Option.map_some, joinSurrogates_ofText]

theorem exists_ofText {s : JStr} (h : isText s = true) : ∃ t, s = ofText t := by
  induction s with
  | nil => exact ⟨[], rfl⟩
  | cons c s ih =>
    simp only [isText, List.all_cons, Bool.and_eq_true] at h
    obtain ⟨t, rfl⟩ := ih h.2
    cases c with
    | scalar c => exact ⟨c :: t, rfl⟩
    | lone _ => simp at h

theorem isText_ofText (t : Str) : isText (ofText t) = true := by
  simp [isText, ofText]

/-! ## Well-formed values -/

variable (F) in
/-- A float as `dumps` writes it. -/
def IsFloatText (t : Str) : Prop :=
  IsFloatLit t ∧ F.repr t = t ∨
    t = "NaN".toList ∨ t = "Infinity".toList ∨ t = "-Infinity".toList

variable (F) in
mutual
/-- What reading a value gives it: integers short enough to read, floats as
`dumps` writes them, distinct keys. -/
def WF : Json → Prop
  | null | bool _ | str _ => True
  | int n => (dumpsInt n).countP isDigit ≤ maxStrDigits
  | float t => IsFloatText F t
  | arr vs => WFElements vs
  | obj ms => (ms.map Prod.fst).Nodup ∧ WFMembers ms

def WFElements : List Json → Prop
  | [] => True
  | v :: vs => WF v ∧ WFElements vs

def WFMembers : List (JStr × Json) → Prop
  | [] => True
  | (_, v) :: ms => WF v ∧ WFMembers ms
end

/-- What a written value starts with. -/
def IsHead (c : Char) : Prop := isWs c = false ∧ c ≠ ']' ∧ c ≠ '}'

theorem isHead_of_isDigit {c : Char} (h : isDigit c = true) : IsHead c := by
  refine ⟨?_, ?_, ?_⟩
  · simp only [isWs, Bool.or_eq_false_iff, beq_eq_false_iff_ne]
    refine ⟨⟨⟨?_, ?_⟩, ?_⟩, ?_⟩ <;> (rintro rfl; revert h; decide)
  · rintro rfl; revert h; decide
  · rintro rfl; revert h; decide

theorem numberToken_isHead {s i f r : Str} (h : numberToken s = some (i, f, r)) :
    ∃ c t, s = c :: t ∧ IsHead c ∧ c ≠ '"' ∧ c ≠ '[' ∧ c ≠ '{' := by
  rcases numberToken_head h with ⟨c, t, rfl, hc⟩ | ⟨c, t, rfl, -⟩
  · refine ⟨c, t, rfl, isHead_of_isDigit hc, ?_, ?_, ?_⟩ <;> (rintro rfl; revert hc; decide)
  · exact ⟨'-', c :: t, rfl, ⟨by decide, by decide, by decide⟩, by decide, by decide, by decide⟩

theorem dumps_head {v : Json} (h : WF F v) : ∃ c s, dumps v = c :: s ∧ IsHead c := by
  have known : ∀ c ∈ ['n', 't', 'f', 'N', 'I', '-', '"', '[', '{'], IsHead c := by
    simp only [IsHead]; decide
  cases v with
  | null => exact ⟨_, _, rfl, known _ (by decide)⟩
  | bool b => cases b <;> exact ⟨_, _, rfl, known _ (by decide)⟩
  | int n =>
    obtain ⟨c, t, he, hc, -⟩ := numberToken_isHead (numberToken_dumpsInt n)
    exact ⟨c, t, by rw [dumps, he], hc⟩
  | float t =>
    rcases h with ⟨⟨i, f, -, -, hl⟩, -⟩ | rfl | rfl | rfl
    · obtain ⟨c, t, he, hc, -⟩ := numberToken_isHead hl
      exact ⟨c, t, by rw [dumps, he], hc⟩
    all_goals exact ⟨_, _, rfl, known _ (by decide)⟩
  | str s => exact ⟨_, _, by rw [dumps], known _ (by decide)⟩
  | arr vs => cases vs <;> exact ⟨'[', _, rfl, known _ (by decide)⟩
  | obj ms => rcases ms with _ | ⟨⟨k, v⟩, ms⟩ <;> exact ⟨'{', _, rfl, known _ (by decide)⟩

theorem skipWs_head {c : Char} {s : Str} (h : IsHead c) : skipWs (c :: s) = c :: s := by
  simp [skipWs, h.1]

theorem skipWs_dumps {v : Json} (h : WF F v) (r : Str) : skipWs (dumps v ++ r) = dumps v ++ r := by
  obtain ⟨c, s, he, hc⟩ := dumps_head h
  rw [he, List.cons_append, skipWs_head hc]

theorem numEnd_dumpsElements (vs : List Json) (r : Str) : NumEnd (dumpsElements vs ++ r) := by
  cases vs <;> exact numEnd_cons (by decide)

theorem numEnd_dumpsMembers (ms : List (JStr × Json)) (r : Str) :
    NumEnd (dumpsMembers ms ++ r) := by
  rcases ms with _ | ⟨⟨k, v⟩, ms⟩ <;> exact numEnd_cons (by decide)

/-! ## Reading a written value -/

theorem value_scalar {c : Char} {s : Str} (fuel : Nat) (hq : c ≠ '"') (hb : c ≠ '[')
    (hc : c ≠ '{') : value F (fuel + 1) (c :: s) = scalar F (c :: s) := by
  rw [value, if_neg hq, if_neg hb, if_neg hc]

/-- A number, as a value. -/
theorem value_number {t i f : Str} (r : Str) (fuel : Nat) (h : numberToken t = some (i, f, []))
    (hr : NumEnd r) : value F (fuel + 1) (t ++ r) = number F (t ++ r) := by
  have hn := numberToken_append hr h
  obtain ⟨c, s, rfl, -, hq, hb, hc⟩ := numberToken_isHead h
  rw [List.cons_append, value_scalar fuel hq hb hc]
  exact scalar_of_number hn

theorem dictOf_aux {ms acc : List (JStr × Json)} (h : ((acc ++ ms).map Prod.fst).Nodup) :
    ms.foldl (fun d m => put m.1 m.2 d) acc = acc ++ ms := by
  have put_new : ∀ {k : JStr} {v : Json} {d : List (JStr × Json)}, k ∉ d.map Prod.fst →
      put k v d = d ++ [(k, v)] := by
    intro k v d hk
    induction d with
    | nil => rfl
    | cons m d ih =>
      obtain ⟨l, w⟩ := m
      simp only [List.map_cons, List.mem_cons, not_or] at hk
      rw [put, if_neg (Ne.symm hk.1), ih hk.2, List.cons_append]
  induction ms generalizing acc with
  | nil => simp
  | cons m ms ih =>
    have hk : m.1 ∉ acc.map Prod.fst := by
      rw [List.map_append, List.map_cons, List.nodup_append] at h
      exact fun hm => h.2.2 _ hm _ (List.mem_cons_self ..) rfl
    have hn : ((acc ++ [m] ++ ms).map Prod.fst).Nodup := by simpa using h
    rw [List.foldl_cons, put_new hk, ih hn, List.append_assoc, List.singleton_append]

/-- Members with distinct keys are a dictionary as they are. -/
theorem dictOf_of_nodup {ms : List (JStr × Json)} (h : (ms.map Prod.fst).Nodup) :
    dictOf ms = ms := by
  have haux : ms.foldl (fun d m => put m.1 m.2 d) [] = [] ++ ms := dictOf_aux h
  simpa [dictOf] using haux

/-- A constant, whatever follows it. -/
theorem value_constant {t : Str} {v : Json} (h : (t, v) ∈ constants) (r : Str) (fuel : Nat) :
    value F (fuel + 1) (t ++ r) = some (v, r) := by
  simp only [constants, List.mem_cons, List.not_mem_nil, or_false, Prod.mk.injEq] at h
  rcases h with ⟨rfl, rfl⟩ | ⟨rfl, rfl⟩ | ⟨rfl, rfl⟩ | ⟨rfl, rfl⟩ | ⟨rfl, rfl⟩ | ⟨rfl, rfl⟩ <;>
    simp [value, scalar, constants]

theorem skipWs_space (s : Str) : skipWs (' ' :: s) = skipWs s := rfl

theorem value_array {fuel : Nat} {s r : Str} {c : Char} {vs : List Json} (hc : IsHead c)
    (h : elements F fuel (c :: s) = some (vs, r)) :
    value F (fuel + 1) ('[' :: c :: s) = some (arr vs, r) := by
  rw [value, if_neg (by decide), if_pos rfl, skipWs_head hc]
  split
  · rename_i heq
    exact absurd (List.cons.inj heq).1 hc.2.1
  · rw [h]; rfl

theorem elements_cons {fuel : Nat} {s r : Str} {v : Json} (h : value F fuel s = some (v, r)) :
    elements F (fuel + 1) s = match skipWs r with
      | ']' :: r => some ([v], r)
      | ',' :: r => (elements F fuel (skipWs r)).map fun q => (v :: q.1, q.2)
      | _ => none := by
  rw [elements, h]
  rfl

theorem value_object {fuel : Nat} {s r : Str} {ms : List (JStr × Json)}
    (h : members F fuel ('"' :: s) = some (ms, r)) :
    value F (fuel + 1) ('{' :: '"' :: s) = some (obj (dictOf ms), r) := by
  rw [value, if_neg (by decide), if_neg (by decide), if_pos rfl]
  change ((members F fuel ('"' :: s)).map fun p => (obj (dictOf p.1), p.2)) = _
  rw [h]; rfl

theorem members_cons {fuel : Nat} {s u t r : Str} {k : JStr} {v : Json}
    (hk : stringToken s = some (k, u)) (hu : skipWs u = ':' :: t)
    (h : value F fuel (skipWs t) = some (v, r)) :
    members F (fuel + 1) ('"' :: s) = match skipWs r with
      | '}' :: r => some ([(k, v)], r)
      | ',' :: r => (members F fuel (skipWs r)).map fun q => ((k, v) :: q.1, q.2)
      | _ => none := by
  rw [members, if_pos rfl, hk, Option.bind_some, hu]
  change ((value F fuel (skipWs t)).bind _) = _
  rw [h]
  rfl

mutual
/-- A written value is read back, whatever follows it. -/
theorem value_dumps : ∀ v : Json, WF F v → encodable v = true → ∀ r, NumEnd r →
    ∀ fuel, 2 * (dumps v).length + 1 ≤ fuel → value F fuel (dumps v ++ r) = some (v, r)
  | _, _, _, _, _, 0, hf => by omega
  | null, _, _, r, _, fuel + 1, _ => value_constant (by decide) r fuel
  | bool true, _, _, r, _, fuel + 1, _ => value_constant (by decide) r fuel
  | bool false, _, _, r, _, fuel + 1, _ => value_constant (by decide) r fuel
  | int n, h, _, r, hr, fuel + 1, _ => by
      rw [dumps, value_number r fuel (numberToken_dumpsInt n) hr, number,
        numberToken_append hr (numberToken_dumpsInt n)]
      simp only [Option.bind_some, if_true, if_neg (Nat.not_lt.mpr h), intValue_dumpsInt,
        List.nil_append]
  | float t, h, _, r, hr, fuel + 1, _ => by
      rw [dumps]
      rcases h with ⟨⟨i, f, hf, ht, hl⟩, hrep⟩ | rfl | rfl | rfl
      · rw [value_number r fuel hl hr, number, numberToken_append hr hl]
        simp only [Option.bind_some, if_neg hf, ← ht, hrep, List.nil_append]
      all_goals exact value_constant (by decide) r fuel
  | str s, _, he, r, _, fuel + 1, _ => by
      obtain ⟨t, rfl⟩ := exists_ofText he
      rw [dumps, List.cons_append, value, if_pos rfl, stringToken_dumpsString]
      rfl
  | arr [], _, _, r, _, fuel + 1, _ => by
      rw [dumps, List.cons_append, value, if_neg (by decide), if_pos rfl]
      simp [skipWs, isWs]
  | arr (v :: vs), h, he, r, _, fuel + 1, hf => by
      obtain ⟨c, t, hd, hc⟩ := dumps_head h.1
      have hread := elements_dumps v vs h he r fuel (by
        simp only [dumps, List.cons_append, List.length_cons, List.length_append] at hf
        omega)
      rw [hd, List.cons_append] at hread
      rw [dumps, List.cons_append, List.cons_append, List.append_assoc, hd, List.cons_append]
      exact value_array hc hread
  | obj [], _, _, r, _, fuel + 1, _ => by
      rw [dumps, List.cons_append, value, if_neg (by decide), if_neg (by decide), if_pos rfl]
      simp [skipWs, isWs]
  | obj ((k, v) :: ms), h, he, r, _, fuel + 1, hf => by
      have hread := members_dumps k v ms h.2 he r fuel (by
        simp only [dumps, List.cons_append, List.length_cons, List.length_append] at hf
        omega)
      have hobj := value_object hread
      rw [dictOf_of_nodup h.1] at hobj
      simpa [dumps] using hobj

/-- The elements of a written array. -/
theorem elements_dumps : ∀ (v : Json) (vs : List Json), WFElements F (v :: vs) →
    encodableList (v :: vs) = true → ∀ (r : Str) (fuel : Nat),
    2 * ((dumps v).length + (dumpsElements vs).length) ≤ fuel →
    elements F fuel (dumps v ++ (dumpsElements vs ++ r)) = some (v :: vs, r)
  | v, vs, h, he, r, 0, hf => by
      have : (dumpsElements vs).length ≠ 0 := by cases vs <;> simp [dumpsElements]
      omega
  | v, [], h, he, r, fuel + 1, hf => by
      simp only [encodableList, Bool.and_eq_true] at he
      have hv := value_dumps v h.1 he.1 (dumpsElements [] ++ r) (numEnd_dumpsElements [] r) fuel
        (by simp only [dumpsElements, List.length_cons, List.length_nil] at hf; omega)
      rw [elements_cons hv]
      rfl
  | v, w :: vs, h, he, r, fuel + 1, hf => by
      have he' := he
      rw [encodableList, Bool.and_eq_true] at he'
      have hl : (dumpsElements (w :: vs)).length =
          2 + (dumps w).length + (dumpsElements vs).length := by
        simp [dumpsElements]; omega
      have hv := value_dumps v h.1 he'.1 (dumpsElements (w :: vs) ++ r)
        (numEnd_dumpsElements _ r) fuel (by omega)
      have hw := elements_dumps w vs h.2 he'.2 r fuel (by omega)
      rw [elements_cons hv]
      change (elements F fuel (skipWs (dumps w ++ dumpsElements vs ++ r))).map _ = _
      rw [List.append_assoc, skipWs_dumps h.2.1, hw]
      rfl

/-- The members of a written object. -/
theorem members_dumps : ∀ (k : JStr) (v : Json) (ms : List (JStr × Json)),
    WFMembers F ((k, v) :: ms) → encodableMembers ((k, v) :: ms) = true →
    ∀ (r : Str) (fuel : Nat),
    2 * ((dumpsString k).length + (dumps v).length + (dumpsMembers ms).length) ≤ fuel →
    members F fuel ('"' :: (dumpsString k ++ ':' :: ' ' :: (dumps v ++ (dumpsMembers ms ++ r)))) =
      some ((k, v) :: ms, r)
  | k, v, ms, h, he, r, 0, hf => by
      have : (dumpsMembers ms).length ≠ 0 := by
        rcases ms with _ | ⟨⟨k, v⟩, ms⟩ <;> simp [dumpsMembers]
      omega
  | k, v, [], h, he, r, fuel + 1, hf => by
      simp only [encodableMembers, Bool.and_eq_true] at he
      obtain ⟨t, rfl⟩ := exists_ofText he.1.1
      have hv := value_dumps v h.1 he.1.2 (dumpsMembers [] ++ r) (numEnd_dumpsMembers [] r) fuel
        (by simp only [dumpsMembers, List.length_cons, List.length_nil] at hf; omega)
      rw [members_cons (stringToken_dumpsString _ _) rfl
        (by rw [skipWs_space, skipWs_dumps h.1, hv])]
      rfl
  | k, v, (l, w) :: ms, h, he, r, fuel + 1, hf => by
      have he' := he
      rw [encodableMembers, Bool.and_eq_true, Bool.and_eq_true] at he'
      obtain ⟨t, rfl⟩ := exists_ofText he'.1.1
      have hl : (dumpsMembers ((l, w) :: ms)).length =
          5 + (dumpsString l).length + (dumps w).length + (dumpsMembers ms).length := by
        simp [dumpsMembers]; omega
      have hv := value_dumps v h.1 he'.1.2 (dumpsMembers ((l, w) :: ms) ++ r)
        (numEnd_dumpsMembers _ r) fuel (by omega)
      have hw := members_dumps l w ms h.2 he'.2 r fuel (by omega)
      have heq : dumpsMembers ((l, w) :: ms) ++ r = ',' :: ' ' :: '"' ::
          (dumpsString l ++ ':' :: ' ' :: (dumps w ++ (dumpsMembers ms ++ r))) := by
        simp [dumpsMembers]
      rw [members_cons (stringToken_dumpsString _ _) rfl
        (by rw [skipWs_space, skipWs_dumps h.1, hv]), heq]
      change (members F fuel ('"' :: _)).map _ = _
      rw [hw]
      rfl
end

theorem dumps_ne_nil {v : Json} (h : WF F v) : dumps v ≠ [] := by
  obtain ⟨c, s, hs, -⟩ := dumps_head h
  simp [hs]

/-- **Reading back what was written.** -/
theorem loads_dumps {v : Json} (h : WF F v) (he : encodable v = true) :
    loads F (dumps v) = some v := by
  have hv := value_dumps v h he [] numEnd_nil (2 * (dumps v).length + 1) (Nat.le_refl _)
  have hs := skipWs_dumps h []
  rw [List.append_nil] at hv hs
  rw [loads, hs, hv]
  rfl

end Py.Json
