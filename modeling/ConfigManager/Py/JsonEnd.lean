import ConfigManager.Py.JsonShape

/-! # Where a JSON text ends

A value that a quote, a bracket or a brace closes is read the same whatever stands
behind it, and a number is unless what stands behind continues it
(`reading_append`).  So behind the text of a whole object there is whitespace or an
error (`loads_append`).
-/
namespace Py.Json

variable {F : Floats}

/-! ## Tokens -/

theorem spanDigits_text (s : Str) : (spanDigits s).1 ++ (spanDigits s).2 = s :=
  List.takeWhile_append_dropWhile

theorem natToken_text {s a b : Str} (h : natToken s = some (a, b)) : a ++ b = s := by
  obtain ⟨c, s, rfl, -, ⟨-, rfl, rfl⟩ | ⟨-, rfl, rfl⟩⟩ := natToken_cases h
  · rfl
  · rw [List.cons_append, spanDigits_text]

theorem intToken_text {s a b : Str} (h : intToken s = some (a, b)) : a ++ b = s := by
  rcases intToken_cases h with hn | ⟨s, a, rfl, rfl, hn⟩
  · exact natToken_text hn
  · rw [List.cons_append, natToken_text hn]

theorem fracToken_text (s : Str) : (fracToken s).1 ++ (fracToken s).2 = s := by
  cases s with
  | nil => rfl
  | cons c s =>
    simp only [fracToken]
    split_ifs with h
    · rw [List.cons_append, spanDigits_text, h.1]
    · rfl

theorem signToken_text (s : Str) : (signToken s).1 ++ (signToken s).2 = s := by
  cases s with
  | nil => rfl
  | cons c s =>
    simp only [signToken]
    split_ifs <;> rfl

theorem expToken_text (s : Str) : (expToken s).1 ++ (expToken s).2 = s := by
  cases s with
  | nil => rfl
  | cons c s =>
    simp only [expToken]
    split_ifs
    · rw [List.cons_append, List.append_assoc, spanDigits_text, signToken_text]
    · rfl

theorem numberToken_text {s i f r : Str} (h : numberToken s = some (i, f, r)) :
    i ++ f ++ r = s := by
  obtain ⟨⟨a, b⟩, hi, he⟩ := Option.map_eq_some_iff.mp h
  simp only [Prod.mk.injEq] at he
  obtain ⟨rfl, rfl, rfl⟩ := he
  rw [List.append_assoc, List.append_assoc, expToken_text, fracToken_text, intToken_text hi]

/-- A number is read the same before anything that does not continue it. -/
theorem number_append {s r x : Str} {v : Json} (h : number F s = some (v, r))
    (hx : NumEnd (r ++ x)) : number F (s ++ x) = some (v, r ++ x) := by
  obtain ⟨⟨i, f, t⟩, hn, he⟩ := Option.bind_eq_some_iff.mp h
  have ht : t = r := by
    simp only at he
    split_ifs at he <;> (cases he; rfl)
  subst ht
  have hs : s ++ x = i ++ f ++ (t ++ x) := by
    rw [← numberToken_text hn, List.append_assoc]
  rw [number, hs, numberToken_append hx (numberToken_shorten hn)]
  -- What is made of the token does not depend on what is left.
  simp only [Option.bind_some] at he ⊢
  split_ifs at he ⊢
  · cases he; rfl
  · cases he; rfl

theorem scalar_append {s r x : Str} {v : Json} (h : scalar F s = some (v, r))
    (hx : NumEnd (r ++ x)) : scalar F (s ++ x) = some (v, r ++ x) := by
  unfold scalar at h
  split at h
  · rename_i p hp
    cases h
    have hmem := List.mem_of_find?_eq_some hp
    obtain ⟨t, rfl⟩ : p.1 <+: s := by
      simpa [List.isPrefixOf_iff_prefix] using List.find?_some hp
    have hall : ∀ q ∈ constants, ∀ y, scalar F (q.1 ++ y) = some (q.2, y) := by
      simp [constants, scalar]
    rw [List.append_assoc, hall p hmem, List.drop_left]
  · obtain ⟨⟨i, f, t⟩, hn, -⟩ := Option.bind_eq_some_iff.mp h
    have hread := number_append h hx
    obtain ⟨⟨i', f', t'⟩, hn', -⟩ := Option.bind_eq_some_iff.mp hread
    rw [scalar_of_number hn', hread]

theorem stringUnits_append {s r : Str} {k : JStr} (h : Units s k r) (x : Str) :
    stringUnits (s ++ x) = some (k, r ++ x) := by
  induction h with
  | quote => exact stringUnits_quote _
  | @hex a b c d _ s _ _ digits _ ih =>
    show stringUnits ('\\' :: 'u' :: a :: b :: c :: d :: (s ++ x)) = _
    rw [stringUnits_hex _ digits, ih]
    rfl
  | @letter e _ s _ _ plain named _ ih =>
    show stringUnits ('\\' :: e :: (s ++ x)) = _
    rw [stringUnits_letter _ plain named, ih]
    rfl
  | plain notQuote notEscape notControl _ ih =>
    rw [List.cons_append, stringUnits_plain _ notQuote notEscape notControl, ih]
    rfl

/-- A string ends at its quote. -/
theorem stringToken_append {s : Str} {p : JStr × Str} (h : stringToken s = some p) (x : Str) :
    stringToken (s ++ x) = some (p.1, p.2 ++ x) := by
  obtain ⟨q, hq, rfl⟩ := Option.map_eq_some_iff.mp h
  rw [stringToken, stringUnits_append (units_of_stringUnits s q hq) x]
  rfl

/-! ## Whitespace -/

theorem skipWs_append (s x : Str) :
    skipWs (s ++ x) = if skipWs s = [] then skipWs x else skipWs s ++ x := by
  cases h : s.dropWhile isWs with
  | nil => simp [skipWs, List.dropWhile_append, h]
  | cons c t => simp [skipWs, List.dropWhile_append, h]

theorem skipWs_append_cons {c : Char} {s t : Str} (h : skipWs s = c :: t) (x : Str) :
    skipWs (s ++ x) = c :: (t ++ x) := by
  rw [skipWs_append, h]
  rfl

/-- A number ends where, after some whitespace, a bracket or a comma is. -/
theorem numEnd_of_skipWs {c : Char} {s t : Str} (h : skipWs s = c :: t)
    (hc : isNumChar c = false) (x : Str) : NumEnd (s ++ x) := by
  cases s with
  | nil => cases h
  | cons d s =>
    apply numEnd_cons
    by_cases hd : isWs d = true
    · have hws : ∀ d : Char, isWs d = true → isNumChar d = false := by
        intro d hd
        simp only [isWs, Bool.or_eq_true, beq_iff_eq] at hd
        rcases hd with ((rfl | rfl) | rfl) | rfl <;> decide
      exact hws d hd
    · rw [skipWs, List.dropWhile_cons_of_neg hd] at h
      rw [(List.cons.inj h).1]
      exact hc

/-! ## Values -/

/-- What stands behind a value does not continue it: nothing continues an object. -/
def Ends (v : Json) (r : Str) : Prop := (∃ ms, v = obj ms) ∨ NumEnd r

theorem scalar_ne_obj {s r : Str} {v : Json} (h : scalar F s = some (v, r))
    (ms : List (JStr × Json)) : v ≠ obj ms := by
  rintro rfl
  unfold scalar at h
  split at h
  · rename_i p hp
    have hmem := List.mem_of_find?_eq_some hp
    have hne : ∀ q ∈ constants, ∀ ms, q.2 ≠ obj ms := by simp [constants]
    exact hne p hmem ms (congrArg Prod.fst (Option.some.inj h))
  · obtain ⟨⟨i, f, t⟩, -, he⟩ := Option.bind_eq_some_iff.mp h
    simp only at he
    split_ifs at he <;> cases he

/-- What is read in an array, its bracket passed. -/
theorem value_bracket (fuel : Nat) {c : Char} {s t : Str} (h : skipWs s = c :: t) :
    value F (fuel + 1) ('[' :: s) =
      if c = ']' then some (arr [], t)
      else (elements F fuel (c :: t)).map fun p => (arr p.1, p.2) := by
  rw [value, if_neg (by decide), if_pos rfl, h]
  split_ifs with hc
  · rw [hc]
    rfl
  · split
    · rename_i heq
      exact absurd (List.cons.inj heq).1 hc
    · rfl

/-- What is read in an object, its brace passed. -/
theorem value_brace (fuel : Nat) {c : Char} {s t : Str} (h : skipWs s = c :: t) :
    value F (fuel + 1) ('{' :: s) =
      if c = '}' then some (obj [], t)
      else (members F fuel (c :: t)).map fun p => (obj (dictOf p.1), p.2) := by
  rw [value, if_neg (by decide), if_neg (by decide), if_pos rfl, h]
  split_ifs with hc
  · rw [hc]
    rfl
  · split
    · rename_i heq
      exact absurd (List.cons.inj heq).1 hc
    · rfl

theorem value_nil (fuel : Nat) : value F fuel [] = none := by
  cases fuel <;> rw [value]

theorem elements_nil (fuel : Nat) : elements F fuel [] = none := by
  cases fuel with
  | zero => rw [elements]
  | succ fuel => rw [elements, value_nil, Option.bind_none]

theorem members_nil (fuel : Nat) : members F fuel [] = none := by
  cases fuel <;> rw [members]

variable (F) in
/-- What the three readers read with fuel `m` they read with fuel `n` when `x` stands
behind it. -/
structure Extends (x : Str) (m n : Nat) : Prop where
  value : ∀ {s v r}, value F m s = some (v, r) → Ends v (r ++ x) →
    value F n (s ++ x) = some (v, r ++ x)
  elements : ∀ {s vs r}, elements F m s = some (vs, r) →
    elements F n (s ++ x) = some (vs, r ++ x)
  members : ∀ {s ms r}, members F m s = some (ms, r) →
    members F n (s ++ x) = some (ms, r ++ x)

namespace Extends

variable {x s r : Str} {m n : Nat} {v : Json} {vs : List Json} {ms : List (JStr × Json)}

theorem value_succ (h : Extends F x m n) (hv : Json.value F (m + 1) s = some (v, r))
    (hend : Ends v (r ++ x)) : Json.value F (n + 1) (s ++ x) = some (v, r ++ x) := by
  cases s with
  | nil => simp [Json.value] at hv
  | cons c s =>
    by_cases hq : c = '"'
    · rw [Json.value, if_pos hq] at hv
      obtain ⟨p, hp, he⟩ := Option.map_eq_some_iff.mp hv
      cases he
      rw [List.cons_append, Json.value, if_pos hq, stringToken_append hp]
      rfl
    by_cases hb : c = '['
    · subst hb
      cases hs : skipWs s with
      | nil =>
        rw [Json.value, if_neg hq, if_pos rfl, hs] at hv
        simp [elements_nil] at hv
      | cons d t =>
        rw [value_bracket m hs] at hv
        rw [List.cons_append, value_bracket n (skipWs_append_cons hs x)]
        split_ifs at hv ⊢
        · cases hv; rfl
        · obtain ⟨p, hp, he⟩ := Option.map_eq_some_iff.mp hv
          cases he
          rw [← List.cons_append, h.elements hp]
          rfl
    by_cases hc : c = '{'
    · subst hc
      cases hs : skipWs s with
      | nil =>
        rw [Json.value, if_neg hq, if_neg hb, if_pos rfl, hs] at hv
        simp [members_nil] at hv
      | cons d t =>
        rw [value_brace m hs] at hv
        rw [List.cons_append, value_brace n (skipWs_append_cons hs x)]
        split_ifs at hv ⊢
        · cases hv; rfl
        · obtain ⟨p, hp, he⟩ := Option.map_eq_some_iff.mp hv
          cases he
          rw [← List.cons_append, h.members hp]
          rfl
    -- Only a constant or a number is not closed by a character of its own.
    rw [value_scalar m hq hb hc] at hv
    rw [List.cons_append, value_scalar n hq hb hc]
    rcases hend with ⟨ms, rfl⟩ | hend
    · exact absurd rfl (scalar_ne_obj hv ms)
    · exact scalar_append hv hend

/-- A value in an array or an object: what closes it or comes next ends it. -/
theorem value_before (h : Extends F x m n) (hv : Json.value F m s = some (v, r)) {c : Char}
    {t : Str} (hr : skipWs r = c :: t) (hc : isNumChar c = false) :
    Json.value F n (s ++ x) = some (v, r ++ x) :=
  h.value hv (.inr (numEnd_of_skipWs hr hc x))

theorem elements_succ (h : Extends F x m n) (he : Json.elements F (m + 1) s = some (vs, r)) :
    Json.elements F (n + 1) (s ++ x) = some (vs, r ++ x) := by
  rw [Json.elements] at he
  obtain ⟨⟨v, t⟩, hv, he⟩ := Option.bind_eq_some_iff.mp he
  split at he
  · rename_i hend
    cases he
    rw [elements_cons (h.value_before hv hend (by decide)), skipWs_append_cons hend]
    rfl
  · rename_i u hnext
    obtain ⟨q, hq, he⟩ := Option.map_eq_some_iff.mp he
    cases he
    have hne : skipWs u ≠ [] := by
      intro hnil
      rw [hnil, elements_nil] at hq
      cases hq
    rw [elements_cons (h.value_before hv hnext (by decide)), skipWs_append_cons hnext]
    simp only [skipWs_append u x, if_neg hne, h.elements hq, Option.map_some]
  · cases he

theorem members_succ (h : Extends F x m n) (hm : Json.members F (m + 1) s = some (ms, r)) :
    Json.members F (n + 1) (s ++ x) = some (ms, r ++ x) := by
  cases s with
  | nil => simp [Json.members] at hm
  | cons c s =>
    rw [Json.members] at hm
    split_ifs at hm with hc
    subst hc
    obtain ⟨⟨k, t⟩, hk, hm⟩ := Option.bind_eq_some_iff.mp hm
    split at hm
    · rename_i u hcolon
      obtain ⟨⟨v, w⟩, hv, he⟩ := Option.bind_eq_some_iff.mp hm
      -- A value follows the colon, so the whitespace in front of it is not at the end.
      have hne : skipWs u ≠ [] := by
        intro hnil
        rw [hnil, value_nil] at hv
        cases hv
      have hstep := fun {c t} (hw : skipWs w = c :: t) (hc : isNumChar c = false) =>
        members_cons (stringToken_append hk x) (skipWs_append_cons hcolon x)
          (by rw [skipWs_append, if_neg hne]; exact h.value_before hv hw hc)
      split at he
      · rename_i hend
        cases he
        rw [List.cons_append, hstep hend (by decide), skipWs_append_cons hend]
        rfl
      · rename_i y hnext
        obtain ⟨q, hq, he⟩ := Option.map_eq_some_iff.mp he
        cases he
        have hmore : skipWs y ≠ [] := by
          intro hnil
          rw [hnil, members_nil] at hq
          cases hq
        rw [List.cons_append, hstep hnext (by decide), skipWs_append_cons hnext]
        simp only [skipWs_append y x, if_neg hmore, h.members hq, Option.map_some]
      · cases he
    · cases hm

end Extends

/-- The three readers, by induction on the fuel they share; more fuel does no harm. -/
theorem reading_append (x : Str) {m n : Nat} (h : m ≤ n) : Extends F x m n := by
  induction m generalizing n with
  | zero =>
    exact ⟨fun hv => by simp [value] at hv, fun he => by simp [elements] at he,
      fun hm => by simp [members] at hm⟩
  | succ m ih =>
    obtain ⟨n, rfl⟩ : ∃ k, n = k + 1 := ⟨n - 1, by omega⟩
    have hext := ih (Nat.le_of_succ_le_succ h)
    exact ⟨hext.value_succ, hext.elements_succ, hext.members_succ⟩

/-- **Behind an object there is whitespace or an error.** -/
theorem loads_append {s : Str} {ms : List (JStr × Json)} (h : loads F s = some (obj ms))
    (x : Str) : loads F (s ++ x) = if skipWs x = [] then some (obj ms) else none := by
  unfold loads at h
  split at h
  · rename_i v r hv
    split_ifs at h with hr
    cases h
    have hne : skipWs s ≠ [] := by
      intro hnil
      rw [hnil, value_nil] at hv
      cases hv
    have hfuel : 2 * s.length + 1 ≤ 2 * (s ++ x).length + 1 := by
      rw [List.length_append]
      omega
    have hread := (reading_append x hfuel).value hv (.inl ⟨ms, rfl⟩)
    rw [loads, skipWs_append s x, if_neg hne, hread]
    simp only [skipWs_append r x, if_pos hr]
  · cases h

/-- Whatever is read off a text that starts with an object is that object. -/
theorem eq_of_loads_append {s x : Str} {ms : List (JStr × Json)} {w : Json}
    (h : loads F s = some (obj ms)) (hw : loads F (s ++ x) = some w) : w = obj ms := by
  rw [loads_append h] at hw
  split_ifs at hw
  exact (Option.some.inj hw).symm

end Py.Json
