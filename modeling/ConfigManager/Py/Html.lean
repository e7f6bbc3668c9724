import ConfigManager.Py.Json

/-! # Character references of HTML

`html.escape(text, quote=False)` and `html.unescape`, as CPython does it: a reference
may lack its semicolon, a name that is not known stands for its longest known prefix,
and `int` refuses a decimal number that is too long.

The table of names is a parameter (`Entities`).  It writes no character longer than
its name, so unescaping leaves a text as it is or makes it shorter
(`unescape_eq_or_lt`).  No reference goes past the end of its line, so a text is unescaped
line by line (`unescape_append_newline`).
-/
namespace Py.Html

open Json (isDigit hexValue)

/-- What `escape` writes for a character. -/
def escapeChar : Char → Str
  | '&' => "&amp;".toList
  | '<' => "&lt;".toList
  | '>' => "&gt;".toList
  | c => [c]

/-- `html.escape(s, quote=False)`. -/
def escape (s : Str) : Str := s.flatMap escapeChar

/-- `html.entities.html5`: the names, most of them with their semicolon. -/
structure Entities where
  named : Str → Option Str
  named_amp : named "amp;".toList = some ['&']
  named_lt : named "lt;".toList = some ['<']
  named_gt : named "gt;".toList = some ['>']
  length_le : ∀ name value, named name = some value → value.length ≤ name.length

/-! ## `unescape` -/

/-- `[^\t\n\f <&#;]`. -/
def isNameChar (c : Char) : Bool :=
  !(c.toNat == 9 || c.toNat == 10 || c.toNat == 12 || c == ' ' || c == '<' || c == '&' ||
    c == '#' || c == ';')

/-- `[0-9a-fA-F]`. -/
def isHexDigit (c : Char) : Bool := (hexValue c).isSome

/-- The length of a reference's first `n` characters and the semicolon that may follow. -/
def closed (s : Str) (n : Nat) : Nat := if s[n]? = some ';' then n + 1 else n

/-- How many characters after an `&` are a reference, 0 if there is none:
`#[0-9]+;?`, `#[xX][0-9a-fA-F]+;?` or `[^\t\n\f <&#;]{1,32};?`. -/
def refLength (s : Str) : Nat :=
  match s with
  | '#' :: t =>
      let decimals := (t.takeWhile isDigit).length
      if decimals ≠ 0 then closed s (decimals + 1)
      else if t.head? = some 'x' ∨ t.head? = some 'X' then
        let hexes := ((t.drop 1).takeWhile isHexDigit).length
        if hexes ≠ 0 then closed s (hexes + 2) else 0
      else 0
  | _ =>
      let name := min 32 (s.takeWhile isNameChar).length
      if name ≠ 0 then closed s name else 0

/-- `_invalid_charrefs`. -/
def invalidCharrefs : List (Nat × Nat) :=
  [(0x00, 0xFFFD), (0x0D, 0x0D), (0x80, 0x20AC), (0x81, 0x81), (0x82, 0x201A), (0x83, 0x192),
    (0x84, 0x201E), (0x85, 0x2026), (0x86, 0x2020), (0x87, 0x2021), (0x88, 0x2C6),
    (0x89, 0x2030), (0x8A, 0x160), (0x8B, 0x2039), (0x8C, 0x152), (0x8D, 0x8D), (0x8E, 0x17D),
    (0x8F, 0x8F), (0x90, 0x90), (0x91, 0x2018), (0x92, 0x2019), (0x93, 0x201C), (0x94, 0x201D),
    (0x95, 0x2022), (0x96, 0x2013), (0x97, 0x2014), (0x98, 0x2DC), (0x99, 0x2122),
    (0x9A, 0x161), (0x9B, 0x203A), (0x9C, 0x153), (0x9D, 0x9D), (0x9E, 0x17E), (0x9F, 0x178)]

/-- `_invalid_codepoints`. -/
def isInvalidCodepoint (n : Nat) : Bool :=
  (1 ≤ n && n ≤ 8) || n == 0xB || (0xE ≤ n && n ≤ 0x1F) || (0x7F ≤ n && n ≤ 0x9F) ||
    (0xFDD0 ≤ n && n ≤ 0xFDEF) || 0xFFFE ≤ n % 0x10000

/-- The text a numeric reference stands for. -/
def numeric (n : Nat) : Str :=
  match invalidCharrefs.lookup n with
  | some c => [Char.ofNat c]
  | none =>
      if (0xD800 ≤ n ∧ n ≤ 0xDFFF) ∨ 0x10FFFF < n then [Char.ofNat 0xFFFD]
      else if isInvalidCodepoint n then []
      else [Char.ofNat n]

/-- The number a run of hexadecimal digits denotes. -/
def hexNumber (s : Str) : Nat := s.foldl (fun n c => n * 16 + (hexValue c).getD 0) 0

variable (E : Entities)

/-- The longest known name among the first `n` characters, replaced; a name has at least
two. -/
def replacePrefix (s : Str) : Nat → Str
  | 0 => '&' :: s
  | 1 => '&' :: s
  | n + 2 =>
      match E.named (s.take (n + 2)) with
      | some value => value ++ s.drop (n + 2)
      | none => replacePrefix s (n + 1)

/-- `_replace_charref`, `none` where it raises. -/
def replaceCharref (s : Str) : Option Str :=
  match s with
  | '#' :: t =>
      if t.head? = some 'x' ∨ t.head? = some 'X' then
        some (numeric (hexNumber ((t.drop 1).takeWhile isHexDigit)))
      else if maxStrDigits < (t.takeWhile isDigit).length then none
      else some (numeric (Nat.ofDigitChars 10 (t.takeWhile isDigit) 0))
  | _ =>
      match E.named s with
      | some value => some value
      | none => some (replacePrefix E s (s.length - 1))

/-- `unescape` after `skip` characters of a reference have been passed over. -/
def unescapeFrom : Str → Nat → Option Str
  | [], _ => some []
  | _ :: s, skip + 1 => unescapeFrom s skip
  | c :: s, 0 =>
      if c = '&' ∧ refLength s ≠ 0 then
        (replaceCharref E (s.take (refLength s))).bind fun text =>
          (unescapeFrom s (refLength s)).map (text ++ ·)
      else (unescapeFrom s 0).map (c :: ·)

/-- `html.unescape`, `none` where it raises. -/
def unescape (s : Str) : Option Str := unescapeFrom E s 0

variable {E} {s t u : Str} {c : Char}

theorem unescapeFrom_eq_drop (s : Str) (skip : Nat) :
    unescapeFrom E s skip = unescape E (s.drop skip) := by
  induction s generalizing skip with
  | nil => simp [unescape, unescapeFrom]
  | cons c s ih =>
    cases skip with
    | zero => rfl
    | succ skip => simpa [unescapeFrom] using ih skip

theorem unescape_cons (c : Char) (s : Str) :
    unescape E (c :: s) =
      if c = '&' ∧ refLength s ≠ 0 then
        (replaceCharref E (s.take (refLength s))).bind fun text =>
          (unescape E (s.drop (refLength s))).map (text ++ ·)
      else (unescape E s).map (c :: ·) := by
  rw [unescape, unescapeFrom]
  simp only [unescapeFrom_eq_drop, List.drop_zero]

/-! ## Unescaping what was escaped -/

@[simp] theorem escape_nil : escape [] = [] := rfl

@[simp] theorem escape_cons (c : Char) (s : Str) : escape (c :: s) = escapeChar c ++ escape s := rfl

/-- The names `escape` writes. -/
def escapeNames : List Str := ["amp".toList, "lt".toList, "gt".toList]

/-- A character is escaped by its name, or stays as it is. -/
theorem escapeChar_cases (c : Char) :
    (∃ name ∈ escapeNames, escapeChar c = '&' :: (name ++ [';']) ∧
      ∀ E : Entities, E.named (name ++ [';']) = some [c]) ∨
    (escapeChar c = [c] ∧ c ≠ '&' ∧ c ≠ '<' ∧ c ≠ '>') := by
  unfold escapeChar
  split
  · exact .inl ⟨"amp".toList, by decide, rfl, fun E => E.named_amp⟩
  · exact .inl ⟨"lt".toList, by decide, rfl, fun E => E.named_lt⟩
  · exact .inl ⟨"gt".toList, by decide, rfl, fun E => E.named_gt⟩
  next hamp hlt hgt => exact .inr ⟨rfl, hamp, hlt, hgt⟩

/-- A character of an escaped text is in the text, or in a reference. -/
theorem mem_escape {d : Char} (h : d ∈ escape s) :
    (d ∈ s ∧ d ≠ '<' ∧ d ≠ '>') ∨ d = '&' ∨ d = ';' ∨ ∃ name ∈ escapeNames, d ∈ name := by
  obtain ⟨c, hc, hd⟩ := List.mem_flatMap.mp h
  rcases escapeChar_cases c with ⟨name, hname, he, -⟩ | ⟨he, -, hlt, hgt⟩
  · rw [he, List.mem_cons, List.mem_append, List.mem_singleton] at hd
    rcases hd with rfl | hd | rfl
    · exact .inr (.inl rfl)
    · exact .inr (.inr (.inr ⟨name, hname, hd⟩))
    · exact .inr (.inr (.inl rfl))
  · rw [he, List.mem_singleton] at hd
    subst hd
    exact .inl ⟨hc, hlt, hgt⟩

theorem notMem_escape (s : Str) : '<' ∉ escape s := by
  have hnames : ∀ name ∈ escapeNames, '<' ∉ name := by decide
  intro h
  rcases mem_escape h with ⟨-, h, -⟩ | h | h | ⟨name, hname, h⟩
  · exact h rfl
  · cases h
  · cases h
  · exact hnames name hname h

/-- A name and its semicolon are one reference. -/
theorem refLength_name (hne : s ≠ []) (hlen : s.length ≤ 32) (hs : ∀ c ∈ s, isNameChar c = true) :
    refLength (s ++ ';' :: t) = s.length + 1 := by
  have hrun : (s ++ ';' :: t).takeWhile isNameChar = s := by
    rw [List.takeWhile_append_of_pos hs, List.takeWhile_cons_of_neg (by decide), List.append_nil]
  have hpos : s.length ≠ 0 := fun h => hne (List.length_eq_zero_iff.mp h)
  unfold refLength
  split
  next u hu =>
    obtain ⟨c, v, rfl⟩ := List.exists_cons_of_ne_nil hne
    obtain ⟨rfl, -⟩ := List.cons.inj hu
    simp [isNameChar] at hs
  next => simp [hrun, hpos, Nat.min_eq_right hlen, closed]

theorem unescape_name {value : Str} (hne : s ≠ []) (hlen : s.length ≤ 32)
    (hs : ∀ c ∈ s, isNameChar c = true) (hv : E.named (s ++ [';']) = some value) :
    unescape E ('&' :: (s ++ ';' :: t)) = (unescape E t).map (value ++ ·) := by
  have hcut : s ++ ';' :: t = (s ++ [';']) ++ t := by simp
  have hl : s.length + 1 = (s ++ [';']).length := by simp
  have hreplace : replaceCharref E (s ++ [';']) = some value := by
    unfold replaceCharref
    split
    next u hu =>
      obtain ⟨c, v, rfl⟩ := List.exists_cons_of_ne_nil hne
      obtain ⟨rfl, -⟩ := List.cons.inj hu
      simp [isNameChar] at hs
    next => simp [hv]
  rw [unescape_cons, if_pos ⟨rfl, by simp [refLength_name hne hlen hs]⟩,
    refLength_name hne hlen hs, hcut, hl, List.take_left, List.drop_left, hreplace]
  rfl

/-- **Unescaping undoes escaping**, whatever follows. -/
theorem unescape_escape_append (s t : Str) :
    unescape E (escape s ++ t) = (unescape E t).map (s ++ ·) := by
  have hnames : ∀ name ∈ escapeNames,
      name ≠ [] ∧ name.length ≤ 32 ∧ ∀ c ∈ name, isNameChar c = true := by decide
  induction s with
  | nil => simp
  | cons c s ih =>
    have hmap : (unescape E (escape s ++ t)).map ([c] ++ ·) =
        (unescape E t).map (c :: s ++ ·) := by
      rw [ih, Option.map_map]
      rfl
    rcases escapeChar_cases c with ⟨name, hname, he, hv⟩ | ⟨he, hamp, -⟩
    · obtain ⟨hne, hlen, hn⟩ := hnames name hname
      have hcut : escape (c :: s) ++ t = '&' :: (name ++ ';' :: (escape s ++ t)) := by
        simp [he]
      rw [hcut, unescape_name hne hlen hn (hv E), hmap]
    · rw [escape_cons, he, List.append_assoc, List.singleton_append, unescape_cons,
        if_neg fun h => hamp h.1]
      exact hmap

theorem unescape_escape (s : Str) : unescape E (escape s) = some s := by
  simpa [unescape, unescapeFrom] using unescape_escape_append (E := E) s []

/-! ## How long an unescaped text is -/

theorem length_numeric (n : Nat) : (numeric n).length ≤ 1 := by
  unfold numeric
  split
  · simp
  · split
    · simp
    · split <;> simp

theorem length_replacePrefix (s : Str) (n : Nat) :
    replacePrefix E s n = '&' :: s ∨ (replacePrefix E s n).length < s.length + 1 := by
  induction n using Nat.strong_induction_on with
  | _ n ih =>
    match n with
    | 0 => exact .inl rfl
    | 1 => exact .inl rfl
    | n + 2 =>
      rw [replacePrefix]
      split
      next value hv =>
        have hlen := E.length_le _ _ hv
        have hcut := congrArg List.length (List.take_append_drop (n + 2) s)
        rw [List.length_append] at hcut
        exact .inr (by rw [List.length_append]; omega)
      next => exact ih (n + 1) (by omega)

/-- A reference is left as it is, or replaced by a shorter text. -/
theorem length_replaceCharref (hne : s ≠ []) (h : replaceCharref E s = some u) :
    u = '&' :: s ∨ u.length < s.length + 1 := by
  have hpos : 0 < s.length := List.length_pos_of_ne_nil hne
  -- A character number is one character, or none.
  have hnum : ∀ n, (numeric n).length < s.length + 1 := by
    intro n
    have hn := length_numeric n
    omega
  unfold replaceCharref at h
  split at h
  · split at h
    · cases h
      exact .inr (hnum _)
    · split at h
      · cases h
      · cases h
        exact .inr (hnum _)
  · split at h
    next value hv =>
      cases h
      have hlen := E.length_le _ _ hv
      exact .inr (by omega)
    next =>
      cases h
      exact length_replacePrefix s _

/-- **Unescaping never lengthens a text**, and a text it changes becomes shorter. -/
theorem unescape_eq_or_lt (h : unescape E s = some u) : u = s ∨ u.length < s.length := by
  -- A reference is skipped as a whole, so the induction is on the length.
  induction hn : s.length using Nat.strong_induction_on generalizing s u with
  | _ n ih =>
    subst hn
    cases s with
    | nil => exact .inl (Option.some.inj h).symm
    | cons c s =>
      rw [unescape_cons] at h
      split at h
      next href =>
        obtain ⟨rfl, hlen⟩ := href
        obtain ⟨text, htext, h⟩ := Option.bind_eq_some_iff.mp h
        obtain ⟨v, hv, rfl⟩ := Option.map_eq_some_iff.mp h
        have hcut := List.take_append_drop (refLength s) s
        have hsum := congrArg List.length hcut
        rw [List.length_append] at hsum
        have hrest := ih _ (by rw [List.length_drop, List.length_cons]; omega) hv rfl
        have hne : s.take (refLength s) ≠ [] := by
          rw [Ne, List.take_eq_nil_iff, not_or]
          exact ⟨hlen, fun hs => hlen (by rw [hs]; rfl)⟩
        have hreplaced := length_replaceCharref hne htext
        rw [List.length_append, List.length_cons]
        -- A reference that is left alone adds nothing; any other makes the text shorter.
        rcases hreplaced with rfl | hlt
        · rcases hrest with rfl | hlt
          · exact .inl (by rw [List.cons_append, hcut])
          · exact .inr (by rw [List.length_cons]; omega)
        · have hle : v.length ≤ (s.drop (refLength s)).length := by
            rcases hrest with rfl | hlt
            · exact le_rfl
            · exact hlt.le
          exact .inr (by omega)
      next =>
        obtain ⟨v, hv, rfl⟩ := Option.map_eq_some_iff.mp h
        rcases ih _ (by simp) hv rfl with rfl | hlt
        · exact .inl rfl
        · exact .inr (by simpa using hlt)

/-! ## Lines -/

theorem takeWhile_append_cons {p : Char → Bool} (hc : p c = false) (s t : Str) :
    (s ++ c :: t).takeWhile p = s.takeWhile p := by
  induction s with
  | nil => exact List.takeWhile_cons_of_neg (by simp [hc])
  | cons d s ih => rw [List.cons_append, List.takeWhile_cons, List.takeWhile_cons, ih]

theorem closed_le {n : Nat} (h : n ≤ s.length) : closed s n ≤ s.length := by
  rw [closed]
  split
  next hsemi => exact (List.getElem?_eq_some_iff.mp hsemi).1
  next => exact h

theorem closed_append {n : Nat} (h : n ≤ s.length) : closed (s ++ '\n' :: t) n = closed s n := by
  rw [closed, closed]
  rcases Nat.lt_or_eq_of_le h with h | rfl
  · rw [List.getElem?_append_left h]
  · simp

theorem refLength_le (s : Str) : refLength s ≤ s.length := by
  unfold refLength
  split
  next t =>
    have hdec : (t.takeWhile isDigit).length ≤ t.length := (List.takeWhile_sublist _).length_le
    have hhex : ((t.drop 1).takeWhile isHexDigit).length ≤ (t.drop 1).length :=
      (List.takeWhile_sublist _).length_le
    rw [List.length_drop] at hhex
    dsimp only
    split
    · exact closed_le (by rw [List.length_cons]; omega)
    · split
      · split
        · exact closed_le (by rw [List.length_cons]; omega)
        · exact Nat.zero_le _
      · exact Nat.zero_le _
  next =>
    have hname : (s.takeWhile isNameChar).length ≤ s.length := (List.takeWhile_sublist _).length_le
    dsimp only
    split
    · exact closed_le (by omega)
    · exact Nat.zero_le _

theorem refLength_of_ne (h : s.head? ≠ some '#') :
    refLength s =
      if min 32 (s.takeWhile isNameChar).length ≠ 0 then
        closed s (min 32 (s.takeWhile isNameChar).length)
      else 0 := by
  unfold refLength
  split
  · exact absurd rfl h
  · rfl

/-- No reference goes past the end of its line. -/
theorem refLength_append (s t : Str) : refLength (s ++ '\n' :: t) = refLength s := by
  have hnewline : isDigit '\n' = false ∧ isHexDigit '\n' = false ∧ isNameChar '\n' = false := by
    decide
  by_cases hhead : s.head? = some '#'
  · obtain ⟨u, rfl⟩ := List.head?_eq_some_iff.mp hhead
    have hdec : (u.takeWhile isDigit).length ≤ u.length := (List.takeWhile_sublist _).length_le
    cases u with
    | nil => simp [refLength, hnewline]
    | cons d u =>
      have hhex : (u.takeWhile isHexDigit).length ≤ u.length :=
        (List.takeWhile_sublist _).length_le
      have hdec' : (d :: (u ++ '\n' :: t)).takeWhile isDigit = (d :: u).takeWhile isDigit :=
        takeWhile_append_cons hnewline.1 (d :: u) t
      have hhex' : (u ++ '\n' :: t).takeWhile isHexDigit = u.takeWhile isHexDigit :=
        takeWhile_append_cons hnewline.2.1 u t
      have hdecEnd :
          closed ('#' :: d :: (u ++ '\n' :: t)) (((d :: u).takeWhile isDigit).length + 1) =
            closed ('#' :: d :: u) (((d :: u).takeWhile isDigit).length + 1) :=
        closed_append (s := '#' :: d :: u) (Nat.succ_le_succ hdec)
      have hhexEnd :
          closed ('#' :: d :: (u ++ '\n' :: t)) ((u.takeWhile isHexDigit).length + 2) =
            closed ('#' :: d :: u) ((u.takeWhile isHexDigit).length + 2) :=
        closed_append (s := '#' :: d :: u) (Nat.add_le_add_right hhex 2)
      rw [List.cons_append, List.cons_append, refLength, refLength]
      simp only [List.head?_cons, List.drop_one, List.tail_cons, hdec', hhex', hdecEnd, hhexEnd]
  · have hhead' : (s ++ '\n' :: t).head? ≠ some '#' := by
      cases s with
      | nil => simp
      | cons c s => exact hhead
    rw [refLength_of_ne hhead', refLength_of_ne hhead, takeWhile_append_cons hnewline.2.2]
    have hname : (s.takeWhile isNameChar).length ≤ s.length := (List.takeWhile_sublist _).length_le
    rw [closed_append (by omega)]

/-- **A text is unescaped line by line.** -/
theorem unescape_append_newline (s t : Str) :
    unescape E (s ++ '\n' :: t) =
      (unescape E s).bind fun u => (unescape E t).map fun v => u ++ '\n' :: v := by
  -- A reference is skipped as a whole, so the induction is on the length.
  induction hn : s.length using Nat.strong_induction_on generalizing s with
  | _ n ih =>
    subst hn
    cases s with
    | nil =>
      rw [List.nil_append, unescape_cons, if_neg fun h => absurd h.1 (by decide)]
      rfl
    | cons c s =>
      rw [List.cons_append, unescape_cons, unescape_cons, refLength_append]
      split
      next href =>
        have hlen : (s.drop (refLength s)).length < (c :: s).length := by
          rw [List.length_drop, List.length_cons]
          omega
        rw [List.take_append_of_le_length (refLength_le s),
          List.drop_append_of_le_length (refLength_le s), ih _ hlen _ rfl]
        cases replaceCharref E (s.take (refLength s)) <;>
          cases unescape E (s.drop (refLength s)) <;> cases unescape E t <;> simp
      next =>
        rw [ih _ (Nat.lt_succ_self _) s rfl]
        cases unescape E s <;> cases unescape E t <;> simp

end Py.Html
