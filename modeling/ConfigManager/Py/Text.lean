import Mathlib.Data.List.DropRight
import Mathlib.Data.List.Infix

/-! # Python text

Python's `str` as the list of its characters, with the string methods a
program that takes links apart needs: whitespace, `strip`, cutting at a
character, `replace`, and `int(text)`.  Everything is structurally recursive, so
`decide` evaluates it.

Lone surrogates are not characters here.  They only enter Python programs
through JSON escapes, and `Py.Json` keeps its own strings for them.
-/
namespace Py

/-- A Python `str`. -/
abbrev Str := List Char

/-- What holds of the characters of a text is decided by going through the text. -/
instance (priority := high) {p : Char → Prop} [DecidablePred p] (s : Str) :
    Decidable (∀ c ∈ s, p c) :=
  List.decidableBAll p s

instance (priority := high) (s : Str) (texts : List Str) : Decidable (s ∈ texts) := inferInstance

/-! ## Whitespace -/

/-- `str.isspace` of one character; the regex class `\s` is the same set. -/
def isSpace (c : Char) : Bool :=
  let n := c.toNat
  (9 ≤ n && n ≤ 13) || (28 ≤ n && n ≤ 32) || n == 0x85 || n == 0xA0 || n == 0x1680 ||
    (0x2000 ≤ n && n ≤ 0x200A) || n == 0x2028 || n == 0x2029 || n == 0x202F ||
    n == 0x205F || n == 0x3000

/-- `s.strip()`. -/
def strip (s : Str) : Str := (s.dropWhile isSpace).rdropWhile isSpace

/-- No character of the text is whitespace. -/
def NoSpace (s : Str) : Prop := ∀ c ∈ s, isSpace c = false

@[simp] theorem noSpace_nil : NoSpace [] := by simp [NoSpace]

@[simp] theorem noSpace_cons {c : Char} {s : Str} :
    NoSpace (c :: s) ↔ isSpace c = false ∧ NoSpace s := by simp [NoSpace]

@[simp] theorem noSpace_append {s t : Str} : NoSpace (s ++ t) ↔ NoSpace s ∧ NoSpace t := by
  simp only [NoSpace, List.mem_append]
  exact ⟨fun h => ⟨fun c hc => h c (Or.inl hc), fun c hc => h c (Or.inr hc)⟩,
    fun h c hc => hc.elim (h.1 c) (h.2 c)⟩

theorem rdropWhile_of_noSpace {s : Str} (h : NoSpace s) : s.rdropWhile isSpace = s := by
  rw [List.rdropWhile_eq_self_iff]
  intro hne
  simpa using h _ (List.getLast_mem hne)

/-- Whitespace at the end is all that `strip` takes from a text that starts with
another character. -/
theorem strip_append {s t : Str} (hs : NoSpace s) (hne : s ≠ []) :
    strip (s ++ t) = s ++ t.rdropWhile isSpace := by
  have hdrop : ∀ u, (s ++ u).dropWhile isSpace = s ++ u := by
    obtain ⟨c, s, rfl⟩ := List.exists_cons_of_ne_nil hne
    simp [(noSpace_cons.mp hs).1]
  rw [strip, hdrop]
  induction t using List.reverseRecOn with
  | nil => simpa using rdropWhile_of_noSpace hs
  | append_singleton t d ih =>
    rw [← List.append_assoc]
    by_cases hd : isSpace d = true
    · rw [List.rdropWhile_concat_pos _ _ _ hd, List.rdropWhile_concat_pos _ _ _ hd, ih]
    · rw [List.rdropWhile_concat_neg _ _ _ hd, List.rdropWhile_concat_neg _ _ _ hd,
        List.append_assoc]

theorem strip_of_noSpace {s : Str} (h : NoSpace s) : strip s = s := by
  by_cases hne : s = []
  · subst hne; rfl
  · simpa using strip_append (t := []) h hne

theorem strip_strip (s : Str) : strip (strip s) = strip s := by
  have hleft : (strip s).dropWhile isSpace = strip s := by
    unfold strip
    generalize hd : s.dropWhile isSpace = t
    cases t with
    | nil => simp
    | cons c t =>
      have hc : isSpace c = false := by
        simpa [hd] using List.head_dropWhile_not (p := isSpace) (l := s) (by simp [hd])
      cases hr : (c :: t).rdropWhile isSpace with
      | nil => rfl
      | cons d u =>
        obtain ⟨rest, hrest⟩ := List.rdropWhile_prefix isSpace (l := c :: t)
        rw [hr] at hrest
        obtain ⟨rfl, -⟩ := List.cons.inj hrest
        simp [hc]
  rw [strip, hleft, strip, List.rdropWhile_idempotent]

/-- `s.rstrip()`. -/
def rstrip (s : Str) : Str := s.rdropWhile isSpace

/-- No more is stripped from the right than what follows the last other character. -/
theorem rstrip_append_cons {c : Char} (hc : isSpace c = false) (s t : Str) :
    rstrip (s ++ c :: t) = s ++ c :: rstrip t := by
  rw [rstrip, rstrip, List.rdropWhile, List.rdropWhile, List.reverse_append, List.reverse_cons,
    List.append_assoc, List.dropWhile_append]
  split
  next h =>
    rw [List.isEmpty_iff] at h
    simp [h, hc]
  next => simp

theorem mem_of_mem_strip {c : Char} {s : Str} (h : c ∈ strip s) : c ∈ s :=
  (List.dropWhile_suffix isSpace).mem ((List.rdropWhile_prefix isSpace _).mem h)

/-- A character is whitespace, or `strip` keeps it. -/
theorem mem_strip {c : Char} {s : Str} (h : c ∈ s) : isSpace c = true ∨ c ∈ strip s := by
  have hleft : isSpace c = true ∨ c ∈ s.dropWhile isSpace := by
    rw [← List.takeWhile_append_dropWhile (p := isSpace) (l := s), List.mem_append] at h
    exact h.imp_left fun ht => List.mem_takeWhile_imp ht
  refine hleft.elim .inl fun h => ?_
  have hcut : (s.dropWhile isSpace).rdropWhile isSpace ++ (s.dropWhile isSpace).rtakeWhile isSpace =
      s.dropWhile isSpace := List.rdropWhile_append_rtakeWhile
  rw [← hcut, List.mem_append] at h
  exact h.symm.imp_left fun ht => List.mem_rtakeWhile_imp ht

theorem filter_dropWhile_isSpace {p : Char → Bool} {s : Str}
    (h : ∀ c ∈ s, isSpace c = true → p c = false) :
    (s.dropWhile isSpace).filter p = s.filter p := by
  induction s with
  | nil => rfl
  | cons c s ih =>
    by_cases hc : isSpace c = true
    · rw [List.dropWhile_cons_of_pos hc, ih fun d hd => h d (List.mem_cons_of_mem _ hd),
        List.filter_cons_of_neg (by simp [h c (List.mem_cons_self ..) hc])]
    · rw [List.dropWhile_cons_of_neg hc]

/-- What has no whitespace in it is not changed by `strip`. -/
theorem filter_strip {p : Char → Bool} {s : Str} (h : ∀ c ∈ s, isSpace c = true → p c = false) :
    (strip s).filter p = s.filter p := by
  rw [strip, List.rdropWhile, List.filter_reverse, filter_dropWhile_isSpace, List.filter_reverse,
    List.reverse_reverse, filter_dropWhile_isSpace h]
  intro c hc
  exact h c ((List.dropWhile_suffix _).mem (List.mem_reverse.mp hc))

/-- A text within another one, with no whitespace at its start, is not cut by stripping
from the left. -/
theorem infix_dropWhile {c : Char} {w s : Str} (hc : isSpace c = false) (h : c :: w <:+: s) :
    c :: w <:+: s.dropWhile isSpace := by
  induction s with
  | nil => exact h
  | cons d s ih =>
    by_cases hd : isSpace d = true
    · rw [List.dropWhile_cons_of_pos hd]
      rcases List.infix_cons_iff.mp h with hp | hi
      · obtain ⟨rfl, -⟩ := List.cons_prefix_cons.mp hp
        rw [hc] at hd
        cases hd
      · exact ih hi
    · rwa [List.dropWhile_cons_of_neg hd]

/-- **`strip` keeps every text without whitespace.** -/
theorem infix_strip {w s : Str} (hw : NoSpace w) (hne : w ≠ []) (h : w <:+: s) :
    w <:+: strip s := by
  obtain ⟨c, v, rfl⟩ := List.exists_cons_of_ne_nil hne
  have hleft := infix_dropWhile (hw c (List.mem_cons_self ..)) h
  -- The other end is stripped in the reversed text.
  obtain ⟨d, u, hd⟩ := List.exists_cons_of_ne_nil (List.reverse_ne_nil_iff.mpr hne)
  have hright : d :: u <:+: (s.dropWhile isSpace).reverse := hd ▸ List.reverse_infix.mpr hleft
  have hmem : d ∈ c :: v := List.mem_reverse.mp (hd ▸ List.mem_cons_self ..)
  have hrev := infix_dropWhile (hw d hmem) hright
  rwa [← hd, ← List.reverse_infix, List.reverse_reverse] at hrev

/-! ## Cutting at a character -/

/-- `s.split(c)[0]`: the text before the first `c`, all of it if there is none. -/
def before (c : Char) (s : Str) : Str := s.takeWhile (· != c)

/-- `s.split(c, 1)[1]`: the text after the first `c`. -/
def after (c : Char) (s : Str) : Str := (s.dropWhile (· != c)).drop 1

theorem before_of_notMem {c : Char} {s : Str} (h : c ∉ s) : before c s = s := by
  rw [before, List.takeWhile_eq_self_iff]
  intro x hx
  simpa using fun he : x = c => h (he ▸ hx)

theorem after_of_notMem {c : Char} {s : Str} (h : c ∉ s) : after c s = [] := by
  rw [after, List.dropWhile_eq_nil_iff.mpr, List.drop_nil]
  intro x hx
  simpa using fun he : x = c => h (he ▸ hx)

theorem before_append {c : Char} {s : Str} (h : c ∉ s) (t : Str) :
    before c (s ++ t) = s ++ before c t := by
  rw [before, List.takeWhile_append_of_pos, before]
  intro x hx
  simpa using fun he : x = c => h (he ▸ hx)

theorem prefix_before {c : Char} {x s : Str} (hx : c ∉ x) (h : x <+: s) : x <+: before c s := by
  obtain ⟨y, rfl⟩ := h
  exact ⟨before c y, (before_append hx y).symm⟩

theorem before_isPrefix (c : Char) (s : Str) : before c s <+: s := List.takeWhile_prefix _

theorem before_append_cons {c : Char} {s t : Str} (h : c ∉ s) : before c (s ++ c :: t) = s := by
  rw [before, List.takeWhile_append_of_pos]
  · simp
  · intro x hx
    simpa using fun he : x = c => h (he ▸ hx)

theorem notMem_before (c : Char) (s : Str) : c ∉ before c s := by
  intro h
  simpa using List.mem_takeWhile_imp h

theorem after_append_cons {c : Char} {s t : Str} (h : c ∉ s) : after c (s ++ c :: t) = t := by
  rw [after, List.dropWhile_append_of_pos]
  · simp
  · intro x hx
    simpa using fun he : x = c => h (he ▸ hx)

/-- A text is its part before the first `c`, or that part, `c` and the rest. -/
theorem eq_before_or (c : Char) (s : Str) :
    s = before c s ∨ s = before c s ++ c :: after c s := by
  by_cases h : c ∈ s
  · obtain ⟨u, v, rfl, hu⟩ := List.eq_append_cons_of_mem h
    right
    rw [before_append_cons hu, after_append_cons hu]
  · exact Or.inl (before_of_notMem h).symm

/-- A character of a joined text is the separator or in one of the parts. -/
theorem mem_of_mem_intercalate {c d : Char} {parts : List Str} (h : c ∈ [d].intercalate parts) :
    c = d ∨ ∃ w ∈ parts, c ∈ w := by
  induction parts with
  | nil => simp at h
  | cons w parts ih =>
    cases parts with
    | nil => exact .inr ⟨w, by simp, by simpa using h⟩
    | cons v parts =>
      rw [List.intercalate_cons_cons, List.mem_append, List.mem_append] at h
      rcases h with (h | h) | h
      · exact .inr ⟨w, by simp, h⟩
      · exact .inl (List.mem_singleton.mp h)
      · exact (ih h).imp_right fun ⟨v, hv, hc⟩ => ⟨v, List.mem_cons_of_mem _ hv, hc⟩

/-- `s.split()`: the words between runs of whitespace. -/
def words (s : Str) : List Str := (s.splitOnP isSpace).filter (· ≠ [])

/-! ## `replace` -/

/-- `replace` after `skip` characters of a match have been passed over. -/
def replaceFrom (old new : Str) : Str → Nat → Str
  | [], _ => []
  | _ :: s, skip + 1 => replaceFrom old new s skip
  | c :: s, 0 =>
      if old.isPrefixOf (c :: s) then new ++ replaceFrom old new s (old.length - 1)
      else c :: replaceFrom old new s 0

/-- `s.replace(old, new)`, for a nonempty `old`: every occurrence, from the left,
without overlaps. -/
def replace (old new s : Str) : Str := replaceFrom old new s 0

/-- Removing a character. -/
theorem replace_singleton_nil (c : Char) (s : Str) : replace [c] [] s = s.filter (· != c) := by
  unfold replace
  induction s with
  | nil => rfl
  | cons d s ih =>
    by_cases h : d = c
    · subst h
      simpa [replaceFrom] using ih
    · simpa [replaceFrom, h, Ne.symm h] using ih

theorem replace_of_not_infix {old new s : Str} (h : ¬old <:+: s) : replace old new s = s := by
  unfold replace
  induction s with
  | nil => rfl
  | cons c s ih =>
    rw [List.infix_cons_iff, not_or] at h
    rw [replaceFrom, if_neg fun hp => h.1 (List.isPrefixOf_iff_prefix.mp hp), ih h.2]

theorem mem_of_mem_replace {old new s : Str} {c : Char} (h : c ∈ replace old new s) :
    c ∈ new ∨ c ∈ s := by
  have key : ∀ s k, c ∈ replaceFrom old new s k → c ∈ new ∨ c ∈ s := by
    intro s
    induction s with
    | nil => exact fun _ h => .inr h
    | cons d s ih =>
      intro k h
      cases k with
      | succ k => exact (ih k h).imp_right (List.mem_cons_of_mem d)
      | zero =>
        rw [replaceFrom] at h
        split at h
        · rcases List.mem_append.mp h with h | h
          · exact .inl h
          · exact (ih _ h).imp_right (List.mem_cons_of_mem d)
        · rcases List.mem_cons.mp h with rfl | h
          · exact .inr (List.mem_cons_self ..)
          · exact (ih _ h).imp_right (List.mem_cons_of_mem d)
  exact key s 0 h

/-! ## `int(text)` -/

/-- The zero of each decimal digit block of Unicode 14. -/
def decimalZeros : List Nat :=
  [0x30, 0x660, 0x6F0, 0x7C0, 0x966, 0x9E6, 0xA66, 0xAE6, 0xB66, 0xBE6, 0xC66, 0xCE6, 0xD66,
    0xDE6, 0xE50, 0xED0, 0xF20, 0x1040, 0x1090, 0x17E0, 0x1810, 0x1946, 0x19D0, 0x1A80,
    0x1A90, 0x1B50, 0x1BB0, 0x1C40, 0x1C50, 0xA620, 0xA8D0, 0xA900, 0xA9D0, 0xA9F0, 0xAA50,
    0xABF0, 0xFF10, 0x104A0, 0x10D30, 0x11066, 0x110F0, 0x11136, 0x111D0, 0x112F0, 0x11450,
    0x114D0, 0x11650, 0x116C0, 0x11730, 0x118E0, 0x11950, 0x11C50, 0x11D50, 0x11DA0, 0x16A60,
    0x16AC0, 0x16B50, 0x1D7CE, 0x1D7D8, 0x1D7E2, 0x1D7EC, 0x1D7F6, 0x1E140, 0x1E2F0, 0x1E950,
    0x1FBF0]

/-- The value of a decimal digit, `none` for any other character. -/
def decimalValue (c : Char) : Option Nat :=
  (decimalZeros.find? fun z => z ≤ c.toNat && c.toNat < z + 10).map (c.toNat - ·)

/-- The regex class `\d`. -/
def isDecimal (c : Char) : Bool := (decimalValue c).isSome

/-- The digits of `int(text)` after a first digit: an underscore may stand
between two digits. -/
def digitsFrom (acc : Nat) : Str → Option Nat
  | [] => some acc
  | '_' :: c :: s =>
      match decimalValue c with
      | some d => digitsFrom (acc * 10 + d) s
      | none => none
  | c :: s =>
      match decimalValue c with
      | some d => digitsFrom (acc * 10 + d) s
      | none => none

/-- An unsigned run of digits. -/
def digits : Str → Option Nat
  | [] => none
  | c :: s => (decimalValue c).bind fun d => digitsFrom d s

/-- The most digits `int` converts (`sys.get_int_max_str_digits()`). -/
def maxStrDigits : Nat := 4300

/-- `int(text)`, `none` where it raises `ValueError`. -/
def int (s : Str) : Option Int :=
  if maxStrDigits < s.countP isDecimal then none
  else match strip s with
  | '-' :: s => (digits s).map fun n => -(n : Int)
  | '+' :: s => (digits s).map Int.ofNat
  | s => (digits s).map Int.ofNat

/-- A decimal digit is no whitespace, no sign and no underscore. -/
theorem isDecimal_apart {c : Char} (h : isDecimal c = true) :
    isSpace c = false ∧ c ≠ '-' ∧ c ≠ '+' ∧ c ≠ '_' := by
  have hall : ∀ z ∈ decimalZeros, ∀ k < 10, isSpace (Char.ofNat (z + k)) = false ∧
      Char.ofNat (z + k) ≠ '-' ∧ Char.ofNat (z + k) ≠ '+' ∧ Char.ofNat (z + k) ≠ '_' := by
    decide +kernel
  obtain ⟨n, hn⟩ := Option.isSome_iff_exists.mp h
  obtain ⟨z, hz, -⟩ := Option.map_eq_some_iff.mp hn
  have hrange := List.find?_some hz
  simp only [Bool.and_eq_true, decide_eq_true_eq] at hrange
  have hc := hall z (List.mem_of_find?_eq_some hz) (c.toNat - z) (by omega)
  rwa [Nat.add_sub_cancel' hrange.1, Char.ofNat_toNat] at hc

theorem digitsFrom_isSome {ds : Str} (h : ∀ d ∈ ds, isDecimal d = true) (acc : Nat) :
    (digitsFrom acc ds).isSome := by
  induction ds generalizing acc with
  | nil => rfl
  | cons d ds ih =>
    obtain ⟨n, hn⟩ := Option.isSome_iff_exists.mp (h d (List.mem_cons_self ..))
    have hd : d ≠ '_' := (isDecimal_apart (h d (List.mem_cons_self ..))).2.2.2
    rw [digitsFrom, hn]
    · exact ih (fun d' hd' => h d' (List.mem_cons_of_mem _ hd')) _
    · exact fun c s hc => absurd hc hd

/-- **`int` reads decimal digits** unless they are too many. -/
theorem int_isSome_iff {ds : Str} (hne : ds ≠ []) (h : ∀ d ∈ ds, isDecimal d = true) :
    (int ds).isSome ↔ ds.length ≤ maxStrDigits := by
  have hcount : ds.countP isDecimal = ds.length := List.countP_eq_length.mpr h
  have hstrip : strip ds = ds := strip_of_noSpace fun d hd => (isDecimal_apart (h d hd)).1
  rw [int, hcount, hstrip]
  split_ifs with hlong
  · simpa using hlong
  · obtain ⟨d, ds, rfl⟩ := List.exists_cons_of_ne_nil hne
    obtain ⟨-, hminus, hplus, -⟩ := isDecimal_apart (h d (List.mem_cons_self ..))
    obtain ⟨n, hn⟩ := Option.isSome_iff_exists.mp (h d (List.mem_cons_self ..))
    have hdigits : (digits (d :: ds)).isSome := by
      rw [digits, hn]
      exact digitsFrom_isSome (fun d' hd' => h d' (List.mem_cons_of_mem _ hd')) n
    refine iff_of_true ?_ (Nat.not_lt.mp hlong)
    split
    · rename_i heq
      exact absurd (List.cons.inj heq).1 hminus
    · rename_i heq
      exact absurd (List.cons.inj heq).1 hplus
    · rw [Option.isSome_map]
      exact hdigits

/-- A number in decimal, in no more digits than `int` converts; zeros may lead. -/
structure Decimal (n : Nat) (ds : Str) : Prop where
  ne_nil : ds ≠ []
  digit : ∀ c ∈ ds, c.isDigit = true
  value : Nat.ofDigitChars 10 ds 0 = n
  length_le : ds.length ≤ maxStrDigits

instance (n : Nat) (ds : Str) : Decidable (Decimal n ds) :=
  decidable_of_iff (ds ≠ [] ∧ (∀ c ∈ ds, c.isDigit = true) ∧ Nat.ofDigitChars 10 ds 0 = n ∧
      ds.length ≤ maxStrDigits)
    ⟨fun ⟨a, b, c, d⟩ => ⟨a, b, c, d⟩, fun ⟨a, b, c, d⟩ => ⟨a, b, c, d⟩⟩

theorem decimalValue_of_isDigit {c : Char} (h : c.isDigit = true) :
    decimalValue c = some (c.toNat - '0'.toNat) := by
  have hrange : 0x30 ≤ c.toNat ∧ c.toNat < 0x30 + 10 := by
    simp only [Char.isDigit, Bool.and_eq_true, decide_eq_true_eq, UInt32.le_iff_toNat_le] at h
    exact ⟨h.1, Nat.lt_succ_of_le h.2⟩
  rw [decimalValue, decimalZeros, List.find?_cons_of_pos]
  · rfl
  · simpa using hrange

theorem isDecimal_of_isDigit {c : Char} (h : c.isDigit = true) : isDecimal c = true := by
  rw [isDecimal, decimalValue_of_isDigit h]
  rfl

theorem digitsFrom_of_isDigit {ds : Str} (h : ∀ c ∈ ds, c.isDigit = true) (acc : Nat) :
    digitsFrom acc ds = some (Nat.ofDigitChars 10 ds acc) := by
  induction ds generalizing acc with
  | nil => rfl
  | cons c ds ih =>
    have hc := h c (List.mem_cons_self ..)
    have hne : c ≠ '_' := (isDecimal_apart (isDecimal_of_isDigit hc)).2.2.2
    rw [digitsFrom]
    · simp only [decimalValue_of_isDigit hc]
      rw [ih fun d hd => h d (List.mem_cons_of_mem _ hd), Nat.ofDigitChars_cons, Nat.mul_comm]
    · intro _ _ he _
      exact hne he

/-- **`int` reads decimal digits.** -/
theorem Decimal.int {n : Nat} {ds : Str} (h : Decimal n ds) : Py.int ds = some (n : Int) := by
  have hdecimal : ∀ d ∈ ds, isDecimal d = true := fun d hd => isDecimal_of_isDigit (h.digit d hd)
  have hcount : ¬maxStrDigits < ds.countP isDecimal := by
    have := List.countP_le_length (p := isDecimal) (l := ds)
    have := h.length_le
    omega
  have hstrip : strip ds = ds := strip_of_noSpace fun d hd => (isDecimal_apart (hdecimal d hd)).1
  rw [Py.int, if_neg hcount, hstrip]
  obtain ⟨d, ds, rfl⟩ := List.exists_cons_of_ne_nil h.ne_nil
  obtain ⟨-, hminus, hplus, -⟩ := isDecimal_apart (hdecimal d (List.mem_cons_self ..))
  have hd := h.digit d (List.mem_cons_self ..)
  have hdigits : digits (d :: ds) = some n := by
    rw [digits, decimalValue_of_isDigit hd, Option.bind_some,
      digitsFrom_of_isDigit fun c hc => h.digit c (List.mem_cons_of_mem _ hc), ← h.value,
      Nat.ofDigitChars_cons, Nat.mul_zero, Nat.zero_add]
  split
  · rename_i heq
    exact absurd (List.cons.inj heq).1 hminus
  · rename_i heq
    exact absurd (List.cons.inj heq).1 hplus
  · rw [hdigits]
    rfl

example : int " -1_000 ".toList = some (-1000) := by decide

end Py
