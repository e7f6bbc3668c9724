import ConfigManager.Py.Text

/-! # Backtracking regular expressions

The fragment of Python's `re` in which every repetition is of one character
class.  A pattern is matched at the head of a text, and `matchesAt` lists all the
ways it can match there in the order a backtracking engine tries them; `match?`
takes the first.  `search`, `findall` and `sub` look for matches from the left.

Patterns used with `findall` and `sub` must not match the empty text, so these
two need no rule for empty matches.
-/
namespace Py

/-- A regular expression.  `group` is the only capture group of its pattern. -/
inductive Regex where
  /-- One character of a class. -/
  | cls (p : Char → Bool)
  /-- `p{min,}`, greedy or lazy. -/
  | rep (greedy : Bool) (min : Nat) (p : Char → Bool)
  /-- `r?`, greedy. -/
  | opt (r : Regex)
  | seq (r t : Regex)
  /-- `r|t`: the left one is tried first. -/
  | alt (r t : Regex)
  /-- `(?=r)`. -/
  | ahead (r : Regex)
  /-- `$`: the end of the text, or before a newline that ends it. -/
  | eos
  /-- `(r)`. -/
  | group (r : Regex)

/-- One way a pattern matches at the head of a text. -/
structure Match where
  /-- The characters matched. -/
  text : Str
  /-- The capture group, if it took part. -/
  group : Option Str
  /-- What follows the match. -/
  rest : Str
  deriving DecidableEq

namespace Match

/-- A match of a sequence, from the matches of its two parts. -/
def andThen (m n : Match) : Match := ⟨m.text ++ n.text, n.group <|> m.group, n.rest⟩

@[simp] theorem andThen_text (m n : Match) : (m.andThen n).text = m.text ++ n.text := rfl
@[simp] theorem andThen_rest (m n : Match) : (m.andThen n).rest = n.rest := rfl
@[simp] theorem andThen_group (m n : Match) : (m.andThen n).group = (n.group <|> m.group) := rfl

end Match

namespace Regex

/-- The characters of a literal one after the other. -/
def lit : Str → Regex
  | [] => rep true 0 fun _ => false
  | [c] => cls (· == c)
  | c :: s => seq (cls (· == c)) (lit s)

/-- The ways to cut a text after a run of `p`, shortest first. -/
def runs (p : Char → Bool) : Str → List (Str × Str)
  | [] => [([], [])]
  | c :: s => ([], c :: s) :: if p c then (runs p s).map fun m => (c :: m.1, m.2) else []

/-- All matches at the head of a text, in the order they are tried. -/
def matchesAt : Regex → Str → List Match
  | cls _, [] => []
  | cls p, c :: s => if p c then [⟨[c], none, s⟩] else []
  | rep greedy min p, s =>
      let found := ((runs p s).drop min).map fun m => ⟨m.1, none, m.2⟩
      if greedy then found.reverse else found
  | opt r, s => r.matchesAt s ++ [⟨[], none, s⟩]
  | seq r t, s => (r.matchesAt s).flatMap fun m => (t.matchesAt m.rest).map m.andThen
  | alt r t, s => r.matchesAt s ++ t.matchesAt s
  | ahead r, s => if (r.matchesAt s).isEmpty then [] else [⟨[], none, s⟩]
  | eos, s => if s = [] ∨ s = ['\n'] then [⟨[], none, s⟩] else []
  | group r, s => (r.matchesAt s).map fun m => { m with group := some m.text }

/-- `re.match`. -/
def match? (r : Regex) (s : Str) : Option Match := (r.matchesAt s).head?

/-- Some way of matching takes the whole text: `re.fullmatch`. -/
def FullMatch (r : Regex) (s : Str) : Prop := ∃ m ∈ r.matchesAt s, m.rest = []

instance (r : Regex) (s : Str) : Decidable (FullMatch r s) :=
  inferInstanceAs (Decidable (∃ m ∈ r.matchesAt s, m.rest = []))

/-- `re.search`: the leftmost match. -/
def search (r : Regex) : Str → Option Match
  | [] => r.match? []
  | c :: s => (r.match? (c :: s)).or (search r s)

/-- The matches found from the left, after `skip` characters of the last one have
been passed over. -/
def scan (r : Regex) : Str → Nat → List Match
  | [], _ => []
  | _ :: s, skip + 1 => scan r s skip
  | c :: s, 0 =>
      match r.match? (c :: s) with
      | some m => m :: scan r s (m.text.length - 1)
      | none => scan r s 0

/-- `re.findall` of a pattern whose group is the whole of it. -/
def findall (r : Regex) (s : Str) : List Str := (scan r s 0).map Match.text

/-- `sub` after `skip` characters of a match have been passed over. -/
def subFrom (r : Regex) (new : Str) : Str → Nat → Str
  | [], _ => []
  | _ :: s, skip + 1 => subFrom r new s skip
  | c :: s, 0 =>
      match r.match? (c :: s) with
      | some m => new ++ subFrom r new s (m.text.length - 1)
      | none => c :: subFrom r new s 0

/-- `re.sub` with a replacement that has no backslash. -/
def sub (r : Regex) (new s : Str) : Str := subFrom r new s 0

/-! ## Case-insensitive patterns -/

/-- The representative of a character's case variants, for the characters whose
variants include an ASCII letter: the long s, the Kelvin sign and the Turkish i are
variants of one, too. -/
def foldCase (c : Char) : Char :=
  if c = '\u017F' then 's'
  else if c = '\u212A' then 'k'
  else if c = '\u0130' ∨ c = '\u0131' then 'i'
  else c.toLower

/-- A class closed under case. -/
def foldClass (p : Char → Bool) (c : Char) : Bool :=
  p c || p (foldCase c) || p (foldCase c).toUpper

/-- A pattern compiled with `re.IGNORECASE`. -/
def ignoreCase : Regex → Regex
  | cls p => cls (foldClass p)
  | rep greedy min p => rep greedy min (foldClass p)
  | opt r => opt r.ignoreCase
  | seq r t => seq r.ignoreCase t.ignoreCase
  | alt r t => alt r.ignoreCase t.ignoreCase
  | ahead r => ahead r.ignoreCase
  | eos => eos
  | group r => group r.ignoreCase

/-! ## What a match is -/

attribute [local simp] runs matchesAt

theorem runs_append {p : Char → Bool} {s a b : Str} (h : (a, b) ∈ runs p s) :
    a ++ b = s ∧ ∀ c ∈ a, p c = true := by
  induction s generalizing a with
  | nil => simp_all
  | cons c s ih =>
    simp only [runs, List.mem_cons] at h
    rcases h with h | h
    · cases h; simp
    · split at h
      · rename_i hc
        obtain ⟨⟨a', b'⟩, h', he⟩ := List.mem_map.mp h
        cases he
        obtain ⟨hs, hp⟩ := ih h'
        exact ⟨by simp [hs], by simpa [hc] using hp⟩
      · simp at h

/-- A match and what follows it make up the text. -/
theorem text_append_rest {r : Regex} {s : Str} {m : Match} (h : m ∈ r.matchesAt s) :
    m.text ++ m.rest = s := by
  induction r generalizing s m with
  | cls p =>
    cases s with
    | nil => simp at h
    | cons c s =>
      simp only [matchesAt] at h
      split at h <;> simp_all
  | rep greedy min p =>
    have h' : m ∈ ((runs p s).drop min).map fun m => (⟨m.1, none, m.2⟩ : Match) := by
      simp only [matchesAt] at h
      split at h
      · exact List.mem_reverse.mp h
      · exact h
    obtain ⟨⟨a, b⟩, hab, rfl⟩ := List.mem_map.mp h'
    exact (runs_append (List.mem_of_mem_drop hab)).1
  | opt r ih =>
    rcases List.mem_append.mp h with h | h
    · exact ih h
    · simp only [List.mem_singleton] at h; subst h; rfl
  | seq r t ihr iht =>
    simp only [matchesAt, List.mem_flatMap, List.mem_map] at h
    obtain ⟨a, ha, b, hb, rfl⟩ := h
    simp [iht hb, ihr ha]
  | alt r t ihr iht => exact (List.mem_append.mp h).elim ihr iht
  | ahead r _ =>
    simp only [matchesAt] at h
    split at h <;> simp_all
  | eos =>
    simp only [matchesAt] at h
    split at h <;> simp_all
  | group r ih =>
    simp only [matchesAt, List.mem_map] at h
    obtain ⟨a, ha, rfl⟩ := h
    change a.text ++ a.rest = s
    exact ih ha

theorem match?_append {r : Regex} {s : Str} {m : Match} (h : r.match? s = some m) :
    m.text ++ m.rest = s :=
  text_append_rest (List.mem_of_mem_head? h)

end Regex
end Py
