import ConfigManager.Py.RegexScan

/-! # Tokens of a text

The tokens of a text are what stands between its separators; `str.split()` is the case of
whitespace.  They are found in every other way of cutting the text at separators: by a
coarser split (`tokens_eq_flatMap`), by `re.split` (`filter_split`), after separators
around it are stripped (`tokens_strip`), and line by line in a file that is read with
universal newlines (`tokens_eq_lines`).

All of this is one induction: a text has no separator, or it is cut at its first one.
-/
namespace Py

/-- What stands between the separators of a text. -/
def tokens (p : Char → Bool) (s : Str) : List Str := (s.splitOnP p).filter (· ≠ [])

theorem words_eq_tokens (s : Str) : words s = tokens isSpace s := rfl

variable {p q : Char → Bool} {c : Char} {a s u w : Str}

/-- **A text is cut at its first separator**, and what is shown of it may be assumed of
every end of what follows. -/
theorem cut_induction {motive : Str → Prop} (p : Char → Bool)
    (free : ∀ s, (∀ c ∈ s, p c = false) → motive s)
    (cut : ∀ a c s, (∀ d ∈ a, p d = false) → p c = true → (∀ u, u <:+ s → motive u) →
      motive (a ++ c :: s)) (s : Str) : motive s := by
  induction hn : s.length using Nat.strong_induction_on generalizing s with
  | _ n ih =>
    have happend := List.takeWhile_append_dropWhile (p := fun c => !p c) (l := s)
    have hfree : ∀ d ∈ s.takeWhile fun c => !p c, p d = false := fun d hd => by
      simpa using List.mem_takeWhile_imp hd
    cases hdrop : s.dropWhile fun c => !p c with
    | nil =>
      rw [hdrop, List.append_nil] at happend
      exact free s (happend ▸ hfree)
    | cons c t =>
      have hc : p c = true := by
        have hnot := List.head_dropWhile_not (p := fun c => !p c) (l := s) (by simp [hdrop])
        simpa [hdrop] using hnot
      rw [hdrop] at happend
      rw [← happend]
      refine cut _ c t hfree hc fun u hu => ih u.length ?_ u rfl
      have hle := hu.length_le
      have hlen := congrArg List.length happend
      rw [List.length_append, List.length_cons] at hlen
      omega

/-! ## Rules -/

@[simp] theorem tokens_nil : tokens p [] = [] := rfl

theorem tokens_append_cons (hc : p c = true) (a s : Str) :
    tokens p (a ++ c :: s) = tokens p a ++ tokens p s := by
  rw [tokens, List.splitOnP_append_cons a s hc, List.filter_append, tokens, tokens]

theorem tokens_cons (hc : p c = true) (s : Str) : tokens p (c :: s) = tokens p s :=
  tokens_append_cons hc [] s

/-- A text without a separator is one token, unless it is empty. -/
theorem tokens_of_free (h : ∀ c ∈ w, p c = false) : tokens p w = [w].filter (· ≠ []) := by
  rw [tokens, List.splitOnP_eq_singleton h]

theorem tokens_of_token (hne : w ≠ []) (h : ∀ c ∈ w, p c = false) : tokens p w = [w] := by
  rw [tokens_of_free h, List.filter_singleton]
  simp [hne]

/-- Separators in front of a text. -/
theorem tokens_append_left (h : ∀ c ∈ u, p c = true) (s : Str) :
    tokens p (u ++ s) = tokens p s := by
  induction u with
  | nil => rfl
  | cons c u ih =>
    rw [List.cons_append, tokens_cons (h c (List.mem_cons_self ..)),
      ih fun d hd => h d (List.mem_cons_of_mem _ hd)]

/-- Separators behind a text. -/
theorem tokens_append_right (h : ∀ c ∈ u, p c = true) (s : Str) :
    tokens p (s ++ u) = tokens p s := by
  cases u with
  | nil => rw [List.append_nil]
  | cons c u =>
    have hu : tokens p u = [] := by
      have hall := tokens_append_left (fun d hd => h d (List.mem_cons_of_mem _ hd)) []
      rwa [List.append_nil, tokens_nil] at hall
    rw [tokens_append_cons (h c (List.mem_cons_self ..)), hu, List.append_nil]

/-- No piece of a text has a separator. -/
theorem free_of_mem_splitOnP (h : w ∈ s.splitOnP p) : ∀ c ∈ w, p c = false := by
  induction s using cut_induction p with
  | free s hs =>
    rw [List.splitOnP_eq_singleton hs, List.mem_singleton] at h
    exact h ▸ hs
  | cut a c s ha hc ih =>
    rw [List.splitOnP_append_cons_of_forall_mem ha c hc, List.mem_cons] at h
    rcases h with rfl | h
    · exact ha
    · exact ih s List.suffix_rfl h

/-- A token is not empty, and no character of it is a separator. -/
theorem of_mem_tokens (h : w ∈ tokens p s) : w ≠ [] ∧ ∀ c ∈ w, p c = false := by
  obtain ⟨hw, hne⟩ := List.mem_filter.mp h
  exact ⟨by simpa using hne, free_of_mem_splitOnP hw⟩

/-- **The tokens of a text** are those of the pieces it is cut into at some of its
separators. -/
theorem tokens_eq_flatMap (hpq : ∀ c, q c = true → p c = true) (s : Str) :
    tokens p s = (s.splitOnP q).flatMap (tokens p) := by
  induction s using cut_induction q with
  | free s hs => rw [List.splitOnP_eq_singleton hs, List.flatMap_singleton]
  | cut a c s ha hc ih =>
    rw [tokens_append_cons (hpq c hc), List.splitOnP_append_cons_of_forall_mem ha c hc,
      List.flatMap_cons, ih s List.suffix_rfl]

/-- A token of a coarser split is a token, if it has no separator. -/
theorem mem_tokens_of_coarser (hpq : ∀ c, q c = true → p c = true) (h : w ∈ tokens q s)
    (hfree : ∀ c ∈ w, p c = false) : w ∈ tokens p s := by
  obtain ⟨hw, hne⟩ := List.mem_filter.mp h
  rw [tokens_eq_flatMap hpq, List.mem_flatMap]
  exact ⟨w, hw, by rw [tokens_of_token (by simpa using hne) hfree]; exact List.mem_singleton_self w⟩

theorem tokens_dropWhile (hpq : ∀ c, q c = true → p c = true) (s : Str) :
    tokens p (s.dropWhile q) = tokens p s := by
  have hfront : ∀ c ∈ s.takeWhile q, p c = true := fun c hc => hpq c (List.mem_takeWhile_imp hc)
  rw [← tokens_append_left hfront, List.takeWhile_append_dropWhile]

theorem tokens_strip (hp : ∀ c, isSpace c = true → p c = true) (s : Str) :
    tokens p (strip s) = tokens p s := by
  have hback : ∀ c ∈ (s.dropWhile isSpace).rtakeWhile isSpace, p c = true := fun c hc =>
    hp c (List.mem_rtakeWhile_imp hc)
  rw [← tokens_append_right hback, strip, List.rdropWhile_append_rtakeWhile,
    tokens_dropWhile hp]

/-! ## `re.split` -/

namespace Regex

/-- `split` after `skip` characters of a match have been passed over. -/
def splitFrom (r : Regex) : Str → Nat → List Str
  | [], _ => [[]]
  | _ :: s, skip + 1 => splitFrom r s skip
  | c :: s, 0 =>
      match r.match? (c :: s) with
      | some m => [] :: splitFrom r s (m.text.length - 1)
      | none => (splitFrom r s 0).modifyHead (c :: ·)

/-- `re.split` by a pattern without groups. -/
def split (r : Regex) (s : Str) : List Str := splitFrom r s 0

variable {r : Regex} {m : Match}

theorem splitFrom_skip (u : Str) : splitFrom r (u ++ s) u.length = split r s := by
  induction u with
  | nil => rfl
  | cons c u ih => simpa [splitFrom] using ih

theorem split_of_match (h : r.match? s = some m) (hne : m.text ≠ []) :
    split r s = [] :: split r m.rest := by
  obtain ⟨c, u, hu⟩ := List.exists_cons_of_ne_nil hne
  have hs := match?_append h
  rw [hu, List.cons_append] at hs
  rw [← hs, split, splitFrom, hs, h]
  simp only [hu, List.length_cons, Nat.add_sub_cancel]
  rw [splitFrom_skip]

/-- No match starts in the first part of a text. -/
theorem split_append (h : ∀ c v, c :: v <:+ u → r.match? (c :: v ++ s) = none) :
    split r (u ++ s) = (split r s).modifyHead (u ++ ·) := by
  induction u with
  | nil => cases hs : split r s <;> simp [hs]
  | cons c u ih =>
    have hc : r.match? (c :: (u ++ s)) = none := h c u List.suffix_rfl
    have hu := ih fun d v hv => h d v (hv.trans (List.suffix_cons ..))
    rw [List.cons_append, split, splitFrom, hc]
    change (split r (u ++ s)).modifyHead (c :: ·) = _
    rw [hu, List.modifyHead_modifyHead]
    rfl

/-- Where a run of a class starts. -/
theorem match?_run (p : Char → Bool) (c : Char) (s : Str) :
    (rep true 1 p).match? (c :: s) =
      if p c then some ⟨c :: s.takeWhile p, none, s.dropWhile p⟩ else none := by
  rw [match?_rep]
  by_cases hc : p c = true <;> simp [hc]

/-- **`re.split` by runs of separators** finds the tokens, and possibly empty pieces. -/
theorem filter_split (p : Char → Bool) (s : Str) :
    (split (rep true 1 p) s).filter (· ≠ []) = tokens p s := by
  induction s using cut_induction p with
  | free s hs =>
    have hnone : ∀ c v, c :: v <:+ s → (rep true 1 p).match? (c :: v ++ []) = none := by
      intro c v hv
      rw [List.cons_append, match?_run, if_neg (by simp [hs c (hv.mem (List.mem_cons_self ..))])]
    have hsplit := split_append hnone
    rw [List.append_nil] at hsplit
    rw [hsplit, tokens_of_free hs]
    simp [split, splitFrom]
  | cut a c s ha hc ih =>
    have hnone : ∀ d v, d :: v <:+ a → (rep true 1 p).match? (d :: v ++ c :: s) = none := by
      intro d v hv
      rw [List.cons_append, match?_run, if_neg (by simp [ha d (hv.mem (List.mem_cons_self ..))])]
    have hmatch : (rep true 1 p).match? (c :: s) =
        some ⟨c :: s.takeWhile p, none, s.dropWhile p⟩ := by
      rw [match?_run, if_pos hc]
    rw [split_append hnone, split_of_match hmatch (by simp), List.modifyHead_cons,
      List.append_nil, ← List.singleton_append, List.filter_append, ← tokens_of_free ha,
      ih _ (List.dropWhile_suffix p), tokens_dropWhile fun _ h => h, tokens_append_cons hc]

end Regex

/-! ## Lines of a file -/

/-- What a file opened for text is read as: each end of a line is a newline. -/
def universalNewlines : Str → Str
  | '\r' :: '\n' :: s => '\n' :: universalNewlines s
  | '\r' :: s => '\n' :: universalNewlines s
  | c :: s => c :: universalNewlines s
  | [] => []

/-- The lines of a file, without their ends: after a newline at its end there is an empty
one. -/
def fileLines (s : Str) : List Str := (universalNewlines s).splitOn '\n'

/-- An end of a line. -/
def isLineEnd (c : Char) : Bool := c == '\n' || c == '\r'

theorem universalNewlines_append (h : ∀ c ∈ a, isLineEnd c = false) (s : Str) :
    universalNewlines (a ++ s) = a ++ universalNewlines s := by
  induction a with
  | nil => rfl
  | cons c a ih =>
    have hc := h c (List.mem_cons_self ..)
    have hreturn : c ≠ '\r' := by
      rintro rfl
      exact absurd hc (by decide)
    rw [List.cons_append, universalNewlines.eq_3 _ _ (fun _ he _ => hreturn he) hreturn,
      ih fun d hd => h d (List.mem_cons_of_mem _ hd), List.cons_append]

/-- **Newlines of any platform** are separators between the same tokens. -/
theorem tokens_universalNewlines (hp : ∀ c, isLineEnd c = true → p c = true) (s : Str) :
    tokens p (universalNewlines s) = tokens p s := by
  have hnewline : p '\n' = true := hp '\n' (by decide)
  induction s using cut_induction isLineEnd with
  | free s hs =>
    have hsame := universalNewlines_append hs []
    rw [List.append_nil, universalNewlines, List.append_nil] at hsame
    rw [hsame]
  | cut a c s ha hc ih =>
    rw [universalNewlines_append ha, tokens_append_cons (hp c hc)]
    have hend : ∀ t, t <:+ s → tokens p t = tokens p s →
        tokens p (a ++ '\n' :: universalNewlines t) = tokens p a ++ tokens p s := by
      intro t ht he
      rw [tokens_append_cons hnewline, ih t ht, he]
    obtain rfl | rfl : c = '\n' ∨ c = '\r' := by simpa [isLineEnd] using hc
    · exact hend s List.suffix_rfl rfl
    · cases s with
      | nil => exact hend [] List.suffix_rfl rfl
      | cons d s =>
        by_cases hd : d = '\n'
        · subst hd
          -- The newline behind it is of the same end.
          exact hend s (List.suffix_cons ..) (tokens_cons hnewline s).symm
        · rw [universalNewlines.eq_2 _ fun s' he => hd (List.cons.inj he).1]
          exact hend (d :: s) List.suffix_rfl rfl

/-- **The tokens of a text are those of its lines.** -/
theorem tokens_eq_lines (hp : ∀ c, isLineEnd c = true → p c = true) (s : Str) :
    tokens p s = (fileLines s).flatMap (tokens p) := by
  have hnewline : ∀ c, (c == '\n') = true → p c = true := fun c hc => by
    rw [beq_iff_eq.mp hc]
    exact hp '\n' (by decide)
  rw [← tokens_universalNewlines hp, tokens_eq_flatMap hnewline]
  rfl

end Py
