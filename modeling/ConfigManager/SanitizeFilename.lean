import ConfigManager.SafeName

/-! # Safe file names (`core.utils.sanitize_filename`)

The function makes a safe name out of any text and ends without returning it: a call is
`None`.  The name it makes is all that its documentation says of the result.  Removing `..`
leaves one dot of an odd run and joins nothing, since what stands around a run stays, and the
rewrite after it writes no dot.
-/
namespace ConfigManager

open Py Regex

/-- The local `name` of `sanitize_filename`, after its last assignment. -/
def sanitizedName (filename : Str) : Str :=
  let name := sub (rep true 1 fun c => c == '\\' || c == '/') ['_'] filename
  let name := replace "..".toList [] name
  let name := sub (cls fun c => !isNameChar c) ['_'] name
  if name ≠ [] then name.take 120 else "unnamed.txt".toList

/-- `sanitize_filename`, with `None` as `none`: no `return` follows the assignments. -/
def sanitizeFilename (filename : Str) : Option Str :=
  let _name := sanitizedName filename
  none

/-- A safe name. -/
structure IsSafeName (name : Str) : Prop where
  ne_nil : name ≠ []
  length_le : name.length ≤ 120
  chars : ∀ c ∈ name, isNameChar c = true
  dots : ¬"..".toList <:+: name
  separators : '/' ∉ name ∧ '\\' ∉ name

/-- What a function returns for a text is safe, and it returns that for itself. -/
def Sanitizes (sanitize : Str → Option Str) (filename : Str) : Prop :=
  ∃ name, sanitize filename = some name ∧ IsSafeName name ∧ sanitize name = some name

variable {s name : Str}

/-! ## Removing `..` -/

/-- What is left starts with a dot only if the text does. -/
theorem head?_replaceFrom_dots (h : (replaceFrom "..".toList [] s 0).head? = some '.') :
    s.head? = some '.' := by
  cases s with
  | nil => exact h
  | cons c s =>
    rw [replaceFrom] at h
    split at h
    next hp =>
      have hc : '.' = c := (List.cons_prefix_cons.mp (List.isPrefixOf_iff_prefix.mp hp)).1
      rw [List.head?_cons, hc]
    · exact h

/-- A dot that is kept is followed by none in the text, so by none in what is left. -/
theorem not_dots_replaceFrom (skip : Nat) :
    ¬"..".toList <:+: replaceFrom "..".toList [] s skip := by
  induction s generalizing skip with
  | nil => simp [replaceFrom]
  | cons c s ih =>
    cases skip with
    | succ skip => exact ih skip
    | zero =>
      rw [replaceFrom]
      split
      · exact ih 1
      next hp =>
        rw [List.infix_cons_iff, not_or]
        refine ⟨fun h => hp ?_, ih 0⟩
        obtain ⟨hc, t, ht⟩ := List.cons_prefix_cons.mp h
        have hs : s.head? = some '.' := head?_replaceFrom_dots (by rw [← ht]; rfl)
        obtain ⟨u, rfl⟩ := List.head?_eq_some_iff.mp hs
        rw [← hc, List.isPrefixOf_iff_prefix]
        exact ⟨u, rfl⟩

/-- A rewrite of characters that writes no dot makes no two of them. -/
theorem not_dots_map {f : Char → Char} (hf : ∀ c, f c = '.' → c = '.')
    (h : ¬"..".toList <:+: s) : ¬"..".toList <:+: s.map f := by
  intro hi
  obtain ⟨u, hu, hmap⟩ := List.infix_map_iff.mp hi
  obtain ⟨c, v, rfl, hc, hv⟩ := List.map_eq_cons_iff.mp hmap.symm
  obtain ⟨d, w, rfl, hd, hw⟩ := List.map_eq_cons_iff.mp hv
  obtain rfl := List.map_eq_nil_iff.mp hw
  rw [hf c hc, hf d hd] at hu
  exact h hu

/-! ## The name -/

/-- The last rewrite decides which characters there are, and writes no dot. -/
theorem not_dots_sub (h : ¬"..".toList <:+: s) :
    ¬"..".toList <:+: sub (cls fun c => !isNameChar c) ['_'] s := by
  rw [sub_cls]
  apply not_dots_map _ h
  intro c hc
  split at hc
  · cases hc
  · exact hc

theorem isSafeName_sanitizedName (filename : Str) : IsSafeName (sanitizedName filename) := by
  let undotted :=
    replace "..".toList [] (sub (rep true 1 fun c => c == '\\' || c == '/') ['_'] filename)
  let name := sub (cls fun c => !isNameChar c) ['_'] undotted
  have hname : sanitizedName filename =
      if name ≠ [] then name.take 120 else "unnamed.txt".toList := rfl
  by_cases hne : name ≠ []
  · rw [hname, if_pos hne]
    have htake : name.take 120 <:+: name := (List.take_prefix ..).isInfix
    have hchars : ∀ c ∈ name.take 120, isNameChar c = true := fun c hc =>
      isNameChar_of_mem_sub (htake.mem hc)
    exact {
      ne_nil := by simpa using hne
      length_le := List.length_take_le ..
      chars := hchars
      dots := fun h => not_dots_sub (not_dots_replaceFrom 0) (h.trans htake)
      separators := ⟨notMem_of_chars hchars (by decide), notMem_of_chars hchars (by decide)⟩ }
  · rw [hname, if_neg hne]
    constructor <;> decide

example : sanitizedName "..../.\\é.txt".toList = "_.__.txt".toList := by decide +kernel

/-- A safe name is kept as it is. -/
theorem IsSafeName.sanitizedName_eq (h : IsSafeName name) : sanitizedName name = name := by
  have hslash : sub (rep true 1 fun c => c == '\\' || c == '/') ['_'] name = name := by
    apply sub_rep_of_notMem
    intro c hc
    have hne : c ≠ '\\' ∧ c ≠ '/' :=
      ⟨fun he => h.separators.2 (he ▸ hc), fun he => h.separators.1 (he ▸ hc)⟩
    simp [hne]
  have hdots : replace "..".toList [] name = name := replace_of_not_infix h.dots
  have hkept : sub (cls fun c => !isNameChar c) ['_'] name = name := by
    rw [sub_cls]
    refine (List.map_congr_left fun c hc => ?_).trans (List.map_id name)
    rw [h.chars c hc]
    rfl
  rw [sanitizedName]
  simp only [hslash, hdots, hkept, if_pos h.ne_nil]
  exact List.take_of_length_le h.length_le

/-- **No call returns a name**: the one that is made is safe and made of itself, and it is
dropped. -/
theorem sanitizeFilename_drops_name (filename : Str) :
    ¬Sanitizes sanitizeFilename filename ∧
      Sanitizes (fun filename => some (sanitizedName filename)) filename := by
  have hsafe : IsSafeName (sanitizedName filename) := isSafeName_sanitizedName filename
  constructor
  · rintro ⟨name, h, -⟩
    cases h
  · exact ⟨_, rfl, hsafe, congrArg some hsafe.sanitizedName_eq⟩

/-- A call with a name that has nothing to rewrite. -/
theorem not_sanitizes_report :
    sanitizedName "report.txt".toList = "report.txt".toList ∧
      sanitizeFilename "report.txt".toList = none ∧
      ¬Sanitizes sanitizeFilename "report.txt".toList := by
  refine ⟨by decide +kernel, rfl, ?_⟩
  rintro ⟨name, h, -⟩
  cases h

end ConfigManager
