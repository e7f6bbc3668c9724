import ConfigManager.LinkUtils
import ConfigManager.Py.RegexRules

/-! # Names of uploaded files (`app.handlers.admin.handle_document`)

A document is stored under a name made of the one its sender gave it.  A step may undo what
an earlier one did, so each property is shown of the step that decides it: the characters are
those the filter lets through, the ending is the one repaired last, and no name with that
ending leads out of its directory.
-/
namespace ConfigManager

open Py Regex

/-! ## Paths -/

/-- The parts of a POSIX path: `pathlib` leaves out the empty ones and the single dots. -/
def pathParts (path : Str) : List Str :=
  (path.splitOn '/').filter fun part => part ≠ [] ∧ part ≠ ['.']

/-- `dir / name`: an absolute name takes the place of the directory. -/
def joinPath (dir : List Str) (name : Str) : List Str :=
  if name.head? = some '/' then pathParts name else dir ++ pathParts name

/-- Where the next part of a path leads. -/
def enter (place : List Str) (part : Str) : List Str :=
  if part = "..".toList then place.dropLast else place ++ [part]

/-- The place a path leads to. -/
def resolve (path : List Str) : List Str := path.foldl enter []

/-- A name without a separator is the last part of its path. -/
theorem joinPath_of_notMem {name : Str} (hne : name ≠ []) (hdot : name ≠ ['.'])
    (h : '/' ∉ name) (dir : List Str) : joinPath dir name = dir ++ [name] := by
  have hhead : name.head? ≠ some '/' := fun he => h (List.mem_of_mem_head? he)
  have hparts : pathParts name = [name] := by
    rw [pathParts, List.splitOn_eq_singleton h, List.filter_singleton]
    simp [hne, hdot]
  rw [joinPath, if_neg hhead, hparts]

theorem resolve_child {name : Str} (h : name ≠ "..".toList) (dir : List Str) :
    resolve (dir ++ [name]) = resolve dir ++ [name] := by
  rw [resolve, List.foldl_append, List.foldl_cons, List.foldl_nil, enter, if_neg h, resolve]

/-! ## The name of the file -/

/-- `[A-Za-z0-9._-]`. -/
def isNameChar (c : Char) : Bool := c.isAlphanum || c == '.' || c == '_' || c == '-'

/-- The three rewrites of the sender's name. -/
def rewrittenName (originalName : Str) : Str :=
  let name := sub (rep true 1 (· == '/')) ['_'] originalName
  let name := replace "..".toList [] name
  sub (cls fun c => !isNameChar c) ['_'] name

/-- `safe_name`. -/
def safeName (originalName : Str) : Str :=
  let name := rewrittenName originalName
  let name := if name ≠ [] then name.take 120 else "clean_ips.txt".toList
  if ".txt".toList.isSuffixOf (lower name) then name else name ++ ".txt".toList

/-- A file that stays in its directory. -/
structure StaysIn (dir : List Str) (name : Str) : Prop where
  ne_nil : name ≠ []
  chars : ∀ c ∈ name, isNameChar c = true
  separators : '/' ∉ name ∧ '\\' ∉ name
  dots : name ≠ ".".toList ∧ name ≠ "..".toList
  ending : ".txt".toList <:+ lower name
  length_le : name.length ≤ 124
  parts : joinPath dir name = dir ++ [name]
  place : resolve (joinPath dir name) = resolve dir ++ [name]

/-- What the rewrite of the characters leaves. -/
theorem isNameChar_of_mem_sub {s : Str} {c : Char}
    (hc : c ∈ sub (cls fun c => !isNameChar c) ['_'] s) : isNameChar c = true := by
  rw [sub_cls] at hc
  obtain ⟨d, -, rfl⟩ := List.mem_map.mp hc
  by_cases hd : isNameChar d = true
  · rw [hd]
    exact hd
  · rw [if_pos (by simpa using hd)]
    decide

/-- The last rewrite decides which characters are left. -/
theorem isNameChar_rewrittenName (originalName : Str) :
    ∀ c ∈ rewrittenName originalName, isNameChar c = true := fun _ => isNameChar_of_mem_sub

theorem notMem_of_chars {name : Str} (h : ∀ c ∈ name, isNameChar c = true) {c : Char}
    (hc : isNameChar c = false) : c ∉ name := by
  intro hm
  rw [h c hm] at hc
  cases hc

/-- What is kept of the rewritten name, or stands in for it. -/
theorem cut_name {name : Str} (h : ∀ c ∈ name, isNameChar c = true) :
    let cut := if name ≠ [] then name.take 120 else "clean_ips.txt".toList
    (∀ c ∈ cut, isNameChar c = true) ∧ cut.length ≤ 120 := by
  intro cut
  by_cases hne : name ≠ []
  · have hcut : cut = name.take 120 := if_pos hne
    rw [hcut]
    exact ⟨fun c hc => h c (List.mem_of_mem_take hc), List.length_take_le ..⟩
  · have hcut : cut = "clean_ips.txt".toList := if_neg hne
    rw [hcut]
    decide

/-- The repair of the ending. -/
theorem repaired_name {name : Str} (h : ∀ c ∈ name, isNameChar c = true) :
    let repaired :=
      if ".txt".toList.isSuffixOf (lower name) then name else name ++ ".txt".toList
    (∀ c ∈ repaired, isNameChar c = true) ∧ ".txt".toList <:+ lower repaired ∧
      repaired.length ≤ name.length + 4 := by
  intro repaired
  by_cases hend : ".txt".toList.isSuffixOf (lower name) = true
  · have hrep : repaired = name := if_pos hend
    rw [hrep]
    exact ⟨h, List.isSuffixOf_iff_suffix.mp hend, Nat.le_add_right ..⟩
  · have hrep : repaired = name ++ ".txt".toList := if_neg hend
    rw [hrep]
    have htxt : ∀ c ∈ ".txt".toList, isNameChar c = true := by decide
    refine ⟨fun c hc => ?_, ?_, ?_⟩
    · exact (List.mem_append.mp hc).elim (h c) (htxt c)
    · rw [lower, List.map_append]
      exact List.suffix_append ..
    · exact (List.length_append ..).le

/-- The ending alone makes a name longer than the dots. -/
theorem length_of_ending {name : Str} (h : ".txt".toList <:+ lower name) : 4 ≤ name.length := by
  have hle := h.length_le
  rwa [lower, List.length_map] at hle

/-- **An upload stays in its directory**, whatever name its sender gave it. -/
theorem safeName_staysIn (dir : List Str) (originalName : Str) :
    StaysIn dir (safeName originalName) := by
  obtain ⟨hcut, hcutlen⟩ := cut_name (isNameChar_rewrittenName originalName)
  obtain ⟨hchars, hending, hlen⟩ := repaired_name hcut
  have hfour : 4 ≤ (safeName originalName).length := length_of_ending hending
  have hslash : '/' ∉ safeName originalName := notMem_of_chars hchars (by decide)
  have hshort : ∀ name : Str, name.length < 4 → safeName originalName ≠ name := by
    rintro name hname rfl
    omega
  have hdots : safeName originalName ≠ "..".toList := hshort _ (by decide)
  have hparts :=
    joinPath_of_notMem (hshort [] (by decide)) (hshort ['.'] (by decide)) hslash dir
  exact {
    ne_nil := hshort [] (by decide)
    chars := hchars
    separators := ⟨hslash, notMem_of_chars hchars (by decide)⟩
    dots := ⟨hshort _ (by decide), hdots⟩
    ending := hending
    length_le := hlen.trans (Nat.add_le_add_right hcutlen 4)
    parts := hparts
    place := by rw [hparts, resolve_child hdots] }

end ConfigManager
