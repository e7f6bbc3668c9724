import ConfigManager.Py.RegexScan

/-! # Matching up to a separator

A pattern is `Local` at the characters of a class if no match goes past one of them, and
if what stands behind one has no influence on the match.  It then reads a text piece by
piece: `findall` of two texts with such a character between them is `findall` of the one
and of the other (`findall_append`).
-/
namespace Py

/-- The match with more text behind it. -/
def Match.extend (m : Match) (t : Str) : Match := { m with rest := m.rest ++ t }

namespace Match

@[simp] theorem extend_text (m : Match) (t : Str) : (m.extend t).text = m.text := rfl
@[simp] theorem extend_rest (m : Match) (t : Str) : (m.extend t).rest = m.rest ++ t := rfl
@[simp] theorem extend_andThen (m n : Match) (t u : Str) :
    (m.extend t).andThen (n.extend u) = (m.andThen n).extend u := rfl

end Match

namespace Regex

/-- Before a separator a text is matched as if it ended there. -/
def Local (sep : Char → Bool) (r : Regex) : Prop :=
  ∀ s c t, sep c = true →
    r.matchesAt (s ++ c :: t) = (r.matchesAt s).map fun m => m.extend (c :: t)

variable {sep p : Char → Bool} {r t : Regex} {s u : Str} {c : Char} {m : Match}

/-! ## Rules -/

theorem local_cls (h : ∀ c, sep c = true → p c = false) : Local sep (cls p) := by
  intro s c t hc
  cases s with
  | nil => simp [matchesAt, h c hc]
  | cons d s =>
    by_cases hd : p d = true
    · simp [matchesAt, hd, Match.extend]
    · simp [matchesAt, hd]

theorem runs_append_sep (hc : p c = false) (s u : Str) :
    runs p (s ++ c :: u) = (runs p s).map fun m => (m.1, m.2 ++ c :: u) := by
  induction s with
  | nil => simp [runs, hc]
  | cons d s ih =>
    by_cases hd : p d = true
    · simp [runs, hd, ih, List.map_map, Function.comp_def]
    · simp [runs, hd]

theorem local_rep {greedy : Bool} {k : Nat} (h : ∀ c, sep c = true → p c = false) :
    Local sep (rep greedy k p) := by
  intro s c t hc
  have hruns : ((runs p (s ++ c :: t)).drop k).map (fun m => (⟨m.1, none, m.2⟩ : Match)) =
      (((runs p s).drop k).map fun m => (⟨m.1, none, m.2⟩ : Match)).map
        fun m => m.extend (c :: t) := by
    rw [runs_append_sep (h c hc), ← List.map_drop, List.map_map, List.map_map]
    rfl
  rw [matchesAt, matchesAt, hruns]
  cases greedy with
  | true => simp only [↓reduceIte, List.map_reverse]
  | false => rfl

theorem local_opt (h : Local sep r) : Local sep (opt r) := by
  intro s c t hc
  rw [matchesAt, matchesAt, h s c t hc, List.map_append]
  rfl

theorem local_seq (hr : Local sep r) (ht : Local sep t) : Local sep (seq r t) := by
  intro s c u hc
  rw [matchesAt, matchesAt, hr s c u hc, List.flatMap_map, List.map_flatMap]
  congr 1
  funext m
  rw [Match.extend_rest, ht m.rest c u hc, List.map_map, List.map_map]
  rfl

theorem local_alt (hr : Local sep r) (ht : Local sep t) : Local sep (alt r t) := by
  intro s c u hc
  rw [matchesAt, matchesAt, hr s c u hc, ht s c u hc, List.map_append]

theorem local_group (h : Local sep r) : Local sep (group r) := by
  intro s c u hc
  rw [matchesAt, matchesAt, h s c u hc, List.map_map, List.map_map]
  rfl

theorem local_lit {l : Str} (h : ∀ c, sep c = true → c ∉ l) : Local sep (lit l) := by
  induction l using lit.induct with
  | case1 => exact local_rep fun _ _ => rfl
  | case2 d =>
    refine local_cls fun c hc => ?_
    have hne : c ≠ d := fun he => h c hc (he ▸ List.mem_singleton_self c)
    simpa using hne
  | case3 d l hl ih =>
    rw [lit]
    · refine local_seq (local_cls fun c hc => ?_)
        (ih fun c hc hm => h c hc (List.mem_cons_of_mem _ hm))
      have hne : c ≠ d := fun he => h c hc (he ▸ List.mem_cons_self ..)
      simpa using hne
    · exact hl

/-! ## Finding all matches -/

theorem match?_append_sep (h : Local sep r) (hc : sep c = true) (s u : Str) :
    r.match? (s ++ c :: u) = (r.match? s).map fun m => m.extend (c :: u) := by
  rw [match?, match?, h s c u hc, List.head?_map]

/-- **A text is searched piece by piece.** -/
theorem findall_append (h : Local sep r) (hne : ∀ s m, m ∈ r.matchesAt s → m.text ≠ [])
    (hc : sep c = true) (s u : Str) :
    findall r (s ++ c :: u) = findall r s ++ findall r u := by
  -- A match is passed over as a whole, so the induction is on the length.
  induction hn : s.length using Nat.strong_induction_on generalizing s with
  | _ n ih =>
    subst hn
    have hmatch := match?_append_sep h hc s u
    cases s with
    | nil =>
      have hnil : r.match? [] = none := by
        rw [match?_eq_none]
        intro m hm
        exact hne [] m hm (List.append_eq_nil_iff.mp (text_append_rest hm)).1
      rw [hnil, Option.map_none] at hmatch
      exact findall_cons_of_noMatch hmatch
    | cons d s =>
      cases hm : r.match? (d :: s) with
      | none =>
        rw [hm, Option.map_none] at hmatch
        have hskip : findall r (d :: (s ++ c :: u)) = findall r (s ++ c :: u) :=
          findall_cons_of_noMatch hmatch
        rw [List.cons_append, hskip, findall_cons_of_noMatch hm, ih _ (Nat.lt_succ_self _) s rfl]
      | some m =>
        have htext : m.text ≠ [] := hne _ m (List.mem_of_mem_head? hm)
        have hlen : m.rest.length < (d :: s).length := by
          have := congrArg List.length (match?_append hm)
          have := List.length_pos_of_ne_nil htext
          rw [List.length_append] at *
          omega
        rw [hm, Option.map_some] at hmatch
        rw [findall_of_match hmatch htext, findall_of_match hm htext, Match.extend_text,
          Match.extend_rest, ih _ hlen m.rest rfl, List.cons_append]

/-- Separators before a text hide nothing. -/
theorem findall_seps_append (h : Local sep r) (hne : ∀ s m, m ∈ r.matchesAt s → m.text ≠ [])
    (hs : ∀ c ∈ s, sep c = true) (u : Str) : findall r (s ++ u) = findall r u := by
  induction s with
  | nil => rfl
  | cons c s ih =>
    have hcut := findall_append h hne (hs c (List.mem_cons_self ..)) [] (s ++ u)
    rw [List.nil_append] at hcut
    rw [List.cons_append, hcut, ih fun d hd => hs d (List.mem_cons_of_mem _ hd)]
    rfl

/-- Separators between two texts cut the search in two. -/
theorem findall_append_seps (h : Local sep r) (hne : ∀ s m, m ∈ r.matchesAt s → m.text ≠ [])
    {w : Str} (hw : ∀ c ∈ w, sep c = true) (hwne : w ≠ []) (s u : Str) :
    findall r (s ++ (w ++ u)) = findall r s ++ findall r u := by
  obtain ⟨c, w, rfl⟩ := List.exists_cons_of_ne_nil hwne
  rw [List.cons_append, findall_append h hne (hw c (List.mem_cons_self ..)),
    findall_seps_append h hne fun d hd => hw d (List.mem_cons_of_mem _ hd)]

/-- **Joined texts** are searched one after the other. -/
theorem findall_intercalate (h : Local sep r) (hne : ∀ s m, m ∈ r.matchesAt s → m.text ≠ [])
    {w : Str} (hw : ∀ c ∈ w, sep c = true) (hwne : w ≠ []) (texts : List Str) :
    findall r (w.intercalate texts) = texts.flatMap (findall r) := by
  induction texts with
  | nil => rfl
  | cons s texts ih =>
    cases texts with
    | nil => simp
    | cons u texts =>
      rw [List.intercalate_cons_cons, List.append_assoc, findall_append_seps h hne hw hwne, ih,
        ← List.flatMap_cons]

end Regex
end Py
