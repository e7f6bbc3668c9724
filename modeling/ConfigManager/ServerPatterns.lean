import ConfigManager.LinkUtils
import ConfigManager.Py.RegexRules

/-! # Where a url link names its server

`@([^:]+):` finds the host and `:(\d+)(?:\?|#|$|/)` the port, each at the first place
that fits, wherever that is: nothing keeps them in front of the fragment.  What follows
a `#` is therefore read when the part before it has no host, or no port
(`searchGroup_host_append`, `searchGroup_port_append`).
-/
namespace ConfigManager

open Py Regex

variable {s t : Str} {m : Match}

/-- The pattern matches somewhere. -/
def Found (r : Regex) (s : Str) : Prop := (r.search s).isSome

instance (r : Regex) (s : Str) : Decidable (Found r s) := inferInstanceAs (Decidable (_ = _))

/-! ## The host -/

theorem match?_host :
    hostPattern.match? s = some m ↔
      ∃ a y, s = '@' :: (a ++ ':' :: y) ∧ a ≠ [] ∧ ':' ∉ a ∧
        m = ⟨'@' :: (a ++ [':']), some a, y⟩ := by
  refine match?_delimited fun {s m} => ?_
  simp only [mem_group, mem_until]
  constructor
  · rintro ⟨n, ⟨a, b, rfl, hne, hc, rfl⟩, rfl⟩
    exact ⟨a, b, rfl, hne, hc, rfl⟩
  · rintro ⟨a, b, rfl, hne, hc, rfl⟩
    exact ⟨_, ⟨a, b, rfl, hne, hc, rfl⟩, rfl⟩

/-- The host a match at the head of a text captures. -/
theorem group_host {g : Option Str} :
    (hostPattern.match? s).map Match.group = some g ↔
      ∃ a y, s = '@' :: (a ++ ':' :: y) ∧ a ≠ [] ∧ ':' ∉ a ∧ g = some a := by
  rw [Option.map_eq_some_iff]
  constructor
  · rintro ⟨m, hm, rfl⟩
    obtain ⟨a, y, hs, hne, hc, rfl⟩ := match?_host.mp hm
    exact ⟨a, y, hs, hne, hc, rfl⟩
  · rintro ⟨a, y, hs, hne, hc, rfl⟩
    exact ⟨_, match?_host.mpr ⟨a, y, hs, hne, hc, rfl⟩, rfl⟩

/-- A text with a colon in it is matched the same whatever follows it. -/
theorem group_host_append_of_mem {c : Char} (h : ':' ∈ s) (t : Str) :
    (hostPattern.match? (c :: s ++ t)).map Match.group =
      (hostPattern.match? (c :: s)).map Match.group := by
  ext g
  rw [group_host, group_host]
  constructor
  · rintro ⟨a, y, hs, hne, hc, rfl⟩
    obtain ⟨x, y', rfl, hx⟩ := List.eq_append_cons_of_mem h
    obtain ⟨rfl, hs'⟩ : c = '@' ∧ x ++ ':' :: (y' ++ t) = a ++ ':' :: y := by simpa using hs
    obtain ⟨rfl, -⟩ := append_inj_of_notMem hx hc hs'
    exact ⟨x, y', rfl, hne, hc, rfl⟩
  · rintro ⟨a, y, hs, hne, hc, rfl⟩
    exact ⟨a, y ++ t, by rw [hs]; simp, hne, hc, rfl⟩

/-- Without a colon there is no match. -/
theorem match?_host_of_noColon (h : ':' ∉ s) : hostPattern.match? s = none := by
  rw [Option.eq_none_iff_forall_ne_some]
  intro m hm
  obtain ⟨a, y, rfl, -⟩ := match?_host.mp hm
  simp at h

theorem search_host_of_noColon (h : ':' ∉ s) : hostPattern.search s = none := by
  induction s with
  | nil => exact match?_host_of_noColon h
  | cons c s ih =>
    rw [search, match?_host_of_noColon h, Option.none_or]
    exact ih fun hs => h (List.mem_cons_of_mem _ hs)

theorem match?_host_of_noAt {c : Char} (hc : c ≠ '@') : hostPattern.match? (c :: s) = none := by
  rw [Option.eq_none_iff_forall_ne_some]
  intro m hm
  obtain ⟨a, y, h, -⟩ := match?_host.mp hm
  exact hc (List.cons.inj h).1

theorem search_host_append {u : Str} (hu : '@' ∉ u) :
    hostPattern.search (u ++ s) = hostPattern.search s :=
  search_append fun _ _ hv => match?_host_of_noAt fun h => hu (h ▸ hv.mem (List.mem_cons_self ..))

theorem searchGroup_eq (r : Regex) (s : Str) :
    searchGroup r s = ((r.search s).map Match.group).join := by
  rw [searchGroup]
  cases r.search s <;> rfl

/-- **A host before the `#` is found** whatever follows. -/
theorem searchGroup_host_append (h : Found hostPattern s) (t : Str) :
    searchGroup hostPattern (s ++ t) = searchGroup hostPattern s := by
  rw [searchGroup_eq, searchGroup_eq]
  congr 1
  induction s with
  | nil => cases h
  | cons c s ih =>
    -- A match at the head ends at a colon, so what follows the text is not looked at.
    by_cases hcolon : ':' ∈ s
    · have hc := group_host_append_of_mem (c := c) hcolon t
      rw [List.cons_append] at hc ⊢
      rw [search, search, Option.map_or, Option.map_or, hc]
      cases hm : hostPattern.match? (c :: s) with
      | some m => rfl
      | none =>
        rw [Found, search, hm, Option.none_or] at h
        rw [ih h]
    · -- A colon at the head is no `@`, and there is none behind it.
      have hnone : hostPattern.search (c :: s) = none := by
        rw [search, search_host_of_noColon hcolon, Option.or_none]
        by_cases hc : c = '@'
        · exact match?_host_of_noColon (by simp [hc, hcolon])
        · exact match?_host_of_noAt hc
      rw [Found, hnone] at h
      cases h

/-- What has no colon adds no host. -/
theorem searchGroup_host_append_of_noColon (ht : ':' ∉ t) :
    searchGroup hostPattern (s ++ t) = searchGroup hostPattern s := by
  by_cases h : Found hostPattern s
  · exact searchGroup_host_append h t
  · have hnone : hostPattern.search s = none := by simpa [Found] using h
    have hboth : hostPattern.search (s ++ t) = none := by
      induction s with
      | nil => exact search_host_of_noColon ht
      | cons c s ih =>
        rw [search, Option.or_eq_none_iff] at hnone
        rw [List.cons_append, search, Option.or_eq_none_iff]
        refine ⟨?_, ih (by simp [Found, hnone.2]) hnone.2⟩
        by_cases hcolon : ':' ∈ s
        · have hc := group_host_append_of_mem (c := c) hcolon t
          rw [hnone.1, List.cons_append] at hc
          simpa using hc
        · by_cases hc : c = ':'
          · exact match?_host_of_noAt (by simp [hc])
          · exact match?_host_of_noColon (by simp [Ne.symm hc, hcolon, ht])
    rw [searchGroup, searchGroup, hnone, hboth]

theorem found_host_iff : Found hostPattern s ↔ (searchGroup hostPattern s).isSome = true := by
  rw [Found, searchGroup]
  cases h : hostPattern.search s with
  | none => simp
  | some m =>
    obtain ⟨u, v, -, hm⟩ := exists_of_search h
    obtain ⟨a, y, -, -, -, rfl⟩ := match?_host.mp hm
    simp

/-! ## The port -/

/-- What may follow a port. -/
def PortEnd (t : Str) : Prop :=
  t = [] ∨ t = ['\n'] ∨ ∃ c u, t = c :: u ∧ (c = '?' ∨ c = '#' ∨ c = '/')

theorem mem_portEnd :
    (∃ m, m ∈ (Regex.alt (.lit ['?']) (.alt (.lit ['#']) (.alt .eos (.lit ['/'])))).matchesAt t) ↔
      PortEnd t := by
  simp only [mem_alt, mem_lit, mem_eos, PortEnd]
  constructor
  · rintro ⟨m, ⟨u, rfl, -⟩ | ⟨u, rfl, -⟩ | ⟨h | h, -⟩ | ⟨u, rfl, -⟩⟩
    · exact .inr (.inr ⟨'?', u, rfl, by simp⟩)
    · exact .inr (.inr ⟨'#', u, rfl, by simp⟩)
    · exact .inl h
    · exact .inr (.inl h)
    · exact .inr (.inr ⟨'/', u, rfl, by simp⟩)
  · rintro (rfl | rfl | ⟨c, u, rfl, rfl | rfl | rfl⟩)
    · exact ⟨_, .inr (.inr (.inl ⟨.inl rfl, rfl⟩))⟩
    · exact ⟨_, .inr (.inr (.inl ⟨.inr rfl, rfl⟩))⟩
    · exact ⟨_, .inl ⟨u, rfl, rfl⟩⟩
    · exact ⟨_, .inr (.inl ⟨u, rfl, rfl⟩)⟩
    · exact ⟨_, .inr (.inr (.inr ⟨u, rfl, rfl⟩))⟩

/-- The port ends where its digits do. -/
theorem takeWhile_of_portEnd {ds : Str} (hds : ∀ d ∈ ds, isDecimal d = true) (ht : PortEnd t) :
    (ds ++ t).takeWhile isDecimal = ds := by
  rw [List.takeWhile_append_of_pos hds]
  rcases ht with rfl | rfl | ⟨c, u, rfl, rfl | rfl | rfl⟩
  · simp
  all_goals
    rw [List.takeWhile_cons_of_neg (by decide), List.append_nil]

/-- The port a match at the head of a text captures. -/
theorem group_port {g : Option Str} :
    (portPattern.match? s).map Match.group = some g ↔
      ∃ ds t, s = ':' :: (ds ++ t) ∧ ds ≠ [] ∧ (∀ d ∈ ds, isDecimal d = true) ∧ PortEnd t ∧
        g = some ds := by
  -- All the ways to match capture the same digits, so the first one does.
  have hmem : ∀ m ∈ portPattern.matchesAt s, ∃ ds t, s = ':' :: (ds ++ t) ∧ ds ≠ [] ∧
      (∀ d ∈ ds, isDecimal d = true) ∧ PortEnd t ∧ m.group = some ds := by
    intro m hm
    obtain ⟨n, hn, k, hk, rfl⟩ := mem_seq.mp hm
    obtain ⟨u, rfl, rfl⟩ := mem_lit.mp hn
    obtain ⟨k₁, hk₁, k₂, hk₂, rfl⟩ := mem_seq.mp hk
    obtain ⟨l, hl, rfl⟩ := mem_group.mp hk₁
    obtain ⟨ds, t, hs, hlen, hds, rfl⟩ := mem_rep.mp hl
    have hgroup : k₂.group = none := by
      simp only [mem_alt, mem_lit, mem_eos] at hk₂
      rcases hk₂ with ⟨u, -, rfl⟩ | ⟨u, -, rfl⟩ | ⟨-, rfl⟩ | ⟨u, -, rfl⟩ <;> rfl
    exact ⟨ds, t, by rw [← hs]; rfl, List.ne_nil_of_length_pos hlen, hds, mem_portEnd.mp ⟨k₂, hk₂⟩,
      by simp [hgroup]⟩
  constructor
  · intro h
    obtain ⟨m, hm, rfl⟩ := Option.map_eq_some_iff.mp h
    exact hmem m (List.mem_of_mem_head? hm)
  · rintro ⟨ds, t, rfl, hne, hds, ht, rfl⟩
    obtain ⟨k, hk⟩ := mem_portEnd.mpr ht
    have hfull : (⟨':' :: (ds ++ k.text), k.group.or (some ds), k.rest⟩ : Match) ∈
        portPattern.matchesAt (':' :: (ds ++ t)) := by
      refine mem_seq.mpr ⟨⟨[':'], none, ds ++ t⟩, mem_lit.mpr ⟨_, rfl, rfl⟩,
        ⟨ds ++ k.text, k.group.or (some ds), k.rest⟩, mem_seq.mpr ⟨⟨ds, some ds, t⟩,
          mem_group.mpr ⟨⟨ds, none, t⟩, mem_rep.mpr ⟨ds, t, rfl, ?_, hds, rfl⟩, rfl⟩, k, hk, ?_⟩,
        ?_⟩
      · exact List.length_pos_of_ne_nil hne
      · simp [Match.andThen]
      · simp [Match.andThen]
    cases hm : portPattern.match? (':' :: (ds ++ t)) with
    | none => exact absurd hfull (match?_eq_none.mp hm _)
    | some m =>
      obtain ⟨ds', t', hs, -, hds', ht', hg⟩ := hmem m (List.mem_of_mem_head? hm)
      have htake := takeWhile_of_portEnd hds' ht'
      rw [← (List.cons.inj hs).2, takeWhile_of_portEnd hds ht] at htake
      rw [Option.map_some, hg, htake]

/-- **A port before the `#`** is found with or without what follows. -/
theorem group_port_append {c : Char} (hhash : '#' ∉ c :: s) (hspace : NoSpace (c :: s)) (t : Str) :
    (portPattern.match? (c :: s ++ '#' :: t)).map Match.group =
      (portPattern.match? (c :: s)).map Match.group := by
  ext g
  rw [group_port, group_port]
  constructor
  · rintro ⟨ds, u, hs, hne, hds, hu, rfl⟩
    obtain ⟨rfl, hs'⟩ : c = ':' ∧ s ++ '#' :: t = ds ++ u := by simpa using hs
    have hcut : ∃ w, s = ds ++ w ∧ u = w ++ '#' :: t := by
      rcases List.append_eq_append_iff.mp hs' with ⟨w, rfl, hw⟩ | ⟨w, rfl, hw⟩
      · cases w with
        | nil => exact ⟨[], by simp, by simpa using hw.symm⟩
        | cons d w =>
          -- No digit is a `#`.
          obtain rfl : '#' = d := (List.cons.inj hw).1
          exact absurd (hds '#' (by simp)) (by decide)
      · exact ⟨w, rfl, hw⟩
    obtain ⟨w, rfl, rfl⟩ := hcut
    refine ⟨ds, w, rfl, hne, hds, ?_, rfl⟩
    rcases w with _ | ⟨d, w⟩
    · exact .inl rfl
    · rcases hu with hu | hu | ⟨e, v, hu, he⟩
      · simp at hu
      · simp at hu
      · obtain ⟨rfl, -⟩ := List.cons.inj hu
        exact .inr (.inr ⟨d, w, rfl, he⟩)
  · rintro ⟨ds, u, hs, hne, hds, hu, rfl⟩
    refine ⟨ds, u ++ '#' :: t, by rw [hs]; simp, hne, hds, ?_, rfl⟩
    rcases hu with rfl | rfl | ⟨e, v, rfl, he⟩
    · exact .inr (.inr ⟨'#', t, rfl, by simp⟩)
    · have hnl := hspace '\n' (by rw [hs]; simp)
      exact absurd hnl (by decide)
    · exact .inr (.inr ⟨e, v ++ '#' :: t, rfl, he⟩)

theorem group_port_search (hhash : '#' ∉ s) (hspace : NoSpace s) (t : Str) :
    (portPattern.search (s ++ '#' :: t)).map Match.group =
      ((portPattern.search s).map Match.group).or
        ((portPattern.search ('#' :: t)).map Match.group) :=
  search_append_group rfl fun _ _ hv => group_port_append (fun h => hhash (hv.mem h))
    (fun d hd => hspace d (hv.mem hd)) t

/-- **A port before the `#` is found** whatever follows. -/
theorem searchGroup_port_append (hhash : '#' ∉ s) (hspace : NoSpace s) (h : Found portPattern s)
    (t : Str) : searchGroup portPattern (s ++ '#' :: t) = searchGroup portPattern s := by
  obtain ⟨m, hm⟩ := Option.isSome_iff_exists.mp h
  rw [searchGroup_eq, searchGroup_eq, group_port_search hhash hspace, hm]
  rfl

theorem search_port_of_noColon (h : ':' ∉ s) : portPattern.search s = none := by
  rw [Option.eq_none_iff_forall_ne_some]
  intro m hm
  obtain ⟨u, v, rfl, hv⟩ := exists_of_search hm
  obtain ⟨ds, t, rfl, -⟩ := group_port.mp (congrArg (Option.map Match.group) hv)
  simp at h

/-- What has no colon adds no port. -/
theorem searchGroup_port_append_of_noColon (hhash : '#' ∉ s) (hspace : NoSpace s) (ht : ':' ∉ t) :
    searchGroup portPattern (s ++ '#' :: t) = searchGroup portPattern s := by
  have hnone : portPattern.search ('#' :: t) = none := search_port_of_noColon (by simpa using ht)
  rw [searchGroup_eq, searchGroup_eq, group_port_search hhash hspace, hnone, Option.map_none,
    Option.or_none]

theorem searchGroup_port_of_not (h : ¬Found portPattern s) : searchGroup portPattern s = none := by
  have hnone : portPattern.search s = none := by simpa [Found] using h
  rw [searchGroup, hnone, Option.bind_none]

end ConfigManager
