import ConfigManager.CleanIp

/-! # Parsing links that were built

The user information of a link may hold colons, and digits behind them, and its query
may hold anything.  Both searches still find the server: the host's needs the first `@`,
which ends the user information, and a port needs one of `?`, `#`, `/` behind it or the
end of the text, none of which the user information has.
-/
namespace ConfigManager

open Py Regex

/-- A character that delimits no part of a url, and no whitespace. -/
def isInner (c : Char) : Bool :=
  !(c == '@' || c == '/' || c == '?' || c == '#' || isSpace c)

/-- The parts a link is built from: `scheme://userinfo@host:port`, then a path and a query
and a fragment.  User information may be all of URI's: letters, digits, `-._~!$&()*+,;=%`,
the apostrophe and the colon; a host is a domain name or a dotted IPv4 address. -/
structure LinkParts where
  scheme : Scheme
  userinfo : Str
  host : Str
  port : Nat
  /-- The port in decimal. -/
  digits : Str
  /-- The path and the query. -/
  tail : Str
  fragment : Option Str
  userinfo_inner : ∀ c ∈ userinfo, isInner c = true
  host_ne : host ≠ []
  host_inner : ∀ c ∈ host, isInner c = true
  host_noColon : ':' ∉ host
  decimal : Decimal port digits
  tail_start : tail = [] ∨ ∃ c t, tail = c :: t ∧ (c = '/' ∨ c = '?')

namespace LinkParts

variable (l : LinkParts)

/-- What stands behind the port. -/
def rest : Str := l.tail ++ (l.fragment.map fun f => '#' :: f).getD []

/-- The link. -/
def link : Str :=
  l.scheme.text ++ "://".toList ++ (l.userinfo ++ '@' :: (l.host ++ ':' :: (l.digits ++ l.rest)))

end LinkParts

/-! ## The host -/

variable {s u h : Str}

theorem isUrlLink_scheme (scheme : Scheme) (s : Str) :
    isUrlLink (scheme.text ++ "://".toList ++ s) = true := by
  cases scheme <;> rfl

/-- The whitespace a link is stripped of is at its end. -/
theorem strip_scheme (scheme : Scheme) (s : Str) :
    strip (scheme.text ++ "://".toList ++ s) = scheme.text ++ "://".toList ++ rstrip s := by
  have hspace : NoSpace (scheme.text ++ "://".toList) := by
    unfold NoSpace
    cases scheme <;> decide
  have hne : scheme.text ++ "://".toList ≠ [] := List.append_ne_nil_of_right_ne_nil _ (by decide)
  rw [strip_append hspace hne, rstrip]

theorem notMem_scheme (scheme : Scheme) :
    '@' ∉ scheme.text ++ "://".toList ∧ '#' ∉ scheme.text ++ "://".toList := by
  cases scheme <;> decide

/-- **The first host a link names** is what is read off it. -/
theorem extractHost_of_first (F : Json.Floats) (scheme : Scheme) (hat : '@' ∉ u) (hne : h ≠ [])
    (hcolon : ':' ∉ h) (s : Str) :
    extractHost F (scheme.text ++ "://".toList ++ (u ++ '@' :: (h ++ ':' :: s))) = Json.text h := by
  have hend : rstrip (u ++ '@' :: (h ++ ':' :: s)) = u ++ '@' :: (h ++ ':' :: rstrip s) := by
    have hcut := rstrip_append_cons (c := ':') (by decide) (u ++ '@' :: h) s
    simpa using hcut
  have hat' : '@' ∉ scheme.text ++ "://".toList ++ u := by
    rw [List.mem_append, not_or]
    exact ⟨(notMem_scheme scheme).1, hat⟩
  have hm := match?_host.mpr ⟨h, rstrip s, rfl, hne, hcolon, rfl⟩
  have hsearch : searchGroup hostPattern
      (scheme.text ++ "://".toList ++ (u ++ '@' :: (h ++ ':' :: rstrip s))) = some h := by
    rw [← List.append_assoc, searchGroup, search_host_append hat', search_of_match hm]
    rfl
  rw [extractHost, strip_scheme, hend, if_pos (isUrlLink_scheme ..), hsearch]
  rfl

/-! ## The port -/

theorem isInner_iff {c : Char} :
    isInner c = true ↔ c ≠ '@' ∧ c ≠ '/' ∧ c ≠ '?' ∧ c ≠ '#' ∧ isSpace c = false := by
  simp [isInner, and_assoc]

/-- Nothing that a port may be followed by. -/
def NoPortEnd (s : Str) : Prop := ∀ c ∈ s, c ≠ '/' ∧ c ≠ '?' ∧ c ≠ '#' ∧ isSpace c = false

/-- In such a text, no port is found before the colon behind it. -/
theorem match?_port_of_noPortEnd {c : Char} (hs : NoPortEnd (c :: s)) (t : Str) :
    portPattern.match? (c :: s ++ ':' :: t) = none := by
  rw [Option.eq_none_iff_forall_ne_some]
  intro m hm
  have hgroup := group_port.mp (congrArg (Option.map Match.group) hm)
  obtain ⟨ds, v, he, -, hds, hend, -⟩ := hgroup
  have hv : s ++ ':' :: t = ds ++ v := (List.cons.inj he).2
  have hcolon : ':' ∉ ds := fun h => absurd (hds ':' h) (by decide)
  -- The digits end before the colon, so what follows them is in the text or is the colon.
  obtain ⟨w, hw⟩ : ∃ w, v = w ++ ':' :: t ∧ s = ds ++ w := by
    rcases List.append_eq_append_iff.mp hv with ⟨w, h₁, h₂⟩ | ⟨w, h₁, h₂⟩
    · cases w with
      | nil => exact ⟨[], by simpa using h₂.symm, by simpa using h₁.symm⟩
      | cons d w =>
        obtain ⟨rfl, -⟩ := List.cons.inj h₂
        exact absurd (h₁ ▸ List.mem_append_right _ (List.mem_cons_self ..)) hcolon
    · exact ⟨w, h₂, h₁⟩
  obtain ⟨rfl, rfl⟩ := hw
  rcases hend with h | h | ⟨d, x, h, hd⟩
  · simp at h
  · cases w with
    | nil => cases (List.cons.inj h).1
    | cons d w => simp at h
  · cases w with
    | nil =>
      obtain ⟨rfl, -⟩ := List.cons.inj h
      revert hd
      decide
    | cons e w =>
      obtain ⟨rfl, -⟩ := List.cons.inj h
      obtain ⟨hslash, hquery, hhash, -⟩ := hs e (by simp)
      rcases hd with rfl | rfl | rfl
      · exact hquery rfl
      · exact hhash rfl
      · exact hslash rfl

theorem search_port_of_noPortEnd (hs : NoPortEnd s) (t : Str) :
    portPattern.search (s ++ ':' :: t) = portPattern.search (':' :: t) :=
  search_append fun _ _ hv =>
    match?_port_of_noPortEnd (fun c hc => hs c (hv.mem hc)) t

/-- Behind a scheme stands no port. -/
theorem search_port_scheme (scheme : Scheme) (s : Str) :
    portPattern.search (scheme.text ++ "://".toList ++ s) = portPattern.search s := by
  refine search_append fun c v hv => ?_
  rw [Option.eq_none_iff_forall_ne_some]
  intro m hm
  have hgroup := group_port.mp (congrArg (Option.map Match.group) hm)
  obtain ⟨ds, t, he, hne, hds, -⟩ := hgroup
  obtain ⟨rfl, hv'⟩ := List.cons.inj he
  obtain ⟨d, ds, rfl⟩ := List.exists_cons_of_ne_nil hne
  -- The only colon is followed by a slash.
  have hslash : ∀ w ∈ (scheme.text ++ "://".toList).tails, w.head? = some ':' →
      w = "://".toList := by
    cases scheme <;> decide
  have hw := hslash _ ((List.mem_tails _ _).mpr hv) rfl
  obtain rfl := (List.cons.inj hw).2
  obtain ⟨rfl, -⟩ := List.cons.inj hv'
  exact absurd (hds '/' (List.mem_cons_self ..)) (by decide)

/-- **The port behind the server** is what is read off a link. -/
theorem extractPort_of_first (F : Json.Floats) (scheme : Scheme) (hs : NoPortEnd s) {n : Nat}
    {ds t : Str} (hds : Decimal n ds) (ht : PortEnd t) :
    extractPort F (scheme.text ++ "://".toList ++ (s ++ ':' :: (ds ++ t))) = some (n : Int) := by
  have hvmess : isVmess (scheme.text ++ "://".toList ++ (s ++ ':' :: (ds ++ t))) = false := by
    cases scheme <;> rfl
  have hdecimal : ∀ d ∈ ds, isDecimal d = true := fun d hd => isDecimal_of_isDigit (hds.digit d hd)
  have hgroup : (portPattern.match? (':' :: (ds ++ t))).map Match.group = some (some ds) :=
    group_port.mpr ⟨ds, t, rfl, hds.ne_nil, hdecimal, ht, rfl⟩
  obtain ⟨m, hm, hm'⟩ := Option.map_eq_some_iff.mp hgroup
  have hsearch : searchGroup portPattern (scheme.text ++ "://".toList ++ (s ++ ':' :: (ds ++ t))) =
      some ds := by
    rw [searchGroup, search_port_scheme, search_port_of_noPortEnd hs, search_of_match hm,
      Option.bind_some, hm']
  rw [extractPort, hvmess, if_neg Bool.false_ne_true, hsearch, Option.bind_some, hds.int]

/-! ## Links -/

theorem notMem_at_of_inner (hs : ∀ c ∈ s, isInner c = true) : '@' ∉ s := fun hc =>
  (isInner_iff.mp (hs '@' hc)).1 rfl

theorem noPortEnd_of_inner (hs : ∀ c ∈ s, isInner c = true) : NoPortEnd s := fun c hc =>
  (isInner_iff.mp (hs c hc)).2

/-- No port ends before the server's. -/
theorem LinkParts.noPortEnd_server (l : LinkParts) : NoPortEnd (l.userinfo ++ '@' :: l.host) := by
  intro c hc
  rcases List.mem_append.mp hc with hc | hc
  · exact noPortEnd_of_inner l.userinfo_inner c hc
  · rcases List.mem_cons.mp hc with rfl | hc
    · decide
    · exact noPortEnd_of_inner l.host_inner c hc

/-- The server's port ends where the path, the query or the fragment starts. -/
theorem LinkParts.portEnd_rest (l : LinkParts) : PortEnd l.rest := by
  rcases l.tail_start with ht | ⟨c, t, ht, hc⟩
  · rw [rest, ht, List.nil_append]
    cases l.fragment with
    | none => exact .inl rfl
    | some f => exact .inr (.inr ⟨'#', f, rfl, .inr (.inl rfl)⟩)
  · rw [rest, ht]
    refine .inr (.inr ⟨c, _, rfl, ?_⟩)
    rcases hc with rfl | rfl
    · exact .inr (.inr rfl)
    · exact .inl rfl

/-- **Parsing undoes building.** -/
theorem extract_link (F : Json.Floats) (l : LinkParts) :
    extractHost F l.link = Json.text l.host ∧ extractPort F l.link = some (l.port : Int) := by
  have huat : '@' ∉ l.userinfo := notMem_at_of_inner l.userinfo_inner
  have hlink : l.link = l.scheme.text ++ "://".toList ++
      ((l.userinfo ++ '@' :: l.host) ++ ':' :: (l.digits ++ l.rest)) := by
    simp [LinkParts.link]
  constructor
  · exact extractHost_of_first F l.scheme huat l.host_ne l.host_noColon _
  · rw [hlink]
    exact extractPort_of_first F l.scheme l.noPortEnd_server l.decimal l.portEnd_rest

/-- A link with a port in its user information. -/
def sampleParts : LinkParts where
  scheme := .trojan
  userinfo := "p:80".toList
  host := "example.com".toList
  port := 8443
  digits := "8443".toList
  tail := "?sni=@a:1".toList
  fragment := some "@b:2".toList
  userinfo_inner := by decide
  host_ne := by decide
  host_inner := by decide
  host_noColon := by decide
  decimal := by decide
  tail_start := .inr ⟨'?', _, rfl, .inr rfl⟩

example : sampleParts.link = "trojan://p:80@example.com:8443?sni=@a:1#@b:2".toList := rfl

end ConfigManager
