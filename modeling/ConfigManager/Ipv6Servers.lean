import ConfigManager.LinkParsing

/-! # IPv6 servers

The host of a url link is what stands between an `@` and the next colon, and an IPv6
literal has a colon in it.  So `extract_host` returns a bracket and the first group of
digits, and `apply_ip_to_config` replaces just these and leaves the rest of the literal
in the link (`applied_link`).  A vmess link names its server in a member of its payload,
where an IPv6 address is read and replaced as a whole.
-/
namespace ConfigManager

open Py Regex

/-- A hexadecimal digit, a colon or a dot. -/
def isLiteralChar (c : Char) : Bool := (Json.hexValue c).isSome || c == ':' || c == '.'

/-- A link to an IPv6 server, `scheme://userinfo@[address]:port query`, and a fragment.  The
address is of hexadecimal digits, colons and dots with a colon among them, as every IPv6
literal is; a path is part of the query. -/
structure Ipv6Link where
  scheme : Scheme
  userinfo : Str
  address : Str
  port : Nat
  /-- The port in decimal. -/
  digits : Str
  query : Str
  fragment : Option Str
  userinfo_noAt : '@' ∉ userinfo
  userinfo_noHash : '#' ∉ userinfo
  address_char : ∀ c ∈ address, isLiteralChar c = true
  address_colon : ':' ∈ address
  decimal : Decimal port digits
  query_noAt : '@' ∉ query
  query_noHash : '#' ∉ query

namespace Ipv6Link

variable (l : Ipv6Link) (F : Json.Floats) (ip : Str)

/-- What stands before the server. -/
def front : Str := l.scheme.text ++ "://".toList ++ l.userinfo

/-- What follows the server. -/
def back : Str := l.digits ++ l.query

/-- The link up to its fragment. -/
def base : Str := l.front ++ '@' :: '[' :: (l.address ++ ']' :: ':' :: l.back)

/-- The link. -/
def link : Str := l.base ++ (l.fragment.map fun f => '#' :: f).getD []

/-- The whole address is read, with its brackets or without. -/
def HostWhole : Prop :=
  extractHost F l.link = Json.text l.address ∨
    extractHost F l.link = Json.text ('[' :: (l.address ++ [']']))

/-- The whole literal is replaced. -/
def Replaced : Prop :=
  ∃ result, applyIpToConfig F l.link ip = some result ∧
    before '#' result = l.front ++ '@' :: (ip ++ ':' :: l.back)

variable {l F ip}

/-- The literal at its first colon. -/
theorem address_eq (l : Ipv6Link) :
    l.address = before ':' l.address ++ ':' :: after ':' l.address := by
  rcases eq_before_or ':' l.address with h | h
  · exact absurd (h ▸ l.address_colon) (notMem_before ':' l.address)
  · exact h

theorem notMem_address (l : Ipv6Link) : '@' ∉ l.address ∧ '#' ∉ l.address ∧ '[' ∉ l.address := by
  refine ⟨fun h => ?_, fun h => ?_, fun h => ?_⟩
  · exact absurd (l.address_char _ h) (by decide)
  · exact absurd (l.address_char _ h) (by decide)
  · exact absurd (l.address_char _ h) (by decide)

/-! ## The host -/

/-- **What is read off the link**: a bracket and what stands before the first colon. -/
theorem extractHost_link (F : Json.Floats) (l : Ipv6Link) :
    extractHost F l.link = Json.text ('[' :: before ':' l.address) := by
  have hlink : l.link = l.scheme.text ++ "://".toList ++ (l.userinfo ++
      '@' :: ('[' :: before ':' l.address ++ ':' :: (after ':' l.address ++ ']' :: ':' :: l.back ++
        (l.fragment.map fun f => '#' :: f).getD []))) := by
    rw [link, base, front]
    conv_lhs => rw [address_eq l]
    simp
  have hcolon : ':' ∉ '[' :: before ':' l.address := by
    rw [List.mem_cons, not_or]
    exact ⟨by decide, notMem_before ':' l.address⟩
  have hne : '[' :: before ':' l.address ≠ [] := by simp
  rw [hlink, extractHost_of_first F l.scheme l.userinfo_noAt hne hcolon]

theorem not_hostWhole (F : Json.Floats) (l : Ipv6Link) : ¬l.HostWhole F := by
  rintro (h | h)
  · have he := Json.text_injective ((extractHost_link F l).symm.trans h)
    exact (notMem_address l).2.2 (he ▸ List.mem_cons_self ..)
  · have he := Json.text_injective ((extractHost_link F l).symm.trans h)
    have htail : before ':' l.address = l.address ++ [']'] := (List.cons.inj he).2
    have hlen := congrArg List.length htail
    have hle := (before_isPrefix ':' l.address).length_le
    rw [List.length_append] at hlen
    simp only [List.length_cons, List.length_nil] at hlen
    omega

/-! ## Replacing it -/

theorem front_facts (l : Ipv6Link) : '@' ∉ l.front ∧ '#' ∉ l.front := by
  obtain ⟨hat, hhash⟩ := notMem_scheme l.scheme
  constructor
  · exact fun h => (List.mem_append.mp h).elim hat l.userinfo_noAt
  · exact fun h => (List.mem_append.mp h).elim hhash l.userinfo_noHash

theorem back_facts (l : Ipv6Link) : '@' ∉ l.back ∧ '#' ∉ l.back := by
  have hat : '@' ∉ l.digits := fun h => absurd (l.decimal.digit _ h) (by decide)
  have hhash : '#' ∉ l.digits := fun h => absurd (l.decimal.digit _ h) (by decide)
  constructor
  · exact fun h => (List.mem_append.mp h).elim hat l.query_noAt
  · exact fun h => (List.mem_append.mp h).elim hhash l.query_noHash

theorem notMem_base (l : Ipv6Link) : '#' ∉ l.base := by
  obtain ⟨-, haddress, -⟩ := notMem_address l
  intro h
  rw [base, List.mem_append, List.mem_cons, List.mem_cons, List.mem_append, List.mem_cons,
    List.mem_cons] at h
  rcases h with h | h | h | h | h | h | h
  · exact (front_facts l).2 h
  · cases h
  · cases h
  · exact haddress h
  · cases h
  · cases h
  · exact (back_facts l).2 h

/-- What the rewrite looks at: the link up to its `#`, without whitespace at the end. -/
theorem strip_before (l : Ipv6Link) :
    strip (before '#' (strip l.link)) =
      l.front ++ '@' :: ('[' :: before ':' l.address ++
        ':' :: (after ':' l.address ++ ']' :: ':' :: rstrip l.back)) := by
  have hbase : strip l.base =
      l.front ++ '@' :: '[' :: (l.address ++ ']' :: ':' :: rstrip l.back) := by
    have hcut := rstrip_append_cons (c := ':') (by decide)
      (l.userinfo ++ '@' :: '[' :: (l.address ++ [']'])) l.back
    have hstrip := strip_scheme l.scheme
      (l.userinfo ++ '@' :: '[' :: (l.address ++ [']']) ++ ':' :: l.back)
    rw [hcut] at hstrip
    simpa [base, front] using hstrip
  have hbefore : strip (before '#' (strip l.link)) = strip l.base := by
    cases hf : l.fragment with
    | none =>
      have hlink : l.link = l.base := by
        rw [link, hf, Option.map_none, Option.getD_none, List.append_nil]
      rw [hlink, before_of_notMem fun h => notMem_base l (mem_of_mem_strip h), strip_strip]
    | some f =>
      have hcut := rstrip_append_cons (c := '#') (by decide)
        (l.userinfo ++ '@' :: '[' :: (l.address ++ ']' :: ':' :: l.back)) f
      have hstrip := strip_scheme l.scheme
        (l.userinfo ++ '@' :: '[' :: (l.address ++ ']' :: ':' :: l.back) ++ '#' :: f)
      rw [hcut] at hstrip
      have hlink : strip l.link = l.base ++ '#' :: rstrip f := by
        simpa [link, hf, base, front] using hstrip
      rw [hlink, before_append_cons (notMem_base l)]
  rw [hbefore, hbase]
  conv_lhs => rw [address_eq l]
  simp

/-- **What the rewrite leaves**: all of the literal behind its first colon. -/
theorem applied_link (hip : isValidIp ip = true) {result : Str}
    (h : applyIpToConfig F l.link ip = some result) :
    before '#' result =
      l.front ++ '@' :: (ip ++ ':' :: (after ':' l.address ++ ']' :: ':' :: rstrip l.back)) := by
  have hv : isVmess (strip l.link) = false := by
    have hlink : l.link = l.scheme.text ++ "://".toList ++ (l.userinfo ++ '@' :: '[' ::
        (l.address ++ ']' :: ':' :: l.back) ++ (l.fragment.map fun f => '#' :: f).getD []) := by
      simp [link, base, front]
    rw [hlink, strip_scheme]
    cases l.scheme <;> rfl
  obtain ⟨t, rfl, ht⟩ := exists_of_applyIpToConfig hv h
  obtain ⟨haddress, haddress', -⟩ := notMem_address l
  have hrest : ∀ c ∈ after ':' l.address ++ ']' :: ':' :: rstrip l.back, c ≠ '@' ∧ c ≠ '#' := by
    intro c hc
    have hmem : c ∈ l.address ∨ c = ']' ∨ c = ':' ∨ c ∈ l.back := by
      rw [List.mem_append, List.mem_cons, List.mem_cons] at hc
      refine hc.imp (fun hc => ?_) (Or.imp_right (Or.imp_right fun hc => ?_))
      · rw [address_eq l]
        exact List.mem_append_right _ (List.mem_cons_of_mem _ hc)
      · exact (List.rdropWhile_prefix isSpace l.back).mem hc
    rcases hmem with hc | rfl | rfl | hc
    · exact ⟨fun h => haddress (h ▸ hc), fun h => haddress' (h ▸ hc)⟩
    · decide
    · decide
    · exact ⟨fun h => (back_facts l).1 (h ▸ hc), fun h => (back_facts l).2 (h ▸ hc)⟩
  -- One match, from the `@` to the first colon of the literal.
  have hm := match?_address.mpr
    ⟨'[' :: before ':' l.address, after ':' l.address ++ ']' :: ':' :: rstrip l.back, rfl,
      by simp, by simp [notMem_before], rfl⟩
  have hsub : sub addressPattern ('@' :: ip ++ [':']) (strip (before '#' (strip l.link))) =
      l.front ++ '@' :: (ip ++ ':' :: (after ':' l.address ++ ']' :: ':' :: rstrip l.back)) := by
    have hnone : sub addressPattern ('@' :: ip ++ [':'])
        (after ':' l.address ++ ']' :: ':' :: rstrip l.back) =
          after ':' l.address ++ ']' :: ':' :: rstrip l.back :=
      sub_address_of_noAt fun hm => (hrest _ hm).1 rfl
    rw [strip_before, sub_address_append (front_facts l).1, sub_of_match hm (by simp), hnone]
    simp
  have hhash : '#' ∉ l.front ++ '@' :: (ip ++ ':' ::
      (after ':' l.address ++ ']' :: ':' :: rstrip l.back)) := by
    intro hc
    rw [List.mem_append, List.mem_cons, List.mem_append, List.mem_cons] at hc
    rcases hc with hc | hc | hc | hc | hc
    · exact (front_facts l).2 hc
    · cases hc
    · exact absurd (char_of_isValidIp hip hc) (by decide)
    · cases hc
    · exact (hrest _ hc).2 rfl
  rw [hsub]
  rcases ht with rfl | ⟨f, rfl⟩
  · rw [List.append_nil, before_of_notMem hhash]
  · rw [before_append_cons hhash]

theorem not_replaced (F : Json.Floats) (l : Ipv6Link) (hip : isValidIp ip = true) :
    ¬l.Replaced F ip := by
  rintro ⟨result, happly, hbefore⟩
  rw [applied_link hip happly, List.append_cancel_left_eq, List.cons.injEq, and_iff_right rfl,
    List.append_cancel_left_eq, List.cons.injEq, and_iff_right rfl] at hbefore
  -- Stripped, both sides end alike, and one of them has a colon more.
  have hidem : rstrip (rstrip l.back) = rstrip l.back := List.rdropWhile_idempotent ..
  have hcut : rstrip (after ':' l.address ++ ']' :: ':' :: rstrip l.back) =
      after ':' l.address ++ ']' :: ':' :: rstrip l.back := by
    have hcolon := rstrip_append_cons (c := ':') (by decide) (after ':' l.address ++ [']'])
      (rstrip l.back)
    rw [hidem] at hcolon
    simpa using hcolon
  have hsame : after ':' l.address ++ ']' :: ':' :: rstrip l.back = rstrip l.back :=
    hcut.symm.trans (congrArg rstrip hbefore)
  have hlen := congrArg List.length hsame
  simp only [List.length_append, List.length_cons] at hlen
  omega

/-- **No IPv6 server is handled**: neither is the whole address read, nor is the whole literal
replaced. -/
theorem not_ipv6 (F : Json.Floats) (l : Ipv6Link) (ip : Str) (hip : isValidIp ip = true) :
    ¬l.HostWhole F ∧ ¬l.Replaced F ip :=
  ⟨not_hostWhole F l, not_replaced F l hip⟩

/-- `vless://u@[2001:db8::1]:443?a=1#x`. -/
def sample : Ipv6Link where
  scheme := .vless
  userinfo := "u".toList
  address := "2001:db8::1".toList
  port := 443
  digits := "443".toList
  query := "?a=1".toList
  fragment := some "x".toList
  userinfo_noAt := by decide
  userinfo_noHash := by decide
  address_char := by decide
  address_colon := by decide
  decimal := by decide
  query_noAt := by decide
  query_noHash := by decide

theorem not_ipv6_sample :
    ¬sample.HostWhole Env.sample.floats ∧ ¬sample.Replaced Env.sample.floats "8.8.8.8".toList :=
  not_ipv6 Env.sample.floats sample "8.8.8.8".toList (by decide)

/-- The host is read as `[2001`, and the rest of the literal stays in the link. -/
theorem ipv6_sample :
    extractHost Env.sample.floats sample.link = Json.text "[2001".toList ∧
      applyIpToConfig Env.sample.floats sample.link "8.8.8.8".toList =
        some "vless://u@8.8.8.8:db8::1]:443?a=1#x".toList ∧
      before '#' "vless://u@8.8.8.8:db8::1]:443?a=1#x".toList ≠
        "vless://u@8.8.8.8:443?a=1".toList := by
  decide +kernel

end Ipv6Link
end ConfigManager
