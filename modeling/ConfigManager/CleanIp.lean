import ConfigManager.ServerPatterns

/-! # Clean IPs (`core.ip_manager`)

`apply_ip_to_config` puts an IP in the place of a link's server.  In a vmess
payload that is the `add` member; in any other link it is what `@[^:]+:` matches,
at every match, and in the fragment what follows a hyphen.

A `ServerLink` is a link taken apart: its user information, its host and what
follows the port are fields, and its own proofs say where it can be cut.  The rewrite
is right on such a link exactly when its path and query hold nothing the pattern
matches, other than the new IP itself: `addressOnly_iff`.
-/
namespace ConfigManager

open Py Regex

/-- `@[^:]+:`. -/
def addressPattern : Regex :=
  .seq (.lit ['@']) (.seq (.rep true 1 (· != ':')) (.lit [':']))

/-- `_apply_ip_vmess`. -/
def applyIpVmess (F : Json.Floats) (config ip : Str) : Option Str :=
  (vmessData F Utf8.decode config).bind fun data =>
    (dataSet "add".toList (Json.text ip) data).bind vmessLink

/-- `result_fragment`, of a fragment that is not empty. -/
def updateFragment (oldhost : Option Str) (ip fragment : Str) : Str :=
  match oldhost with
  | some h => replace ('-' :: h) ('-' :: ip) fragment
  | none => fragment

/-- `apply_ip_to_config`. -/
def applyIpToConfig (F : Json.Floats) (config ip : Str) : Option Str :=
  let config := strip config
  if isVmess config then applyIpVmess F config ip
  else
    let base := strip (before '#' config)
    let fragment := after '#' config
    let resultBase := sub addressPattern ('@' :: ip ++ [':']) base
    if fragment ≠ [] then
      let result := resultBase ++ '#' ::
        updateFragment (searchGroup hostPattern base) ip fragment
      if result ≠ config then some result else none
    else if resultBase ≠ base then some resultBase else none

/-! ## What the pattern matches -/

variable {s : Str} {m : Match}

theorem match?_address :
    addressPattern.match? s = some m ↔
      ∃ a y, s = '@' :: (a ++ ':' :: y) ∧ a ≠ [] ∧ ':' ∉ a ∧
        m = ⟨'@' :: (a ++ [':']), none, y⟩ :=
  match?_delimited mem_until

theorem match?_address_of_noAt {c : Char} (hc : c ≠ '@') :
    addressPattern.match? (c :: s) = none := by
  rw [Option.eq_none_iff_forall_ne_some]
  intro m hm
  obtain ⟨a, y, h, -⟩ := match?_address.mp hm
  exact hc (List.cons.inj h).1

/-- A text with no `@` in front is passed over. -/
theorem sub_address_append {u new : Str} (hu : '@' ∉ u) :
    sub addressPattern new (u ++ s) = u ++ sub addressPattern new s :=
  sub_append fun _ _ hv => match?_address_of_noAt fun h => hu (h ▸ hv.mem (List.mem_cons_self ..))

theorem sub_address_of_noAt {u new : Str} (hu : '@' ∉ u) : sub addressPattern new u = u := by
  have happ : sub addressPattern new (u ++ []) = u ++ sub addressPattern new [] :=
    sub_address_append hu
  rw [List.append_nil] at happ
  exact happ.trans (List.append_nil u)

/-- What the pattern matches in a text is the IP. -/
def OnlyAddress (ip s : Str) : Prop :=
  ∀ x a y, s = x ++ '@' :: (a ++ ':' :: y) → a ≠ [] → ':' ∉ a → a = ip

theorem onlyAddress_cons_of_noMatch {ip : Str} {c : Char}
    (h : addressPattern.match? (c :: s) = none) : OnlyAddress ip (c :: s) ↔ OnlyAddress ip s := by
  constructor
  · intro ho x a y hs
    exact ho (c :: x) a y (by rw [hs, List.cons_append])
  · intro ho x a y hs hne hc
    cases x with
    | nil => rw [match?_address.mpr ⟨a, y, hs, hne, hc, rfl⟩] at h; cases h
    | cons d x => exact ho x a y (List.cons.inj hs).2 hne hc

theorem onlyAddress_append {ip u : Str} (hu : '@' ∉ u) :
    OnlyAddress ip (u ++ s) ↔ OnlyAddress ip s := by
  induction u with
  | nil => rfl
  | cons c u ih =>
    rw [List.mem_cons, not_or] at hu
    rw [List.cons_append, onlyAddress_cons_of_noMatch (match?_address_of_noAt (Ne.symm hu.1)),
      ih hu.2]

/-- Nothing of the IP is matched again. -/
theorem onlyAddress_of_match {ip a y : Str} (hat : '@' ∉ ip) (hcolon : ':' ∉ ip) (hne : a ≠ [])
    (hc : ':' ∉ a) :
    OnlyAddress ip ('@' :: (a ++ ':' :: y)) ↔ a = ip ∧ OnlyAddress ip y := by
  constructor
  · intro ho
    refine ⟨ho [] a y rfl hne hc, fun x b z hs => ?_⟩
    exact ho ('@' :: (a ++ ':' :: x)) b z (by simp [hs])
  · rintro ⟨rfl, ho⟩ x b z hs hbne hb
    cases x with
    | nil =>
      exact (append_inj_of_notMem hb hcolon (List.cons.inj hs).2.symm).1
    | cons d x =>
      have hs' : a ++ ':' :: y = x ++ '@' :: (b ++ ':' :: z) := (List.cons.inj hs).2
      rcases List.append_eq_append_iff.mp hs' with ⟨w, rfl, hw⟩ | ⟨w, rfl, hw⟩
      · cases w with
        | nil => simp at hw
        | cons e w => exact ho w b z (List.cons.inj hw).2 hbne hb
      · cases w with
        | nil => simp at hw
        | cons e w =>
          obtain rfl : '@' = e := (List.cons.inj hw).1
          simp at hat

/-- **The rewrite leaves a text as it is** exactly when all it matches there is the IP. -/
theorem sub_address_eq_self_iff {ip : Str} (hat : '@' ∉ ip) (hcolon : ':' ∉ ip) :
    sub addressPattern ('@' :: ip ++ [':']) s = s ↔ OnlyAddress ip s := by
  -- A match is replaced as a whole, so the induction is on the length.
  induction hn : s.length using Nat.strong_induction_on generalizing s with
  | _ n ih =>
    subst hn
    cases s with
    | nil => simp [sub, subFrom, OnlyAddress]
    | cons c s =>
      cases hm : addressPattern.match? (c :: s) with
      | none =>
        rw [sub_cons_of_noMatch hm, onlyAddress_cons_of_noMatch hm, ← ih _ (by simp) rfl,
          List.cons.injEq, and_iff_right rfl]
      | some m =>
        obtain ⟨a, y, hs, hne, hc, rfl⟩ := match?_address.mp hm
        have hlen : y.length < (c :: s).length := by
          rw [hs, List.length_cons, List.length_append, List.length_cons]
          omega
        rw [sub_of_match hm (by simp), hs, onlyAddress_of_match hat hcolon hne hc, ← ih _ hlen rfl]
        constructor
        · intro h
          have h' : ip ++ ':' :: sub addressPattern ('@' :: ip ++ [':']) y = a ++ ':' :: y := by
            simpa using h
          obtain ⟨rfl, hy⟩ := append_inj_of_notMem hcolon hc h'
          exact ⟨rfl, hy⟩
        · rintro ⟨rfl, hy⟩
          rw [hy]
          simp

/-- What `apply_ip_to_config` makes of a url link: the rewritten part before the `#`, and
perhaps a fragment. -/
theorem exists_of_applyIpToConfig {F : Json.Floats} {config ip result : Str}
    (hv : isVmess (strip config) = false) (h : applyIpToConfig F config ip = some result) :
    ∃ t, result = sub addressPattern ('@' :: ip ++ [':']) (strip (before '#' (strip config))) ++ t ∧
      (t = [] ∨ ∃ f, t = '#' :: f) := by
  simp only [applyIpToConfig, hv, Bool.false_eq_true, ↓reduceIte] at h
  split_ifs at h
  · cases h
    exact ⟨_, rfl, .inr ⟨_, rfl⟩⟩
  · cases h
    exact ⟨[], (List.append_nil _).symm, .inl rfl⟩

/-! ## Addresses -/

/-- What a valid IP is made of, inside the whitespace around it. -/
theorem char_of_mem_strip {ip : Str} (h : isValidIp ip = true) {c : Char} (hc : c ∈ strip ip) :
    c = '.' ∨ Json.isDigit c = true := by
  have hoctets : ∀ w ∈ (strip ip).splitOn '.', ∀ c ∈ w, Json.isDigit c = true := by
    simp only [isValidIp, isOctet, Bool.decide_and, Bool.and_eq_true, List.all_eq_true,
      decide_eq_true_eq] at h
    exact fun w hw => (h.2 w hw).2.1
  have hjoin : ['.'].intercalate ((strip ip).splitOn '.') = strip ip := List.intercalate_splitOn '.'
  rw [← hjoin] at hc
  exact (mem_of_mem_intercalate hc).imp_right fun ⟨w, hw, hcw⟩ => hoctets w hw c hcw

theorem char_of_isValidIp {ip : Str} (h : isValidIp ip = true) {c : Char} (hc : c ∈ ip) :
    isSpace c = true ∨ c = '.' ∨ Json.isDigit c = true :=
  (mem_strip hc).imp_right (char_of_mem_strip h)

/-- A valid IP has no colon and no `@`. -/
theorem notMem_of_isValidIp {ip : Str} (h : isValidIp ip = true) : ':' ∉ ip ∧ '@' ∉ ip := by
  constructor
  · intro hm
    have := char_of_isValidIp h hm
    revert this
    decide
  · intro hm
    have := char_of_isValidIp h hm
    revert this
    decide

theorem ne_nil_of_isValidIp {ip : Str} (h : isValidIp ip = true) : ip ≠ [] := by
  rintro rfl
  revert h
  decide

/-! ## Links taken apart -/

/-- The schemes whose links name their server after an `@`. -/
inductive Scheme where
  | vless
  | trojan
  | ss
  deriving DecidableEq

/-- How the scheme is written. -/
def Scheme.text : Scheme → Str
  | .vless => "vless".toList
  | .trojan => "trojan".toList
  | .ss => "ss".toList

/-- A text the link patterns do not cut: no `@`, `#`, `:` or whitespace. -/
structure Plain (s : Str) : Prop where
  noAt : '@' ∉ s
  noHash : '#' ∉ s
  noColon : ':' ∉ s
  noSpace : NoSpace s

instance (s : Str) : Decidable (Plain s) :=
  decidable_of_iff ('@' ∉ s ∧ '#' ∉ s ∧ ':' ∉ s ∧ ∀ c ∈ s, isSpace c = false)
    ⟨fun ⟨a, b, c, d⟩ => ⟨a, b, c, d⟩, fun ⟨a, b, c, d⟩ => ⟨a, b, c, d⟩⟩

/-- `scheme://userinfo@host:port query #fragment`.  The host is a name or a dotted
IPv4 address; the query is all between the port and the fragment, a path included. -/
structure ServerLink where
  scheme : Scheme
  userinfo : Str
  host : Str
  port : Str
  query : Str
  fragment : Option Str
  userinfo_ne : userinfo ≠ []
  userinfo_plain : Plain userinfo
  host_ne : host ≠ []
  host_plain : Plain host
  port_plain : Plain port
  query_noHash : '#' ∉ query
  query_noSpace : NoSpace query

namespace ServerLink

variable (l : ServerLink) (ip : Str)

/-- What stands before the server. -/
def front : Str := l.scheme.text ++ "://".toList ++ l.userinfo

/-- The link up to the fragment, with an address for its server. -/
def withAddress (address : Str) : Str :=
  l.front ++ '@' :: (address ++ ':' :: (l.port ++ l.query))

/-- The link. -/
def text : Str :=
  l.withAddress l.host ++ (l.fragment.map fun f => '#' :: f).getD []

/-- The fragment with the new address where it held the host's name.  Whitespace that
ends a link is not part of it, and an empty fragment is none. -/
def updatedFragment : Str :=
  match l.fragment.map rstrip with
  | none | some [] => []
  | some f => '#' :: replace ('-' :: l.host) ('-' :: ip) f

/-- **Only the server's address changes**: the scheme, the user information, the port,
the path and the query are those of the link. -/
def AddressOnly (F : Json.Floats) : Prop :=
  applyIpToConfig F l.text ip = some (l.withAddress ip ++ l.updatedFragment ip)

variable {l ip}

theorem front_facts : '@' ∉ l.front ∧ '#' ∉ l.front ∧ NoSpace l.front ∧ l.front ≠ [] := by
  have hs : ∀ c ∈ l.scheme.text ++ "://".toList, c ≠ '@' ∧ c ≠ '#' ∧ isSpace c = false := by
    cases l.scheme <;> decide
  have hu := l.userinfo_plain
  refine ⟨?_, ?_, ?_, ?_⟩
  · rw [front, List.mem_append, not_or]
    exact ⟨fun h => (hs _ h).1 rfl, hu.noAt⟩
  · rw [front, List.mem_append, not_or]
    exact ⟨fun h => (hs _ h).2.1 rfl, hu.noHash⟩
  · rw [front, noSpace_append]
    exact ⟨fun c hc => (hs c hc).2.2, hu.noSpace⟩
  · exact List.append_ne_nil_of_right_ne_nil _ l.userinfo_ne

theorem isVmess_front (s : Str) : isVmess (l.front ++ s) = false := by
  rw [isVmess, front]
  cases l.scheme <;> rfl

theorem withAddress_noSpace {a : Str} (ha : Plain a) : NoSpace (l.withAddress a) := by
  have hat : isSpace '@' = false := by decide
  have hcolon : isSpace ':' = false := by decide
  simp only [withAddress, noSpace_append, noSpace_cons]
  exact ⟨front_facts.2.2.1, hat, ha.noSpace, hcolon, l.port_plain.noSpace, l.query_noSpace⟩

theorem withAddress_noHash {a : Str} (ha : Plain a) : '#' ∉ l.withAddress a := by
  simp [withAddress, front_facts.2.1, ha.noHash, l.port_plain.noHash, l.query_noHash]

/-- The host is what `@([^:]+):` finds. -/
theorem searchGroup_withAddress : searchGroup hostPattern (l.withAddress l.host) = some l.host := by
  have hm := match?_host.mpr
    ⟨l.host, l.port ++ l.query, rfl, l.host_ne, l.host_plain.noColon, rfl⟩
  rw [searchGroup, withAddress, search_host_append front_facts.1, search_of_match hm]
  rfl

/-- The rewrite up to the fragment. -/
theorem sub_withAddress (new : Str) :
    sub addressPattern new (l.withAddress l.host) =
      l.front ++ new ++ sub addressPattern new (l.port ++ l.query) := by
  have hm := match?_address.mpr
    ⟨l.host, l.port ++ l.query, rfl, l.host_ne, l.host_plain.noColon, rfl⟩
  rw [withAddress, sub_address_append front_facts.1, sub_of_match hm (by simp),
    List.append_assoc]

/-- Another address gives another link, whatever follows it. -/
theorem ne_of_address {x y : Str} (hc : ':' ∉ ip) (hne : ip ≠ l.host) :
    l.front ++ '@' :: (ip ++ ':' :: x) ≠ l.front ++ '@' :: (l.host ++ ':' :: y) := by
  intro h
  exact hne (append_inj_of_notMem hc l.host_plain.noColon
    (List.cons.inj (List.append_cancel_left h)).2).1

/-- **What `apply_ip_to_config` makes of a link**: the path and the query are rewritten
too. -/
theorem applyIpToConfig_text (F : Json.Floats) (hc : ':' ∉ ip) (hne : ip ≠ l.host) :
    applyIpToConfig F l.text ip =
      some (l.front ++ '@' :: (ip ++ ':' ::
        sub addressPattern ('@' :: ip ++ [':']) (l.port ++ l.query)) ++ l.updatedFragment ip) := by
  have hspace := l.withAddress_noSpace l.host_plain
  have hhash := l.withAddress_noHash l.host_plain
  have hvmess : isVmess (l.withAddress l.host) = false := isVmess_front _
  -- The first match is the host of the link; what the others match is in the path or query.
  have hsub : sub addressPattern ('@' :: ip ++ [':']) (l.withAddress l.host) =
      l.front ++ '@' :: (ip ++ ':' ::
        sub addressPattern ('@' :: ip ++ [':']) (l.port ++ l.query)) := by
    rw [sub_withAddress]
    simp
  cases hf : l.fragment with
  | none =>
      have htext : strip l.text = l.withAddress l.host := by
        rw [text, hf, Option.map_none, Option.getD_none, List.append_nil, strip_of_noSpace hspace]
      have hafter : after '#' (l.withAddress l.host) = [] := after_of_notMem hhash
      simp only [applyIpToConfig, htext, hvmess, before_of_notMem hhash, strip_of_noSpace hspace,
        hafter, hsub, updatedFragment, hf]
      simp [withAddress, ne_of_address hc hne]
  | some f =>
      have htext : strip l.text = l.withAddress l.host ++ '#' :: rstrip f := by
        have h : NoSpace (l.withAddress l.host ++ ['#']) := by
          rw [noSpace_append]
          exact ⟨hspace, noSpace_cons.mpr ⟨by decide, noSpace_nil⟩⟩
        have hs := strip_append (t := f) h (by simp)
        simpa [text, hf, rstrip] using hs
      have hv : isVmess (l.withAddress l.host ++ '#' :: rstrip f) = false := by
        rw [withAddress, List.append_assoc]
        exact isVmess_front _
      simp only [applyIpToConfig, htext, hv, before_append_cons hhash, strip_of_noSpace hspace,
        after_append_cons hhash, hsub, searchGroup_withAddress, updateFragment, updatedFragment, hf,
        Option.map_some]
      -- A remark of whitespace only is empty after the first strip.
      cases hr : rstrip f with
      | nil => simp [withAddress, ne_of_address hc hne]
      | cons d r =>
          generalize sub addressPattern ('@' :: ip ++ [':']) (l.port ++ l.query) = w
          have hdiff := ne_of_address (l := l) (x := w ++ '#' :: replace ('-' :: l.host)
            ('-' :: ip) (d :: r)) (y := l.port ++ l.query ++ '#' :: d :: r) hc hne
          simpa [withAddress] using hdiff

/-- **Exactly the links whose server alone changes**: those whose path and query hold
nothing between an `@` and the next colon but the new IP. -/
theorem addressOnly_iff (F : Json.Floats) (l : ServerLink) (ip : Str) (h : isValidIp ip = true)
    (hne : ip ≠ l.host) : l.AddressOnly ip F ↔ OnlyAddress ip l.query := by
  obtain ⟨hcolon, hat⟩ := notMem_of_isValidIp h
  rw [AddressOnly, applyIpToConfig_text F hcolon hne, Option.some_inj, List.append_cancel_right_eq,
    withAddress, List.append_cancel_left_eq, List.cons.injEq, and_iff_right rfl,
    List.append_cancel_left_eq, List.cons.injEq, and_iff_right rfl,
    sub_address_eq_self_iff hat hcolon, onlyAddress_append l.port_plain.noAt]

/-- `vless://u@h.com:443?path=/@a:b#DE-h.com`. -/
def sampleServerLink : ServerLink where
  scheme := .vless
  userinfo := "u".toList
  host := "h.com".toList
  port := "443".toList
  query := "?path=/@a:b".toList
  fragment := some "DE-h.com".toList
  userinfo_ne := by decide
  userinfo_plain := by decide
  host_ne := by decide
  host_plain := by decide
  port_plain := by decide
  query_noHash := by decide
  query_noSpace := by unfold NoSpace; decide

theorem addressOnly_sample :
    sampleServerLink.AddressOnly "8.8.8.8".toList Env.sample.floats ↔
      OnlyAddress "8.8.8.8".toList sampleServerLink.query :=
  addressOnly_iff Env.sample.floats sampleServerLink "8.8.8.8".toList (by decide) (by decide)

/-- The path is rewritten to `/@8.8.8.8:b`. -/
theorem not_addressOnly_path :
    applyIpToConfig Env.sample.floats sampleServerLink.text "8.8.8.8".toList =
        some "vless://u@8.8.8.8:443?path=/@8.8.8.8:b#DE-8.8.8.8".toList ∧
      ¬sampleServerLink.AddressOnly "8.8.8.8".toList Env.sample.floats := by
  unfold AddressOnly
  decide +kernel

end ServerLink
end ConfigManager
