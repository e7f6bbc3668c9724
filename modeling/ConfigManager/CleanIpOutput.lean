import ConfigManager.CleanIp
import ConfigManager.WatermarkLens

/-! # Links on clean IPs (`core.ip_manager.apply_ips_to_configs`)

Each IP is put into the same number of links, taken from the rows in turn.  Where
`apply_ip_to_config` has nothing to change it returns `None` and the link is handed out as
it is; then its server was the IP already.

The rewrite replaces every match of `@[^:]+:`, and `extract_host` reads the first match of
`@([^:]+):` in the result.  These are at one place: an `@` starts a match unless a colon
follows at once, and the rewrite leaves what stands before its first match.
-/
namespace ConfigManager

open Py Regex

/-- The link for one row and one IP. -/
def applied (F : Json.Floats) (ip text : Str) : Str :=
  match applyIpToConfig F text ip with
  | some modified => if modified = [] then text else modified
  | none => text

/-- `apply_ips_to_configs`. -/
def applyIpsToConfigs (F : Json.Floats) (ips : List Str) (configs : List Row) (applyPerIp : Nat) :
    List Str :=
  if configs = [] then []
  else if ips = [] then []
  else
    ips.flatMap fun ip => (List.range applyPerIp).map fun i =>
      applied F ip ((configs[i % configs.length]?.map Row.text).getD [])

/-- Somewhere in the text are an `@`, a character other than a colon, and then a colon. -/
def HasServer (s : Str) : Prop := ∃ x a y, s = x ++ '@' :: (a ++ ':' :: y) ∧ a ≠ [] ∧ ':' ∉ a

/-- A url link, the part of which before the `#` names a server: a text without whitespace
that starts with one of the three schemes in lower case. -/
structure UrlText (text : Str) : Prop where
  noSpace : NoSpace text
  scheme : isUrlLink text = true
  server : HasServer (before '#' text)

variable {F : Json.Floats} {ip text s u : Str}

/-! ## Where a match starts -/

/-- What stands before the first colon of a text is not empty exactly if the text does not
start with it. -/
theorem exists_cut_iff :
    (∃ a y, s = a ++ ':' :: y ∧ a ≠ [] ∧ ':' ∉ a) ↔ ':' ∈ s ∧ s.head? ≠ some ':' := by
  constructor
  · rintro ⟨a, y, rfl, hne, hc⟩
    obtain ⟨d, a, rfl⟩ := List.exists_cons_of_ne_nil hne
    refine ⟨by simp, fun h => hc ?_⟩
    obtain rfl : d = ':' := Option.some.inj h
    exact List.mem_cons_self ..
  · rintro ⟨hmem, hhead⟩
    rcases eq_before_or ':' s with h | h
    · exact absurd (h ▸ hmem) (notMem_before ':' s)
    · refine ⟨before ':' s, after ':' s, h, fun hnil => ?_, notMem_before ':' s⟩
      rw [hnil] at h
      exact hhead (by rw [h]; rfl)

theorem match?_address_isSome :
    (addressPattern.match? ('@' :: s)).isSome = true ↔ ':' ∈ s ∧ s.head? ≠ some ':' := by
  rw [← exists_cut_iff, Option.isSome_iff_exists]
  constructor
  · rintro ⟨m, hm⟩
    obtain ⟨a, y, h, hne, hc, -⟩ := match?_address.mp hm
    exact ⟨a, y, (List.cons.inj h).2, hne, hc⟩
  · rintro ⟨a, y, rfl, hne, hc⟩
    exact ⟨_, match?_address.mpr ⟨a, y, rfl, hne, hc, rfl⟩⟩

theorem match?_host_isSome :
    (hostPattern.match? ('@' :: s)).isSome = true ↔ ':' ∈ s ∧ s.head? ≠ some ':' := by
  rw [← exists_cut_iff, Option.isSome_iff_exists]
  constructor
  · rintro ⟨m, hm⟩
    obtain ⟨a, y, h, hne, hc, -⟩ := match?_host.mp hm
    exact ⟨a, y, (List.cons.inj h).2, hne, hc⟩
  · rintro ⟨a, y, rfl, hne, hc⟩
    exact ⟨_, match?_host.mpr ⟨a, y, rfl, hne, hc, rfl⟩⟩

/-- **What stands before the first match** has no match of either pattern in it, whatever
the address behind it is. -/
theorem match?_host_before {c : Char} {v w w' : Str} (hw : ':' ∈ w)
    (h : addressPattern.match? (c :: v ++ '@' :: w) = none) :
    hostPattern.match? (c :: v ++ '@' :: w') = none := by
  by_cases hc : c = '@'
  · subst hc
    by_contra hmatch
    rw [List.cons_append, ← ne_eq, Option.ne_none_iff_isSome, match?_host_isSome] at hmatch
    have hnone : ¬(addressPattern.match? ('@' :: (v ++ '@' :: w))).isSome = true := by
      rw [List.cons_append] at h
      simp [h]
    refine hnone (match?_address_isSome.mpr ⟨?_, ?_⟩)
    · exact List.mem_append_right _ (List.mem_cons_of_mem _ hw)
    · cases v with
      | nil => simp
      | cons d v => simpa using hmatch.2
  · exact match?_host_of_noAt hc

/-- **The host of a rewritten text** is the IP, whatever follows its colon. -/
theorem exists_sub_address (hne : ip ≠ []) (hcolon : ':' ∉ ip) (hs : HasServer s) :
    ∃ x w, x ++ ['@'] <+: s ∧
      sub addressPattern ('@' :: ip ++ [':']) s = x ++ '@' :: (ip ++ ':' :: w) ∧
      ∀ t, searchGroup hostPattern (x ++ '@' :: (ip ++ ':' :: t)) = some ip := by
  obtain ⟨m, hm⟩ : ∃ m, addressPattern.search s = some m := by
    obtain ⟨x, a, y, rfl, hane, ha⟩ := hs
    have hmatch := match?_address.mpr ⟨a, y, rfl, hane, ha, rfl⟩
    exact Option.isSome_iff_exists.mp
      (search_isSome_append (by rw [search_of_match hmatch]; rfl) x)
  obtain ⟨x, v, rfl, hmatch, hfirst⟩ := search_eq_some_iff.mp hm
  obtain ⟨a, y, rfl, -, ha, rfl⟩ := match?_address.mp hmatch
  have hnone : ∀ c u, c :: u <:+ x →
      addressPattern.match? (c :: u ++ '@' :: (a ++ ':' :: y)) = none := by
    rintro c u ⟨p, rfl⟩
    exact hfirst p _ (by simp) (by simp)
  refine ⟨x, sub addressPattern ('@' :: ip ++ [':']) y, ⟨a ++ ':' :: y, by simp⟩, ?_, fun t => ?_⟩
  · rw [sub_append hnone, sub_of_match hmatch (by simp)]
    simp
  · have hip := match?_host.mpr ⟨ip, t, rfl, hne, hcolon, rfl⟩
    have hsearch : hostPattern.search (x ++ '@' :: (ip ++ ':' :: t)) =
        hostPattern.search ('@' :: (ip ++ ':' :: t)) :=
      search_append fun c u hu => match?_host_before (by simp) (hnone c u hu)
    rw [searchGroup, hsearch, search_of_match hip]
    rfl

/-! ## Url links -/

/-- What is kept up to the first `@` is kept with its scheme. -/
theorem isUrlLink_of_prefix {x : Str} (h : isUrlLink s = true) (hx : x ++ ['@'] <+: s) (t : Str) :
    isUrlLink (x ++ t) = true := by
  have key : ∀ b : Str, '@' ∉ b → b <+: s → b <+: x ++ t := by
    intro b hb hs
    rcases List.prefix_or_prefix_of_prefix hs hx with hbx | hxb
    · rcases List.prefix_concat_iff.mp hbx with rfl | hbx
      · simp at hb
      · exact hbx.trans (List.prefix_append x t)
    · exact absurd (hxb.mem (by simp)) hb
  simp only [isUrlLink, Bool.or_eq_true, List.isPrefixOf_iff_prefix] at h ⊢
  rcases h with (h | h) | h
  · exact .inl (.inl (key _ (by decide) h))
  · exact .inl (.inr (key _ (by decide) h))
  · exact .inr (key _ (by decide) h)

theorem strip_of_isUrlLink (h : isUrlLink s = true) : strip s = rstrip s := by
  obtain ⟨c, u, rfl, hc⟩ : ∃ c u, s = c :: u ∧ isSpace c = false := by
    simp only [isUrlLink, Bool.or_eq_true, List.isPrefixOf_iff_prefix] at h
    rcases h with (⟨t, rfl⟩ | ⟨t, rfl⟩) | ⟨t, rfl⟩
    · exact ⟨_, _, rfl, by decide⟩
    · exact ⟨_, _, rfl, by decide⟩
    · exact ⟨_, _, rfl, by decide⟩
  rw [strip, List.dropWhile_cons_of_neg (by simp [hc]), rstrip]

/-- The link that is handed out starts with the rewritten part, also where
`apply_ip_to_config` reports that there is nothing to change. -/
theorem exists_applied_url (F : Json.Floats) (ip : Str) (h : UrlText text)
    (hne : sub addressPattern ('@' :: ip ++ [':']) (before '#' text) ≠ []) :
    ∃ t, applied F ip text = sub addressPattern ('@' :: ip ++ [':']) (before '#' text) ++ t := by
  obtain ⟨-, -, -, -, hv⟩ := exists_urlScheme h.scheme
  have hbase : strip (before '#' text) = before '#' text :=
    strip_of_noSpace (noSpace_before h.noSpace)
  rw [applied, applyIpToConfig]
  simp only [strip_of_noSpace h.noSpace, hv, Bool.false_eq_true, ↓reduceIte, hbase]
  generalize sub addressPattern ('@' :: ip ++ [':']) (before '#' text) = base at hne ⊢
  split_ifs with hfragment hresult hchanged
  · exact ⟨_, if_neg (by simp)⟩
  · exact ⟨_, (not_not.mp hresult).symm⟩
  · exact ⟨[], by rw [List.append_nil]; exact if_neg hne⟩
  · -- The link is its own rewrite, and perhaps has a `#` with nothing behind it.
    rw [not_not.mp hchanged]
    rcases eq_before_or '#' text with ht | ht
    · exact ⟨[], by rw [List.append_nil]; exact ht⟩
    · exact ⟨_, ht⟩

theorem extractHost_applied_url (F : Json.Floats) (h : UrlText text) (hip : isValidIp ip = true) :
    extractHost F (applied F ip text) = Json.text ip := by
  obtain ⟨hcolon, -⟩ := notMem_of_isValidIp hip
  obtain ⟨x, w, hx, hsub, hsearch⟩ := exists_sub_address (ne_nil_of_isValidIp hip) hcolon h.server
  obtain ⟨t, ht⟩ := exists_applied_url F ip h (by rw [hsub]; simp)
  have hout : applied F ip text = x ++ '@' :: (ip ++ ':' :: (w ++ t)) := by
    rw [ht, hsub]
    simp
  have hscheme := fun v => isUrlLink_of_prefix h.scheme (hx.trans (before_isPrefix '#' text)) v
  have hstrip : strip (x ++ '@' :: (ip ++ ':' :: (w ++ t))) =
      x ++ '@' :: (ip ++ ':' :: rstrip (w ++ t)) := by
    have hcut := rstrip_append_cons (c := ':') (by decide) (x ++ '@' :: ip) (w ++ t)
    rw [strip_of_isUrlLink (hscheme _)]
    simpa using hcut
  rw [extractHost, hout, hstrip, if_pos (hscheme _), hsearch]
  rfl

/-! ## Vmess links -/

theorem extractHost_applied_vmess (env : Env) (c : VmessConfig env.floats) (ip : Str) :
    extractHost env.floats (applied env.floats ip c.link) = Json.text ip := by
  have hdata := c.vmessData_link
  have hencodable :
      Json.encodable (.obj (Json.put (ofText "add".toList) (Json.text ip) c.members)) = true :=
    Json.encodableMembers_put_of (by decide) (Json.encodable_text ip) c.encodable
  obtain ⟨d, hd⟩ : ∃ d, vmessLink (.obj (Json.put (ofText "add".toList) (Json.text ip) c.members)) =
      some d := ⟨_, vmessLink_eq_some.mpr ⟨hencodable, rfl⟩⟩
  have happly : applyIpToConfig env.floats c.link ip = some d := by
    rw [applyIpToConfig, strip_of_noSpace c.noSpace_link]
    simp only [c.isVmess_link, ↓reduceIte]
    rw [applyIpVmess, hdata, Option.bind_some, dataSet, Option.bind_some, hd]
  have hread : vmessData env.floats lenient d =
      some (.obj (Json.put (ofText "add".toList) (Json.text ip) c.members)) :=
    vmessData_vmessLink lenient_encode (Json.wf_put (wf_vmessData hdata) (Json.wf_text ip)) hd
  have hhost : extractHost env.floats d = Json.text ip := by
    have hserver : server env d = _ :=
      server_of_isVmess (isVmess_vmessLink hd) (noSpace_vmessLink hd)
    rw [hread, serverOf, Option.bind_some, dataGet, Json.get?_put_self, Option.getD_some] at hserver
    exact (Prod.ext_iff.mp hserver).1
  have hne : d ≠ [] := fun h => by
    rw [h] at hd
    obtain ⟨-, he⟩ := vmessLink_eq_some.mp hd
    cases he
  rw [applied, happly]
  simp only [if_neg hne, hhost]

/-! ## All links -/

/-- A row whose link can be put on another server. -/
def Portable (F : Json.Floats) (row : Row) : Prop :=
  UrlText row.text ∨ ∃ c : VmessConfig F, row.text = c.link

theorem getElem?_blocks {α β : Type} (f : α → Nat → β) (xs : List α) (n k : Nat) (hn : 1 ≤ n) :
    (xs.flatMap fun x => (List.range n).map (f x))[k]? = xs[k / n]?.map fun x => f x (k % n) := by
  induction xs generalizing k with
  | nil => simp
  | cons x xs ih =>
    rw [List.flatMap_cons]
    by_cases hk : k < n
    · have hlen : k < ((List.range n).map (f x)).length := by simpa using hk
      rw [List.getElem?_append_left hlen, Nat.div_eq_of_lt hk, Nat.mod_eq_of_lt hk]
      simp [hk]
    · have hlen : ((List.range n).map (f x)).length = n := by simp
      have hle : ((List.range n).map (f x)).length ≤ k := by omega
      have hdiv : k / n = (k - n) / n + 1 := Nat.div_eq_sub_div (by omega) (by omega)
      have hmod : k % n = (k - n) % n := Nat.mod_eq_sub_mod (by omega)
      rw [List.getElem?_append_right hle, hlen, ih, hdiv, hmod, List.getElem?_cons_succ]

/-- **Every link is on its IP.** -/
theorem applyIps_host (env : Env) (ips : List Str) (configs : List Row) (applyPerIp : Nat)
    (hips : ips ≠ []) (hvalid : ∀ ip ∈ ips, isValidIp ip = true) (hconfigs : configs ≠ [])
    (hrows : ∀ row ∈ configs, Portable env.floats row) (hn : 1 ≤ applyPerIp) :
    (applyIpsToConfigs env.floats ips configs applyPerIp).length = ips.length * applyPerIp ∧
      ∀ k < ips.length * applyPerIp, ∃ config ip,
        (applyIpsToConfigs env.floats ips configs applyPerIp)[k]? = some config ∧
          ips[k / applyPerIp]? = some ip ∧ extractHost env.floats config = Json.text ip := by
  rw [applyIpsToConfigs, if_neg hconfigs, if_neg hips]
  constructor
  · simp [List.length_flatMap]
  · intro k hk
    have hdiv : k / applyPerIp < ips.length := Nat.div_lt_of_lt_mul (by rwa [Nat.mul_comm] at hk)
    have hindex : k % applyPerIp % configs.length < configs.length :=
      Nat.mod_lt _ (List.length_pos_of_ne_nil hconfigs)
    have hconfig := getElem?_blocks
      (fun ip i => applied env.floats ip ((configs[i % configs.length]?.map Row.text).getD []))
      ips applyPerIp k hn
    rw [List.getElem?_eq_getElem hdiv, Option.map_some, List.getElem?_eq_getElem hindex,
      Option.map_some, Option.getD_some] at hconfig
    refine ⟨_, _, hconfig, List.getElem?_eq_getElem hdiv, ?_⟩
    have hip := hvalid _ (List.getElem_mem hdiv)
    rcases hrows _ (List.getElem_mem hindex) with hurl | ⟨c, hc⟩
    · exact extractHost_applied_url env.floats hurl hip
    · rw [hc]
      exact extractHost_applied_vmess env c _

theorem applyIps_sample :
    (applyIpsToConfigs Env.sample.floats ["8.8.8.8".toList, "9.9.9.9".toList]
        [rowOfLink sampleLink, rowOfLink sampleVmessConfig.link] 3).length = 2 * 3 ∧
      ∀ k < 2 * 3, ∃ config ip,
        (applyIpsToConfigs Env.sample.floats ["8.8.8.8".toList, "9.9.9.9".toList]
          [rowOfLink sampleLink, rowOfLink sampleVmessConfig.link] 3)[k]? = some config ∧
          ["8.8.8.8".toList, "9.9.9.9".toList][k / 3]? = some ip ∧
          extractHost Env.sample.floats config = Json.text ip := by
  have hurl : UrlText sampleLink := by
    refine ⟨by unfold NoSpace; decide, by decide, "vless://u".toList, "h".toList, "443".toList,
      by decide, by decide, by decide⟩
  refine applyIps_host Env.sample ["8.8.8.8".toList, "9.9.9.9".toList]
    [rowOfLink sampleLink, rowOfLink sampleVmessConfig.link] 3 (by decide) (by decide) (by simp)
    (fun row hrow => ?_) (by decide)
  rcases List.mem_cons.mp hrow with rfl | hrow
  · exact .inl hurl
  · rw [List.mem_singleton] at hrow
    exact .inr ⟨sampleVmessConfig, congrArg Row.text hrow⟩

end ConfigManager
