import ConfigManager.BotHandlers
import ConfigManager.CleanIpOutput
import ConfigManager.ExportText
import ConfigManager.LinkShapes
import ConfigManager.WhitePerf

/-! # Links for clean IPs (`app.handlers.admin.handle_admin_text`, the number of IPs)

An admin who has typed how many configs there are to be for each IP types how many IPs are
to be used, and is sent a file: the newest valid configs of a day that are no trojan links
and not on these IPs, each moved to the newest IPs.

`apply_ip_to_config` leaves a link a link of the same protocol (`fullMatch_applied`,
`detectProtocol_applied`), so that nothing is filtered out behind it, and the file can be
read: `generated_links`.
-/
namespace ConfigManager

open Py Regex

/-! ## A link that is moved -/

variable {F : Json.Floats} {ip text x r z s t : Str}

/-- A text without `@` in front stands in front of the first `@`. -/
theorem prefix_of_notMem_at (hz : '@' ∉ z) (hx : x ++ ['@'] <+: z ++ t) : z <+: x := by
  rcases List.prefix_or_prefix_of_prefix (List.prefix_append z t) hx with h | h
  · rcases List.prefix_concat_iff.mp h with rfl | h
    · simp at hz
    · exact h
  · exact absurd (h.mem (by simp)) hz

/-- A url link whose text up to some `@` is kept is a link. -/
theorem IsLink.move (h : IsLink text) (hurl : isUrlLink text = true)
    (hx : x ++ ['@'] <+: before '#' text) (hr : r ≠ []) : IsLink (x ++ '@' :: r) := by
  cases h with
  | vmess body =>
    obtain ⟨-, -, -, -, hv⟩ := exists_urlScheme hurl
    cases hv
  | vless body =>
    rw [before_scheme (by decide)] at hx
    obtain ⟨y, rfl⟩ := prefix_of_notMem_at (by decide) hx
    rw [List.append_assoc]
    exact .vless (by simp)
  | trojan body =>
    rw [before_scheme (by decide)] at hx
    obtain ⟨y, rfl⟩ := prefix_of_notMem_at (by decide) hx
    rw [List.append_assoc]
    exact .trojan (by simp)
  | shadowsocks body =>
    obtain ⟨p, f, rfl, hne, hp, hf⟩ := body
    have hhash : '#' ∉ p := fun hmem => absurd (hp _ hmem) (by decide)
    have hat : '@' ∉ "ss://".toList ++ p := by
      rw [List.mem_append, not_or]
      exact ⟨by decide, fun hmem => absurd (hp _ hmem) (by decide)⟩
    rw [before_scheme (by decide), before_append hhash, ← List.append_assoc] at hx
    obtain ⟨y, rfl⟩ := prefix_of_notMem_at hat hx
    rw [List.append_assoc, List.prefix_append_right_inj] at hx
    have hend : ∀ u, u ≠ [] → IsLink ("ss://".toList ++ p ++ '@' :: u) := fun u hu => by
      rw [List.append_assoc]
      exact .shadowsocks ⟨p, '@' :: u, rfl, hne, hp, .inr (.inr ⟨rfl, u, hu, rfl⟩)⟩
    -- Behind the payload comes the first `@` of the link.
    cases y with
    | nil =>
      rw [List.append_nil]
      exact hend r hr
    | cons c y =>
      rcases hf with rfl | ⟨q, rfl⟩ | ⟨-, q, -, rfl⟩
      · exact absurd hx.length_le (by simp [before])
      · exact absurd hx.length_le (by simp [before])
      · obtain ⟨rfl, -⟩ := List.cons_prefix_cons.mp hx
        rw [List.append_assoc]
        exact hend (y ++ '@' :: r) (by simp)

/-- The parts of a url link on an IP. -/
theorem applied_url_eq (F : Json.Floats) (h : UrlText text) (hip : isValidIp ip = true) :
    ∃ x r, x ++ ['@'] <+: before '#' text ∧ r ≠ [] ∧ applied F ip text = x ++ '@' :: r := by
  obtain ⟨hcolon, -⟩ := notMem_of_isValidIp hip
  obtain ⟨x, w, hx, hsub, -⟩ := exists_sub_address (ne_nil_of_isValidIp hip) hcolon h.server
  obtain ⟨t, ht⟩ := exists_applied_url F ip h (by rw [hsub]; simp)
  refine ⟨x, ip ++ ':' :: (w ++ t), hx, by simp, ?_⟩
  rw [ht, hsub]
  simp

/-- No whitespace comes into a url link with the IP. -/
theorem noSpace_applied_url (F : Json.Floats) (h : UrlText text) (hip : NoSpace ip) :
    NoSpace (applied F ip text) := by
  obtain ⟨-, -, -, -, hv⟩ := exists_urlScheme h.scheme
  have hbase : NoSpace (before '#' text) := noSpace_before h.noSpace
  have hafter : NoSpace (after '#' text) := fun c hc =>
    h.noSpace c ((List.drop_suffix _ _).trans (List.dropWhile_suffix _) |>.mem hc)
  have hsub : NoSpace (sub addressPattern ('@' :: ip ++ [':']) (before '#' text)) := by
    intro c hc
    have hnew : NoSpace ('@' :: ip ++ [':']) := by simp [hip, isSpace]
    exact (mem_of_mem_sub hc).elim (hnew c) (hbase c)
  have hupdate : ∀ old, NoSpace (updateFragment old ip (after '#' text)) := by
    intro old
    cases old with
    | none => exact hafter
    | some old =>
      intro c hc
      have hnew : NoSpace ('-' :: ip) := by simp [hip, isSpace]
      exact (mem_of_mem_replace hc).elim (hnew c) (hafter c)
  rw [applied, applyIpToConfig]
  simp only [strip_of_noSpace h.noSpace, hv, Bool.false_eq_true, ↓reduceIte,
    strip_of_noSpace hbase]
  split
  next modified hmodified =>
    split
    · exact h.noSpace
    · split_ifs at hmodified
      · cases hmodified
        exact noSpace_append.mpr ⟨hsub, noSpace_cons.mpr ⟨by decide, hupdate _⟩⟩
      · cases hmodified
        exact hsub
  · exact h.noSpace

/-- The `add` member of a vmess link is set. -/
theorem applied_vmess_eq (c : VmessConfig F) (ip : Str) :
    ∃ d, vmessLink (.obj (Json.put (ofText "add".toList) (Json.text ip) c.members)) = some d ∧
      applied F ip c.link = d := by
  have hencodable :
      Json.encodable (.obj (Json.put (ofText "add".toList) (Json.text ip) c.members)) = true :=
    Json.encodableMembers_put_of (by decide) (Json.encodable_text ip) c.encodable
  obtain ⟨d, hd⟩ : ∃ d, vmessLink (.obj (Json.put (ofText "add".toList) (Json.text ip) c.members)) =
      some d := ⟨_, vmessLink_eq_some.mpr ⟨hencodable, rfl⟩⟩
  have happly : applyIpToConfig F c.link ip = some d := by
    rw [applyIpToConfig, strip_of_noSpace c.noSpace_link]
    simp only [c.isVmess_link, ↓reduceIte]
    rw [applyIpVmess, c.vmessData_link, Option.bind_some, dataSet, Option.bind_some, hd]
  refine ⟨d, hd, ?_⟩
  rw [applied, happly]
  exact if_neg (ne_nil_of_fullMatch (fullMatch_vmessLink hd))

/-- **A link that is moved is a link.** -/
theorem fullMatch_applied {row : Row} (hrow : Portable F row)
    (hlink : FullMatch configPattern row.text) (hvalid : isValidIp ip = true) (hip : NoSpace ip) :
    FullMatch configPattern (applied F ip row.text) := by
  rcases hrow with hurl | ⟨c, hc⟩
  · obtain ⟨x, r, hx, hr, he⟩ := applied_url_eq F hurl hvalid
    refine fullMatch_iff.mpr ⟨noSpace_applied_url F hurl hip, ?_⟩
    rw [he]
    exact (isLink_of_fullMatch hlink).move hurl.scheme hx hr
  · obtain ⟨d, hd, he⟩ := applied_vmess_eq c ip
    rw [hc, he]
    exact fullMatch_vmessLink hd

/-- **A link that is moved keeps its protocol.** -/
theorem detectProtocol_applied {row : Row} (hrow : Portable F row)
    (hvalid : isValidIp ip = true) :
    detectProtocol (applied F ip row.text) = detectProtocol row.text := by
  rcases hrow with hurl | ⟨c, hc⟩
  · obtain ⟨x, r, hx, -, he⟩ := applied_url_eq F hurl hvalid
    obtain ⟨b, hb, t, ht, -⟩ := exists_urlScheme hurl.scheme
    have hat : ∀ b ∈ schemes, '@' ∉ b := by decide
    rw [ht, before_scheme hb] at hx
    obtain ⟨y, rfl⟩ := prefix_of_notMem_at (hat b hb) hx
    rw [he, ht, List.append_assoc, detectProtocol_append hb, detectProtocol_append hb]
  · obtain ⟨d, hd, he⟩ := applied_vmess_eq c ip
    obtain ⟨-, rfl⟩ := vmessLink_eq_some.mp hd
    rw [hc, he]
    show detectProtocol ("vmess://".toList ++ _) = detectProtocol ("vmess://".toList ++ _)
    rw [detectProtocol_append (by decide), detectProtocol_append (by decide)]

theorem extractHost_applied (env : Env) {row : Row} (hrow : Portable env.floats row)
    (hvalid : isValidIp ip = true) :
    extractHost env.floats (applied env.floats ip row.text) = Json.text ip := by
  rcases hrow with hurl | ⟨c, hc⟩
  · exact extractHost_applied_url env.floats hurl hvalid
  · rw [hc]
    exact extractHost_applied_vmess env c ip

/-! ## All links -/

theorem mem_applyIpsToConfigs {ips : List Str} {configs : List Row} {n : Nat} {link : Str}
    (h : link ∈ applyIpsToConfigs F ips configs n) :
    ∃ ip ∈ ips, ∃ row ∈ configs, link = applied F ip row.text := by
  unfold applyIpsToConfigs at h
  split_ifs at h with hconfigs hips
  · cases h
  · cases h
  · obtain ⟨ip, hip, h⟩ := List.mem_flatMap.mp h
    obtain ⟨i, -, rfl⟩ := List.mem_map.mp h
    have hlt : i % configs.length < configs.length :=
      Nat.mod_lt _ (List.length_pos_of_ne_nil hconfigs)
    refine ⟨ip, hip, configs[i % configs.length], List.getElem_mem hlt, ?_⟩
    rw [List.getElem?_eq_getElem hlt]
    rfl

theorem length_applyIpsToConfigs {ips : List Str} {configs : List Row} {n : Nat}
    (hips : ips ≠ []) (hconfigs : configs ≠ []) :
    (applyIpsToConfigs F ips configs n).length = ips.length * n := by
  rw [applyIpsToConfigs, if_neg hconfigs, if_neg hips]
  simp [List.length_flatMap]

/-! ## The command -/

/-- An address as `clean_ips` has it: `add_clean_ip` is given stripped ones that are valid. -/
structure CleanAddress where
  text : Str
  valid : isValidIp text = true
  noSpace : NoSpace text

/-- `CleanIP`. -/
structure CleanIp where
  address : CleanAddress
  createdAt : Nat

/-- The number of IPs, from 1 to 50. -/
def ipCount (message : Str) : Option Nat :=
  (int (strip message)).bind fun count => if count ≤ 0 ∨ 50 < count then none else some count.toNat

/-- `config_count`. -/
def configCount (d : UserData) : Nat :=
  let count := d.configCountPerIp.getD 1
  if count ≤ 0 then 1 else count.toNat

/-- The `where` clause of the base configs; `NULL` compares with nothing. -/
def isBase (ips : List Str) (cutoff : Nat) (config : DatedConfig) : Bool :=
  cutoff ≤ config.createdAt && config.row.isValid &&
    (config.row.protocol ≠ none && config.row.protocol ≠ some .trojan) &&
    (config.row.host ≠ .null && ips.all fun ip => config.row.host ≠ Json.text ip)

/-- `filtered_texts`. -/
def filteredTexts (outputConfigs : List Str) : List Str :=
  ((outputConfigs.filter (· ≠ [])).map strip).filter fun cfg =>
    cfg ≠ [] ∧ detectProtocol cfg ≠ .trojan

/-- What an admin is sent. -/
inductive GeneratedAnswer where
  | invalidCount
  | noCleanIps
  | noConfigs
  | noLinks
  | document (text : Str)

/-- The command, over all orders of the rows; `cutoff` is a day ago. -/
inductive Generates (F : Json.Floats) (d : UserData) (cleanIps : List CleanIp)
    (stored : List DatedConfig) (cutoff : Nat) (message : Str) : GeneratedAnswer → Prop
  | invalidCount (hcount : ipCount message = none) :
      Generates F d cleanIps stored cutoff message .invalidCount
  | noCleanIps {count : Nat} (hcount : ipCount message = some count)
      (hips : TopBy CleanIp.createdAt count cleanIps []) :
      Generates F d cleanIps stored cutoff message .noCleanIps
  | noConfigs {count : Nat} {ips : List CleanIp} (hcount : ipCount message = some count)
      (hips : TopBy CleanIp.createdAt count cleanIps ips) (hne : ips ≠ [])
      (hrows : TopBy DatedConfig.createdAt (configCount d)
        (stored.filter (isBase (ips.map fun ip => ip.address.text) cutoff)) []) :
      Generates F d cleanIps stored cutoff message .noConfigs
  | applied {count : Nat} {ips : List CleanIp} {rows : List DatedConfig} {texts : List Str}
      (hcount : ipCount message = some count)
      (hips : TopBy CleanIp.createdAt count cleanIps ips) (hne : ips ≠ [])
      (hrows : TopBy DatedConfig.createdAt (configCount d)
        (stored.filter (isBase (ips.map fun ip => ip.address.text) cutoff)) rows)
      (hrowsne : rows ≠ [])
      (htexts : texts = filteredTexts (applyIpsToConfigs F (ips.map fun ip => ip.address.text)
        (rows.map fun c => c.row) (configCount d))) :
      Generates F d cleanIps stored cutoff message
        (if texts = [] then .noLinks else .document (formatConfigsAsText texts))

/-- A row as the scraper stores it, of a link that can be moved. -/
structure Movable (F : Json.Floats) (row : Row) : Prop where
  portable : Portable F row
  link : FullMatch configPattern row.text
  protocol : row.protocol = some (detectProtocol row.text)

/-- Of links that are no trojan links, nothing is filtered out. -/
theorem filteredTexts_eq_self {texts : List Str}
    (h : ∀ c ∈ texts, FullMatch configPattern c ∧ detectProtocol c ≠ .trojan) :
    filteredTexts texts = texts := by
  have hne : texts.filter (· ≠ []) = texts := List.filter_eq_self.mpr fun c hc => by
    simpa using ne_nil_of_fullMatch (h c hc).1
  have hstrip : texts.map strip = texts := by
    conv_rhs => rw [← List.map_id texts]
    exact List.map_congr_left fun c hc => strip_of_noSpace (noSpace_of_fullMatch (h c hc).1)
  rw [filteredTexts, hne, hstrip]
  exact List.filter_eq_self.mpr fun c hc => by
    simpa using ⟨ne_nil_of_fullMatch (h c hc).1, (h c hc).2⟩

/-- **The file holds the moved links**: in it are found, for each of the newest IPs, as many
links as were asked for, each with that IP for its server and none of them a trojan link, made
from the newest base configs. -/
theorem generated_links (env : Env) (d : UserData) (cleanIps : List CleanIp)
    (stored : List DatedConfig) (cutoff : Nat) (message text : Str)
    (hstored : ∀ c ∈ stored, Movable env.floats c.row)
    (h : Generates env.floats d cleanIps stored cutoff message (.document text)) :
    ∃ count ips rows, ipCount message = some count ∧
      TopBy CleanIp.createdAt count cleanIps ips ∧
      TopBy DatedConfig.createdAt (configCount d)
        (stored.filter (isBase (ips.map fun ip => ip.address.text) cutoff)) rows ∧
      findall configPattern text = applyIpsToConfigs env.floats
        (ips.map fun ip => ip.address.text) (rows.map fun c => c.row) (configCount d) ∧
      (findall configPattern text).length = ips.length * configCount d ∧
      ∀ link ∈ findall configPattern text, detectProtocol link ≠ .trojan ∧
        ∃ ip ∈ ips, extractHost env.floats link = Json.text ip.address.text := by
  generalize ha : GeneratedAnswer.document text = answer at h
  cases h with
  | invalidCount hcount => cases ha
  | noCleanIps hcount hips => cases ha
  | noConfigs hcount hips hne hrows => cases ha
  | @applied count ips rows texts hcount hips hne hrows hrowsne htexts =>
    split at ha
    · cases ha
    cases ha
    have hall : ∀ link ∈ applyIpsToConfigs env.floats (ips.map fun ip => ip.address.text)
        (rows.map fun c => c.row) (configCount d),
        (FullMatch configPattern link ∧ detectProtocol link ≠ .trojan) ∧
          ∃ ip ∈ ips, extractHost env.floats link = Json.text ip.address.text := by
      intro link hlink
      obtain ⟨_, haddress, _, hrow, rfl⟩ := mem_applyIpsToConfigs hlink
      obtain ⟨ip, hip, rfl⟩ := List.mem_map.mp haddress
      obtain ⟨c, hc, rfl⟩ := List.mem_map.mp hrow
      obtain ⟨hmem, hbase⟩ := List.mem_filter.mp (mem_of_topBy hrows hc)
      have hmovable := hstored c hmem
      have htrojan : detectProtocol c.row.text ≠ .trojan := by
        intro he
        simp [isBase, hmovable.protocol, he] at hbase
      refine ⟨⟨fullMatch_applied hmovable.portable hmovable.link ip.address.valid
        ip.address.noSpace, ?_⟩, ip, hip,
        extractHost_applied env hmovable.portable ip.address.valid⟩
      rw [detectProtocol_applied hmovable.portable ip.address.valid]
      exact htrojan
    rw [filteredTexts_eq_self fun c hc => (hall c hc).1] at htexts
    have hread : findall configPattern (formatConfigsAsText texts) = applyIpsToConfigs env.floats
        (ips.map fun ip => ip.address.text) (rows.map fun c => c.row) (configCount d) := by
      rw [htexts]
      exact findall_formatConfigsAsText fun c hc => (hall c hc).1.1
    refine ⟨count, ips, rows, hcount, hips, hrows, hread, ?_, fun link hlink => ?_⟩
    · rw [hread, length_applyIpsToConfigs (by simpa using hne) (by simpa using hrowsne),
        List.length_map]
    · rw [hread] at hlink
      exact ⟨(hall link hlink).1.2, (hall link hlink).2⟩

/-- Two IPs, the newer one second. -/
def sampleCleanIps : List CleanIp :=
  [{ address := ⟨"8.8.8.8".toList, by decide +kernel, by unfold NoSpace; decide⟩, createdAt := 3 },
    { address := ⟨"1.1.1.1".toList, by decide +kernel, by unfold NoSpace; decide⟩, createdAt := 4 }]

/-- Two stored links with their servers, and a trojan link. -/
def sampleBases : List DatedConfig :=
  [{ id := 1
     row := { rowOfLink sampleLink with protocol := some .vless, host := Json.text "h".toList }
     createdAt := 5 },
    { id := 2
      row := { rowOfLink sampleVmessConfig.link with
        protocol := some .vmess, host := Json.text "h".toList }
      createdAt := 6 },
    { id := 3
      row := { rowOfLink "trojan://p@h:443#b".toList with
        protocol := some .trojan, host := Json.text "h".toList }
      createdAt := 7 }]

/-- Two links for each IP. -/
def twoPerIp : UserData := { UserData.empty with configCountPerIp := some 2 }

/-- The newer of the two links comes first on each IP. -/
def appliedSample : List Str :=
  ["vmess://eyJhZGQiOiAiMS4xLjEuMSIsICJwcyI6ICJhIn0=".toList, "vless://u@1.1.1.1:443#a".toList,
    "vmess://eyJhZGQiOiAiOC44LjguOCIsICJwcyI6ICJhIn0=".toList, "vless://u@8.8.8.8:443#a".toList]

/-- The newer IP comes first, and the trojan link is left where it is. -/
theorem generated_sampleBase :
    ∃ text, Generates Env.sample.floats twoPerIp sampleCleanIps sampleBases 4 "2".toList
        (.document text) ∧
      findall configPattern text = appliedSample ∧
      ∀ link ∈ findall configPattern text, detectProtocol link ≠ .trojan ∧
        ∃ ip ∈ sampleCleanIps, extractHost Env.sample.floats link = Json.text ip.address.text := by
  have hcount : ipCount "2".toList = some 2 := by decide +kernel
  have hips : TopBy CleanIp.createdAt 2 sampleCleanIps sampleCleanIps.reverse :=
    topBy_of_sorted (List.reverse_perm sampleCleanIps) (by decide) (by decide)
  have hbases : sampleBases.filter
      (isBase (sampleCleanIps.reverse.map fun ip => ip.address.text) 4) = sampleBases.take 2 := by
    rfl
  have hrows : TopBy DatedConfig.createdAt (configCount twoPerIp) (sampleBases.filter
      (isBase (sampleCleanIps.reverse.map fun ip => ip.address.text) 4))
        (sampleBases.take 2).reverse := by
    rw [hbases]
    exact topBy_of_sorted (List.reverse_perm _) (by decide) (by decide)
  have hlinks : applyIpsToConfigs Env.sample.floats
      (sampleCleanIps.reverse.map fun ip => ip.address.text)
      ((sampleBases.take 2).reverse.map fun c => c.row) (configCount twoPerIp) = appliedSample := by
    decide +kernel
  have htexts : filteredTexts (applyIpsToConfigs Env.sample.floats
      (sampleCleanIps.reverse.map fun ip => ip.address.text)
      ((sampleBases.take 2).reverse.map fun c => c.row) (configCount twoPerIp)) =
        appliedSample := by
    rw [hlinks]
    decide +kernel
  have hgenerates : Generates Env.sample.floats twoPerIp sampleCleanIps sampleBases 4
      "2".toList (.document _) :=
    .applied hcount hips (by simp [sampleCleanIps]) hrows (by simp [sampleBases]) htexts.symm
  have hstored : ∀ c ∈ sampleBases, Movable Env.sample.floats c.row := by
    have hurl : UrlText sampleLink := by
      refine ⟨by unfold NoSpace; decide, by decide, "vless://u".toList, "h".toList, "443".toList,
        by decide, by decide, by decide⟩
    have htrojan : UrlText "trojan://p@h:443#b".toList := by
      refine ⟨by unfold NoSpace; decide, by decide, "trojan://p".toList, "h".toList,
        "443".toList, by decide, by decide, by decide⟩
    simp only [sampleBases, List.forall_mem_cons]
    exact ⟨⟨.inl hurl, by decide +kernel, by decide +kernel⟩,
      ⟨.inr ⟨sampleVmessConfig, rfl⟩, by decide +kernel, by decide +kernel⟩,
      ⟨.inl htrojan, by decide +kernel, by decide +kernel⟩, nofun⟩
  obtain ⟨count, ips, rows, hcount', hips', hrows', hfound, -, hall⟩ :=
    generated_links Env.sample twoPerIp sampleCleanIps sampleBases 4 "2".toList _ hstored
      hgenerates
  obtain rfl := Option.some.inj (hcount'.symm.trans hcount)
  obtain rfl : ips = sampleCleanIps.reverse :=
    eq_of_topBy hips' (List.reverse_perm sampleCleanIps) (by decide)
  rw [hbases] at hrows'
  obtain rfl : rows = (sampleBases.take 2).reverse :=
    eq_of_topBy hrows' (List.reverse_perm (sampleBases.take 2)) (by decide)
  refine ⟨_, hgenerates, hfound.trans hlinks, fun link hlink => ?_⟩
  obtain ⟨hprotocol, ip, hip, hhost⟩ := hall link hlink
  exact ⟨hprotocol, ip, mem_of_topBy hips' hip, hhost⟩

end ConfigManager
