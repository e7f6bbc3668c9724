import ConfigManager.ConfigPattern
import ConfigManager.PayloadFragments
import ConfigManager.ServerPatterns
import ConfigManager.Validator
import ConfigManager.WatermarkHash

/-! # A record and its watermarked link

A record keeps the link it was made from and a watermarked copy.  Both are links to the
same server exactly when the link meets `SameServer`.

A link that is not a vmess link is cut at its `#` before it is marked, and host and port
are searched in all of it: what is found behind the `#` is lost with the old fragment.

A vmess link whose payload is strictly decoded, changed and encoded again keeps its
members.  The others are cut at the `#` and marked there, and the decoder that reads a
server off them ignores bad bytes and takes the fragment for a part of the payload.  If
the payload closes itself that changes nothing; if it does not, nothing is read off the
marked copy.
-/
namespace ConfigManager

open Py Regex Base64

variable (env : Env)

/-- What is read off a link: its host and its port. -/
def server (config : Str) : Json × Option Int :=
  (extractHost env.floats config, extractPort env.floats config)

/-- No host and no port. -/
def noServer : Json × Option Int := (.null, none)

/-- **A record's two links denote one server**, the one it names. -/
structure Consistent (r : Record) : Prop where
  protocol : detectProtocol r.watermarkedConfig = detectProtocol r.rawConfig
  server : server env r.watermarkedConfig = server env r.rawConfig
  ownProtocol : r.protocol = detectProtocol r.rawConfig
  ownHost : r.host = extractHost env.floats r.rawConfig

/-- What stands between `vmess://` and the first `#`. -/
def payloadText (config : Str) : Str := (before '#' config).drop "vmess://".toList.length

/-- The payload is strictly decoded to an object that can be encoded again, whatever its
remark is set to. -/
def Rewritable (config : Str) : Prop :=
  ∃ ms, vmessData env.floats Utf8.decode config = some (.obj ms) ∧
    Json.encodable (.obj (Json.put (ofText "ps".toList) .null ms)) = true

/-- The watermark does not change what is read off a link. -/
def SameServer (config : Str) : Prop :=
  if isVmess config then
    Rewritable env config ∨ Closed (payloadText config) ∧ isAscii config ∨
      server env config = noServer ∧
        (Closed (payloadText config) → server env (before '#' config) = noServer)
  else
    (Found hostPattern config → Found hostPattern (before '#' config)) ∧
      ((extractPort env.floats config).isSome → Found portPattern (before '#' config))

variable {env} {c mark : Str}

/-! ## Links that name their server in the url -/

/-- The host and the port a url is searched for. -/
def urlServer (config : Str) : Json × Option Int :=
  (((searchGroup hostPattern config).map Json.text).getD .null,
    (searchGroup portPattern config).bind int)

theorem exists_urlScheme (h : isUrlLink c = true) :
    ∃ s ∈ schemes, ∃ t, c = s ++ t ∧ isVmess c = false := by
  simp only [isUrlLink, Bool.or_eq_true, List.isPrefixOf_iff_prefix] at h
  rcases h with (⟨t, rfl⟩ | ⟨t, rfl⟩) | ⟨t, rfl⟩
  · exact ⟨_, by decide, t, rfl, rfl⟩
  · exact ⟨_, by decide, t, rfl, rfl⟩
  · exact ⟨_, by decide, t, rfl, rfl⟩

theorem server_of_isUrlLink (hu : isUrlLink c = true) (hspace : NoSpace c) :
    server env c = urlServer c := by
  obtain ⟨-, -, -, -, hv⟩ := exists_urlScheme hu
  rw [server, extractHost, extractPort, strip_of_noSpace hspace, if_pos hu, hv]
  rfl

theorem noSpace_before (hspace : NoSpace c) : NoSpace (before '#' c) := fun _ hd =>
  hspace _ ((List.takeWhile_prefix _).mem hd)

/-- A link without whitespace is marked behind the part before its `#`. -/
theorem withFragment_eq (hspace : NoSpace c) :
    withFragment c mark = before '#' c ++ '#' :: Percent.quote mark := by
  rw [withFragment, normalized, strip_of_noSpace (noSpace_before hspace)]

theorem noSpace_withFragment (hspace : NoSpace c) : NoSpace (withFragment c mark) := by
  rw [withFragment_eq hspace]
  exact noSpace_append.mpr ⟨noSpace_before hspace,
    noSpace_cons.mpr ⟨by decide, Percent.noSpace_quote mark⟩⟩

/-- What a link is cut to still has its scheme. -/
theorem before_scheme {s : Str} (hs : s ∈ schemes) (t : Str) :
    before '#' (s ++ t) = s ++ before '#' t := by
  have hhash : ∀ s ∈ schemes, '#' ∉ s := by decide
  exact before_append (hhash s hs) t

theorem isUrlLink_withFragment (hu : isUrlLink c = true) (hspace : NoSpace c) :
    isUrlLink (withFragment c mark) = true := by
  rw [withFragment_eq hspace]
  simp only [isUrlLink, Bool.or_eq_true, List.isPrefixOf_iff_prefix] at hu ⊢
  rcases hu with (⟨t, rfl⟩ | ⟨t, rfl⟩) | ⟨t, rfl⟩
  · exact .inl (.inl ⟨_, by rw [before_scheme (by decide), List.append_assoc]⟩)
  · exact .inl (.inr ⟨_, by rw [before_scheme (by decide), List.append_assoc]⟩)
  · exact .inr ⟨_, by rw [before_scheme (by decide), List.append_assoc]⟩

/-- A marked url is searched up to its `#`. -/
theorem urlServer_withFragment (hspace : NoSpace c) :
    urlServer (withFragment c mark) = urlServer (before '#' c) := by
  have hcolon : ':' ∉ Percent.quote mark := Percent.notMem_quote (by decide) (by decide) _
  rw [withFragment_eq hspace, urlServer, urlServer,
    searchGroup_host_append_of_noColon (by simpa using hcolon),
    searchGroup_port_append_of_noColon (notMem_before '#' c) (noSpace_before hspace) hcolon]

theorem host_before_iff :
    (urlServer (before '#' c)).1 = (urlServer c).1 ↔
      (Found hostPattern c → Found hostPattern (before '#' c)) := by
  obtain ⟨t, ht⟩ : ∃ t, c = before '#' c ++ t := ⟨_, (List.takeWhile_append_dropWhile).symm⟩
  by_cases hb : Found hostPattern (before '#' c)
  · have h := searchGroup_host_append hb t
    rw [← ht] at h
    simp [urlServer, h, hb]
  · have hnone : searchGroup hostPattern (before '#' c) = none := by
      simpa [found_host_iff] using hb
    cases hc : searchGroup hostPattern c <;>
      simp [urlServer, hnone, found_host_iff, hc, Json.text]

theorem port_before_iff (hspace : NoSpace c) :
    (urlServer (before '#' c)).2 = (urlServer c).2 ↔
      ((urlServer c).2.isSome → Found portPattern (before '#' c)) := by
  by_cases hb : Found portPattern (before '#' c)
  · refine ⟨fun _ _ => hb, fun _ => ?_⟩
    obtain h | h := eq_before_or '#' c
    · rw [← h]
    · have happ := searchGroup_port_append (notMem_before '#' c) (noSpace_before hspace) hb
        (after '#' c)
      rw [← h] at happ
      rw [urlServer, urlServer, happ]
  · have hnone : (urlServer (before '#' c)).2 = none := by
      rw [urlServer, searchGroup_port_of_not hb]
      rfl
    rw [hnone]
    cases (urlServer c).2 <;> simp [hb]

/-- **A url link and its marked copy** name one server exactly when nothing is found
behind the `#` only. -/
theorem server_url_iff (hu : isUrlLink c = true) (hspace : NoSpace c) :
    server env (withFragment c mark) = server env c ↔ SameServer env c := by
  obtain ⟨-, -, -, -, hv⟩ := exists_urlScheme hu
  have hserver : server env c = urlServer c := server_of_isUrlLink hu hspace
  have hport : extractPort env.floats c = (urlServer c).2 := congrArg Prod.snd hserver
  rw [SameServer, if_neg (by simp [hv]), hport, ← host_before_iff, ← port_before_iff hspace,
    server_of_isUrlLink (isUrlLink_withFragment hu hspace) (noSpace_withFragment hspace),
    server_of_isUrlLink hu hspace, urlServer_withFragment hspace, Prod.ext_iff]

/-! ## Vmess links -/

variable (env) in
/-- The server a payload names. -/
def serverOf (data : Option Json) : Json × Option Int :=
  ((data.bind (dataGet "add".toList)).getD .null,
    (data.bind (dataGet "port".toList)).bind fun port =>
      if truthy port then intOf env.floats port else none)

theorem server_of_isVmess (hv : isVmess c = true) (hspace : NoSpace c) :
    server env c = serverOf env (vmessData env.floats lenient c) := by
  have hu : isUrlLink c = false := by
    obtain ⟨t, rfl⟩ := isVmess_iff.mp hv
    rfl
  rw [server, extractHost, extractPort, strip_of_noSpace hspace, if_pos hv, if_pos hv]
  simp only [hu]
  rfl

/-- Where the strict decoder reads a payload the lenient one reads the same. -/
theorem vmessData_lenient {F : Json.Floats} {v : Json} (h : vmessData F Utf8.decode c = some v) :
    vmessData F lenient c = some v := by
  obtain ⟨bytes, hbytes, h⟩ := Option.bind_eq_some_iff.mp h
  obtain ⟨text, htext, h⟩ := Option.bind_eq_some_iff.mp h
  rw [vmessData, hbytes, Option.bind_some, lenient, Utf8.decodeIgnore_of_decode htext,
    Option.bind_some, h]

/-- The remark is neither the host nor the port. -/
theorem serverOf_withRemark (x : Json) (ms : List (JStr × Json)) :
    serverOf env (some (.obj (Json.put (ofText "ps".toList) x ms))) =
      serverOf env (some (.obj ms)) := by
  have hadd : ofText "add".toList ≠ ofText "ps".toList := by decide
  have hport : ofText "port".toList ≠ ofText "ps".toList := by decide
  simp only [serverOf, Option.bind_some, dataGet, Json.get?_put_ne hadd, Json.get?_put_ne hport]

theorem rewritable_iff (hv : isVmess c = true) :
    Rewritable env c ↔ ∃ ms, Rewritten env c mark ms := by
  have henc : ∀ ms, Json.encodable (.obj (Json.put (ofText "ps".toList) .null ms)) =
      Json.encodable (withRemark (Json.text mark) ms) := by
    intro ms
    rw [Json.encodable, withRemark, Json.encodable]
    exact Json.encodableMembers_put rfl (Json.encodable_text mark) ms
  simp only [Rewritable, Rewritten, hv, true_and, henc]

/-- **A payload written again** names the server it named. -/
theorem server_of_rewritten {d : Str} {ms : List (JStr × Json)} (hspace : NoSpace c)
    (h : Rewritten env c mark ms) (hd : vmessLink (withRemark (Json.text mark) ms) = some d) :
    server env d = server env c := by
  obtain ⟨hv, hdata, -⟩ := h
  rw [server_of_isVmess (isVmess_vmessLink hd) (noSpace_vmessLink hd), server_of_isVmess hv hspace,
    vmessData_lenient hdata,
    vmessData_vmessLink lenient_encode (Json.wf_put (wf_vmessData hdata) (Json.wf_text mark)) hd,
    serverOf_withRemark]

theorem serverOf_none : serverOf env none = noServer := rfl

theorem isAscii_of_isPayload {p : Str} (hp : ∀ d ∈ p, isPayload d = true) : isAscii p = true := by
  rw [isAscii, List.all_eq_true]
  intro d hd
  have h := hp d hd
  simp only [isPayload, Bool.or_eq_true, Bool.and_eq_true, decide_eq_true_eq, beq_iff_eq] at h
  simp only [decide_eq_true_eq]
  omega

/-- The parts of a vmess link. -/
theorem before_payload {p f : Str} (hp : ∀ d ∈ p, isPayload d = true)
    (hf : f = [] ∨ ∃ r, f = '#' :: r) :
    before '#' ("vmess://".toList ++ (p ++ f)) = "vmess://".toList ++ p ∧
      payloadText ("vmess://".toList ++ (p ++ f)) = p := by
  have hhash : '#' ∉ p := fun h => by simpa [isPayload] using hp '#' h
  have hbefore : before '#' ("vmess://".toList ++ (p ++ f)) = "vmess://".toList ++ p := by
    rw [before_scheme (by decide)]
    rcases hf with rfl | ⟨r, rfl⟩
    · rw [List.append_nil, before_of_notMem hhash]
    · rw [before_append_cons hhash]
  refine ⟨hbefore, ?_⟩
  rw [payloadText, hbefore, List.drop_left]

/-- What a closed payload names does not depend on what is behind it. -/
theorem server_closed {p t : Str} (hp : ∀ d ∈ p, isPayload d = true) (hc : Closed p)
    (hspace : NoSpace ("vmess://".toList ++ (p ++ t))) :
    server env ("vmess://".toList ++ (p ++ t)) =
      if isAscii t then server env ("vmess://".toList ++ p) else noServer := by
  have hpt := (noSpace_append.mp hspace).2
  have hpspace : NoSpace (p ++ []) := by simpa using (noSpace_append.mp hpt).1
  have hfull := vmessData_closed (F := env.floats) lenient (isAscii_of_isPayload hp) hpt hc
  have hcut := vmessData_closed (F := env.floats) lenient (isAscii_of_isPayload hp) hpspace hc
  rw [List.append_nil, if_pos (show isAscii [] = true from rfl)] at hcut
  rw [server_of_isVmess (isVmess_scheme _) hspace, hfull,
    server_of_isVmess (isVmess_scheme _)
      (noSpace_append.mpr ⟨noSpace_scheme, by simpa using hpspace⟩),
    hcut]
  split <;> rfl

/-- **A vmess link and its marked copy**, where the payload is not written again: they name
one server if the payload closes itself, and none if the mark is read with it. -/
theorem server_vmess_iff (hmatch : FullMatch configPattern c) (hv : isVmess c = true)
    (hno : ¬Rewritable env c)
    (hmark : Closed (payloadText c) ∨ DecodesToControl (Percent.quote mark)) :
    server env (withFragment c mark) = server env c ↔ SameServer env c := by
  have hspace := noSpace_of_fullMatch hmatch
  have hmarked : NoSpace (withFragment c mark) := noSpace_withFragment hspace
  obtain ⟨p, f, rfl, hp, hf⟩ := exists_payload hmatch hv
  obtain ⟨hbefore, hpayload⟩ := before_payload hp hf
  rw [withFragment_eq hspace, hbefore, List.append_assoc] at hmarked
  rw [hpayload] at hmark
  rw [SameServer, if_pos hv, or_iff_right hno, hpayload, hbefore, withFragment_eq hspace, hbefore,
    List.append_assoc]
  -- A payload that closes itself hides what follows, unless that is not ASCII.
  by_cases hc : Closed p
  · have hascii : isAscii ("vmess://".toList ++ (p ++ f)) = isAscii f := by
      rw [isAscii_append, isAscii_append, isAscii_of_isPayload hp]
      rfl
    have hquote : isAscii ('#' :: Percent.quote mark) = true := by
      rw [← List.singleton_append, isAscii_append, isAscii_quote]
      rfl
    rw [server_closed hp hc hmarked, if_pos hquote, server_closed hp hc hspace, hascii]
    by_cases hf : isAscii f = true
    · simp [hf, hc]
    · simp [hf, hc]
  · have hnone := vmessData_mark (F := env.floats)
      (noSpace_append.mp (noSpace_append.mp hspace).2).1 hc (hmark.resolve_left hc)
    rw [server_of_isVmess (isVmess_scheme _) hmarked, hnone, serverOf_none]
    simp only [hc, false_and, false_or, IsEmpty.forall_iff, and_true]
    exact eq_comm

/-! ## Records -/

variable (env) in
/-- No watermark of the country code can be read as a part of the payload: the code is
ASCII, or there is no payload that is open and not written again. -/
def MarkApart (config countryCode : Str) : Prop :=
  isAscii countryCode ∨
    (isVmess config → Rewritable env config ∨ Closed (payloadText config))

/-- The marked link names the server of the link. -/
theorem server_injected_iff {code marked : Str} (hmatch : FullMatch configPattern c)
    (hapart : MarkApart env c code) (h : injectWatermark env c code = some marked) :
    server env marked = server env c ↔ SameServer env c := by
  obtain ⟨mark, hmark, h⟩ := Option.map_eq_some_iff.mp h
  have hspace := noSpace_of_fullMatch hmatch
  -- A vmess link is written again with the mark in it, or gets it as its remark.
  by_cases hv : isVmess c = true
  · by_cases hre : Rewritable env c
    · obtain ⟨ms, hms⟩ : ∃ ms, Rewritten env c mark ms := (rewritable_iff hv).mp hre
      obtain ⟨d, hd, hinj⟩ := injected_of_rewritten hms
      obtain rfl : d = marked := hinj.symm.trans h
      rw [SameServer, if_pos hv]
      exact ⟨fun _ => .inl hre, fun _ => server_of_rewritten hspace hms hd⟩
    · have hno : ∀ ms, ¬Rewritten env c mark ms := fun ms hms =>
        hre ((rewritable_iff hv).mpr ⟨ms, hms⟩)
      rw [injected_of_not hno] at h
      subst h
      refine server_vmess_iff hmatch hv hre ?_
      rcases hapart with hcode | hclosed
      · exact .inr (exists_control hcode hmark)
      · exact .inl ((hclosed hv).resolve_left hre)
  · have hno : ∀ ms, ¬Rewritten env c mark ms := fun ms hms => hv hms.1
    rw [injected_of_not hno] at h
    subst h
    exact server_url_iff ((isVmess_or_isUrlLink hmatch).resolve_left hv) hspace

/-- The mark leaves the scheme alone. -/
theorem detectProtocol_injected {code marked : Str} (hmatch : FullMatch configPattern c)
    (h : injectWatermark env c code = some marked) : detectProtocol marked = detectProtocol c := by
  obtain ⟨mark, -, h⟩ := Option.map_eq_some_iff.mp h
  by_cases hno : ∀ ms, ¬Rewritten env c mark ms
  · rw [injected_of_not hno, withFragment_eq (noSpace_of_fullMatch hmatch)] at h
    subst h
    obtain ⟨s, hs, t, rfl⟩ := exists_scheme hmatch
    rw [before_scheme hs, List.append_assoc, detectProtocol_append hs, detectProtocol_append hs]
  · obtain ⟨ms, hms⟩ := not_forall_not.mp hno
    obtain ⟨d, hd, hinj⟩ := injected_of_rewritten hms
    obtain rfl : d = marked := hinj.symm.trans h
    obtain ⟨-, rfl⟩ := vmessLink_eq_some.mp hd
    obtain ⟨t, rfl⟩ := isVmess_iff.mp hms.1
    rw [detectProtocol_append (by decide), detectProtocol_append (by decide)]

theorem consistent_of_recordOf {country : Country} {r : Record}
    (hmatch : FullMatch configPattern c) (hr : recordOf env c country = some r)
    (hapart : MarkApart env c r.countryCode) : Consistent env r ↔ SameServer env c := by
  obtain ⟨code, -, hr⟩ := Option.bind_eq_some_iff.mp hr
  obtain ⟨marked, hmarked, rfl⟩ := Option.map_eq_some_iff.mp hr
  rw [← server_injected_iff hmatch hapart hmarked]
  exact ⟨fun h => h.server, fun h => ⟨detectProtocol_injected hmatch hmarked, h, rfl, rfl⟩⟩

/-- **Exactly the links whose records are consistent.**  Whatever `validate_one` returns for
a link of the pattern is consistent if the link meets `SameServer` and its mark stands apart,
and a record with an ASCII country code is consistent only then. -/
theorem consistent_iff (env : Env) (v : Validator) (checkPing : Bool) (task : Task) (w : Wake)
    (r : Record) (hmatch : FullMatch configPattern task.config)
    (hret : (v.wake env checkPing task w).map Prod.snd = some (.finished (some r))) :
    (SameServer env task.config ∧ MarkApart env task.config r.countryCode → Consistent env r) ∧
      (MarkApart env task.config r.countryCode → Consistent env r →
        SameServer env task.config) := by
  obtain ⟨⟨v', stage⟩, hwake, rfl⟩ := Option.map_eq_some_iff.mp hret
  obtain ⟨country, hout, -⟩ := Validator.wake_outcome hwake
  cases hout with
  | quiet hrec => cases hrec
  | passed hcountry hr =>
    exact ⟨fun h => (consistent_of_recordOf hmatch hr h.2).mpr h.1,
      fun hapart h => (consistent_of_recordOf hmatch hr hapart).mp h⟩

/-- The task of a link that awaits its country. -/
def locatingTask (config : Str) : Task := ⟨config, .locating⟩

/-- What the validator returns for the sample link. -/
def sampleRecord : Record :=
  ⟨sampleLink, markedSample, configHash sampleLink, "DE".toList, .vless, Json.text "h".toList⟩

theorem consistent_sample :
    (SameServer Env.sample sampleLink ∧ MarkApart Env.sample sampleLink "DE".toList →
        Consistent Env.sample sampleRecord) ∧
      (MarkApart Env.sample sampleLink "DE".toList → Consistent Env.sample sampleRecord →
        SameServer Env.sample sampleLink) :=
  consistent_iff Env.sample .new true (locatingTask sampleLink) (.located (some "DE".toList))
    sampleRecord (by decide +kernel) (by decide +kernel)

/-- The payload is `{"add":"h","port":1,"ps":"a…"}` with a byte `FF` for the dots. -/
def badByteLink : Str := "vmess://eyJhZGQiOiJoIiwicG9ydCI6MSwicHMiOiJh/yJ9".toList

/-- No server is read off the marked copy. -/
theorem not_consistent_badByte :
    FullMatch configPattern badByteLink ∧
      ∃ r, (Validator.new.wake Env.sample true (locatingTask badByteLink)
          (.located (some "DE".toList))).map Prod.snd = some (.finished (some r)) ∧
        r.host = Json.text "h".toList ∧ ¬Consistent Env.sample r := by
  refine ⟨by decide +kernel, ⟨badByteLink,
    (injectWatermark Env.sample badByteLink "DE".toList).getD [], configHash badByteLink,
    "DE".toList, .vmess, Json.text "h".toList⟩, by decide +kernel, rfl, fun h => ?_⟩
  exact absurd h.server (by decide +kernel)

end ConfigManager
