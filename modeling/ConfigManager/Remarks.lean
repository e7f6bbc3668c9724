import ConfigManager.RecordConsistency

/-! # The server of a link and its remark

`config_hash` leaves the remark out: links that differ in nothing else are to be one
server.  But host and port are read off the whole link.  The two patterns are searched
behind the `#` too, and the decoder of a vmess link takes the fragment for a part of
the payload.

A remark is *harmless* if it shows neither of them a server: a url names no host and no
readable port only there, and what a payload is decoded to stays the same JSON value
(`RemarkHarmless`).  The server of a link is that of the part before its `#` exactly
then, and two links of one hash whose remarks are harmless have one server
(`remark_ignored_iff`).
-/
namespace ConfigManager

open Py Regex Base64

variable {env : Env} {c d s v ds : Str}

/-! ## What a url names -/

/-- An `@` and a colon, with something between them. -/
def NamesHost (s : Str) : Prop :=
  ∃ u a y, s = u ++ '@' :: (a ++ ':' :: y) ∧ a ≠ [] ∧ ':' ∉ a

theorem found_host_iff_names : Found hostPattern s ↔ NamesHost s := by
  constructor
  · intro h
    obtain ⟨m, hm⟩ := Option.isSome_iff_exists.mp h
    obtain ⟨u, v, rfl, hv⟩ := exists_of_search hm
    obtain ⟨a, y, rfl, hne, hc, -⟩ := match?_host.mp hv
    exact ⟨u, a, y, rfl, hne, hc⟩
  · rintro ⟨u, a, y, rfl, hne, hc⟩
    have hmatch := match?_host.mpr ⟨a, y, rfl, hne, hc, rfl⟩
    apply search_isSome_append
    rw [search_of_match hmatch]
    rfl

/-- A text that starts with the port `ds`. -/
def PortAt (ds v : Str) : Prop :=
  ∃ t, v = ':' :: (ds ++ t) ∧ ds ≠ [] ∧ (∀ d ∈ ds, isDecimal d = true) ∧ PortEnd t

/-- A port somewhere. -/
def NamesPort (s : Str) : Prop := ∃ u v ds, s = u ++ v ∧ PortAt ds v

/-- `ds` is the first port. -/
def FirstPort (ds s : Str) : Prop :=
  ∃ u v, s = u ++ v ∧ PortAt ds v ∧
    ∀ u' v' ds', s = u' ++ v' → PortAt ds' v' → u.length ≤ u'.length

/-- The first port has no more digits than `int` converts. -/
def ReadsPort (s : Str) : Prop := ∃ ds, FirstPort ds s ∧ ds.length ≤ maxStrDigits

theorem match?_port :
    (∃ m, portPattern.match? v = some m ∧ m.group = some ds) ↔ PortAt ds v := by
  rw [← Option.map_eq_some_iff, group_port]
  constructor
  · rintro ⟨ds', t, hv, hne, hds, ht, he⟩
    obtain rfl := Option.some.inj he
    exact ⟨t, hv, hne, hds, ht⟩
  · rintro ⟨t, hv, hne, hds, ht⟩
    exact ⟨ds, t, hv, hne, hds, ht, rfl⟩

/-- Where the pattern matches there is a port. -/
theorem exists_portAt {m : Match} (h : portPattern.match? v = some m) :
    ∃ ds, PortAt ds v ∧ m.group = some ds := by
  obtain ⟨ds, t, hv, hne, hds, ht, hg⟩ := group_port.mp (congrArg (Option.map Match.group) h)
  exact ⟨ds, ⟨t, hv, hne, hds, ht⟩, hg⟩

theorem found_port_iff_names : Found portPattern s ↔ NamesPort s := by
  constructor
  · intro h
    obtain ⟨m, hm⟩ := Option.isSome_iff_exists.mp h
    obtain ⟨u, v, rfl, hv⟩ := exists_of_search hm
    obtain ⟨ds, hds, -⟩ := exists_portAt hv
    exact ⟨u, v, ds, rfl, hds⟩
  · rintro ⟨u, v, ds, rfl, hds⟩
    obtain ⟨m, hm, -⟩ := match?_port.mpr hds
    apply search_isSome_append
    rw [search_of_match hm]
    rfl

/-- **The port that is searched** is the first one. -/
theorem searchGroup_port_iff : searchGroup portPattern s = some ds ↔ FirstPort ds s := by
  rw [searchGroup, Option.bind_eq_some_iff]
  constructor
  · rintro ⟨m, hm, hg⟩
    obtain ⟨u, v, rfl, hv, hfirst⟩ := search_eq_some_iff.mp hm
    refine ⟨u, v, rfl, match?_port.mp ⟨m, hv, hg⟩, ?_⟩
    intro u' v' ds' hs hds'
    by_contra hlt
    obtain ⟨n, hn, -⟩ := match?_port.mpr hds'
    rw [hfirst u' v' hs (Nat.lt_of_not_le hlt)] at hn
    cases hn
  · rintro ⟨u, v, rfl, hds, hfirst⟩
    obtain ⟨m, hm, hg⟩ := match?_port.mpr hds
    refine ⟨m, search_eq_some_iff.mpr ⟨u, v, rfl, hm, ?_⟩, hg⟩
    intro u' v' hs hlt
    rw [Option.eq_none_iff_forall_ne_some]
    intro n hn
    obtain ⟨ds', hds', -⟩ := exists_portAt hn
    exact absurd (hfirst u' v' ds' hs hds') (Nat.not_le_of_lt hlt)

theorem port_isSome_iff : (urlServer s).2.isSome ↔ ReadsPort s := by
  have hread : (urlServer s).2 = (searchGroup portPattern s).bind int := rfl
  constructor
  · intro h
    rw [hread, Option.isSome_bind, Option.any_eq_true] at h
    obtain ⟨ds, hds, hint⟩ := h
    have hfirst := searchGroup_port_iff.mp hds
    obtain ⟨u, v, -, ⟨t, -, hne, hdec, -⟩, -⟩ := id hfirst
    exact ⟨ds, hfirst, (int_isSome_iff hne hdec).mp hint⟩
  · rintro ⟨ds, hfirst, hlen⟩
    obtain ⟨u, v, -, ⟨t, -, hne, hdec, -⟩, -⟩ := id hfirst
    rw [hread, searchGroup_port_iff.mpr hfirst, Option.bind_some]
    exact (int_isSome_iff hne hdec).mpr hlen

/-! ## What a payload names -/

/-- The text a payload is decoded to, with what stands behind it in the link. -/
def decodedText (config : Str) : Option Str :=
  (b64decode (vmessRaw config)).map Utf8.decodeIgnore

variable (env) in
/-- A JSON object with a host, or with a port the program can read. -/
def NamesServer (text : Str) : Prop :=
  ∃ ms, Json.loads env.floats text = some (.obj ms) ∧
    ((Json.get? (ofText "add".toList) ms).getD .null ≠ .null ∨
      ∃ port, Json.get? (ofText "port".toList) ms = some port ∧ truthy port = true ∧
        (intOf env.floats port).isSome)

variable (env) in
/-- The server a decoded text names, if there is a text. -/
def textServer (text : Option Str) : Json × Option Int :=
  serverOf env (text.bind (Json.loads env.floats))

theorem server_eq_textServer (hv : isVmess c = true) (hspace : NoSpace c) :
    server env c = textServer env (decodedText c) := by
  rw [server_of_isVmess hv hspace, textServer, decodedText, vmessData, Option.bind_map]
  rfl

theorem serverOf_obj_ne_iff {ms : List (JStr × Json)} :
    serverOf env (some (.obj ms)) ≠ noServer ↔
      (Json.get? (ofText "add".toList) ms).getD .null ≠ .null ∨
        ∃ port, Json.get? (ofText "port".toList) ms = some port ∧ truthy port = true ∧
          (intOf env.floats port).isSome := by
  have hport : (serverOf env (some (.obj ms))).2 ≠ none ↔
      ∃ port, Json.get? (ofText "port".toList) ms = some port ∧ truthy port = true ∧
        (intOf env.floats port).isSome := by
    simp only [serverOf, Option.bind_some, dataGet]
    cases hp : Json.get? (ofText "port".toList) ms with
    | none => simp [truthy]
    | some port =>
      by_cases ht : truthy port = true
      · simp [ht, Option.ne_none_iff_isSome]
      · simp [ht]
  have hhost : (serverOf env (some (.obj ms))).1 =
      (Json.get? (ofText "add".toList) ms).getD .null := rfl
  rw [noServer, Ne, Prod.ext_iff, not_and_or, ← hport, hhost]

theorem namesServer_iff {text : Option Str} :
    (∃ t, text = some t ∧ NamesServer env t) ↔ textServer env text ≠ noServer := by
  constructor
  · rintro ⟨t, rfl, ms, hms, hnamed⟩
    rw [textServer, Option.bind_some, hms]
    exact serverOf_obj_ne_iff.mpr hnamed
  · intro h
    cases text with
    | none => exact absurd serverOf_none h
    | some t =>
      rw [textServer, Option.bind_some] at h
      cases hv : Json.loads env.floats t with
      | none => exact absurd (by rw [hv]; rfl) h
      | some v =>
        rw [hv] at h
        cases v with
        | obj ms => exact ⟨t, rfl, ms, hv, serverOf_obj_ne_iff.mp h⟩
        | _ => exact absurd rfl h

/-- **A fragment only adds to what the payload is decoded to.** -/
theorem decodedText_append {p f a t : Str} (hspace : NoSpace (p ++ f))
    (ha : decodedText ("vmess://".toList ++ p) = some a)
    (ht : decodedText ("vmess://".toList ++ (p ++ f)) = some t) : ∃ x, t = a ++ x := by
  obtain ⟨bs, hbs, rfl⟩ := Option.map_eq_some_iff.mp ha
  obtain ⟨out, hout, rfl⟩ := Option.map_eq_some_iff.mp ht
  have hp : NoSpace p := (noSpace_append.mp hspace).1
  obtain ⟨k, hk⟩ := pad_append p []
  obtain ⟨l, hl⟩ := pad_append p f
  rw [List.append_nil, List.nil_append] at hk
  rw [vmessRaw_scheme, strip_of_noSpace hp, hk] at hbs
  rw [vmessRaw_scheme, strip_of_noSpace hspace, hl] at hout
  -- The padding of the payload alone writes no byte.
  have hbytes : (Decoder.start.feed p).1 = bs := by
    have hfeed := feed_of_b64decode hbs
    cases hend : (Decoder.start.feed p).2 with
    | none => rwa [Decoder.feed_append_of_ended hend] at hfeed
    | some d =>
      rwa [Decoder.feed_append hend, Decoder.feed_replicate_pad, List.append_nil] at hfeed
  obtain ⟨more, hmore⟩ := Decoder.exists_feed_append .start p (f ++ List.replicate l '=')
  rw [feed_of_b64decode hout, hbytes] at hmore
  rw [hmore]
  exact Utf8.decodeIgnore_append bs more

/-! ## Harmless remarks -/

variable (env) in
/-- **The remark shows no server.**  What a url names it names before its `#`.  What a
vmess payload is decoded to gets nothing but whitespace from the fragment if it names a
server, and names one without the fragment if it does with it. -/
def RemarkHarmless (config : Str) : Prop :=
  if isVmess config then
    (∀ a, decodedText (before '#' config) = some a → NamesServer env a →
      ∃ x, decodedText config = some (a ++ x) ∧ ∀ w ∈ x, Json.isWs w = true) ∧
    (∀ t, decodedText config = some t → NamesServer env t →
      ∃ a, decodedText (before '#' config) = some a ∧ NamesServer env a)
  else
    (NamesHost config → NamesHost (before '#' config)) ∧
      (ReadsPort config → NamesPort (before '#' config))

theorem isUrlLink_before (hu : isUrlLink c = true) : isUrlLink (before '#' c) = true := by
  simp only [isUrlLink, Bool.or_eq_true, List.isPrefixOf_iff_prefix] at hu ⊢
  rcases hu with (⟨t, rfl⟩ | ⟨t, rfl⟩) | ⟨t, rfl⟩
  · exact .inl (.inl ⟨_, (before_scheme (by decide) t).symm⟩)
  · exact .inl (.inr ⟨_, (before_scheme (by decide) t).symm⟩)
  · exact .inr ⟨_, (before_scheme (by decide) t).symm⟩

theorem server_before_url_iff (hu : isUrlLink c = true) (hspace : NoSpace c) :
    server env c = server env (before '#' c) ↔ RemarkHarmless env c := by
  obtain ⟨-, -, -, -, hv⟩ := exists_urlScheme hu
  rw [RemarkHarmless, if_neg (by simp [hv]), server_of_isUrlLink hu hspace,
    server_of_isUrlLink (isUrlLink_before hu) (noSpace_before hspace), eq_comm, Prod.ext_iff,
    host_before_iff, port_before_iff hspace, found_host_iff_names, found_host_iff_names,
    found_port_iff_names, port_isSome_iff]

theorem server_before_vmess_iff (hmatch : FullMatch configPattern c) (hv : isVmess c = true) :
    server env c = server env (before '#' c) ↔ RemarkHarmless env c := by
  have hspace := noSpace_of_fullMatch hmatch
  rw [RemarkHarmless, if_pos hv]
  obtain ⟨p, f, rfl, hp, hf⟩ := exists_payload hmatch hv
  obtain ⟨hbefore, -⟩ := before_payload hp hf
  have hcut := noSpace_before hspace
  rw [hbefore] at hcut ⊢
  rw [server_eq_textServer hv hspace, server_eq_textServer (isVmess_scheme p) hcut]
  constructor
  · intro hsame
    constructor
    · intro a ha hnamed
      have hne := namesServer_iff.mp ⟨a, ha, hnamed⟩
      obtain ⟨t, ht, -⟩ := namesServer_iff.mpr (hsame ▸ hne)
      obtain ⟨x, rfl⟩ := decodedText_append (noSpace_append.mp hspace).2 ha ht
      refine ⟨x, ht, ?_⟩
      -- Anything else behind the object is an error, and an error names no server.
      obtain ⟨ms, hms, -⟩ := hnamed
      by_contra hws
      have hskip : Json.skipWs x ≠ [] := fun hnil => hws (List.dropWhile_eq_nil_iff.mp hnil)
      apply hne
      rw [← hsame, ht, textServer, Option.bind_some, Json.loads_append hms, if_neg hskip]
      rfl
    · intro t ht hnamed
      exact namesServer_iff.mpr (hsame ▸ namesServer_iff.mp ⟨t, ht, hnamed⟩)
  · rintro ⟨hkept, hshown⟩
    by_cases hnamed : ∃ a, decodedText ("vmess://".toList ++ p) = some a ∧ NamesServer env a
    · obtain ⟨a, ha, hnamed⟩ := hnamed
      obtain ⟨x, hx, hws⟩ := hkept a ha hnamed
      obtain ⟨ms, hms, -⟩ := hnamed
      have hskip : Json.skipWs x = [] := List.dropWhile_eq_nil_iff.mpr hws
      rw [ha, hx, textServer, textServer, Option.bind_some, Option.bind_some,
        Json.loads_append hms, if_pos hskip, hms]
    · have hnone : textServer env (decodedText ("vmess://".toList ++ p)) = noServer := by
        by_contra h
        exact hnamed (namesServer_iff.mpr h)
      rw [hnone]
      by_contra h
      obtain ⟨t, ht, ht'⟩ := namesServer_iff.mpr h
      exact hnamed (hshown t ht ht')

/-- **The server of a link is that of the part before its `#`** exactly if the remark is
harmless. -/
theorem server_before_iff (hmatch : FullMatch configPattern c) :
    server env c = server env (before '#' c) ↔ RemarkHarmless env c := by
  rcases isVmess_or_isUrlLink hmatch with hv | hu
  · exact server_before_vmess_iff hmatch hv
  · exact server_before_url_iff hu (noSpace_of_fullMatch hmatch)

/-- A remark without a colon names nothing in a url, whatever the program or anyone else
has written there. -/
theorem remarkHarmless_of_noColon (hu : isUrlLink c = true) (hspace : NoSpace c)
    (hcolon : ':' ∉ after '#' c) : RemarkHarmless env c := by
  apply (server_before_url_iff hu hspace).mp
  rw [server_of_isUrlLink hu hspace,
    server_of_isUrlLink (isUrlLink_before hu) (noSpace_before hspace)]
  obtain h | h := eq_before_or '#' c
  · rw [← h]
  · have hhost : searchGroup hostPattern (before '#' c ++ '#' :: after '#' c) =
        searchGroup hostPattern (before '#' c) :=
      searchGroup_host_append_of_noColon (by simpa using hcolon)
    have hport := searchGroup_port_append_of_noColon (notMem_before '#' c)
      (noSpace_before hspace) hcolon
    rw [← h] at hhost hport
    rw [urlServer, urlServer, hhost, hport]

/-- An ASCII remark behind a payload that closes itself is not read. -/
theorem remarkHarmless_of_closed (hmatch : FullMatch configPattern c) (hv : isVmess c = true)
    (hc : Closed (payloadText c)) (hascii : isAscii c = true) : RemarkHarmless env c := by
  apply (server_before_vmess_iff hmatch hv).mp
  have hspace := noSpace_of_fullMatch hmatch
  obtain ⟨p, f, rfl, hp, hf⟩ := exists_payload hmatch hv
  obtain ⟨hbefore, hpayload⟩ := before_payload hp hf
  rw [hpayload] at hc
  rw [isAscii_append, isAscii_append, Bool.and_eq_true, Bool.and_eq_true] at hascii
  rw [hbefore, server_closed hp hc hspace, if_pos hascii.2.2]

/-! ## Links of one hash -/

theorem detectProtocol_before (hmatch : FullMatch configPattern c) :
    detectProtocol (before '#' c) = detectProtocol c := by
  obtain ⟨s, hs, t, rfl⟩ := exists_scheme hmatch
  rw [before_scheme hs, detectProtocol_append hs, detectProtocol_append hs]

/-- Links of one hash are the same before their `#`. -/
theorem before_eq_of_configHash (hc : FullMatch configPattern c) (hd : FullMatch configPattern d)
    (hhash : configHash c = configHash d) (hno : ¬Collide (normalized c) (normalized d)) :
    before '#' c = before '#' d := by
  have hsame := (configHash_eq_iff.mp hhash).resolve_right hno
  rwa [normalized, normalized, strip_of_noSpace (noSpace_before (noSpace_of_fullMatch hc)),
    strip_of_noSpace (noSpace_before (noSpace_of_fullMatch hd))] at hsame

/-- **Exactly the links whose remark is ignored.**  Host and port of a link are those of the
part before its `#` if and only if its remark is harmless.  Two links of one hash have one
protocol; and where the remark of one is harmless, they have one host and one port if and
only if that of the other is, too. -/
theorem remark_ignored_iff (env : Env) (c : Str) (hc : FullMatch configPattern c) :
    (extractHost env.floats c = extractHost env.floats (before '#' c) ∧
        extractPort env.floats c = extractPort env.floats (before '#' c) ↔
      RemarkHarmless env c) ∧
    ∀ d, FullMatch configPattern d → configHash c = configHash d →
      ¬Collide (normalized c) (normalized d) →
      detectProtocol c = detectProtocol d ∧
        (RemarkHarmless env d →
          (extractHost env.floats c = extractHost env.floats d ∧
              extractPort env.floats c = extractPort env.floats d ↔
            RemarkHarmless env c)) := by
  have hcut : server env c = server env (before '#' c) ↔ RemarkHarmless env c :=
    server_before_iff hc
  refine ⟨by rw [← hcut, server, server, Prod.mk.injEq], ?_⟩
  intro d hd hhash hno
  have hbase := before_eq_of_configHash hc hd hhash hno
  refine ⟨by rw [← detectProtocol_before hc, hbase, detectProtocol_before hd], ?_⟩
  intro hharmless
  have hserver : server env d = server env (before '#' c) := by
    rw [hbase]
    exact (server_before_iff hd).mpr hharmless
  rw [← hcut, ← hserver, server, server, Prod.mk.injEq]

/-- The sample link with another remark. -/
def renamedLink : Str := "vless://u@h:443#b".toList

theorem remark_ignored_sample :
    RemarkHarmless Env.sample sampleLink ∧
      extractHost Env.sample.floats sampleLink = extractHost Env.sample.floats renamedLink ∧
      extractPort Env.sample.floats sampleLink = extractPort Env.sample.floats renamedLink := by
  obtain ⟨hiff, hsame⟩ := remark_ignored_iff Env.sample sampleLink (by decide +kernel)
  obtain ⟨hiff', -⟩ := remark_ignored_iff Env.sample renamedLink (by decide +kernel)
  have hharmless : RemarkHarmless Env.sample sampleLink := hiff.mp (by decide +kernel)
  obtain ⟨-, h⟩ := hsame renamedLink (by decide +kernel) (by decide +kernel)
    fun hcollide => hcollide.1 (by decide +kernel)
  exact ⟨hharmless, (h (hiff'.mp (by decide +kernel))).mpr hharmless⟩

/-- A link whose server is named by its remark only. -/
def fakeServerLink : Str := "ss://YTpi#@h:1".toList

/-- The payload is `{"add":"h","port":1}`; the remark is not ASCII. -/
def accentedLink : Str := "vmess://eyJhZGQiOiJoIiwicG9ydCI6MX0=#é".toList

theorem not_remark_ignored :
    (FullMatch configPattern fakeServerLink ∧ FullMatch configPattern (before '#' fakeServerLink) ∧
      configHash fakeServerLink = configHash (before '#' fakeServerLink) ∧
      normalized fakeServerLink = normalized (before '#' fakeServerLink) ∧
      server Env.sample fakeServerLink = (Json.text "h".toList, some 1) ∧
      server Env.sample (before '#' fakeServerLink) = noServer) ∧
    FullMatch configPattern accentedLink ∧ server Env.sample accentedLink = noServer ∧
      server Env.sample (before '#' accentedLink) = (Json.text "h".toList, some 1) := by
  decide +kernel

end ConfigManager
