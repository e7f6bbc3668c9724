import ConfigManager.VmessLinks

/-! # The remark and the hash

`config_hash` cuts a link at its first `#`.  That is the remark of a vless, trojan or
ss link, but a vmess link keeps its remark in the `ps` member of its payload, and the
payload is hashed.  So two vmess links that differ in the remark have different hashes,
and so have a vmess link and its watermarked copy, unless the link was written by the
program with this very watermark: `hash_of_remark_iff`.

Two texts with one MD5 are told apart from all this by `Collide`.
-/
namespace ConfigManager

open Py

variable {c d : Str}

theorem notMem_normalized (c : Str) : '#' ∉ normalized c := fun h =>
  notMem_before '#' c (mem_of_mem_strip h)

/-- A fragment added to a link is cut off again. -/
theorem normalized_withFragment (c mark : Str) :
    normalized (withFragment c mark) = normalized c := by
  rw [withFragment, normalized, before_append_cons (notMem_normalized c), normalized, strip_strip]

/-! ## Vmess links with a remark -/

/-- The members of a payload with a remark. -/
abbrev withRemark (remark : Json) (ms : List (JStr × Json)) : Json :=
  .obj (Json.put (ofText "ps".toList) remark ms)

/-- A way to write vmess links that the program reads: whatever layout the JSON text
and whatever padding the payload has. -/
structure VmessWriter (F : Json.Floats) where
  link : Json → Option Str
  /-- There is no remark and no whitespace to cut off. -/
  normalized_link : ∀ {v c}, link v = some c → normalized c = c
  /-- The program reads the value that was written. -/
  vmessData_link : ∀ {v c}, Json.WF F v → link v = some c → vmessData F Utf8.decode c = some v

/-- The program's own way to write them. -/
def VmessWriter.dumps (F : Json.Floats) : VmessWriter F where
  link := vmessLink
  normalized_link := normalized_vmessLink
  vmessData_link := vmessData_vmessLink Utf8.decode_encode

theorem withRemark_injective {x y : Json} {ms : List (JStr × Json)}
    (h : withRemark x ms = withRemark y ms) : x = y := by
  have hget := congrArg (Json.get? (ofText "ps".toList)) (Json.obj.inj h)
  simpa [Json.get?_put_self] using hget

/-- Two links written alike from payloads with different remarks differ in their hashes. -/
theorem hash_written_iff {F : Json.Floats} (W : VmessWriter F) {ms : List (JStr × Json)}
    {x y : Json} (hms : Json.WF F (.obj ms)) (hx : Json.WF F x) (hy : Json.WF F y)
    (hc : W.link (withRemark x ms) = some c) (hd : W.link (withRemark y ms) = some d) :
    configHash c = configHash d ↔ x = y ∨ Collide c d := by
  rw [configHash_eq_iff, W.normalized_link hc, W.normalized_link hd]
  refine or_congr_left ⟨fun h => ?_, fun h => ?_⟩
  · subst h
    have hread := W.vmessData_link (Json.wf_put hms hx) hc
    rw [W.vmessData_link (Json.wf_put hms hy) hd] at hread
    exact (withRemark_injective (Option.some.inj hread)).symm
  · subst h
    exact Option.some.inj (hc.symm.trans hd)

/-! ## The watermark -/

variable (env : Env)

/-- The payload of a link is read, and can be written with the watermark. -/
def Rewritten (c mark : Str) (ms : List (JStr × Json)) : Prop :=
  isVmess c = true ∧ vmessData env.floats Utf8.decode c = some (.obj ms) ∧
    Json.encodable (withRemark (Json.text mark) ms) = true

/-- The link was written by the program with this watermark, a fragment apart. -/
def Carries (c mark : Str) (ms : List (JStr × Json)) : Prop :=
  Json.get? (ofText "ps".toList) ms = some (Json.text mark) ∧
    vmessLink (.obj ms) = some (normalized c)

variable {env} {mark : Str} {ms : List (JStr × Json)}

/-- Where no payload is rewritten, the watermark is a fragment. -/
theorem injected_of_not (h : ∀ ms, ¬Rewritten env c mark ms) :
    (if isVmess c then watermarkVmess env c mark else withFragment c mark) =
      withFragment c mark := by
  split
  next hv =>
    rw [watermarkVmess]
    cases hr : rewriteVmess env c mark with
    | none => rfl
    | some d =>
      obtain ⟨v, hdata, hd⟩ := Option.bind_eq_some_iff.mp hr
      obtain ⟨w, hw, hd⟩ := Option.bind_eq_some_iff.mp hd
      cases v with
      | obj ms =>
        cases hw
        exact absurd ⟨hv, hdata, (vmessLink_eq_some.mp hd).1⟩ (h ms)
      | _ => cases hw
  next => rfl

/-- A payload that is rewritten gives a link the program writes. -/
theorem injected_of_rewritten (h : Rewritten env c mark ms) :
    ∃ d, vmessLink (withRemark (Json.text mark) ms) = some d ∧
      (if isVmess c then watermarkVmess env c mark else withFragment c mark) = d := by
  obtain ⟨hv, hdata, he⟩ := h
  have hd := vmessLink_eq_some.mpr ⟨he, rfl⟩
  refine ⟨_, hd, ?_⟩
  rw [if_pos hv, watermarkVmess, rewriteVmess, hdata, Option.bind_some]
  change ((some (withRemark _ ms)).bind vmessLink).getD _ = _
  rw [Option.bind_some, hd, Option.getD_some]

/-- **When a watermarked copy has the hash of its link.**  The payload is not rewritten,
or rewriting it gives the text that was there. -/
theorem hash_injected_iff {countryCode marked : Str} (hm : watermark env countryCode = some mark)
    (h : injectWatermark env c countryCode = some marked) :
    configHash marked = configHash c ↔
      (∀ ms, Rewritten env c mark ms → Carries c mark ms) ∨
        Collide (normalized marked) (normalized c) := by
  rw [injectWatermark, hm, Option.map_some, Option.some_inj] at h
  rw [configHash_eq_iff]
  refine or_congr_left ?_
  by_cases hno : ∀ ms, ¬Rewritten env c mark ms
  · rw [injected_of_not hno] at h
    subst h
    exact ⟨fun _ ms hms => absurd hms (hno ms), fun _ => normalized_withFragment c mark⟩
  · obtain ⟨ms, hms⟩ := not_forall_not.mp hno
    obtain ⟨d, hd, hmarked⟩ := injected_of_rewritten hms
    obtain rfl : d = marked := hmarked.symm.trans h
    rw [normalized_vmessLink hd]
    have hv := hms.1
    have hdata := hms.2.1
    constructor
    · rintro rfl ms' ⟨-, hdata', -⟩
      obtain rfl : ms = ms' := Json.obj.inj (Option.some.inj (hdata.symm.trans hdata'))
      -- The text that was there is read as the payload with the watermark.
      have hput : ms = Json.put (ofText "ps".toList) (Json.text mark) ms := Json.obj.inj
        (eq_of_normalized (Json.wf_put (wf_vmessData hdata) (Json.wf_text mark)) hd hv hdata)
      have hget := Json.get?_put_self (ofText "ps".toList) (Json.text mark) ms
      rw [withRemark, ← hput] at hd
      rw [← hput] at hget
      exact ⟨hget, hd⟩
    · intro hcarries
      obtain ⟨hget, hlink⟩ := hcarries ms hms
      rw [withRemark, Json.put_of_get? hget] at hd
      exact Option.some.inj (hd.symm.trans hlink)

/-- **Exactly the remarks the hash ignores.**  A fragment always; between two vmess links
written alike, none but equal ones; and a watermark where no payload is rewritten, or
where the link already carries it. -/
theorem hash_of_remark_iff (env : Env) :
    (∀ base r, '#' ∉ base → configHash (base ++ '#' :: r) = configHash base) ∧
    (∀ (W : VmessWriter env.floats) ms x y c d, Json.WF env.floats (.obj ms) →
      Json.WF env.floats x → Json.WF env.floats y → W.link (withRemark x ms) = some c →
      W.link (withRemark y ms) = some d → (configHash c = configHash d ↔ x = y ∨ Collide c d)) ∧
    ∀ c countryCode mark marked, watermark env countryCode = some mark →
      injectWatermark env c countryCode = some marked →
        (configHash marked = configHash c ↔
          (∀ ms, Rewritten env c mark ms → Carries c mark ms) ∨
            Collide (normalized marked) (normalized c)) :=
  ⟨fun _ r h => configHash_fragment h r, fun W _ _ _ _ _ => hash_written_iff W,
    fun _ _ _ _ => hash_injected_iff⟩

/-- The links written from `{"add": "h", "ps": "a"}` and `{"add": "h", "ps": "b"}`. -/
def sampleVmess (remark : Str) : Str :=
  (vmessLink (withRemark (Json.text remark) [(ofText "add".toList, Json.text "h".toList)])).getD []

/-- The sample link, marked. -/
def markedSample : Str := (injectWatermark Env.sample sampleLink "DE".toList).getD []

/-- The mark it carries. -/
def sampleMark : Str := (watermark Env.sample "DE".toList).getD []

theorem hash_of_remark_sample :
    configHash sampleLink = configHash "vless://u@h:443".toList ∧
      (configHash (sampleVmess "a".toList) = configHash (sampleVmess "b".toList) ↔
        Json.text "a".toList = Json.text "b".toList ∨
          Collide (sampleVmess "a".toList) (sampleVmess "b".toList)) ∧
      (configHash markedSample = configHash sampleLink ↔
        (∀ ms, Rewritten Env.sample sampleLink sampleMark ms → Carries sampleLink sampleMark ms) ∨
          Collide (normalized markedSample) (normalized sampleLink)) :=
  ⟨(hash_of_remark_iff Env.sample).1 "vless://u@h:443".toList "a".toList (by decide),
    (hash_of_remark_iff Env.sample).2.1 (.dumps _) [(ofText "add".toList, Json.text "h".toList)]
      (Json.text "a".toList) (Json.text "b".toList) (sampleVmess "a".toList)
      (sampleVmess "b".toList) (by simp [Json.WF, Json.WFMembers, Json.text]) trivial trivial
      (by decide +kernel) (by decide +kernel),
    (hash_of_remark_iff Env.sample).2.2 sampleLink "DE".toList sampleMark markedSample
      (by decide +kernel) (by decide +kernel)⟩

/-- Another remark, or a watermark, gives another hash. -/
theorem not_hash_of_remark :
    configHash (sampleVmess "a".toList) ≠ configHash (sampleVmess "b".toList) ∧
      ∃ marked, injectWatermark Env.sample (sampleVmess "a".toList) "DE".toList = some marked ∧
        configHash marked ≠ configHash (sampleVmess "a".toList) := by
  refine ⟨by decide +kernel, (injectWatermark Env.sample (sampleVmess "a".toList)
    "DE".toList).getD [], by decide +kernel, by decide +kernel⟩

end ConfigManager
