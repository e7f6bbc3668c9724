import ConfigManager.Py.JsonEnd
import ConfigManager.Watermark

/-! # Vmess links as text

What the program reads off a vmess link it has written (`vmessData_vmessLink`), and
what it reads off any link that is a written one up to its first `#`
(`eq_of_normalized`): the payload decides, and nothing behind it changes the object
that is read.
-/
namespace ConfigManager

open Py

theorem isVmess_iff {config : Str} :
    isVmess config = true ↔ ∃ t, config = "vmess://".toList ++ t := by
  rw [isVmess, List.isPrefixOf_iff_prefix]
  exact ⟨fun ⟨t, h⟩ => ⟨t, h.symm⟩, fun ⟨t, h⟩ => ⟨t, h.symm⟩⟩

theorem noSpace_scheme : NoSpace "vmess://".toList := by
  unfold NoSpace
  decide

theorem normalized_scheme (t : Str) :
    normalized ("vmess://".toList ++ t) = "vmess://".toList ++ rstrip (before '#' t) := by
  rw [normalized, before_append (by decide), strip_append noSpace_scheme (by decide), rstrip]

theorem vmessRaw_scheme (t : Str) : vmessRaw ("vmess://".toList ++ t) = pad (strip t) := by
  rw [vmessRaw, List.drop_left]

theorem isVmess_scheme (t : Str) : isVmess ("vmess://".toList ++ t) = true :=
  isVmess_iff.mpr ⟨t, rfl⟩

/-- What is read is well formed. -/
theorem wf_vmessData {F : Json.Floats} {decode : List UInt8 → Option Str} {c : Str} {v : Json}
    (h : vmessData F decode c = some v) : Json.WF F v := by
  obtain ⟨bytes, -, h⟩ := Option.bind_eq_some_iff.mp h
  obtain ⟨text, -, h⟩ := Option.bind_eq_some_iff.mp h
  exact Json.loads_wf h

/-! ## Written links -/

section Written

variable {F : Json.Floats} {v w : Json} {c : Str}

/-- The payload the program writes. -/
def payloadOf (v : Json) : Str := Base64.b64encode (Utf8.encode (Json.dumps v))

theorem vmessLink_eq_some :
    vmessLink v = some c ↔ Json.encodable v = true ∧ c = "vmess://".toList ++ payloadOf v := by
  rw [vmessLink, payloadOf]
  split
  next h => simp [h, eq_comm]
  next h => simp [h]

theorem noSpace_payloadOf (v : Json) : NoSpace (payloadOf v) := Base64.noSpace_b64encode _

theorem notMem_payloadOf (v : Json) : '#' ∉ payloadOf v := Base64.notMem_b64encode (by decide) _

theorem payloadOf_ne_nil (h : Json.WF F v) : payloadOf v ≠ [] :=
  Base64.b64encode_ne_nil (Utf8.encode_ne_nil (Json.dumps_ne_nil h))

/-- A written link has no remark to cut off. -/
theorem normalized_vmessLink (h : vmessLink v = some c) : normalized c = c := by
  obtain ⟨-, rfl⟩ := vmessLink_eq_some.mp h
  rw [normalized_scheme, before_of_notMem (notMem_payloadOf v), rstrip,
    rdropWhile_of_noSpace (noSpace_payloadOf v)]

theorem isVmess_vmessLink (h : vmessLink v = some c) : isVmess c = true := by
  obtain ⟨-, rfl⟩ := vmessLink_eq_some.mp h
  exact isVmess_scheme _

theorem noSpace_vmessLink (h : vmessLink v = some c) : NoSpace c := by
  obtain ⟨-, rfl⟩ := vmessLink_eq_some.mp h
  exact noSpace_append.mpr ⟨noSpace_scheme, noSpace_payloadOf v⟩

/-- **Reading a payload**, with its padding or without. -/
theorem vmessData_of_spells {decode : List UInt8 → Option Str} {bytes : List UInt8} {payload : Str}
    (h : Base64.Spells bytes payload) :
    vmessData F decode ("vmess://".toList ++ payload) = (decode bytes).bind (Json.loads F) := by
  rw [vmessData, vmessRaw_scheme, strip_of_noSpace (Base64.noSpace_of_spells h), pad_of_spells h,
    Base64.b64decode_b64encode, Option.bind_some]

/-- **Reading a written link back**, with either UTF-8 decoder. -/
theorem vmessData_vmessLink {decode : List UInt8 → Option Str}
    (hd : ∀ s, decode (Utf8.encode s) = some s) (hwf : Json.WF F v) (h : vmessLink v = some c) :
    vmessData F decode c = some v := by
  obtain ⟨he, rfl⟩ := vmessLink_eq_some.mp h
  rw [payloadOf, vmessData_of_spells (.inl rfl), hd, Option.bind_some, Json.loads_dumps hwf he]

theorem lenient_encode (s : Str) : lenient (Utf8.encode s) = some s := by
  rw [lenient, Utf8.decodeIgnore_of_decode (Utf8.decode_encode s)]

/-- The text behind the scheme, where the part before the first `#` is a payload. -/
theorem exists_tail {t e : Str} (h : normalized ("vmess://".toList ++ t) = "vmess://".toList ++ e)
    (he : NoSpace e) (hne : e ≠ []) : ∃ u, strip t = e ++ u := by
  rw [normalized_scheme, List.append_cancel_left_eq] at h
  have hcut : e ++ (before '#' t).rtakeWhile isSpace = before '#' t := by
    rw [← h, rstrip, List.rdropWhile_append_rtakeWhile]
  obtain ht | ht := eq_before_or '#' t
  · rw [← hcut] at ht
    rw [ht, strip_append he hne]
    exact ⟨_, rfl⟩
  · rw [← hcut, List.append_assoc] at ht
    rw [ht, strip_append he hne]
    exact ⟨_, rfl⟩

theorem pad_append (e u : Str) : ∃ k, pad (e ++ u) = e ++ (u ++ List.replicate k '=') := by
  unfold pad
  split
  · exact ⟨0, by simp⟩
  · exact ⟨_, List.append_assoc ..⟩

/-- **A remark behind a written link does not change what is read**, if anything is. -/
theorem eq_of_normalized {ms : List (JStr × Json)} (hwf : Json.WF F (.obj ms))
    (hn : vmessLink (.obj ms) = some (normalized c)) (hv : isVmess c = true)
    (h : vmessData F Utf8.decode c = some w) : w = .obj ms := by
  obtain ⟨he, hlink⟩ := vmessLink_eq_some.mp hn
  obtain ⟨t, rfl⟩ := isVmess_iff.mp hv
  obtain ⟨u, hu⟩ := exists_tail hlink (noSpace_payloadOf _) (payloadOf_ne_nil hwf)
  obtain ⟨k, hk⟩ := pad_append (payloadOf (.obj ms)) u
  obtain ⟨out, hout, h⟩ := Option.bind_eq_some_iff.mp h
  rw [vmessRaw_scheme, hu, hk] at hout
  obtain ⟨more, rfl⟩ := Base64.prefix_of_b64decode hout
  obtain ⟨text, htext, h⟩ := Option.bind_eq_some_iff.mp h
  rw [Utf8.decode_encode_append] at htext
  obtain ⟨rest, -, rfl⟩ := Option.map_eq_some_iff.mp htext
  exact Json.eq_of_loads_append (Json.loads_dumps hwf he) h

end Written

end ConfigManager
