import ConfigManager.VmessLinks

/-! # What stands behind a payload

The program hands the fragment of a vmess link to the decoder with the payload.  If the
payload closes itself with its padding, nothing behind it is read, whatever it is
(`vmessData_closed`).  If it does not, the characters of the fragment that are in the
base64 alphabet are decoded too.

A watermark put behind such a payload decodes to a control character, wherever in a quad
it starts (`exists_control`): its flag is a four-byte character of one of a few blocks.
JSON has no control characters, so nothing is read off the link any more
(`vmessData_mark`).
-/
namespace ConfigManager

open Py Base64

variable {F : Json.Floats}

/-! ## A payload that closes itself -/

/-- **Nothing behind a closed payload is read**, but it must be ASCII. -/
theorem vmessData_closed {p t : Str} (decode : List UInt8 → Option Str) (hp : isAscii p = true)
    (hspace : NoSpace (p ++ t)) (hc : Closed p) :
    vmessData F decode ("vmess://".toList ++ (p ++ t)) =
      if isAscii t then (decode (Decoder.start.feed p).1).bind (Json.loads F) else none := by
  obtain ⟨k, hk⟩ := pad_append p t
  have hpads : isAscii (List.replicate k '=') = true := by
    rw [isAscii, List.all_eq_true]
    intro c hc
    rw [(List.mem_replicate.mp hc).2]
    decide
  rw [vmessData, vmessRaw_scheme, strip_of_noSpace hspace, hk, b64decode_append_of_closed hc hp,
    isAscii_append, hpads, Bool.and_true]
  split <;> rfl

/-! ## A watermark behind a payload -/

/-- A byte JSON text cannot hold. -/
def IsControl (b : UInt8) : Prop := b.toNat < 9 ∨ 13 < b.toNat ∧ b.toNat < 32

instance (b : UInt8) : Decidable (IsControl b) := inferInstanceAs (Decidable (_ ∨ _))

theorem isClean_of_isControl {b : UInt8} (h : IsControl b) :
    Json.isClean (Char.ofNat b.toNat) = false := by
  have hall : ∀ n < 32, (n < 9 ∨ 13 < n) → Json.isClean (Char.ofNat n) = false := by decide
  rcases h with h | ⟨h, h'⟩
  · exact hall _ (by omega) (.inl h)
  · exact hall _ h' (.inr h)

/-- A text that decodes to a control character, wherever in a quad it starts. -/
def DecodesToControl (s : Str) : Prop :=
  ∀ d : Decoder, d.quad < 4 → ∀ t, ∃ b ∈ (d.feed (s ++ t)).1, IsControl b

/-- The quoted white flag. -/
theorem control_whiteFlag : DecodesToControl (Percent.quote whiteFlag) := by
  have hquote : Percent.quote whiteFlag = "%F0%9F%8F%B3%EF%B8%8F".toList := by decide
  rw [hquote]
  rintro ⟨quad, l, p⟩ hd t
  have hquad : quad = 0 ∨ quad = 1 ∨ quad = 2 ∨ quad = 3 := by
    change quad < 4 at hd
    omega
  rcases hquad with rfl | rfl | rfl | rfl
  · exact ⟨23, .head _, by decide⟩
  · exact ⟨23, .tail _ (.tail _ (.tail _ (.head _))), by decide⟩
  · exact ⟨5, .tail _ (.tail _ (.tail _ (.tail _ (.head _)))), by decide⟩
  · exact ⟨20, .tail _ (.tail _ (.tail _ (.tail _ (.head _)))), by decide⟩

theorem DecodesToControl.append {s : Str} (h : DecodesToControl s) (u : Str) :
    DecodesToControl (s ++ u) := by
  intro d hd t
  rw [List.append_assoc]
  exact h d hd _

/-- A quoted text is ASCII. -/
theorem isAscii_quote (s : Str) : isAscii (Percent.quote s) = true := by
  rw [isAscii, List.all_eq_true]
  intro c hc
  rw [decide_eq_true_eq]
  rcases Percent.quote_safe hc with h | rfl
  · simp only [Percent.isUnreserved, Bool.or_eq_true, Bool.and_eq_true, decide_eq_true_eq,
      beq_iff_eq] at h
    omega
  · decide

theorem quote_append (s t : Str) : Percent.quote (s ++ t) = Percent.quote s ++ Percent.quote t := by
  simp [Percent.quote, Utf8.encode]

/-- The two digits that end a quoted indicator, with their values in the alphabet. -/
theorem quote_indicator {k : Nat} (hk : k < 26) :
    ∃ hi lo h v, Percent.quote [.ofNat (0x1F1E5 + (65 + k))] = "%F0%9F%88%".toList ++ [hi, lo] ∧
      (∀ d : Decoder, d.step hi = some (d.take h)) ∧ (∀ d : Decoder, d.step lo = some (d.take v)) ∧
      IsControl (.ofNat (h * 4 + v / 16)) ∧ IsControl (.ofNat (h % 16 * 16 + v / 4)) := by
  have hall : ∀ k < 26,
      let hi := Percent.hexDigit ((0xA6 + k) / 16)
      let lo := Percent.hexDigit ((0xA6 + k) % 16)
      let h := (sextet hi).getD 0
      let v := (sextet lo).getD 0
      Percent.quote [.ofNat (0x1F1E5 + (65 + k))] = "%F0%9F%88%".toList ++ [hi, lo] ∧
        hi ≠ '=' ∧ lo ≠ '=' ∧ sextet hi = some h ∧ sextet lo = some v ∧
        IsControl (.ofNat (h * 4 + v / 16)) ∧ IsControl (.ofNat (h % 16 * 16 + v / 4)) := by
    decide
  obtain ⟨hq, hhi, hlo, hh, hv, h₁, h₂⟩ := hall k hk
  exact ⟨_, _, _, _, hq, fun _ => Decoder.step_of_sextet hhi hh,
    fun _ => Decoder.step_of_sextet hlo hv, h₁, h₂⟩

/-- A quoted indicator of a letter. -/
theorem control_indicator {k : Nat} (hk : k < 26) :
    DecodesToControl (Percent.quote [.ofNat (0x1F1E5 + (65 + k))]) := by
  obtain ⟨hi, lo, h, v, hq, hhi, hlo, h₁, h₂⟩ := quote_indicator hk
  rw [hq]
  rintro ⟨quad, l, p⟩ hd t
  rw [List.append_assoc]
  have hquad : quad = 0 ∨ quad = 1 ∨ quad = 2 ∨ quad = 3 := by
    change quad < 4 at hd
    omega
  rcases hquad with rfl | rfl | rfl | rfl
  · exact ⟨23, .head _, by decide⟩
  · exact ⟨23, .tail _ (.tail _ (.tail _ (.head _))), by decide⟩
  · have hfeed : (Decoder.feed ⟨2, l, p⟩ ("%F0%9F%88%".toList ++ ([hi, lo] ++ t))).1 =
        .ofNat (l * 16 + 1) :: 116 :: 244 :: 95 :: 60 ::
          (Decoder.feed ⟨0, 0, 0⟩ (hi :: lo :: t)).1 := rfl
    rw [hfeed, Decoder.feed_cons (hhi _), Decoder.feed_cons (hlo _)]
    exact ⟨_, .tail _ (.tail _ (.tail _ (.tail _ (.tail _ (.head _))))), h₁⟩
  · have hfeed : (Decoder.feed ⟨3, l, p⟩ ("%F0%9F%88%".toList ++ ([hi, lo] ++ t))).1 =
        .ofNat (l * 64 + 5) :: 211 :: 209 :: 124 :: (Decoder.feed ⟨1, 60, 0⟩ (hi :: lo :: t)).1 :=
      rfl
    rw [hfeed, Decoder.feed_cons (hhi _), Decoder.feed_cons (hlo _)]
    exact ⟨_, .tail _ (.tail _ (.tail _ (.tail _ (.tail _ (.head _))))), h₂⟩

/-- An upper-case ASCII letter, as `str.upper` and `str.isalpha` find it. -/
theorem upper_letter {U : Unicode} {s : Str} (hs : isAscii s = true) {a : Char}
    (ha : a ∈ strip (U.upper s)) (hletter : U.isAlpha a = true) :
    ∃ k < 26, a.toNat = 65 + k := by
  have hall : ∀ n < 128, (Char.ofNat n).toUpper.toNat < 128 ∧
      ((Char.ofNat n).toUpper.isAlpha = true →
        65 ≤ (Char.ofNat n).toUpper.toNat ∧ (Char.ofNat n).toUpper.toNat ≤ 90) := by
    decide
  have hmem := mem_of_mem_strip ha
  rw [U.upper_ascii s hs, List.mem_map] at hmem
  obtain ⟨c, hc, rfl⟩ := hmem
  have hlt : c.toNat < 128 := by simpa using List.all_eq_true.mp hs c hc
  have h := hall c.toNat hlt
  rw [Char.ofNat_toNat] at h
  rw [U.isAlpha_ascii _ h.1] at hletter
  obtain ⟨h₁, h₂⟩ := h.2 hletter
  exact ⟨c.toUpper.toNat - 65, by omega, by omega⟩

theorem control_flag {U : Unicode} {code flag : Str} (hcode : isAscii code = true)
    (h : getFlag U code = some flag) (u : Str) : DecodesToControl (Percent.quote (flag ++ u)) := by
  have hwhite : DecodesToControl (Percent.quote (whiteFlag ++ u)) := by
    rw [quote_append]
    exact control_whiteFlag.append _
  simp only [getFlag] at h
  split_ifs at h with hun
  · cases h; exact hwhite
  · split at h
    · rename_i a b hab
      split_ifs at h with hletters
      · rw [Bool.and_eq_true] at hletters
        obtain ⟨x, hx, h⟩ := Option.bind_eq_some_iff.mp h
        obtain ⟨y, -, rfl⟩ := Option.map_eq_some_iff.mp h
        obtain ⟨k, hk, ha⟩ := upper_letter hcode (hab ▸ List.mem_cons_self ..) hletters.1
        unfold indicator at hx
        split_ifs at hx
        obtain rfl := Option.some.inj hx
        have hsplit : [Char.ofNat (0x1F1E5 + a.toNat), y] ++ u =
            [Char.ofNat (0x1F1E5 + (65 + k))] ++ (y :: u) := by rw [ha]; rfl
        rw [hsplit, quote_append]
        exact (control_indicator hk).append _
      · cases h; exact hwhite
    · cases h; exact hwhite

/-- **Every watermark of an ASCII country code decodes to a control character.** -/
theorem exists_control {env : Env} {code mark : Str} (hcode : isAscii code = true)
    (h : watermark env code = some mark) : DecodesToControl (Percent.quote mark) := by
  obtain ⟨flag, hflag, rfl⟩ := Option.map_eq_some_iff.mp h
  rw [List.append_assoc]
  exact control_flag hcode hflag _

/-- **A watermark behind an open payload** leaves nothing to read. -/
theorem vmessData_mark {p mark : Str} (hspace : NoSpace p) (hopen : ¬Closed p)
    (hmark : DecodesToControl (Percent.quote mark)) :
    vmessData F lenient ("vmess://".toList ++ (p ++ '#' :: Percent.quote mark)) = none := by
  rw [Option.eq_none_iff_forall_ne_some]
  intro v h
  obtain ⟨d, hd⟩ := Option.ne_none_iff_exists'.mp hopen
  obtain ⟨out, hout, h⟩ := Option.bind_eq_some_iff.mp h
  obtain ⟨text, htext, h⟩ := Option.bind_eq_some_iff.mp h
  have hall : NoSpace (p ++ '#' :: Percent.quote mark) :=
    noSpace_append.mpr ⟨hspace, noSpace_cons.mpr ⟨by decide, Percent.noSpace_quote mark⟩⟩
  obtain ⟨k, hk⟩ := pad_append p ('#' :: Percent.quote mark)
  rw [vmessRaw_scheme, strip_of_noSpace hall, hk] at hout
  -- The `#` is skipped, and the watermark decoded from the quad the payload has left open.
  obtain ⟨b, hb, hcontrol⟩ := hmark d (Decoder.quad_lt (by decide) hd) (List.replicate k '=')
  have hmem : b ∈ out := by
    rw [← feed_of_b64decode hout, Decoder.feed_append hd, List.cons_append,
      Decoder.feed_cons (show d.step '#' = some ([], d) from rfl)]
    exact List.mem_append_right _ hb
  have hlt : b.toNat < 0x80 := by
    rcases hcontrol with h | h <;> omega
  obtain rfl : Utf8.decodeIgnore out = text := Option.some.inj htext
  have hclean := Json.loads_clean h _ (Utf8.mem_decodeIgnore hmem hlt)
  rw [isClean_of_isControl hcontrol] at hclean
  cases hclean

end ConfigManager
