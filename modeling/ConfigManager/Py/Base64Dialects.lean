import ConfigManager.Py.Base64

/-! # Dialects of base64

Base64 without its padding, and in the URL-safe alphabet.  A text without its padding
is the encoding with at most two characters missing (`b64encode_eq`).  The URL-safe
characters `-` and `_` are not in the decoder's alphabet, which skips them, and a bit
that is not read is missing at the end (`b64decode_ne_of_sextets_lt`).
-/
namespace Py.Base64

/-! ## Padding -/

/-- `b64encode(bs).rstrip(b"=")`. -/
def unpadded (bs : List UInt8) : Str := (b64encode bs).rdropWhile (· == '=')

theorem exists_pads (bs : List UInt8) :
    ∃ core k, k ≤ 2 ∧ '=' ∉ core ∧ b64encode bs = core ++ List.replicate k '=' := by
  have hl : ∀ n < 64, letter n ≠ '=' := by decide
  induction bs using b64encode.induct with
  | case1 => exact ⟨[], 0, by omega, by simp, rfl⟩
  | case2 a =>
    have ha := a.toNat_lt
    refine ⟨[letter (a.toNat / 4), letter (a.toNat % 4 * 16)], 2, le_refl 2, ?_, rfl⟩
    simp only [List.mem_cons, List.not_mem_nil, or_false, not_or]
    exact ⟨(hl _ (by omega)).symm, (hl _ (by omega)).symm⟩
  | case3 a b =>
    have ha := a.toNat_lt
    have hb := b.toNat_lt
    refine ⟨[letter (a.toNat / 4), letter (a.toNat % 4 * 16 + b.toNat / 16),
      letter (b.toNat % 16 * 4)], 1, by omega, ?_, rfl⟩
    simp only [List.mem_cons, List.not_mem_nil, or_false, not_or]
    exact ⟨(hl _ (by omega)).symm, (hl _ (by omega)).symm, (hl _ (by omega)).symm⟩
  | case4 a b c s ih =>
    have ha := a.toNat_lt
    have hb := b.toNat_lt
    have hc := c.toNat_lt
    obtain ⟨core, k, hk, hcore, he⟩ := ih
    refine ⟨letter (a.toNat / 4) :: letter (a.toNat % 4 * 16 + b.toNat / 16) ::
      letter (b.toNat % 16 * 4 + c.toNat / 64) :: letter (c.toNat % 64) :: core, k, hk, ?_, ?_⟩
    · simp only [List.mem_cons, not_or]
      exact ⟨(hl _ (by omega)).symm, (hl _ (by omega)).symm, (hl _ (by omega)).symm,
        (hl _ (by omega)).symm, hcore⟩
    · rw [b64encode, he]
      rfl

theorem rdropWhile_pads {core : Str} (h : '=' ∉ core) (k : Nat) :
    (core ++ List.replicate k '=').rdropWhile (· == '=') = core := by
  rw [List.rdropWhile, List.reverse_append, List.reverse_replicate,
    List.dropWhile_append_of_pos (by simp), ← List.rdropWhile, List.rdropWhile_eq_self_iff]
  intro hne heq
  exact h (beq_iff_eq.mp heq ▸ List.getLast_mem hne)

/-- The padding is at most two characters. -/
theorem b64encode_eq (bs : List UInt8) :
    ∃ k ≤ 2, '=' ∉ unpadded bs ∧ b64encode bs = unpadded bs ++ List.replicate k '=' := by
  obtain ⟨core, k, hk, hcore, he⟩ := exists_pads bs
  have hun : unpadded bs = core := by rw [unpadded, he, rdropWhile_pads hcore]
  exact ⟨k, hk, hun ▸ hcore, hun ▸ he⟩
/-- The text is base64 of `bs`, with its padding or without it. -/
def Spells (bs : List UInt8) (s : Str) : Prop := s = b64encode bs ∨ s = unpadded bs

theorem mem_of_spells {bs : List UInt8} {s : Str} {c : Char} (h : Spells bs s) (hc : c ∈ s) :
    c ∈ b64encode bs := by
  rcases h with rfl | rfl
  · exact hc
  · obtain ⟨k, -, -, he⟩ := b64encode_eq bs
    rw [he]
    exact List.mem_append_left _ hc

theorem isAlphabet_of_spells {bs : List UInt8} {s : Str} {c : Char} (h : Spells bs s)
    (hc : c ∈ s) : isAlphabet c = true := isAlphabet_of_mem (mem_of_spells h hc)

theorem noSpace_of_spells {bs : List UInt8} {s : Str} (h : Spells bs s) : NoSpace s := fun _ hc =>
  isSpace_of_isAlphabet (isAlphabet_of_spells h hc)

/-! ## Alphabets -/

/-- `base64.urlsafe_b64encode` writes these two characters for `+` and `/`. -/
def urlSafe (s : Str) : Str := s.map fun c => if c = '+' then '-' else if c = '/' then '_' else c

/-- How many characters carry six bits. -/
def sextets (s : Str) : Nat := s.countP fun c => (sextet c).isSome

theorem sextets_append (s t : Str) : sextets (s ++ t) = sextets s + sextets t := List.countP_append

/-- The bits a decoder holds back. -/
def Decoder.bits (d : Decoder) : Nat :=
  match d.quad with
  | 0 => 0
  | 1 => 6
  | 2 => 4
  | _ => 2

theorem Decoder.bits_take (d : Decoder) (v : Nat) :
    8 * (d.take v).1.length + (d.take v).2.bits = d.bits + 6 := by
  obtain ⟨quad, left, pads⟩ := d
  match quad with
  | 0 | 1 | 2 | _ + 3 => rfl

/-- No more bits are written than the text has. -/
theorem Decoder.length_feed (d : Decoder) (s : Str) :
    8 * (d.feed s).1.length ≤ d.bits + 6 * sextets s := by
  induction s generalizing d with
  | nil => simp [feed]
  | cons c s ih =>
    rw [sextets, List.countP_cons, ← sextets]
    by_cases hc : c = '='
    · have hstep : d.step c = none ∨ ∃ k, d.step c = some ([], { d with pads := k }) := by
        rw [step, if_pos hc]
        split_ifs
        · exact .inl rfl
        · exact .inr ⟨_, rfl⟩
        · exact .inr ⟨d.pads, rfl⟩
      rcases hstep with hs | ⟨k, hs⟩
      · simp [feed, hs]
      · have := ih { d with pads := k }
        rw [feed_cons hs]
        have hb : bits { d with pads := k } = d.bits := rfl
        rw [hb] at this
        simp only [List.nil_append]
        omega
    · cases hv : sextet c with
      | none =>
        have hs : d.step c = some ([], d) := by rw [step, if_neg hc, hv]
        have := ih d
        rw [feed_cons hs]
        simpa using this
      | some v =>
        have := ih (d.take v).2
        have hb := d.bits_take v
        have hs : d.step c = some ((d.take v).1, (d.take v).2) := step_of_sextet hc hv
        rw [feed_cons hs, List.length_append]
        simp only [Option.isSome_some, ↓reduceIte]
        omega

/-- The last character of an encoding carries a bit of the last byte. -/
theorem sextets_b64encode (bs : List UInt8) : 6 * sextets (b64encode bs) < 8 * bs.length + 6 := by
  have hl : ∀ n < 64, (sextet (letter n)).isSome = true := by decide
  induction bs using b64encode.induct with
  | case1 => simp [b64encode, sextets]
  | case2 a =>
    have h : sextets (b64encode [a]) ≤ 2 := by
      rw [b64encode, sextets, List.countP_cons, List.countP_cons]
      have : List.countP (fun c => (sextet c).isSome) ['=', '='] = 0 := by decide
      split_ifs <;> omega
    simp only [List.length_cons, List.length_nil]
    omega
  | case3 a b =>
    have h : sextets (b64encode [a, b]) ≤ 3 := by
      rw [b64encode, sextets, List.countP_cons, List.countP_cons, List.countP_cons]
      have : List.countP (fun c => (sextet c).isSome) ['='] = 0 := by decide
      split_ifs <;> omega
    simp only [List.length_cons, List.length_nil]
    omega
  | case4 a b c s ih =>
    rw [b64encode, sextets, List.countP_cons, List.countP_cons, List.countP_cons, List.countP_cons,
      ← sextets]
    simp only [List.length_cons]
    split_ifs <;> omega

/-- **Where a character is lost, a byte is lost.** -/
theorem b64decode_ne_of_sextets_lt {bs : List UInt8} {s : Str}
    (h : sextets s < sextets (b64encode bs)) : b64decode s ≠ some bs := by
  intro hs
  have hlen := Decoder.length_feed .start s
  rw [feed_of_b64decode hs] at hlen
  have := sextets_b64encode bs
  have hb : Decoder.start.bits = 0 := rfl
  omega

theorem sextets_urlSafe (s : Str) : sextets (urlSafe s) ≤ sextets s := by
  rw [sextets, urlSafe, List.countP_map]
  apply List.countP_mono_left
  intro c _ hc
  by_cases h : c = '+' ∨ c = '/'
  · rcases h with rfl | rfl
    · rfl
    · rfl
  · rw [not_or] at h
    simpa [h.1, h.2] using hc

/-- The two alphabets differ in two characters, and none of the second is read. -/
theorem sextets_urlSafe_lt {s : Str} {c : Char} (hc : c ∈ s) (h : c = '+' ∨ c = '/') :
    sextets (urlSafe s) < sextets s := by
  obtain ⟨u, v, rfl⟩ := List.append_of_mem hc
  have hu := sextets_urlSafe u
  have hv := sextets_urlSafe v
  have hone : sextets (urlSafe [c]) < sextets [c] := by
    rcases h with rfl | rfl
    · decide
    · decide
  have hmap : urlSafe (u ++ c :: v) = urlSafe u ++ (urlSafe [c] ++ urlSafe v) := by
    simp [urlSafe]
  have hself : u ++ c :: v = u ++ ([c] ++ v) := rfl
  rw [hmap, hself, sextets_append, sextets_append, sextets_append, sextets_append]
  omega

/-- A text in the URL-safe alphabet that could be in the other one is in both. -/
theorem urlSafe_of_notMem {s : Str} (hminus : '-' ∉ urlSafe s) (hline : '_' ∉ urlSafe s) :
    urlSafe s = s := by
  conv_rhs => rw [← List.map_id s]
  apply List.map_congr_left
  intro c hc
  have hplus : c ≠ '+' := by
    rintro rfl
    exact hminus (List.mem_map.mpr ⟨'+', hc, by decide⟩)
  have hslash : c ≠ '/' := by
    rintro rfl
    exact hline (List.mem_map.mpr ⟨'/', hc, by decide⟩)
  rw [if_neg hplus, if_neg hslash]
  rfl

/-- What is lost of a text in the URL-safe alphabet. -/
theorem sextets_lt_of_mem {s : Str} (hs : ∀ c ∈ s, isAlphabet c = true)
    (h : '-' ∈ urlSafe s ∨ '_' ∈ urlSafe s) : sextets (urlSafe s) < sextets s := by
  have key : ∀ d ∈ urlSafe s, isAlphabet d = false → sextets (urlSafe s) < sextets s := by
    intro d hd hout
    obtain ⟨c, hc, rfl⟩ := List.mem_map.mp hd
    by_cases hchar : c = '+' ∨ c = '/'
    · exact sextets_urlSafe_lt hc hchar
    · rw [not_or] at hchar
      rw [if_neg hchar.1, if_neg hchar.2, hs c hc] at hout
      cases hout
  rcases h with h | h
  · exact key _ h (by decide)
  · exact key _ h (by decide)

theorem sextets_pads (k : Nat) : sextets (List.replicate k '=') = 0 := by
  rw [sextets, List.countP_replicate]
  rfl

theorem sextets_of_spells {bs : List UInt8} {s : Str} (h : Spells bs s) :
    sextets s = sextets (b64encode bs) := by
  rcases h with rfl | rfl
  · rfl
  · obtain ⟨k, -, -, he⟩ := b64encode_eq bs
    rw [he, sextets_append, sextets_pads, Nat.add_zero]

end Py.Base64
