import ConfigManager.Py.Text

/-! # UTF-8

`str.encode()`, and `bytes.decode` both strict and with `errors="ignore"`.  The
two decoders read one character at a time (`decodeChar`) and differ only in what
they do with a byte no character starts at: the strict one fails, the other one
drops it.  An ASCII byte is never part of another character, so the lenient
decoder keeps every ASCII byte (`mem_decodeIgnore`).
-/
namespace Py.Utf8

/-- The bytes of one character. -/
def encodeChar (c : Char) : List UInt8 :=
  let n := c.toNat
  if n < 0x80 then [.ofNat n]
  else if n < 0x800 then [.ofNat (0xC0 + n / 64), .ofNat (0x80 + n % 64)]
  else if n < 0x10000 then
    [.ofNat (0xE0 + n / 4096), .ofNat (0x80 + n / 64 % 64), .ofNat (0x80 + n % 64)]
  else
    [.ofNat (0xF0 + n / 262144), .ofNat (0x80 + n / 4096 % 64), .ofNat (0x80 + n / 64 % 64),
      .ofNat (0x80 + n % 64)]

/-- `s.encode()`. -/
def encode (s : Str) : List UInt8 := s.flatMap encodeChar

/-- A continuation byte. -/
def isTail (b : UInt8) : Bool := 0x80 ≤ b.toNat && b.toNat < 0xC0

/-- The character a two-byte form with lead value `a` stands for. -/
def decodeTwo (a : Nat) : List UInt8 → Option (Char × Nat)
  | b :: _ => if isTail b then some (.ofNat (a * 64 + (b.toNat - 0x80)), 2) else none
  | _ => none

/-- The character a three-byte form with lead value `a` stands for; overlong forms
and surrogates are none. -/
def decodeThree (a : Nat) : List UInt8 → Option (Char × Nat)
  | b :: c :: _ =>
      let n := a * 4096 + (b.toNat - 0x80) * 64 + (c.toNat - 0x80)
      if isTail b ∧ isTail c ∧ 0x800 ≤ n ∧ ¬(0xD800 ≤ n ∧ n ≤ 0xDFFF) then some (.ofNat n, 3)
      else none
  | _ => none

/-- The character a four-byte form with lead value `a` stands for, between U+10000
and U+10FFFF. -/
def decodeFour (a : Nat) : List UInt8 → Option (Char × Nat)
  | b :: c :: d :: _ =>
      let n := a * 262144 + (b.toNat - 0x80) * 4096 + (c.toNat - 0x80) * 64 + (d.toNat - 0x80)
      if isTail b ∧ isTail c ∧ isTail d ∧ 0x10000 ≤ n ∧ n ≤ 0x10FFFF then some (.ofNat n, 4)
      else none
  | _ => none

/-- The character at the head of a byte string and how many bytes it has; `none`
where no character starts. -/
def decodeChar : List UInt8 → Option (Char × Nat)
  | [] => none
  | a :: s =>
      if a.toNat < 0x80 then some (.ofNat a.toNat, 1)
      else if a.toNat < 0xC2 then none
      else if a.toNat < 0xE0 then decodeTwo (a.toNat - 0xC0) s
      else if a.toNat < 0xF0 then decodeThree (a.toNat - 0xE0) s
      else decodeFour (a.toNat - 0xF0) s

/-- `decode` after `skip` bytes of a character have been passed over. -/
def decodeFrom : List UInt8 → Nat → Option Str
  | [], _ => some []
  | _ :: s, skip + 1 => decodeFrom s skip
  | a :: s, 0 =>
      match decodeChar (a :: s) with
      | some (c, width) => (decodeFrom s (width - 1)).map (c :: ·)
      | none => none

/-- `b.decode("utf-8")`, `none` where it raises. -/
def decode (bs : List UInt8) : Option Str := decodeFrom bs 0

/-- `decodeIgnore` after `skip` bytes of a character have been passed over. -/
def decodeIgnoreFrom : List UInt8 → Nat → Str
  | [], _ => []
  | _ :: s, skip + 1 => decodeIgnoreFrom s skip
  | a :: s, 0 =>
      match decodeChar (a :: s) with
      | some (c, width) => c :: decodeIgnoreFrom s (width - 1)
      | none => decodeIgnoreFrom s 0

/-- `b.decode("utf-8", errors="ignore")`. -/
def decodeIgnore (bs : List UInt8) : Str := decodeIgnoreFrom bs 0

/-! ## Decoding what was encoded -/

private theorem toNat_byte {n : Nat} (h : n < 256) : (UInt8.ofNat n).toNat = n := by
  rw [UInt8.toNat_ofNat']
  omega

theorem decodeChar_encodeChar (c : Char) (s : List UInt8) :
    decodeChar (encodeChar c ++ s) = some (c, (encodeChar c).length) := by
  have hc : c.toNat < 0xD800 ∨ 0xDFFF < c.toNat ∧ c.toNat < 0x110000 := c.valid
  have hback : Char.ofNat c.toNat = c := Char.ofNat_toNat c
  unfold encodeChar
  -- The surrogates are no characters, so the three byte form decodes too.
  generalize c.toNat = n at hc hback
  simp only
  split
  · have h0 := toNat_byte (n := n) (by omega)
    simp only [List.cons_append, List.nil_append, decodeChar, h0, hback]
    rw [if_pos (by omega)]
    rfl
  split
  · have h0 := toNat_byte (n := 0xC0 + n / 64) (by omega)
    have h1 := toNat_byte (n := 0x80 + n % 64) (by omega)
    have hn : (0xC0 + n / 64 - 0xC0) * 64 + (0x80 + n % 64 - 0x80) = n := by omega
    simp only [List.cons_append, decodeChar, decodeTwo, isTail, h0, h1, hn, hback]
    rw [if_neg (by omega), if_neg (by omega), if_pos (by omega), if_pos (by simp; omega)]
    rfl
  split
  · have h0 := toNat_byte (n := 0xE0 + n / 4096) (by omega)
    have h1 := toNat_byte (n := 0x80 + n / 64 % 64) (by omega)
    have h2 := toNat_byte (n := 0x80 + n % 64) (by omega)
    have hn : (0xE0 + n / 4096 - 0xE0) * 4096 + (0x80 + n / 64 % 64 - 0x80) * 64 +
        (0x80 + n % 64 - 0x80) = n := by omega
    simp only [List.cons_append, decodeChar, decodeThree, isTail, h0, h1, h2, hn, hback]
    rw [if_neg (by omega), if_neg (by omega), if_neg (by omega), if_pos (by omega),
      if_pos (by simp; omega)]
    rfl
  · have h0 := toNat_byte (n := 0xF0 + n / 262144) (by omega)
    have h1 := toNat_byte (n := 0x80 + n / 4096 % 64) (by omega)
    have h2 := toNat_byte (n := 0x80 + n / 64 % 64) (by omega)
    have h3 := toNat_byte (n := 0x80 + n % 64) (by omega)
    have hn : (0xF0 + n / 262144 - 0xF0) * 262144 + (0x80 + n / 4096 % 64 - 0x80) * 4096 +
        (0x80 + n / 64 % 64 - 0x80) * 64 + (0x80 + n % 64 - 0x80) = n := by omega
    simp only [List.cons_append, decodeChar, decodeFour, isTail, h0, h1, h2, h3, hn, hback]
    rw [if_neg (by omega), if_neg (by omega), if_neg (by omega), if_neg (by omega),
      if_pos (by simp; omega)]
    rfl

theorem decodeFrom_skip (a s : List UInt8) : decodeFrom (a ++ s) a.length = decodeFrom s 0 := by
  induction a with
  | nil => rfl
  | cons b a ih => exact ih

theorem encodeChar_ne_nil (c : Char) : encodeChar c ≠ [] := by
  unfold encodeChar
  simp only
  split_ifs <;> simp

/-- Strict decoding reads an encoded text first, whatever follows it. -/
theorem decode_encode_append (s : Str) (bs : List UInt8) :
    decode (encode s ++ bs) = (decode bs).map (s ++ ·) := by
  unfold decode
  induction s with
  | nil => simp [encode]
  | cons c s ih =>
    have hc := decodeChar_encodeChar c (encode s ++ bs)
    rw [encode, List.flatMap_cons, ← encode, List.append_assoc]
    obtain ⟨b, u, hb⟩ := List.exists_cons_of_ne_nil (encodeChar_ne_nil c)
    rw [hb, List.cons_append] at hc ⊢
    rw [decodeFrom, hc]
    simp only [List.length_cons, Nat.add_sub_cancel, decodeFrom_skip, ih, Option.map_map]
    rfl

/-- **Strict decoding inverts encoding.** -/
theorem decode_encode (s : Str) : decode (encode s) = some s := by
  simpa [decode, decodeFrom] using decode_encode_append s []

theorem encode_ne_nil {s : Str} (h : s ≠ []) : encode s ≠ [] := by
  obtain ⟨c, s, rfl⟩ := List.exists_cons_of_ne_nil h
  simp [encode, encodeChar_ne_nil]

/-! ## The lenient decoder -/

/-- Where the strict decoder succeeds the lenient one reads the same text. -/
theorem decodeIgnore_of_decode {bs : List UInt8} {s : Str} (h : decode bs = some s) :
    decodeIgnore bs = s := by
  have key : ∀ (bs : List UInt8) (k : Nat) (s : Str), decodeFrom bs k = some s →
      decodeIgnoreFrom bs k = s := by
    intro bs
    induction bs with
    | nil => intro k s h; simpa [decodeFrom, decodeIgnoreFrom] using h
    | cons a bs ih =>
      rintro (_ | k) s h
      · rw [decodeFrom] at h
        rw [decodeIgnoreFrom]
        cases hd : decodeChar (a :: bs) with
        | none => simp [hd] at h
        | some p =>
          simp only [hd, Option.map_eq_some_iff] at h ⊢
          obtain ⟨t, ht, rfl⟩ := h
          rw [ih _ _ ht]
      · exact ih k s h
  exact key bs 0 s h

/-- What a multi-byte form reads: continuation bytes, whatever follows them. -/
def Reads (form : List UInt8 → Option (Char × Nat)) (s : List UInt8) (c : Char) (w : Nat) : Prop :=
  ∃ x u, s = x ++ u ∧ w = x.length + 1 ∧ (∀ b ∈ x, isTail b = true) ∧
    ∀ t, form (x ++ t) = some (c, w)

theorem reads_decodeTwo {a : Nat} {s : List UInt8} {c : Char} {w : Nat}
    (h : decodeTwo a s = some (c, w)) : Reads (decodeTwo a) s c w := by
  unfold decodeTwo at h
  split at h
  · rename_i b u
    split_ifs at h with hb
    simp only [Option.some.injEq, Prod.mk.injEq] at h
    obtain ⟨rfl, rfl⟩ := h
    exact ⟨[b], u, rfl, rfl, by simp [hb], fun t => by simp [decodeTwo, hb]⟩
  · cases h

theorem reads_decodeThree {a : Nat} {s : List UInt8} {c : Char} {w : Nat}
    (h : decodeThree a s = some (c, w)) : Reads (decodeThree a) s c w := by
  unfold decodeThree at h
  split at h
  · rename_i b d u
    simp only at h
    split_ifs at h with hb
    simp only [Option.some.injEq, Prod.mk.injEq] at h
    obtain ⟨rfl, rfl⟩ := h
    refine ⟨[b, d], u, rfl, rfl, by simp [hb.1, hb.2.1], fun t => ?_⟩
    simp only [List.cons_append, List.nil_append, decodeThree, if_pos hb]
  · cases h

theorem reads_decodeFour {a : Nat} {s : List UInt8} {c : Char} {w : Nat}
    (h : decodeFour a s = some (c, w)) : Reads (decodeFour a) s c w := by
  unfold decodeFour at h
  split at h
  · rename_i b d e u
    simp only at h
    split_ifs at h with hb
    simp only [Option.some.injEq, Prod.mk.injEq] at h
    obtain ⟨rfl, rfl⟩ := h
    refine ⟨[b, d, e], u, rfl, rfl, by simp [hb.1, hb.2.1, hb.2.2.1], fun t => ?_⟩
    simp only [List.cons_append, List.nil_append, decodeFour, if_pos hb]
  · cases h

/-- A character is read off its own bytes. -/
theorem reads_decodeChar {a : UInt8} {s : List UInt8} {c : Char} {w : Nat}
    (h : decodeChar (a :: s) = some (c, w)) : Reads (fun t => decodeChar (a :: t)) s c w := by
  simp only [Reads, decodeChar] at h ⊢
  split_ifs at h ⊢
  · cases h
    exact ⟨[], s, rfl, rfl, by simp, fun _ => rfl⟩
  · exact reads_decodeTwo h
  · exact reads_decodeThree h
  · exact reads_decodeFour h

/-- The bytes of a character after its first are not ASCII. -/
theorem decodeChar_tail {a : UInt8} {s : List UInt8} {c : Char} {w : Nat}
    (h : decodeChar (a :: s) = some (c, w)) : ∀ b ∈ s.take (w - 1), 0x80 ≤ b.toNat := by
  obtain ⟨x, u, rfl, rfl, htail, -⟩ := reads_decodeChar h
  intro b hb
  rw [Nat.add_sub_cancel, List.take_left] at hb
  have hrange := htail b hb
  simp only [isTail, Bool.and_eq_true, decide_eq_true_eq] at hrange
  exact hrange.1

/-- **No ASCII byte is lost** by the lenient decoder. -/
theorem mem_decodeIgnore {bs : List UInt8} {b : UInt8} (hb : b ∈ bs) (hlt : b.toNat < 0x80) :
    Char.ofNat b.toNat ∈ decodeIgnore bs := by
  -- The bytes that are skipped belong to a character read before, and are not ASCII.
  have key : ∀ (bs : List UInt8) (k : Nat), (∀ x ∈ bs.take k, 0x80 ≤ x.toNat) → b ∈ bs →
      Char.ofNat b.toNat ∈ decodeIgnoreFrom bs k := by
    intro bs
    induction bs with
    | nil => intro k _ h; cases h
    | cons a bs ih =>
      rintro (_ | k) hk hmem
      · rw [decodeIgnoreFrom]
        rcases List.mem_cons.mp hmem with rfl | hmem
        · simp only [decodeChar, if_pos hlt]
          exact List.mem_cons_self ..
        · cases hd : decodeChar (a :: bs) with
          | none => exact ih 0 (by simp) hmem
          | some p =>
            exact List.mem_cons_of_mem _ (ih _ (decodeChar_tail hd) hmem)
      · rcases List.mem_cons.mp hmem with rfl | hmem
        · have := hk b (by simp)
          omega
        · exact ih k (fun x hx => hk x (by simp [hx])) hmem
  exact key bs 0 (by simp) hb

/-- No character starts at a continuation byte. -/
theorem decodeIgnore_tails {bs : List UInt8} (h : ∀ b ∈ bs, isTail b = true) :
    decodeIgnore bs = [] := by
  unfold decodeIgnore
  induction bs with
  | nil => rfl
  | cons b bs ih =>
    have hb := h b (List.mem_cons_self ..)
    simp only [isTail, Bool.and_eq_true, decide_eq_true_eq] at hb
    have hnone : decodeChar (b :: bs) = none := by
      rw [decodeChar, if_neg (by omega), if_pos (by omega)]
    simp only [decodeIgnoreFrom, hnone]
    exact ih fun d hd => h d (List.mem_cons_of_mem _ hd)

/-- **More bytes only add to the text.** -/
theorem decodeIgnore_append (bs e : List UInt8) :
    ∃ t, decodeIgnore (bs ++ e) = decodeIgnore bs ++ t := by
  have key : ∀ (bs : List UInt8) (k : Nat),
      ∃ t, decodeIgnoreFrom (bs ++ e) k = decodeIgnoreFrom bs k ++ t := by
    intro bs
    induction bs with
    | nil => exact fun k => ⟨_, by rw [decodeIgnoreFrom, List.nil_append, List.nil_append]⟩
    | cons a bs ih =>
      rintro (_ | k)
      · rw [List.cons_append, decodeIgnoreFrom, decodeIgnoreFrom]
        cases hd : decodeChar (a :: bs) with
        | some p =>
          obtain ⟨x, u, rfl, -, -, hread⟩ := reads_decodeChar hd
          obtain ⟨t, ht⟩ := ih (p.2 - 1)
          rw [List.append_assoc] at ht ⊢
          simp only [hread, ht]
          exact ⟨t, rfl⟩
        | none =>
          cases hall : decodeChar (a :: (bs ++ e)) with
          | none => exact ih 0
          | some p =>
            -- The character `bs` breaks off in: what it has of it is dropped.
            obtain ⟨x, u, hcut, -, htail, hread⟩ := reads_decodeChar hall
            rcases List.append_eq_append_iff.mp hcut with ⟨y, rfl, -⟩ | ⟨y, rfl, -⟩
            · have hnil := decodeIgnore_tails fun b hb => htail b (List.mem_append_left _ hb)
              simp only [decodeIgnore] at hnil
              simp only [hnil, List.nil_append]
              exact ⟨_, rfl⟩
            · exact absurd (hread y) (by simp [hd])
      · exact ih k
  exact key bs 0

example : decodeIgnore [0x61, 0xE2, 0x82, 0x41, 0xFF, 0xC3, 0xA9] = "aAé".toList := by decide

end Py.Utf8
