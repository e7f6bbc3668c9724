import ConfigManager.Py.Text

/-! # Base64

`base64.b64encode` and the non-validating `base64.b64decode` of a text.  The
decoder is CPython's `binascii.a2b_base64` as a machine that takes one character
at a time (`Decoder.step`): characters outside the alphabet are skipped, a run of
`=` that completes a quad ends the input there, and what is left over at the end
is an error.

`feed_append` cuts a run of the machine in two, so whether a payload *ends
itself* with its padding (`Closed`) decides if anything behind it is ever read.
-/
namespace Py.Base64

/-- The value of an alphabet character. -/
def sextet (c : Char) : Option Nat :=
  let n := c.toNat
  if 65 ≤ n ∧ n ≤ 90 then some (n - 65)
  else if 97 ≤ n ∧ n ≤ 122 then some (n - 71)
  else if 48 ≤ n ∧ n ≤ 57 then some (n + 4)
  else if n = 43 then some 62
  else if n = 47 then some 63
  else none

/-- The alphabet character of a value below 64. -/
def letter (n : Nat) : Char :=
  if n < 26 then Char.ofNat (n + 65)
  else if n < 52 then Char.ofNat (n + 71)
  else if n < 62 then Char.ofNat (n - 4)
  else if n = 62 then '+'
  else '/'

/-- `base64.b64encode`. -/
def b64encode : List UInt8 → Str
  | [] => []
  | [a] => [letter (a.toNat / 4), letter (a.toNat % 4 * 16), '=', '=']
  | [a, b] =>
      [letter (a.toNat / 4), letter (a.toNat % 4 * 16 + b.toNat / 16),
        letter (b.toNat % 16 * 4), '=']
  | a :: b :: c :: s =>
      letter (a.toNat / 4) :: letter (a.toNat % 4 * 16 + b.toNat / 16) ::
        letter (b.toNat % 16 * 4 + c.toNat / 64) :: letter (c.toNat % 64) :: b64encode s

/-- The decoder between two characters: how many characters of the current quad
it has taken, the bits of the last one that are still to be written, and the pad
characters seen since. -/
structure Decoder where
  quad : Nat
  left : Nat
  pads : Nat
  deriving DecidableEq

/-- The decoder at the start of a text. -/
def Decoder.start : Decoder := ⟨0, 0, 0⟩

/-- The decoder after an alphabet character of value `v`, and the bytes it writes. -/
def Decoder.take (d : Decoder) (v : Nat) : List UInt8 × Decoder :=
  match d.quad with
  | 0 => ([], ⟨1, v, 0⟩)
  | 1 => ([UInt8.ofNat (d.left * 4 + v / 16)], ⟨2, v % 16, 0⟩)
  | 2 => ([UInt8.ofNat (d.left * 16 + v / 4)], ⟨3, v % 4, 0⟩)
  | _ => ([UInt8.ofNat (d.left * 64 + v)], ⟨0, 0, 0⟩)

/-- One character: the bytes it writes and the decoder after it, or `none` when it
is the pad character that ends the input. -/
def Decoder.step (d : Decoder) (c : Char) : Option (List UInt8 × Decoder) :=
  if c = '=' then
    if 2 ≤ d.quad then
      if 4 ≤ d.quad + (d.pads + 1) then none else some ([], { d with pads := d.pads + 1 })
    else some ([], d)
  else
    match sextet c with
    | none => some ([], d)
    | some v => some (d.take v)

/-- A text fed to the decoder: the bytes written, and the decoder after it unless
a pad character has ended the input. -/
def Decoder.feed : Decoder → Str → List UInt8 × Option Decoder
  | d, [] => ([], some d)
  | d, c :: s =>
      match d.step c with
      | none => ([], none)
      | some (bs, d') => (bs ++ (d'.feed s).1, (d'.feed s).2)

/-- The text is ASCII. -/
def isAscii (s : Str) : Bool := s.all fun c => c.toNat < 128

/-- `base64.b64decode` of a text, `none` where it raises: on text that is not
ASCII, and on an incomplete last quad. -/
def b64decode (s : Str) : Option (List UInt8) :=
  if isAscii s then
    match Decoder.start.feed s with
    | (bs, none) => some bs
    | (bs, some d) => if d.quad = 0 then some bs else none
  else none

theorem feed_of_b64decode {s : Str} {out : List UInt8} (h : b64decode s = some out) :
    (Decoder.start.feed s).1 = out := by
  unfold b64decode at h
  split_ifs at h
  generalize Decoder.start.feed s = p at h
  obtain ⟨o, _ | d⟩ := p
  · exact Option.some.inj h
  · simp only at h
    split_ifs at h
    exact Option.some.inj h

/-- The padding of `s` ends the input inside `s`: nothing behind `s` is read. -/
def Closed (s : Str) : Prop := (Decoder.start.feed s).2 = none

instance (s : Str) : Decidable (Closed s) := inferInstanceAs (Decidable (_ = _))

namespace Decoder

theorem feed_cons {d d' : Decoder} {c : Char} {s : Str} {bs : List UInt8}
    (h : d.step c = some (bs, d')) : d.feed (c :: s) = (bs ++ (d'.feed s).1, (d'.feed s).2) := by
  simp [feed, h]

/-- What follows an ended input is not read. -/
theorem feed_append_of_ended {d : Decoder} {s : Str} (h : (d.feed s).2 = none) (t : Str) :
    d.feed (s ++ t) = d.feed s := by
  induction s generalizing d with
  | nil => simp [feed] at h
  | cons c s ih =>
    cases hs : d.step c with
    | none => simp [feed, hs]
    | some p =>
      obtain ⟨bs, d'⟩ := p
      rw [feed_cons hs] at h
      rw [List.cons_append, feed_cons hs, feed_cons hs, ih h]

/-- A text that does not end the input leaves the decoder where the next one
starts. -/
theorem feed_append {d d' : Decoder} {s : Str} (h : (d.feed s).2 = some d') (t : Str) :
    d.feed (s ++ t) = ((d.feed s).1 ++ (d'.feed t).1, (d'.feed t).2) := by
  induction s generalizing d with
  | nil => simp_all [feed]
  | cons c s ih =>
    cases hs : d.step c with
    | none => simp [feed, hs] at h
    | some p =>
      obtain ⟨bs, d₁⟩ := p
      rw [feed_cons hs] at h
      rw [List.cons_append, feed_cons hs, feed_cons hs, ih h]
      simp

/-- The bytes of a text come first, whatever follows it. -/
theorem exists_feed_append (d : Decoder) (s t : Str) :
    ∃ more, (d.feed (s ++ t)).1 = (d.feed s).1 ++ more := by
  cases hs : (d.feed s).2 with
  | none => exact ⟨[], by rw [feed_append_of_ended hs, List.append_nil]⟩
  | some d' => exact ⟨_, by rw [feed_append hs]⟩

/-- Padding writes nothing. -/
theorem feed_replicate_pad (d : Decoder) (k : Nat) : (d.feed (List.replicate k '=')).1 = [] := by
  induction k generalizing d with
  | zero => rfl
  | succ k ih =>
    have hstep : d.step '=' = none ∨ ∃ d', d.step '=' = some ([], d') := by
      rw [step, if_pos rfl]
      split_ifs
      · exact .inl rfl
      · exact .inr ⟨_, rfl⟩
      · exact .inr ⟨_, rfl⟩
    rw [List.replicate_succ]
    rcases hstep with hs | ⟨d', hs⟩
    · rw [feed, hs]
    · rw [feed_cons hs, ih]
      rfl

theorem quad_take (d : Decoder) (v : Nat) : (d.take v).2.quad < 4 := by
  unfold take
  split <;> simp

/-- A quad has at most three characters before the one that completes it. -/
theorem quad_lt {d d' : Decoder} {s : Str} (hd : d.quad < 4) (h : (d.feed s).2 = some d') :
    d'.quad < 4 := by
  induction s generalizing d with
  | nil => cases h; exact hd
  | cons c s ih =>
    cases hs : d.step c with
    | none => simp [feed, hs] at h
    | some p =>
      obtain ⟨bs, d₁⟩ := p
      rw [feed_cons hs] at h
      refine ih ?_ h
      simp only [step] at hs
      split_ifs at hs
      · cases hs; exact hd
      · cases hs; exact hd
      · split at hs
        · cases hs; exact hd
        · have htake : (d.take _).2 = d₁ := congrArg Prod.snd (Option.some.inj hs)
          exact htake ▸ quad_take d _

theorem step_of_sextet {d : Decoder} {c : Char} {n : Nat} (hc : c ≠ '=') (h : sextet c = some n) :
    d.step c = some (d.take n) := by
  rw [step, if_neg hc, h]

theorem step_letter {d : Decoder} {n : Nat} (h : n < 64) : d.step (letter n) = some (d.take n) := by
  have hv : ∀ n < 64, letter n ≠ '=' ∧ sextet (letter n) = some n := by decide
  exact step_of_sextet (hv n h).1 (hv n h).2

theorem feed_pad {l : Nat} : feed ⟨3, l, 0⟩ ['='] = ([], none) := by simp [feed, step]

theorem feed_pads {l : Nat} : feed ⟨2, l, 0⟩ ['=', '='] = ([], none) := by simp [feed, step]

end Decoder

@[simp] theorem isAscii_append {s t : Str} : isAscii (s ++ t) = (isAscii s && isAscii t) := by
  simp [isAscii]

/-- Behind a text that ends the input anything may stand, as long as it is ASCII. -/
theorem b64decode_append_of_closed {s t : Str} (h : Closed s) (hs : isAscii s = true) :
    b64decode (s ++ t) = if isAscii t then some (Decoder.start.feed s).1 else none := by
  rw [b64decode, isAscii_append, hs, Bool.true_and]
  split
  · rw [Decoder.feed_append_of_ended h]
    generalize hf : Decoder.start.feed s = p
    obtain ⟨out, d⟩ := p
    obtain rfl : d = none := by simpa [Closed, hf] using h
    rfl
  · rfl

/-! ## Decoding what was encoded -/

theorem b64encode_isAscii (bs : List UInt8) : isAscii (b64encode bs) = true := by
  have hl : ∀ n, (letter n).toNat < 128 := by
    intro n
    rcases Nat.lt_or_ge n 64 with h | h
    · have : ∀ n < 64, (letter n).toNat < 128 := by decide
      exact this n h
    · rw [letter, if_neg (by omega), if_neg (by omega), if_neg (by omega), if_neg (by omega)]
      decide
  induction bs using b64encode.induct with
  | case1 => rfl
  | case2 a => simp [b64encode, isAscii, hl]
  | case3 a b => simp [b64encode, isAscii, hl]
  | case4 a b c s ih =>
    rw [isAscii, List.all_eq_true] at ih
    simp [b64encode, isAscii, hl]
    simpa using ih

private theorem ofNat_toNat {a : UInt8} {n : Nat} (h : n = a.toNat) : UInt8.ofNat n = a := by
  simp [h]

/-- The decoder writes the bytes that were encoded. -/
theorem feed_b64encode (bs : List UInt8) :
    (Decoder.start.feed (b64encode bs)).1 = bs ∧
      ((Decoder.start.feed (b64encode bs)).2 = none ∨
        (Decoder.start.feed (b64encode bs)).2 = some Decoder.start) := by
  induction bs using b64encode.induct with
  | case1 => exact ⟨rfl, Or.inr rfl⟩
  -- One byte is left over: two letters, and the decoder ends at the padding.
  | case2 a =>
    have ha := a.toNat_lt
    have h : UInt8.ofNat (a.toNat / 4 * 4 + a.toNat % 4 * 16 / 16) = a := ofNat_toNat (by omega)
    rw [b64encode, Decoder.feed_cons (Decoder.step_letter (by omega)),
      Decoder.feed_cons (Decoder.step_letter (by omega))]
    simp only [Decoder.start, Decoder.feed_pads, List.nil_append,
      List.cons_append, h, true_or, and_self]
  -- Two bytes are left over: three letters and the padding.
  | case3 a b =>
    have ha := a.toNat_lt
    have hb := b.toNat_lt
    have h₁ : UInt8.ofNat (a.toNat / 4 * 4 + (a.toNat % 4 * 16 + b.toNat / 16) / 16) = a :=
      ofNat_toNat (by omega)
    have h₂ : UInt8.ofNat ((a.toNat % 4 * 16 + b.toNat / 16) % 16 * 16 +
        b.toNat % 16 * 4 / 4) = b := ofNat_toNat (by omega)
    rw [b64encode, Decoder.feed_cons (Decoder.step_letter (by omega)),
      Decoder.feed_cons (Decoder.step_letter (by omega)),
      Decoder.feed_cons (Decoder.step_letter (by omega))]
    simp only [Decoder.start, Decoder.feed_pad, List.nil_append,
      List.cons_append, h₁, h₂, true_or, and_self]
  -- Three bytes are four letters, and the decoder is back where it started.
  | case4 a b c s ih =>
    have ha := a.toNat_lt
    have hb := b.toNat_lt
    have hc := c.toNat_lt
    have h₁ : UInt8.ofNat (a.toNat / 4 * 4 + (a.toNat % 4 * 16 + b.toNat / 16) / 16) = a :=
      ofNat_toNat (by omega)
    have h₂ : UInt8.ofNat ((a.toNat % 4 * 16 + b.toNat / 16) % 16 * 16 +
        (b.toNat % 16 * 4 + c.toNat / 64) / 4) = b := ofNat_toNat (by omega)
    have h₃ : UInt8.ofNat ((b.toNat % 16 * 4 + c.toNat / 64) % 4 * 64 + c.toNat % 64) = c :=
      ofNat_toNat (by omega)
    rw [b64encode, Decoder.feed_cons (Decoder.step_letter (by omega)),
      Decoder.feed_cons (Decoder.step_letter (by omega)),
      Decoder.feed_cons (Decoder.step_letter (by omega)),
      Decoder.feed_cons (Decoder.step_letter (by omega))]
    simp only [Decoder.start, List.nil_append, List.cons_append, h₁, h₂, h₃] at ih ⊢
    exact ⟨by rw [ih.1], ih.2⟩

/-- **Decoding inverts encoding.** -/
theorem b64decode_b64encode (bs : List UInt8) : b64decode (b64encode bs) = some bs := by
  have h := feed_b64encode bs
  rw [b64decode, if_pos (b64encode_isAscii bs)]
  generalize hf : Decoder.start.feed (b64encode bs) = p at h ⊢
  obtain ⟨out, d⟩ := p
  rcases h with ⟨rfl, rfl | rfl⟩
  · rfl
  · rfl

/-- What is decoded starts with the bytes that were encoded, whatever follows them. -/
theorem prefix_of_b64decode {bs out : List UInt8} {u : Str}
    (h : b64decode (b64encode bs ++ u) = some out) : ∃ more, out = bs ++ more := by
  obtain ⟨more, hmore⟩ := Decoder.exists_feed_append .start (b64encode bs) u
  rw [feed_of_b64decode h, (feed_b64encode bs).1] at hmore
  exact ⟨more, hmore⟩

/-! ## The text `b64encode` writes -/

/-- The characters `b64encode` writes. -/
def isAlphabet (c : Char) : Bool := (sextet c).isSome || c == '='

theorem isAlphabet_letter (n : Nat) (h : n < 64) : isAlphabet (letter n) = true := by
  have hall : ∀ n < 64, isAlphabet (letter n) = true := by decide
  exact hall n h

theorem isAlphabet_of_mem {bs : List UInt8} {c : Char} (h : c ∈ b64encode bs) :
    isAlphabet c = true := by
  induction bs using b64encode.induct with
  | case1 => simp [b64encode] at h
  | case2 a =>
    have ha := a.toNat_lt
    simp only [b64encode, List.mem_cons, List.not_mem_nil, or_false] at h
    rcases h with rfl | rfl | rfl | rfl
    · exact isAlphabet_letter _ (by omega)
    · exact isAlphabet_letter _ (by omega)
    · rfl
    · rfl
  | case3 a b =>
    have ha := a.toNat_lt
    have hb := b.toNat_lt
    simp only [b64encode, List.mem_cons, List.not_mem_nil, or_false] at h
    rcases h with rfl | rfl | rfl | rfl
    · exact isAlphabet_letter _ (by omega)
    · exact isAlphabet_letter _ (by omega)
    · exact isAlphabet_letter _ (by omega)
    · rfl
  | case4 a b d s ih =>
    have ha := a.toNat_lt
    have hb := b.toNat_lt
    have hd := d.toNat_lt
    simp only [b64encode, List.mem_cons] at h
    rcases h with rfl | rfl | rfl | rfl | h
    · exact isAlphabet_letter _ (by omega)
    · exact isAlphabet_letter _ (by omega)
    · exact isAlphabet_letter _ (by omega)
    · exact isAlphabet_letter _ (by omega)
    · exact ih h

theorem length_b64encode (bs : List UInt8) : (b64encode bs).length % 4 = 0 := by
  induction bs using b64encode.induct with
  | case1 | case2 | case3 => simp [b64encode]
  | case4 a b c s ih =>
    simp only [b64encode, List.length_cons]
    omega

theorem b64encode_ne_nil {bs : List UInt8} (h : bs ≠ []) : b64encode bs ≠ [] := by
  induction bs using b64encode.induct with
  | case1 => exact absurd rfl h
  | case2 | case3 | case4 => simp [b64encode]

/-- The alphabet by its code points. -/
theorem toNat_of_isAlphabet {c : Char} (h : isAlphabet c = true) :
    (65 ≤ c.toNat ∧ c.toNat ≤ 90) ∨ (97 ≤ c.toNat ∧ c.toNat ≤ 122) ∨
      (48 ≤ c.toNat ∧ c.toNat ≤ 57) ∨ c.toNat = 43 ∨ c.toNat = 47 ∨ c.toNat = 61 := by
  rw [isAlphabet, Bool.or_eq_true, beq_iff_eq] at h
  rcases h with h | rfl
  · simp only [sextet] at h
    split_ifs at h <;> simp_all
  · decide

theorem isSpace_of_isAlphabet {c : Char} (h : isAlphabet c = true) : isSpace c = false := by
  have hn := toNat_of_isAlphabet h
  simp only [isSpace, Bool.or_eq_false_iff, Bool.and_eq_false_iff, decide_eq_false_iff_not,
    beq_eq_false_iff_ne]
  omega

theorem noSpace_b64encode (bs : List UInt8) : NoSpace (b64encode bs) := fun _ hc =>
  isSpace_of_isAlphabet (isAlphabet_of_mem hc)

theorem notMem_b64encode {c : Char} (h : isAlphabet c = false) (bs : List UInt8) :
    c ∉ b64encode bs := fun hc => by simp [isAlphabet_of_mem hc] at h

example : b64decode "ab=#=zz".toList = some [0x69] := by decide
example : b64decode "YWJj#ab".toList = none := by decide

end Py.Base64
