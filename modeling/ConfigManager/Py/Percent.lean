import ConfigManager.Py.Json
import ConfigManager.Py.Utf8

/-! # Percent-encoding

`urllib.parse.quote(text, safe="")`: the UTF-8 bytes of a text, each unreserved
ASCII character as itself and every other byte as `%XX`; and percent-decoding, which
reads such a text back (`unquote_quote`).
-/
namespace Py.Percent

/-- The characters `quote` never encodes. -/
def isUnreserved (c : Char) : Bool :=
  let n := c.toNat
  (48 ≤ n && n ≤ 57) || (65 ≤ n && n ≤ 90) || (97 ≤ n && n ≤ 122) ||
    n == 45 || n == 46 || n == 95 || n == 126

/-- A hexadecimal digit in upper case. -/
def hexDigit (n : Nat) : Char := if n < 10 then Char.ofNat (n + 48) else Char.ofNat (n + 55)

/-- What `quote` writes for one byte. -/
def quoteByte (b : UInt8) : Str :=
  let c := Char.ofNat b.toNat
  if b.toNat < 0x80 ∧ isUnreserved c then [c]
  else ['%', hexDigit (b.toNat / 16), hexDigit (b.toNat % 16)]

/-- `quote(text, safe="")`. -/
def quote (s : Str) : Str := (Utf8.encode s).flatMap quoteByte

/-- A quoted text has nothing but unreserved characters and `%`. -/
theorem quote_safe {s : Str} {c : Char} (h : c ∈ quote s) : isUnreserved c = true ∨ c = '%' := by
  have hex : ∀ n < 16, isUnreserved (hexDigit n) = true := by decide
  obtain ⟨b, -, hc⟩ := List.mem_flatMap.mp h
  have hb := b.toNat_lt
  unfold quoteByte at hc
  simp only at hc
  split at hc
  · rename_i hu
    rw [List.mem_singleton.mp hc]
    exact Or.inl hu.2
  · simp only [List.mem_cons, List.not_mem_nil, or_false] at hc
    rcases hc with rfl | rfl | rfl
    · exact Or.inr rfl
    · exact Or.inl (hex _ (by omega))
    · exact Or.inl (hex _ (by omega))

theorem notMem_quote {c : Char} (h : isUnreserved c = false) (h' : c ≠ '%') (s : Str) :
    c ∉ quote s := fun hc => (quote_safe hc).elim (by simp [h]) h'

theorem isSpace_of_unreserved {c : Char} (h : isUnreserved c = true) : isSpace c = false := by
  simp only [isUnreserved, Bool.or_eq_true, Bool.and_eq_true, decide_eq_true_eq, beq_iff_eq] at h
  simp only [isSpace, Bool.or_eq_false_iff, Bool.and_eq_false_iff, decide_eq_false_iff_not,
    beq_eq_false_iff_ne]
  omega

theorem noSpace_quote (s : Str) : NoSpace (quote s) := fun _ hc =>
  (quote_safe hc).elim isSpace_of_unreserved (by rintro rfl; decide)

/-! ## Decoding -/

/-- `urllib.parse.unquote_to_bytes`. -/
def unquoteToBytes : Str → List UInt8
  | '%' :: a :: b :: s =>
      match Json.hexValue a, Json.hexValue b with
      | some x, some y => .ofNat (x * 16 + y) :: unquoteToBytes s
      | _, _ => Utf8.encodeChar '%' ++ unquoteToBytes (a :: b :: s)
  | c :: s => Utf8.encodeChar c ++ unquoteToBytes s
  | [] => []

/-- What percent-decoding reads, `none` where the bytes are no UTF-8. -/
def unquote (s : Str) : Option Str := Utf8.decode (unquoteToBytes s)

theorem unquoteToBytes_quoteByte (b : UInt8) (s : Str) :
    unquoteToBytes (quoteByte b ++ s) = b :: unquoteToBytes s := by
  have hex : ∀ n < 16, Json.hexValue (hexDigit n) = some n := by decide
  have ascii : ∀ n < 0x80, (Char.ofNat n).toNat = n := by decide
  have hb := b.toNat_lt
  unfold quoteByte
  simp only
  split
  · rename_i hu
    have hc : Char.ofNat b.toNat ≠ '%' := by
      intro h
      rw [h] at hu
      exact absurd hu.2 (by decide)
    have hn : (Char.ofNat b.toNat).toNat = b.toNat := ascii _ hu.1
    rw [List.singleton_append, unquoteToBytes]
    · simp [Utf8.encodeChar, hn, hu.1]
    · intro _ _ _ h
      exact absurd h hc
  · simp only [List.cons_append, List.nil_append, unquoteToBytes, hex (b.toNat / 16) (by omega),
      hex (b.toNat % 16) (by omega)]
    have hsum : b.toNat / 16 * 16 + b.toNat % 16 = b.toNat := by omega
    rw [hsum, UInt8.ofNat_toNat]

theorem unquoteToBytes_quote (s : Str) : unquoteToBytes (quote s) = Utf8.encode s := by
  unfold quote
  induction Utf8.encode s with
  | nil => rfl
  | cons b bs ih => rw [List.flatMap_cons, unquoteToBytes_quoteByte, ih]

/-- **A quoted text is read back.** -/
theorem unquote_quote (s : Str) : unquote (quote s) = some s := by
  rw [unquote, unquoteToBytes_quote, Utf8.decode_encode]

example : unquote "%F0%9F%87%A9 %zz".toList = some [.ofNat 0x1F1E9, ' ', '%', 'z', 'z'] := by decide

end Py.Percent
