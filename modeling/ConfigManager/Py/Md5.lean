import ConfigManager.Py.Text
import Mathlib.Algebra.Group.Nat.Defs

/-! # MD5

`hashlib.md5(data).hexdigest()` (RFC 1321) on natural numbers below `2 ^ 32`, so
that closed digests evaluate.  Nothing is proved about MD5 itself: a statement
that needs two different texts to have different digests says so as a
hypothesis about these two texts.
-/
namespace Py.Md5

/-- The four registers. -/
structure Registers where
  a : Nat
  b : Nat
  c : Nat
  d : Nat

/-- The registers before the first block. -/
def Registers.initial : Registers := ⟨0x67452301, 0xEFCDAB89, 0x98BADCFE, 0x10325476⟩

def word : Nat := 0x100000000

def complement (x : Nat) : Nat := word - 1 - x

def rotate (x s : Nat) : Nat := (x * 2 ^ s + x / 2 ^ (32 - s)) % word

/-- The rotations of the four rounds, each repeated four times. -/
def rotations : List (List Nat) :=
  [[7, 12, 17, 22], [5, 9, 14, 20], [4, 11, 16, 23], [6, 10, 15, 21]]

/-- `floor(2^32 * |sin(i + 1)|)`, by round. -/
def sines : List (List Nat) :=
  [[0xD76AA478, 0xE8C7B756, 0x242070DB, 0xC1BDCEEE, 0xF57C0FAF, 0x4787C62A, 0xA8304613,
      0xFD469501, 0x698098D8, 0x8B44F7AF, 0xFFFF5BB1, 0x895CD7BE, 0x6B901122, 0xFD987193,
      0xA679438E, 0x49B40821],
    [0xF61E2562, 0xC040B340, 0x265E5A51, 0xE9B6C7AA, 0xD62F105D, 0x02441453, 0xD8A1E681,
      0xE7D3FBC8, 0x21E1CDE6, 0xC33707D6, 0xF4D50D87, 0x455A14ED, 0xA9E3E905, 0xFCEFA3F8,
      0x676F02D9, 0x8D2A4C8A],
    [0xFFFA3942, 0x8771F681, 0x6D9D6122, 0xFDE5380C, 0xA4BEEA44, 0x4BDECFA9, 0xF6BB4B60,
      0xBEBFBC70, 0x289B7EC6, 0xEAA127FA, 0xD4EF3085, 0x04881D05, 0xD9D4D039, 0xE6DB99E5,
      0x1FA27CF8, 0xC4AC5665],
    [0xF4292244, 0x432AFF97, 0xAB9423A7, 0xFC93A039, 0x655B59C3, 0x8F0CCC92, 0xFFEFF47D,
      0x85845DD1, 0x6FA87E4F, 0xFE2CE6E0, 0xA3014314, 0x4E0811A1, 0xF7537E82, 0xBD3AF235,
      0x2AD7D2BB, 0xEB86D391]]

/-- The mixing function of a round. -/
def mix (round : Nat) (r : Registers) : Nat :=
  match round with
  | 0 => (r.b &&& r.c) ||| (complement r.b &&& r.d)
  | 1 => (r.d &&& r.b) ||| (complement r.d &&& r.c)
  | 2 => r.b ^^^ r.c ^^^ r.d
  | _ => r.c ^^^ (r.b ||| complement r.d)

/-- The message word step `i` of a round reads. -/
def wordIndex (round i : Nat) : Nat :=
  match round with
  | 0 => i
  | 1 => (5 * i + 1) % 16
  | 2 => (3 * i + 5) % 16
  | _ => 7 * i % 16

/-- One of the sixteen steps of a round. -/
def step (block : List Nat) (round : Nat) (r : Registers) (i : Nat) : Registers :=
  let f := (mix round r + r.a + ((sines.getD round []).getD i 0) +
    block.getD (wordIndex round i) 0) % word
  ⟨r.d, (r.b + rotate f ((rotations.getD round []).getD (i % 4) 0)) % word, r.b, r.c⟩

/-- The registers after a block of sixteen words. -/
def compress (r : Registers) (block : List Nat) : Registers :=
  let s := [0, 1, 2, 3].foldl (fun r round => (List.range 16).foldl (step block round) r) r
  ⟨(r.a + s.a) % word, (r.b + s.b) % word, (r.c + s.c) % word, (r.d + s.d) % word⟩

/-- Little-endian bytes of `n`. -/
def littleEndian : Nat → Nat → List Nat
  | 0, _ => []
  | width + 1, n => n % 256 :: littleEndian width (n / 256)

/-- The message with its padding and its length in bits. -/
def pad (bs : List Nat) : List Nat :=
  bs ++ 0x80 :: List.replicate ((119 - bs.length % 64) % 64) 0 ++ littleEndian 8 (8 * bs.length)

/-- Little-endian words of a byte string. -/
def words : List Nat → List Nat
  | a :: b :: c :: d :: s => (a + 256 * b + 65536 * c + 16777216 * d) :: words s
  | _ => []

/-- The registers after all blocks; `fuel` bounds their number. -/
def blocks : Nat → Registers → List Nat → Registers
  | 0, r, _ => r
  | fuel + 1, r, ws =>
      if ws.isEmpty then r else blocks fuel (compress r (ws.take 16)) (ws.drop 16)

/-- A hexadecimal digit in lower case. -/
def hexDigit (n : Nat) : Char := if n < 10 then Char.ofNat (n + 48) else Char.ofNat (n + 87)

/-- `hashlib.md5(data).hexdigest()`. -/
def hexdigest (data : List UInt8) : Str :=
  let ws := words (pad (data.map UInt8.toNat))
  let r := blocks (ws.length / 16) Registers.initial ws
  ([r.a, r.b, r.c, r.d].flatMap (littleEndian 4)).flatMap fun b =>
    [hexDigit (b / 16), hexDigit (b % 16)]

end Py.Md5
