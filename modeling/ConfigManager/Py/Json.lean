import ConfigManager.Py.Text

/-! # JSON

`json.loads` of a text and `json.dumps(value, ensure_ascii=False)`, as CPython's
scanner and encoder do them: members keep their order, a repeated key keeps its
first place and its last value, `NaN` and the infinities are accepted, and a
string may hold a lone surrogate, which only a `\u` escape can write.

Binary floating point is a parameter (`Floats`): what `dumps` writes for the
number a literal denotes, and its integer part.  A float is kept as the text
`dumps` writes for it.

The parser takes fuel.  A value of a text of length `n` never needs more than
`2 * n + 1` (`JsonRoundTrip`), which is what `loads` gives it; the interpreter's
own limit on nesting is not modelled.
-/
namespace Py

/-- A code point of a JSON string: a character, or the surrogate
`U+D800 + half`. -/
inductive JChar where
  | scalar (c : Char)
  | lone (half : Fin 2048)
  deriving DecidableEq

/-- The character, unless it is a lone surrogate. -/
def JChar.scalar? : JChar → Option Char
  | .scalar c => some c
  | .lone _ => none

/-- A `str` that may hold lone surrogates. -/
abbrev JStr := List JChar

/-- A text as a JSON string. -/
def ofText (s : Str) : JStr := s.map JChar.scalar

/-- A JSON value as Python reads it. -/
inductive Json where
  | null
  | bool (b : Bool)
  | int (n : Int)
  | float (text : Str)
  | str (s : JStr)
  | arr (vs : List Json)
  | obj (ms : List (JStr × Json))

namespace Json

mutual
/-- Equality of values. -/
def eqb : Json → Json → Bool
  | null, null => true
  | bool a, bool b => a == b
  | int a, int b => a == b
  | float a, float b => a == b
  | str a, str b => a == b
  | arr as, arr bs => eqbList as bs
  | obj as, obj bs => eqbMembers as bs
  | _, _ => false

def eqbList : List Json → List Json → Bool
  | [], [] => true
  | a :: as, b :: bs => eqb a b && eqbList as bs
  | _, _ => false

def eqbMembers : List (JStr × Json) → List (JStr × Json) → Bool
  | [], [] => true
  | (k, a) :: as, (l, b) :: bs => k == l && eqb a b && eqbMembers as bs
  | _, _ => false
end

mutual
theorem eqb_iff : ∀ a b : Json, eqb a b = true ↔ a = b
  | null, b | bool _, b | int _, b | float _, b | str _, b => by cases b <;> simp [eqb]
  | arr as, b => by cases b <;> simp [eqb, eqbList_iff as]
  | obj as, b => by cases b <;> simp [eqb, eqbMembers_iff as]

theorem eqbList_iff : ∀ as bs : List Json, eqbList as bs = true ↔ as = bs
  | [], bs => by cases bs <;> simp [eqbList]
  | a :: as, bs => by cases bs <;> simp [eqbList, eqb_iff a, eqbList_iff as]

theorem eqbMembers_iff : ∀ as bs : List (JStr × Json), eqbMembers as bs = true ↔ as = bs
  | [], bs => by cases bs <;> simp [eqbMembers]
  | (k, a) :: as, bs => by
      cases bs with
      | nil => simp [eqbMembers]
      | cons m bs => simp [eqbMembers, eqb_iff a, eqbMembers_iff as, Prod.ext_iff]
end

instance : DecidableEq Json := fun a b => decidable_of_iff _ (eqb_iff a b)

/-- A text value. -/
def text (s : Str) : Json := str (ofText s)

theorem text_injective {s t : Str} (h : text s = text t) : s = t :=
  List.map_injective_iff.mpr (fun _ _ => JChar.scalar.inj) (str.inj h)

/-! ## Dictionaries -/

/-- `d.get(key)`. -/
def get? (key : JStr) (ms : List (JStr × Json)) : Option Json := ms.lookup key

/-- `d[key] = value`: in place if the key is there, at the end otherwise. -/
def put (key : JStr) (v : Json) : List (JStr × Json) → List (JStr × Json)
  | [] => [(key, v)]
  | (k, w) :: ms => if k = key then (key, v) :: ms else (k, w) :: put key v ms

/-- The dictionary a JSON object's members build, one assignment after the other. -/
def dictOf (ms : List (JStr × Json)) : List (JStr × Json) :=
  ms.foldl (fun d m => put m.1 m.2 d) []

/-! ## Lexing -/

/-- JSON whitespace. -/
def isWs (c : Char) : Bool := c == ' ' || c == '\t' || c == '\n' || c == '\r'

def skipWs (s : Str) : Str := s.dropWhile isWs

def isDigit (c : Char) : Bool := 48 ≤ c.toNat && c.toNat ≤ 57

/-- A run of digits and what follows. -/
def spanDigits (s : Str) : Str × Str := (s.takeWhile isDigit, s.dropWhile isDigit)

/-- The integer part of a number: `0`, or digits that do not start with it. -/
def natToken : Str → Option (Str × Str)
  | [] => none
  | c :: s =>
      if c = '0' then some (['0'], s)
      else if isDigit c then some (c :: (spanDigits s).1, (spanDigits s).2)
      else none

def intToken : Str → Option (Str × Str)
  | [] => none
  | c :: s =>
      if c = '-' then (natToken s).map fun p => ('-' :: p.1, p.2) else natToken (c :: s)

/-- A fraction, if there is one. -/
def fracToken : Str → Str × Str
  | [] => ([], [])
  | c :: s =>
      if c = '.' ∧ (spanDigits s).1 ≠ [] then ('.' :: (spanDigits s).1, (spanDigits s).2)
      else ([], c :: s)

/-- The sign of an exponent, if there is one. -/
def signToken : Str → Str × Str
  | [] => ([], [])
  | c :: s => if c = '+' ∨ c = '-' then ([c], s) else ([], c :: s)

/-- An exponent, if there is one. -/
def expToken : Str → Str × Str
  | [] => ([], [])
  | c :: s =>
      let sign := signToken s
      let ds := spanDigits sign.2
      if (c = 'e' ∨ c = 'E') ∧ ds.1 ≠ [] then (c :: (sign.1 ++ ds.1), ds.2) else ([], c :: s)

/-- A number: its integer part, its fraction and exponent, and what follows. -/
def numberToken (s : Str) : Option (Str × Str × Str) :=
  (intToken s).map fun p =>
    let frac := fracToken p.2
    let exp := expToken frac.2
    (p.1, frac.1 ++ exp.1, exp.2)

/-- The integer a literal denotes. -/
def intValue : Str → Int
  | [] => 0
  | c :: s =>
      if c = '-' then -(Nat.ofDigitChars 10 s 0 : Int) else (Nat.ofDigitChars 10 (c :: s) 0 : Int)

/-- A literal with a fraction or an exponent. -/
def IsFloatLit (l : Str) : Prop :=
  ∃ i f, f ≠ [] ∧ l = i ++ f ∧ numberToken l = some (i, f, [])

/-- Binary floating point, as far as JSON sees it. -/
structure Floats where
  /-- What `json.dumps` writes for `float(literal)`. -/
  repr : Str → Str
  /-- `int(x)` of the float so written, `none` where it raises. -/
  trunc : Str → Option Int
  /-- `x == n` of the float so written and an integer. -/
  eqInt : Str → Int → Bool
  /-- A finite float is written as a float literal that denotes it; a literal that
  overflows denotes an infinity. -/
  repr_literal : ∀ l, IsFloatLit l →
    IsFloatLit (repr l) ∧ repr (repr l) = repr l ∨
      repr l = "Infinity".toList ∨ repr l = "-Infinity".toList

/-- The value of a hexadecimal digit. -/
def hexValue (c : Char) : Option Nat :=
  let n := c.toNat
  if 48 ≤ n ∧ n ≤ 57 then some (n - 48)
  else if 97 ≤ n ∧ n ≤ 102 then some (n - 87)
  else if 65 ≤ n ∧ n ≤ 70 then some (n - 55)
  else none

def hex4 (a b c d : Char) : Option Nat := do
  return (((← hexValue a) * 16 + (← hexValue b)) * 16 + (← hexValue c)) * 16 + (← hexValue d)

/-- The code unit `n` of a `\u` escape. -/
def unit (n : Nat) : JChar :=
  if 0xD800 ≤ n ∧ n ≤ 0xDFFF then .lone (Fin.ofNat 2048 (n - 0xD800)) else .scalar (.ofNat n)

/-- The character a one-letter escape stands for. -/
def unescape (c : Char) : Option Char :=
  if c = '"' ∨ c = '\\' ∨ c = '/' then some c
  else if c = 'b' then some (.ofNat 8)
  else if c = 'f' then some (.ofNat 12)
  else if c = 'n' then some '\n'
  else if c = 'r' then some '\r'
  else if c = 't' then some '\t'
  else none

/-- The code units of a string after its opening quote, and what follows the
closing one.  A control character is an error. -/
def stringUnits : Str → Option (JStr × Str)
  | [] => none
  | c :: s =>
      if c = '"' then some ([], s)
      else if c = '\\' then
        match s with
        | [] => none
        | e :: s =>
            if e = 'u' then
              match s with
              | a :: b :: c :: d :: s =>
                  (hex4 a b c d).bind fun n => (stringUnits s).map fun p => (unit n :: p.1, p.2)
              | _ => none
            else
              (unescape e).bind fun x => (stringUnits s).map fun p => (.scalar x :: p.1, p.2)
      else if c.toNat < 32 then none
      else (stringUnits s).map fun p => (.scalar c :: p.1, p.2)

/-- An escaped high surrogate followed by an escaped low one is one character. -/
def joinSurrogates : JStr → JStr
  | .lone h :: .lone l :: s =>
      if h.val < 1024 ∧ 1024 ≤ l.val then
        .scalar (.ofNat (0x10000 + h.val * 1024 + (l.val - 1024))) :: joinSurrogates s
      else .lone h :: joinSurrogates (.lone l :: s)
  | c :: s => c :: joinSurrogates s
  | [] => []

def stringToken (s : Str) : Option (JStr × Str) :=
  (stringUnits s).map fun p => (joinSurrogates p.1, p.2)

/-! ## `json.loads` -/

variable (F : Floats)

/-- A number. -/
def number (s : Str) : Option (Json × Str) :=
  (numberToken s).bind fun (i, f, r) =>
    if f = [] then
      if maxStrDigits < i.countP isDigit then none else some (int (intValue i), r)
    else some (float (F.repr (i ++ f)), r)

/-- The constants, longest first where one starts another. -/
def constants : List (Str × Json) :=
  [("null".toList, null), ("true".toList, bool true), ("false".toList, bool false),
    ("NaN".toList, float "NaN".toList), ("Infinity".toList, float "Infinity".toList),
    ("-Infinity".toList, float "-Infinity".toList)]

/-- A constant or a number. -/
def scalar (s : Str) : Option (Json × Str) :=
  match constants.find? fun p => p.1.isPrefixOf s with
  | some p => some (p.2, s.drop p.1.length)
  | none => number F s

mutual
/-- A value at the head of a text. -/
def value : Nat → Str → Option (Json × Str)
  | 0, _ => none
  | _ + 1, [] => none
  | fuel + 1, c :: s =>
      if c = '"' then (stringToken s).map fun p => (str p.1, p.2)
      else if c = '[' then
        match skipWs s with
        | ']' :: r => some (arr [], r)
        | r => (elements fuel r).map fun p => (arr p.1, p.2)
      else if c = '{' then
        match skipWs s with
        | '}' :: r => some (obj [], r)
        | r => (members fuel r).map fun p => (obj (dictOf p.1), p.2)
      else scalar F (c :: s)

/-- The elements of an array from one of them on, and what follows the bracket. -/
def elements : Nat → Str → Option (List Json × Str)
  | 0, _ => none
  | fuel + 1, s =>
      (value fuel s).bind fun p =>
        match skipWs p.2 with
        | ']' :: r => some ([p.1], r)
        | ',' :: r => (elements fuel (skipWs r)).map fun q => (p.1 :: q.1, q.2)
        | _ => none

/-- The members of an object from one of them on, and what follows the brace. -/
def members : Nat → Str → Option (List (JStr × Json) × Str)
  | 0, _ => none
  | _ + 1, [] => none
  | fuel + 1, c :: s =>
      if c = '"' then
        (stringToken s).bind fun k =>
          match skipWs k.2 with
          | ':' :: r =>
              (value fuel (skipWs r)).bind fun p =>
                match skipWs p.2 with
                | '}' :: r => some ([(k.1, p.1)], r)
                | ',' :: r => (members fuel (skipWs r)).map fun q => ((k.1, p.1) :: q.1, q.2)
                | _ => none
          | _ => none
      else none
end

/-- `json.loads`, `none` where it raises: one value with nothing but whitespace
around it. -/
def loads (s : Str) : Option Json :=
  match value F (2 * s.length + 1) (skipWs s) with
  | some (v, r) => if skipWs r = [] then some v else none
  | none => none

/-! ## `json.dumps` -/

/-- A hexadecimal digit in lower case. -/
def hexDigit (n : Nat) : Char := if n < 10 then Char.ofNat (n + 48) else Char.ofNat (n + 87)

/-- What the encoder writes for a character. -/
def escape (c : Char) : Str :=
  if c = '"' then ['\\', '"']
  else if c = '\\' then ['\\', '\\']
  else if c = '\n' then ['\\', 'n']
  else if c = '\r' then ['\\', 'r']
  else if c = '\t' then ['\\', 't']
  else if c.toNat = 8 then ['\\', 'b']
  else if c.toNat = 12 then ['\\', 'f']
  else if c.toNat < 32 then ['\\', 'u', '0', '0', hexDigit (c.toNat / 16), hexDigit (c.toNat % 16)]
  else [c]

/-- What the encoder writes for a code point; a lone surrogate is shown as U+FFFD,
and `encodable` tells such a text apart. -/
def escapeUnit : JChar → Str
  | .scalar c => escape c
  | .lone _ => [.ofNat 0xFFFD]

/-- A string after its opening quote. -/
def dumpsString (s : JStr) : Str := s.flatMap escapeUnit ++ ['"']

def dumpsInt (n : Int) : Str :=
  if n < 0 then '-' :: Nat.toDigits 10 n.natAbs else Nat.toDigits 10 n.natAbs

mutual
/-- `json.dumps(value, ensure_ascii=False)`. -/
def dumps : Json → Str
  | null => "null".toList
  | bool true => "true".toList
  | bool false => "false".toList
  | int n => dumpsInt n
  | float t => t
  | str s => '"' :: dumpsString s
  | arr [] => ['[', ']']
  | arr (v :: vs) => '[' :: dumps v ++ dumpsElements vs
  | obj [] => ['{', '}']
  | obj ((k, v) :: ms) => '{' :: '"' :: dumpsString k ++ ':' :: ' ' :: dumps v ++ dumpsMembers ms

/-- The elements after the first, and the bracket. -/
def dumpsElements : List Json → Str
  | [] => [']']
  | v :: vs => ',' :: ' ' :: dumps v ++ dumpsElements vs

/-- The members after the first, and the brace. -/
def dumpsMembers : List (JStr × Json) → Str
  | [] => ['}']
  | (k, v) :: ms => ',' :: ' ' :: '"' :: dumpsString k ++ ':' :: ' ' :: dumps v ++ dumpsMembers ms
end

/-- No lone surrogate. -/
def isText (s : JStr) : Bool := s.all fun c => match c with
  | .scalar _ => true
  | .lone _ => false

mutual
/-- `json.dumps(value, ensure_ascii=False).encode()` does not raise: no string of
the value has a lone surrogate. -/
def encodable : Json → Bool
  | null | bool _ | int _ | float _ => true
  | str s => isText s
  | arr vs => encodableList vs
  | obj ms => encodableMembers ms

def encodableList : List Json → Bool
  | [] => true
  | v :: vs => encodable v && encodableList vs

def encodableMembers : List (JStr × Json) → Bool
  | [] => true
  | (k, v) :: ms => isText k && encodable v && encodableMembers ms
end

end Json
end Py
