import Lunaria.Binary128.Encoding
import Lunaria.Lib.CText

/-! `parse` of `binary128.c` and the numerals it reads. A string is its bytes without the NUL at the end, which is what
    is read after the last one. -/

namespace Lunaria.Binary128
open CText (toLower)

def ch (c : Char) : UInt8 := UInt8.ofNat c.toNat

/-! ### The parser -/

def isspace (c : UInt8) : Bool := c = ch ' ' ∨ 9 ≤ c ∧ c ≤ 13

def isdigit (c : UInt8) : Bool := ch '0' ≤ c ∧ c ≤ ch '9'

def isalnum (c : UInt8) : Bool := isdigit c ∨ ch 'a' ≤ c ∧ c ≤ ch 'z' ∨ ch 'A' ≤ c ∧ c ≤ ch 'Z'

/-- `*s`. -/
def head (s : List UInt8) : UInt8 := s.headD 0

/-- `ci_prefix`. -/
def ciPrefix : List UInt8 → List Char → Bool
  | _, [] => true
  | p, w :: word => toLower (head p) = ch w ∧ ciPrefix p.tail word

/-- The loop of `parse_exp`: digits are left out once the number has six of them. -/
def expLoop : Nat → List UInt8 → Nat × List UInt8
  | v, [] => (v, [])
  | v, c :: s =>
    if isdigit c then expLoop (if v < 100000 then v * 10 + (c - ch '0').toNat else v) s else (v, c :: s)

def isSign (c : UInt8) : Bool := c = ch '+' ∨ c = ch '-'

/-- `parse_exp`. -/
def parseExp (p : List UInt8) : Int × List UInt8 :=
  let neg := head p = ch '-'
  let (v, s) := expLoop 0 (if isSign (head p) then p.tail else p)
  (if neg then -(v : Int) else v, s)

/-- The digit a character stands for. -/
def digitOf (hex : Bool) (c : UInt8) : Option UInt32 :=
  if ch '0' ≤ c ∧ c ≤ ch '9' then some (c - ch '0').toUInt32
  else if hex ∧ ch 'a' ≤ c ∧ c ≤ ch 'f' then some (c - ch 'a' + 10).toUInt32
  else if hex ∧ ch 'A' ≤ c ∧ c ≤ ch 'F' then some (c - ch 'A' + 10).toUInt32
  else none

def radixOf (hex : Bool) : UInt32 := if hex then 16 else 10

/-- What `parse` keeps while it reads digits. -/
structure Mantissa where
  n : Big
  frac : Int
  any : Bool
  dot : Bool

def Mantissa.init : Mantissa := ⟨bigInit 0, 0, false, false⟩

def mantissaLoop (hex : Bool) : Mantissa → List UInt8 → Mantissa × List UInt8
  | m, [] => (m, [])
  | m, c :: s =>
    match digitOf hex c with
    | some d =>
      mantissaLoop hex
        { n := bigAddSmall (bigMulSmall m.n (radixOf hex)) d
          frac := if m.dot then int (m.frac + 1) else m.frac
          any := true
          dot := m.dot } s
    | none => if m.dot = false ∧ c = ch '.' then mantissaLoop hex { m with dot := true } s else (m, c :: s)

/-- An exponent mark with a digit after it or after its sign. -/
def hasExponent (hex : Bool) (s : List UInt8) : Bool :=
  (hex ∧ (head s = ch 'p' ∨ head s = ch 'P') ∨ ¬ hex ∧ (head s = ch 'e' ∨ head s = ch 'E')) ∧
    isdigit (head (if isSign (head s.tail) then s.tail.tail else s.tail))

/-- The value of a decimal numeral, once it is read. -/
def decimal (fuel : Nat) (neg : Bool) (n : Big) (decExp : Int) : Option Bits :=
  let nbits := bits n
  if 0 ≤ decExp ∧ 16384 * 1000 < (nbits - 1) * 1000 + decExp * 3321 then some (make neg 0x7fff000000000000)
  else if decExp < 0 ∧ nbits * 1000 + decExp * 3321 < -16495 * 1000 then some (make neg 0)
  else if 0 ≤ decExp then pack fuel neg (bigMul n (bigPow5 decExp.toNat)) (bigInit 1) decExp
  else pack fuel neg n (bigPow5 (int (-decExp)).toNat) decExp

/-- The part of `parse` after the sign, for what is neither an infinity nor no number: the bits and where the numeral
    ends, or `none` where there is no digit. -/
def number (fuel : Nat) (neg : Bool) (s : List UInt8) : Option (Option (Bits × List UInt8)) :=
  let hex : Bool := head s = ch '0' ∧ (head s.tail = ch 'x' ∨ head s.tail = ch 'X')
  let (m, s) := mantissaLoop hex .init (if hex then s.tail.tail else s)
  if m.any = false then some none
  else
    let (exponent, s) := if hasExponent hex s then parseExp s.tail else (0, s)
    let r :=
      if hex then pack fuel neg m.n (bigInit 1) (int (exponent - int (4 * m.frac)))
      else decimal fuel neg m.n (int (exponent - m.frac))
    r.map fun r => some (r, s)

/-- The end of a NaN with its optional characters in parentheses. -/
def nanEnd (s : List UInt8) : List UInt8 :=
  if head s = ch '(' then
    let q := s.tail.dropWhile fun c => isalnum c ∨ c = ch '_'
    if head q = ch ')' then q.tail else s
  else s

/-- `parse`: the bits and the rest of the string from `*end` on. -/
def parse (fuel : Nat) (original : List UInt8) : Option (Bits × List UInt8) :=
  let s := original.dropWhile isspace
  let neg : Bool := head s = ch '-'
  let s := if isSign (head s) then s.tail else s
  if ciPrefix s ['i', 'n', 'f'] then
    let s := s.drop 3
    some (make neg 0x7fff000000000000, if ciPrefix s ['i', 'n', 'i', 't', 'y'] then s.drop 5 else s)
  else if ciPrefix s ['n', 'a', 'n'] then some (make neg 0x7fff800000000000, nanEnd (s.drop 3))
  else (number fuel neg s).map fun r => r.getD (make false 0, original)

end Lunaria.Binary128
