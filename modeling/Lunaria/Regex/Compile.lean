import Lunaria.Regex.Match

/-! What the compiler of `dvm/regex.c` reads a pattern with: the bytes and code points at a place, the flags in force, and
    the space and comments that one of them lets it pass over. -/

namespace Lunaria.Regex

/-- The flags that the compiler looks at. -/
structure Flags where
  unixLines : Bool
  icase : Bool
  comments : Bool
  multiline : Bool
  literal : Bool
  dotall : Bool
  deriving DecidableEq

def nodeStamp (flags : Flags) : Stamp := ⟨flags.icase, flags.dotall, flags.multiline, flags.unixLines⟩

/-- A message of `fail` and the index it is near. -/
structure RxError where
  what : String
  index : Nat
  deriving DecidableEq

section
variable (src : List UInt8)

def atEnd (p : Nat) : Bool := src.length ≤ p

def peek (p : Nat) : UInt8 := if atEnd src p then 0 else byteAt src p

/-- `rx_u8` on what is left of the pattern: the code point and the place after it. -/
def pointAt (p : Nat) : Nat × Nat :=
  let (cp, i) := rxU8 (src.drop p) (src.length - p) 0
  (cp, p + i)

def isSpace (c : UInt8) : Bool := c = 0x20 || c = 0x09 || c = 0x0a || c = 0x0d || c = 0x0c

/-- The loop of `skip_x`: whitespace and comments, which go to the end of the line. -/
def skipLoop : Nat → Bool → Nat → Nat
  | 0, _, p => p
  | fuel + 1, inComment, p =>
    if atEnd src p then p
    else if inComment then skipLoop fuel (byteAt src p != 0x0a) (if byteAt src p = 0x0a then p else p + 1)
    else if isSpace (byteAt src p) then skipLoop fuel false (p + 1)
    else if byteAt src p = 0x23 then skipLoop fuel true p
    else p

def skipX (flags : Flags) (p : Nat) : Nat := if flags.comments then skipLoop src (3 * src.length + 1) false p else p

/-- A code point that is matched once. -/
def charNode (stamp : Stamp) (cp : Nat) : Node := .mk (.char cp) .greedy stamp 1 1

def isDigit (c : UInt8) : Bool := 0x30 ≤ c && c ≤ 0x39

end

/-- The code points from a place on. -/
def pointsFrom (s : List UInt8) : Nat → Nat → List Nat
  | 0, _ => []
  | fuel + 1, i =>
    if s.length ≤ i then []
    else (rxU8 s s.length i).1 :: pointsFrom s fuel (rxU8 s s.length i).2

end Lunaria.Regex
