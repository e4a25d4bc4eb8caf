import Mathlib.Data.UInt

/-! The text of the regex engine of `dvm/regex.c`: bytes that are read as UTF-8, in which a byte that is not part of a
    sequence stands for itself. -/

namespace Lunaria.Regex

/-- A byte of a text; what stands after its end is never looked at. -/
def byteAt (s : List UInt8) (i : Nat) : UInt8 := s.getD i 0

/-- How many bytes follow a lead byte, and the bits it has of the code point. -/
def leadByte (c : UInt8) : Option (Nat × Nat) :=
  if c &&& 0xe0 = 0xc0 then some (1, (c &&& 0x1f).toNat)
  else if c &&& 0xf0 = 0xe0 then some (2, (c &&& 0x0f).toNat)
  else if c &&& 0xf8 = 0xf0 then some (3, (c &&& 0x07).toNat)
  else none

/-- The code point of `cp` and `n` following bytes from `i` on, if they follow. -/
def followBytes (s : List UInt8) : Nat → Nat → Nat → Option Nat
  | 0, _, cp => some cp
  | n + 1, i, cp =>
    if byteAt s i &&& 0xc0 ≠ 0x80 then none
    else followBytes s n (i + 1) ((cp <<< 6) ||| (byteAt s i &&& 0x3f).toNat)

/-- `rx_u8`: the code point at `i` and the place after it. -/
def rxU8 (s : List UInt8) (len i : Nat) : Nat × Nat :=
  let c := byteAt s i
  if c < 0x80 then (c.toNat, i + 1)
  else
    match leadByte c with
    | none => (c.toNat, i + 1)
    | some (need, cp) =>
      if len - i ≤ need then (c.toNat, i + 1)
      else
        match followBytes s need (i + 1) cp with
        | none => (c.toNat, i + 1)
        | some cp => (cp, i + need + 1)

/-- The loop of `rx_u8_prev`. -/
def prevFrom (s : List UInt8) (i : Nat) : Nat → Nat
  | 0 => 0
  | j + 1 => if byteAt s j &&& 0xc0 ≠ 0x80 then j else if 4 ≤ i - j then j else prevFrom s i j

def rxU8Prev (s : List UInt8) (i : Nat) : Nat := prevFrom s i i

theorem rxU8_gt (s : List UInt8) (len i : Nat) : i < (rxU8 s len i).2 := by
  rw [rxU8]
  split
  · exact Nat.lt_succ_self i
  · split
    · exact Nat.lt_succ_self i
    · split
      · exact Nat.lt_succ_self i
      · split
        · exact Nat.lt_succ_self i
        · exact Nat.lt_succ_of_le (Nat.le_add_right _ _)

theorem leadByte_need {c : UInt8} {need cp : Nat} (h : leadByte c = some (need, cp)) : need ≤ 3 := by
  rw [leadByte] at h
  split at h
  · cases h
    decide
  · split at h
    · cases h
      decide
    · split at h
      · cases h
        decide
      · cases h

/-- A code point ends within the text, and after at most four bytes. -/
theorem rxU8_le (s : List UInt8) {len i : Nat} (h : i < len) : (rxU8 s len i).2 ≤ len ∧ (rxU8 s len i).2 ≤ i + 4 := by
  rw [rxU8]
  split
  · exact ⟨h, by omega⟩
  · split
    · exact ⟨h, by omega⟩
    · rename_i need cp hlead
      have := leadByte_need hlead
      split
      · exact ⟨h, by omega⟩
      · split
        · exact ⟨h, by omega⟩
        · dsimp only
          omega

/-! ### Case -/

def rxLower (c : Nat) : Nat :=
  if c < 128 then (if 0x41 ≤ c ∧ c ≤ 0x5a then c + 32 else c)
  else if (0xc0 ≤ c ∧ c ≤ 0xde) ∧ c ≠ 0xd7 then c + 32
  else if 0x100 ≤ c ∧ c ≤ 0x177 then (if c % 2 = 1 then c else c + 1)
  else if 0x391 ≤ c ∧ c ≤ 0x3ab then c + 32
  else if 0x410 ≤ c ∧ c ≤ 0x42f then c + 32
  else if 0x400 ≤ c ∧ c ≤ 0x40f then c + 80
  else c

def rxUpper (c : Nat) : Nat :=
  if c < 128 then (if 0x61 ≤ c ∧ c ≤ 0x7a then c - 32 else c)
  else if (0xe0 ≤ c ∧ c ≤ 0xfe) ∧ c ≠ 0xf7 then c - 32
  else if 0x100 ≤ c ∧ c ≤ 0x177 then (if c % 2 = 1 then c - 1 else c)
  else if 0x3b1 ≤ c ∧ c ≤ 0x3cb then c - 32
  else if 0x430 ≤ c ∧ c ≤ 0x44f then c - 32
  else if 0x450 ≤ c ∧ c ≤ 0x45f then c - 80
  else c

def rxCpEq (a b : Nat) (icase : Bool) : Bool :=
  a = b || (icase && (rxLower a = rxLower b || rxUpper a = rxUpper b))

/-! ### Character classes -/

structure Cls where
  ranges : List (Nat × Nat)
  negate : Bool
  deriving DecidableEq

def clsHas (c : Cls) (cp : Nat) : Bool := c.ranges.any fun (lo, hi) => lo ≤ cp && cp ≤ hi

def clsTest (c : Cls) (cp : Nat) (icase : Bool) : Bool :=
  let inside := clsHas c cp || (icase && (clsHas c (rxLower cp) || clsHas c (rxUpper cp)))
  if c.negate then !inside else inside

def isWord (cp : Nat) : Bool :=
  (0x61 ≤ cp && cp ≤ 0x7a) || (0x41 ≤ cp && cp ≤ 0x5a) || (0x30 ≤ cp && cp ≤ 0x39) || cp == 0x5f

def isTerm (cp : Nat) (unixLines : Bool) : Bool :=
  if unixLines then cp == 0x0a else cp == 0x0a || cp == 0x0d || cp == 0x85 || cp == 0x2028 || cp == 0x2029

end Lunaria.Regex
