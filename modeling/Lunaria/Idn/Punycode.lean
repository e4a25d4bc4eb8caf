import Mathlib.Data.List.InsertIdx
import Mathlib.Data.List.TakeWhile

/-! The punycode coder of `luna_unicode.c`, which turns a label of a domain name into ASCII and back. The numbers of the
    source are 64-bit and stay far below that where they are not checked; memory is there. -/

namespace Lunaria.Idn

/-- A C string: the bytes before its end mark. -/
structure CString where
  bytes : List UInt8
  nonul : 0 ∉ bytes
  deriving DecidableEq

theorem not_mem_takeWhile (buf : List UInt8) : 0 ∉ buf.takeWhile (· ≠ 0) := by
  intro h
  simpa using List.mem_takeWhile_imp h

/-- What `strdup` copies of a buffer. -/
def strdup (buf : List UInt8) : CString := ⟨buf.takeWhile (· ≠ 0), not_mem_takeWhile buf⟩

/-- The string that starts `n` characters later. -/
def CString.drop (s : CString) (n : Nat) : CString := ⟨s.bytes.drop n, fun h => s.nonul (List.mem_of_mem_drop h)⟩

/-- The place of the last `c`. -/
def strrchr (c : UInt8) : List UInt8 → Option Nat
  | [] => none
  | b :: s =>
    match strrchr c s with
    | some k => some (k + 1)
    | none => if b = c then some 0 else none

def uint32Max : Nat := 0xffffffff

/-- The character `'-'`. -/
def dash : UInt8 := 0x2d

/-- The loop of `adapt`, which 64 rounds always finish. -/
def adaptLoop : Nat → Nat → Nat → Nat × Nat
  | 0, delta, k => (delta, k)
  | fuel + 1, delta, k => if 455 < delta then adaptLoop fuel (delta / 35) (k + 36) else (delta, k)

def adapt (delta count : Nat) (first : Bool) : Nat :=
  let delta := if first then delta / 700 else delta / 2
  let delta := delta + delta / count
  let (delta, k) := adaptLoop 64 delta 0
  k + 36 * delta / (delta + 38)

def digit (d : Nat) : UInt8 := UInt8.ofNat (if d < 26 then 0x61 + d else 0x30 + d - 26)

/-- `undigit`, with `none` for -1. -/
def undigit (c : UInt8) : Option Nat :=
  if 0x61 ≤ c ∧ c ≤ 0x7a then some (c.toNat - 0x61)
  else if 0x41 ≤ c ∧ c ≤ 0x5a then some (c.toNat - 0x41)
  else if 0x30 ≤ c ∧ c ≤ 0x39 then some (c.toNat - 0x30 + 26)
  else none

/-- The `t` of both coders. -/
def threshold (bias k : Nat) : Nat := if k ≤ bias then 1 else if bias + 26 ≤ k then 26 else k - bias

/-! ### `puny_encode` -/

/-- `if (w == 63) return NULL; out[w++] = c;` -/
def put (out : List UInt8) (c : UInt8) : Option (List UInt8) := if out.length = 63 then none else some (out ++ [c])

/-- The loop that writes a number. Every round writes a character, and the buffer is full after 63. -/
def encodeInt (bias : Nat) : Nat → Nat → Nat → List UInt8 → Option (List UInt8)
  | 0, _, _, _ => none
  | fuel + 1, k, q, out =>
    let t := threshold bias k
    if q < t then put out (digit q)
    else do
      let out ← put out (digit (t + (q - t) % (36 - t)))
      encodeInt bias fuel (k + 36) ((q - t) / (36 - t)) out

/-- The variables of `puny_encode`. -/
structure Encoder where
  out : List UInt8
  h : Nat
  bias : Nat
  delta : Nat
  deriving DecidableEq

/-- The body of the loop over the points for one `n`. -/
def encodePoint (basic n : Nat) (e : Encoder) (p : Nat) : Option Encoder :=
  let delta := if p < n then e.delta + 1 else e.delta
  if p < n ∧ uint32Max < delta then none
  else if p = n then do
    let out ← encodeInt e.bias 64 36 delta e.out
    some ⟨out, e.h + 1, adapt delta (e.h + 1) (e.h = basic), 0⟩
  else some { e with delta := delta }

/-- The smallest point from `n` on. -/
def smallest (v : List Nat) (n : Nat) : Nat := v.foldl (fun m p => if n ≤ p ∧ p < m then p else m) uint32Max

/-- The loop over `n`. Every round codes a point. -/
def encodeLoop (v : List Nat) (basic : Nat) : Nat → Nat → Encoder → Option Encoder
  | 0, _, e => if e.h < v.length then none else some e
  | fuel + 1, n, e =>
    if e.h < v.length then do
      let m := smallest v n
      let delta := e.delta + (m - n) * (e.h + 1)
      if uint32Max < delta then none
      let e ← v.foldlM (encodePoint basic m) { e with delta := delta }
      encodeLoop v basic fuel (m + 1) { e with delta := e.delta + 1 }
    else some e

/-- The bytes `xn--`. -/
def xn : List UInt8 := [0x78, 0x6e, dash, dash]

/-- `puny_encode`, up to `out[w] = 0`. -/
def encodeOut (v : List Nat) : Option (List UInt8) := do
  let out ← v.foldlM (fun out p => if p < 128 then put out (UInt8.ofNat p) else some out) xn
  let basic := v.countP (· < 128)
  let out ← (if basic ≠ 0 then put out dash else some out)
  let e ← encodeLoop v basic v.length 128 ⟨out, basic, 72, 0⟩
  some e.out

def punyEncode (v : List Nat) : Option CString := (encodeOut v).map strdup

/-! ### `puny_decode` -/

/-- The loop that reads a number: the new `i` and the characters after it. -/
def decodeInt (bias : Nat) : Nat → Nat → Nat → List UInt8 → Option (Nat × List UInt8)
  | _, _, _, [] => none
  | k, i, weight, c :: s =>
    match undigit c with
    | none => none
    | some d =>
      if (uint32Max - i) / (if d = 0 then 1 else d) < weight then none
      else
        let i := i + d * weight
        let t := threshold bias k
        if d < t then some (i, s)
        else if uint32Max / (36 - t) < weight then none
        else decodeInt bias (k + 36) i (weight * (36 - t)) s

theorem decodeInt_length {bias k i weight i' : Nat} {s rest : List UInt8}
    (h : decodeInt bias k i weight s = some (i', rest)) : rest.length < s.length := by
  induction s generalizing k i weight with
  | nil => cases h
  | cons c s ih =>
    rw [decodeInt] at h
    cases hd : undigit c with
    | none =>
      rw [hd] at h
      cases h
    | some d =>
      rw [hd] at h
      obtain ⟨-, h⟩ := Option.ite_none_left_eq_some.1 h
      by_cases hlast : d < threshold bias k
      · rw [if_pos hlast] at h
        cases h
        exact Nat.lt_succ_self _
      · rw [if_neg hlast] at h
        obtain ⟨-, h⟩ := Option.ite_none_left_eq_some.1 h
        exact Nat.lt_succ_of_lt (ih h)

/-- The loop over the numbers, each of which inserts a point. -/
def decodeLoop (v : List Nat) (n i bias : Nat) (s : List UInt8) : Option (List Nat) :=
  if s = [] then some v
  else
    match _h : decodeInt bias 36 i 1 s with
    | none => none
    | some (at', rest) =>
      let bias := adapt (at' - i) (v.length + 1) (i = 0)
      let n := n + at' / (v.length + 1)
      let i := at' % (v.length + 1)
      if 0x10ffff < n ∨ (0xd800 ≤ n ∧ n ≤ 0xdfff) then none
      else decodeLoop (v.insertIdx i n) n (i + 1) bias rest
termination_by s.length
decreasing_by exact decodeInt_length _h

/-- The characters before the last dash, which are points themselves, and those after it. -/
def splitBasic (s : List UInt8) : List UInt8 × List UInt8 :=
  match strrchr dash s with
  | some k => (s.take k, s.drop (k + 1))
  | none => ([], s)

def punyDecode (s : CString) : Option (List Nat) :=
  let (basic, rest) := splitBasic s.bytes
  if basic.any (0x80 ≤ ·) then none else decodeLoop (basic.map (·.toNat)) 128 0 72 rest

end Lunaria.Idn
