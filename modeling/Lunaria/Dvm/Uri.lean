import Lunaria.Dvm.CharsetEncode

/-! The texts of `android.net.Uri` in `dvm_runtime.c`: percent-encoding, and the decoder that gathers escaped bytes until
    something else comes or its 64 bytes are full, and then decodes what it has gathered as UTF-8. A C string is the bytes
    before its first zero. Allocation failure is left out. -/

namespace Lunaria.Dvm.Uri
open Charset

def cstr (s : List UInt8) : List UInt8 := s.takeWhile fun c => c ≠ 0

def alphanumeric (c : UInt8) : Prop := (0x41 ≤ c ∧ c ≤ 0x5a) ∨ (0x61 ≤ c ∧ c ≤ 0x7a) ∨ (0x30 ≤ c ∧ c ≤ 0x39)

instance (c : UInt8) : Decidable (alphanumeric c) := inferInstanceAs (Decidable (_ ∨ _ ∨ _))

/-- `URI_UNRESERVED`: `_-!.~'()*`. -/
def uriUnreserved : List UInt8 := [0x5f, 0x2d, 0x21, 0x2e, 0x7e, 0x27, 0x28, 0x29, 0x2a]

/-- The characters that `uri_urlencoder_str` keeps beside letters and digits: `.-*_`. -/
def urlencoderKept : List UInt8 := [0x2e, 0x2d, 0x2a, 0x5f]

def hexDigits : List UInt8 :=
  [0x30, 0x31, 0x32, 0x33, 0x34, 0x35, 0x36, 0x37, 0x38, 0x39, 0x41, 0x42, 0x43, 0x44, 0x45, 0x46]

def escape (c : UInt8) : List UInt8 := [0x25, hexDigits.getD (c >>> 4).toNat 0, hexDigits.getD (c &&& 0xf).toNat 0]

def uriKept (allow : List UInt8) (c : UInt8) : Prop := alphanumeric c ∨ c < 0x80 ∧ (c ∈ uriUnreserved ∨ c ∈ allow)

instance (allow : List UInt8) (c : UInt8) : Decidable (uriKept allow c) := inferInstanceAs (Decidable (_ ∨ _ ∧ _))

def uriEncodeStr (s allow : List UInt8) : List UInt8 :=
  (cstr s).flatMap fun c => if uriKept allow c then [c] else escape c

def uriUrlencoderStr (s : List UInt8) : List UInt8 :=
  (cstr s).flatMap fun c =>
    if alphanumeric c ∨ c ∈ urlencoderKept then [c] else if c = 0x20 then [0x2b] else escape c

def uriHexval (c : UInt8) : Option Nat :=
  if 0x30 ≤ c ∧ c ≤ 0x39 then some (c.toNat - 0x30)
  else if 0x61 ≤ c ∧ c ≤ 0x66 then some (c.toNat - 0x61 + 10)
  else if 0x41 ≤ c ∧ c ≤ 0x46 then some (c.toNat - 0x41 + 10)
  else none

/-! ### UTF-8 with replacement -/

/-- How long the sequence is that a byte begins, and the bits it has of the code point. -/
def seqLead (b : UInt8) : Option (Nat × UInt8) :=
  if b &&& 0xe0 = 0xc0 then some (2, b &&& 0x1f)
  else if b &&& 0xf0 = 0xe0 then some (3, b &&& 0x0f)
  else if b &&& 0xf8 = 0xf0 then some (4, b &&& 0x07)
  else none

/-- The least code point of each length. -/
def seqMin (len : Nat) : Nat := [0, 0, 0x80, 0x800, 0x10000].getD len 0

/-- `uri_utf8_seq`: the length of the well-formed sequence at the front, 0 if there is none. The continuation bytes are read
    as in `wtf8_cp`. -/
def uriUtf8Seq : List UInt8 → Nat
  | [] => 0
  | b :: s =>
    if b < 0x80 then 1
    else
      match seqLead b with
      | none => 0
      | some (len, cp) =>
        if s.length + 1 < len then 0
        else
          match wtf8Tail (len - 1) cp.toNat s with
          | none => 0
          | some cp => if cp < seqMin len ∨ 0x10ffff < cp ∨ (0xd800 ≤ cp ∧ cp ≤ 0xdfff) then 0 else len

def continuation (b : UInt8) : Bool := b &&& 0xc0 = 0x80

/-- How many bytes a lead byte wants, itself among them. -/
def badWant (b : UInt8) : Nat :=
  if b = 0xc0 ∨ b = 0xc1 ∨ 0xf4 < b then 1
  else ((seqLead b).map Prod.fst).getD 1

/-- `uri_utf8_bad`: how many bytes at a malformed place are replaced together. -/
def uriUtf8Bad : List UInt8 → Nat
  | [] => 1
  | b :: s =>
    let k := 1 + ((s.take (badWant b - 1)).takeWhile continuation).length
    if k < badWant b then k else 1

def fffdBytes : List UInt8 := [0xef, 0xbf, 0xbd]

/-- The loop of `uri_dec_flush`, at most `n` times. -/
def flushLoop : Nat → List UInt8 → List UInt8
  | 0, _ => []
  | _ + 1, [] => []
  | n + 1, b :: s =>
    let l := uriUtf8Seq (b :: s)
    if l ≠ 0 then (b :: s).take l ++ flushLoop n ((b :: s).drop l)
    else fffdBytes ++ flushLoop n ((b :: s).drop (uriUtf8Bad (b :: s)))

/-- A buffer decoded as a whole. -/
def utf8Replace (acc : List UInt8) : List UInt8 := flushLoop acc.length acc

/-! ### The decoder -/

structure Decoder where
  out : List UInt8
  acc : List UInt8

def uriDecPut (d : Decoder) (p : List UInt8) : Decoder := { d with out := d.out ++ p }

def uriDecFffd (d : Decoder) : Decoder := uriDecPut d fffdBytes

def uriDecFlush (d : Decoder) : Decoder := ⟨d.out ++ utf8Replace d.acc, []⟩

def uriDecByte (d : Decoder) (b : UInt8) : Decoder :=
  let d := if d.acc.length = 64 then uriDecFlush d else d
  { d with acc := d.acc ++ [b] }

/-- The loop of `uri_decode_n`. -/
def decodeLoop (plus : Bool) : List UInt8 → Decoder → Decoder
  | [], d => d
  | c :: s, d =>
    if c = 0x25 then
      match s with
      | [] => uriDecFffd (uriDecFlush d)
      | a :: s =>
        match uriHexval a with
        | none => decodeLoop plus s (uriDecByte (uriDecFffd (uriDecFlush d)) 0)
        | some v =>
          match s with
          | [] => uriDecFffd (uriDecFlush d)
          | b :: s =>
            match uriHexval b with
            | none => decodeLoop plus s (uriDecByte (uriDecFffd (uriDecFlush d)) (UInt8.ofNat v))
            | some w => decodeLoop plus s (uriDecByte d (UInt8.ofNat (v * 16 + w)))
    else decodeLoop plus s (uriDecPut (uriDecFlush d) [if c = 0x2b ∧ plus then 0x20 else c])

def uriDecodeN (s : List UInt8) (plus : Bool) : List UInt8 := (uriDecFlush (decodeLoop plus s ⟨[], []⟩)).out

end Lunaria.Dvm.Uri
