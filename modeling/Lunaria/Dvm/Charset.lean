import Mathlib.Data.Nat.Bitwise
import Mathlib.Algebra.Order.Ring.Nat

/-! The built-in charsets of `charset.c`: the decoding of a whole byte array to WTF-8, and the decoder that pulls
    its bytes one at a time. Lengths and code points are far below the sizes of their C types and are plain numbers. -/

namespace Lunaria.Dvm.Charset

/-- The charsets done in `charset.c` itself. -/
inductive Kind where
  | utf8
  | latin1
  | ascii
  | utf16
  | utf16be
  | utf16le
deriving DecidableEq

/-- `JCS_FFFD`. -/
def fffd : Nat := 0xfffd

/-! ### WTF-8 -/

def putCp (cp : Nat) : List UInt8 :=
  if cp < 0x80 then [UInt8.ofNat cp]
  else if cp < 0x800 then [UInt8.ofNat (0xc0 ||| cp >>> 6), UInt8.ofNat (0x80 ||| cp &&& 0x3f)]
  else if cp < 0x10000 then
    [UInt8.ofNat (0xe0 ||| cp >>> 12), UInt8.ofNat (0x80 ||| cp >>> 6 &&& 0x3f), UInt8.ofNat (0x80 ||| cp &&& 0x3f)]
  else
    [UInt8.ofNat (0xf0 ||| cp >>> 18), UInt8.ofNat (0x80 ||| cp >>> 12 &&& 0x3f),
      UInt8.ofNat (0x80 ||| cp >>> 6 &&& 0x3f), UInt8.ofNat (0x80 ||| cp &&& 0x3f)]

/-- `jcs_utf16_to_wtf8`. -/
def utf16ToWtf8 : List UInt16 → List UInt8
  | [] => []
  | [c] => putCp c.toNat
  | c :: l :: us =>
    if 0xd800 ≤ c ∧ c ≤ 0xdbff ∧ 0xdc00 ≤ l ∧ l ≤ 0xdfff then
      putCp (0x10000 + (c.toNat - 0xd800) <<< 10 + (l.toNat - 0xdc00)) ++ utf16ToWtf8 us
    else putCp c.toNat ++ utf16ToWtf8 (l :: us)

/-- The continuation bytes of `wtf8_cp`: `none` where one is missing or is not a continuation byte. -/
def wtf8Tail : Nat → Nat → List UInt8 → Option Nat
  | 0, cp, _ => some cp
  | _ + 1, _, [] => none
  | need + 1, cp, b :: s => if b &&& 0xc0 ≠ 0x80 then none else wtf8Tail need (cp <<< 6 ||| (b &&& 0x3f).toNat) s

/-- `wtf8_cp` on `b` and the bytes after it: the code point and its width. -/
def wtf8Cp (b : UInt8) (s : List UInt8) : Nat × Nat :=
  if b < 0x80 then (b.toNat, 1)
  else if b &&& 0xe0 = 0xc0 then tail 1 (b &&& 0x1f)
  else if b &&& 0xf0 = 0xe0 then tail 2 (b &&& 0x0f)
  else if b &&& 0xf8 = 0xf0 then tail 3 (b &&& 0x07)
  else (fffd, 1)
where
  tail (need : Nat) (cp : UInt8) : Nat × Nat :=
    match wtf8Tail need cp.toNat s with
    | none => (fffd, 1)
    | some cp => (cp, need + 1)

theorem wtf8Cp_pos (b : UInt8) (s : List UInt8) : 0 < (wtf8Cp b s).2 := by
  have htail : ∀ need cp, 0 < (wtf8Cp.tail s need cp).2 := by
    intro need cp
    unfold wtf8Cp.tail
    split <;> simp
  unfold wtf8Cp
  split_ifs <;> first | exact htail _ _ | exact Nat.one_pos

/-- The units of a code point, as `jcs_wtf8_to_utf16` and `push_cp` write them. -/
def cpUnits (cp : Nat) : List UInt16 :=
  if 0x10000 ≤ cp then
    [UInt16.ofNat (0xd800 + (cp - 0x10000) >>> 10), UInt16.ofNat (0xdc00 + (cp - 0x10000 &&& 0x3ff))]
  else [UInt16.ofNat cp]

/-- `jcs_wtf8_to_utf16`. -/
def wtf8ToUtf16 : List UInt8 → List UInt16
  | [] => []
  | b :: s => cpUnits (wtf8Cp b s).1 ++ wtf8ToUtf16 ((b :: s).drop (wtf8Cp b s).2)
termination_by l => l.length
decreasing_by
  have := wtf8Cp_pos b s
  simp only [List.length_drop, List.length_cons]
  omega

/-! ### Whole arrays -/

/-- `utf8_lead`: how many continuation bytes follow, and the range of the first. -/
def utf8Lead (b : UInt8) : Nat × UInt8 × UInt8 :=
  if 0xc2 ≤ b ∧ b ≤ 0xdf then (1, 0x80, 0xbf)
  else if b = 0xe0 then (2, 0xa0, 0xbf)
  else if (0xe1 ≤ b ∧ b ≤ 0xec) ∨ b = 0xee ∨ b = 0xef then (2, 0x80, 0xbf)
  else if b = 0xed then (2, 0x80, 0x9f)
  else if b = 0xf0 then (3, 0x90, 0xbf)
  else if 0xf1 ≤ b ∧ b ≤ 0xf3 then (3, 0x80, 0xbf)
  else if b = 0xf4 then (3, 0x80, 0x8f)
  else (0, 0, 0)

/-- The inner loop of `utf8_decode`: how many of the wanted bytes are there. -/
def utf8Got : Nat → UInt8 → UInt8 → List UInt8 → Nat
  | 0, _, _, _ => 0
  | _ + 1, _, _, [] => 0
  | need + 1, lo, hi, c :: s => if lo ≤ c ∧ c ≤ hi then utf8Got need 0x80 0xbf s + 1 else 0

def utf8Decode : List UInt8 → List UInt8
  | [] => []
  | b :: s =>
    if b < 0x80 then b :: utf8Decode s
    else
      let (need, lo, hi) := utf8Lead b
      let got := utf8Got need lo hi s
      (if need ≠ 0 ∧ got = need then b :: s.take got else putCp fffd) ++ utf8Decode (s.drop got)
termination_by l => l.length
decreasing_by
  · simp
  · simp only [List.length_drop, List.length_cons]
    omega

/-- The units of `utf16_decode` before the surrogates are looked at. -/
def utf16Units (little : Bool) : List UInt8 → List UInt16
  | b0 :: b1 :: s =>
    (if little then UInt16.ofNat (b0.toNat ||| b1.toNat <<< 8) else UInt16.ofNat (b0.toNat <<< 8 ||| b1.toNat)) ::
      utf16Units little s
  | _ => []

/-- A surrogate that is not half of a pair is malformed input. -/
def replaceLone : List UInt16 → List UInt16
  | [] => []
  | [c] => [if 0xd800 ≤ c ∧ c ≤ 0xdfff then UInt16.ofNat fffd else c]
  | c :: l :: us =>
    if 0xd800 ≤ c ∧ c ≤ 0xdbff ∧ 0xdc00 ≤ l ∧ l ≤ 0xdfff then c :: l :: replaceLone us
    else (if 0xd800 ≤ c ∧ c ≤ 0xdfff then UInt16.ofNat fffd else c) :: replaceLone (l :: us)

/-- Where the units start and in which order their bytes are: `i` and `little` of `utf16_decode`. -/
def utf16Start (kind : Kind) (bytes : List UInt8) : Nat × Bool :=
  match kind, bytes with
  | .utf16, 0xfe :: 0xff :: _ => (2, false)
  | .utf16, 0xff :: 0xfe :: _ => (2, true)
  | kind, _ => (0, kind = .utf16le)

def utf16Decode (kind : Kind) (bytes : List UInt8) : List UInt8 :=
  let (i, little) := utf16Start kind bytes
  let s := bytes.drop i
  -- an odd trailing byte
  let odd := if s.length % 2 = 1 then [UInt16.ofNat fffd] else []
  utf16ToWtf8 (replaceLone (utf16Units little s) ++ odd)

/-- `jcs_decode`. -/
def decode (kind : Kind) (bytes : List UInt8) : List UInt8 :=
  match kind with
  | .utf8 => utf8Decode bytes
  | .latin1 | .ascii =>
    bytes.flatMap fun b => putCp (if kind = .ascii ∧ 0x80 ≤ b then fffd else b.toNat)
  | .utf16 | .utf16be | .utf16le => utf16Decode kind bytes

/-! ### One byte at a time -/

/-- `struct jcs_decoder`. The pushed-back byte is `-3` where there is none, the pushed-back unit `-1`. -/
structure Decoder where
  kind : Kind
  q : Fin 16 → UInt16
  qh : Nat
  qn : Nat
  held : Int
  heldUnit : Int
  bomDone : Bool
  little : Bool
  done : Bool

/-- `jcs_decoder_new`. -/
def Decoder.new (kind : Kind) : Decoder where
  kind := kind
  q := fun _ => 0
  qh := 0
  qn := 0
  held := -3
  heldUnit := -1
  bomDone := false
  little := kind = .utf16le
  done := false

def dqPush (d : Decoder) (u : UInt16) : Decoder :=
  if d.qn < 16 then { d with q := Function.update d.q (Fin.ofNat 16 (d.qh + d.qn)) u, qn := d.qn + 1 } else d

def dqPop (d : Decoder) : UInt16 × Decoder :=
  (d.q (Fin.ofNat 16 d.qh), { d with qh := (d.qh + 1) % 16, qn := d.qn - 1 })

/-- The units decoded and not yet handed out. -/
def Decoder.queued (d : Decoder) : List UInt16 := (List.range d.qn).map fun i => d.q (Fin.ofNat 16 (d.qh + i))

def pushCp (d : Decoder) (cp : Nat) : Decoder := (cpUnits cp).foldl dqPush d

section Stream
variable {σ : Type} (nextByte : σ → Int × σ)

def decByte (d : Decoder) (ctx : σ) : Int × Decoder × σ :=
  if d.held ≠ -3 then (d.held, { d with held := -3 }, ctx)
  else
    let (b, ctx) := nextByte ctx
    (b, d, ctx)

theorem decByte_bomDone (d : Decoder) (ctx : σ) : (decByte nextByte d ctx).2.1.bomDone = d.bomDone := by
  unfold decByte
  split <;> rfl

/-- The loop of `dec_unit16`. It goes round again only after a byte-order mark, which is looked for once. -/
def decUnit16Loop (d : Decoder) (ctx : σ) : Int × Decoder × σ :=
  let r0 := decByte nextByte d ctx
  let b0 := r0.1
  if b0 < 0 then r0
  else
    let r1 := decByte nextByte r0.2.1 r0.2.2
    let b1 := r1.1
    let d1 := r1.2.1
    if b1 = -2 then (-2, d1, r1.2.2)
    else if b1 < 0 then (fffd, d1, r1.2.2)
    else
      let unit (d : Decoder) : Int :=
        if d.little then (b0.toNat ||| b1.toNat <<< 8 : Nat) else (b0.toNat <<< 8 ||| b1.toNat : Nat)
      if _h : d1.kind = .utf16 ∧ d1.bomDone = false then
        let d2 := { d1 with bomDone := true }
        if b0 = 0xfe ∧ b1 = 0xff then decUnit16Loop d2 r1.2.2
        else if b0 = 0xff ∧ b1 = 0xfe then decUnit16Loop { d2 with little := true } r1.2.2
        else (unit d2, d2, r1.2.2)
      else (unit d1, d1, r1.2.2)
termination_by if d.bomDone then 0 else 1
decreasing_by
  all_goals
    have hnot : d.bomDone = false := by
      rw [← decByte_bomDone nextByte d ctx, ← decByte_bomDone nextByte r0.2.1 r0.2.2]
      exact _h.2
    simp [hnot]

def decUnit16 (d : Decoder) (ctx : σ) : Int × Decoder × σ :=
  if 0 ≤ d.heldUnit then (d.heldUnit, { d with heldUnit := -1 }, ctx) else decUnit16Loop nextByte d ctx

/-- How the continuation bytes of a sequence end: reading failed, a byte that is not one of them is pushed back, or
    the code point. -/
inductive Tail where
  | failed
  | broken
  | whole (cp : Nat)

/-- The loop over continuation bytes of `dec_fill`. -/
def decTail : Nat → UInt8 → UInt8 → Nat → Decoder → σ → Tail × Decoder × σ
  | 0, _, _, cp, d, ctx => (.whole cp, d, ctx)
  | need + 1, lo, hi, cp, d, ctx =>
    let r := decByte nextByte d ctx
    let c := r.1
    if c = -2 then (.failed, r.2)
    else if c < 0 ∨ c < lo.toNat ∨ (hi.toNat : Int) < c then (.broken, { r.2.1 with held := c }, r.2.2)
    else decTail need 0x80 0xbf (cp <<< 6 ||| c.toNat &&& 0x3f) r.2.1 r.2.2

/-- `dec_fill`: at least one more unit, `-1` at the end of the input, `-2` where reading failed. -/
def decFill (d : Decoder) (ctx : σ) : Int × Decoder × σ :=
  if d.done then (-1, d, ctx)
  else
    match d.kind with
    | .utf8 =>
      let r := decByte nextByte d ctx
      let b := r.1
      let d := r.2.1
      if b < 0 then (b, if b = -1 then { d with done := true } else d, r.2.2)
      else if b < 0x80 then (0, dqPush d (UInt16.ofNat b.toNat), r.2.2)
      else
        let (need, lo, hi) := utf8Lead (UInt8.ofNat b.toNat)
        let cp := if need = 1 then b.toNat &&& 0x1f else if need = 2 then b.toNat &&& 0x0f else b.toNat &&& 0x07
        match decTail nextByte need lo hi cp d r.2.2 with
        | (.failed, d, ctx) => (-2, d, ctx)
        | (.broken, d, ctx) => (0, pushCp d fffd, ctx)
        | (.whole cp, d, ctx) => (0, pushCp d (if 0 < need then cp else fffd), ctx)
    | .latin1 | .ascii =>
      let r := decByte nextByte d ctx
      let b := r.1
      let d := r.2.1
      if b < 0 then (b, if b = -1 then { d with done := true } else d, r.2.2)
      else (0, dqPush d (UInt16.ofNat (if d.kind = .ascii ∧ 0x80 ≤ b then fffd else b.toNat)), r.2.2)
    | .utf16 | .utf16be | .utf16le =>
      let r := decUnit16 nextByte d ctx
      let u := r.1
      if u < 0 then r
      else if 0xd800 ≤ u ∧ u ≤ 0xdbff then
        let r' := decUnit16 nextByte r.2.1 r.2.2
        let l := r'.1
        let d := r'.2.1
        if l = -2 then r'
        else if 0xdc00 ≤ l ∧ l ≤ 0xdfff then
          (0, dqPush (dqPush d (UInt16.ofNat u.toNat)) (UInt16.ofNat l.toNat), r'.2.2)
        else
          -- the unit after a lone high surrogate is decoded on its own next time
          let d := dqPush d (UInt16.ofNat fffd)
          (0, if 0 ≤ l then { d with heldUnit := l } else d, r'.2.2)
      else (0, dqPush r.2.1 (UInt16.ofNat (if 0xdc00 ≤ u ∧ u ≤ 0xdfff then fffd else u.toNat)), r.2.2)

/-- `jcs_decoder_next`. -/
def decoderNext (d : Decoder) (ctx : σ) : Int × Decoder × σ :=
  let pop (d : Decoder) (ctx : σ) : Int × Decoder × σ :=
    let (u, d) := dqPop d
    (u.toNat, d, ctx)
  if d.qn = 0 then
    let r := decFill nextByte d ctx
    if r.1 < 0 ∧ r.2.1.qn = 0 then r else pop r.2.1 r.2.2
  else pop d ctx

/-- Calling `jcs_decoder_next` until it returns `-1` gives these units. -/
inductive Delivers : Decoder → σ → List UInt16 → Prop
  | stop {d d' : Decoder} {ctx ctx' : σ} : decoderNext nextByte d ctx = (-1, d', ctx') → Delivers d ctx []
  | unit {d d' : Decoder} {ctx ctx' : σ} {u : UInt16} {us : List UInt16} :
      decoderNext nextByte d ctx = ((u.toNat : Int), d', ctx') → Delivers d' ctx' us → Delivers d ctx (u :: us)

end Stream

/-- A callback that yields the bytes and then `-1` for ever. -/
def listByte : List UInt8 → Int × List UInt8
  | [] => (-1, [])
  | b :: s => (b.toNat, s)

end Lunaria.Dvm.Charset
