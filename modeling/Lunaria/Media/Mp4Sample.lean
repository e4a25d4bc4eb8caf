import Lunaria.Media.Mp4

/-! A sample is read into the buffer of the movie, and the units of an AVC sample, which have their lengths before them,
    get start codes instead: in place if a length has four bytes, and else from the back, where the buffer has grown. -/

namespace Lunaria.Media
open Word Checked BigEndian List

/-- Bytes are written over others. -/
def store (buf : List UInt8) (i : Nat) (bytes : List UInt8) : Checked (List UInt8) :=
  if i + bytes.length ≤ buf.length then .ok (buf.take i ++ bytes ++ buf.drop (i + bytes.length)) else .fault

/-- `memmove` inside a buffer. -/
def moveBytes (buf : List UInt8) (dst src n : Nat) : Checked (List UInt8) := do
  let bytes ← readRange buf src n
  store buf dst bytes

def startCode : List UInt8 := [0, 0, 0, 1]

/-- The buffer grows if it is too small. -/
def growBuf (env : Mp4Env) (buf : List UInt8) (need : Nat) : Option (List UInt8) :=
  if buf.length < need then if env.alloc need then some (buf ++ replicate (need - buf.length) 0) else none else some buf

/-- Lengths of four bytes are rewritten in place, for at most so many units. -/
def rewriteFour (need : Nat) : Nat → Nat → List UInt8 → Checked (List UInt8)
  | 0, _, _ => .fail
  | k + 1, off, buf =>
    if off + 4 ≤ need then do
      let n ← rd32 buf off
      let buf ← store buf off startCode
      if need - off - 4 < n then return buf else rewriteFour need k (off + add 32 4 n) buf
    else return buf

/-- The units are counted, and one that is cut with them. -/
def countNals (buf : List UInt8) (nl need : Nat) : Nat → Nat → Nat → Checked Nat
  | 0, _, _ => .fail
  | k + 1, off, nnal =>
    if off + nl ≤ need then do
      let n ← readFrom buf off nl 0
      if need - off - nl < n then return nnal + 1 else countNals buf nl need k (off + nl + n) (nnal + 1)
    else return nnal

/-- The length of the arrays `starts` and `sizes`. -/
def maxNals : Nat := 512

/-- The starts and the sizes of the units, as many as there is room for. -/
def recordNals (buf : List UInt8) (nl need : Nat) : Nat → Nat → Nat → Checked (List (Nat × Nat))
  | 0, _, _ => .fail
  | k + 1, off, count =>
    if off + nl ≤ need ∧ count < maxNals then do
      let n ← readFrom buf off nl 0
      if need - off - nl < n then return []
      else do
        let rest ← recordNals buf nl need k (off + nl + n) (count + 1)
        return (off + nl, n) :: rest
    else return []

/-- The units are moved to their places, the last one first. -/
def moveNals : List (Nat × Nat) → Nat → List UInt8 → Checked (Nat × List UInt8)
  | [], dst, buf => .ok (dst, buf)
  | (start, size) :: rest, dst, buf => do
    let (dst, buf) ← moveNals rest dst buf
    assert (size + 4 ≤ dst)
    let buf ← moveBytes buf (dst - size) start size
    let buf ← store buf (dst - size - 4) startCode
    return (dst - size - 4, buf)

/-- What was moved comes to the front. -/
def toFront (buf : List UInt8) (dst n : Nat) : Checked (List UInt8) := if dst ≠ 0 then moveBytes buf 0 dst n else .ok buf

/-- Lengths of fewer bytes. -/
def expandNals (env : Mp4Env) (nl need : Nat) (buf : List UInt8) : Checked (Option (Nat × List UInt8)) := do
  let nnal ← countNals buf nl need (need + 1) 0 0
  match growBuf env buf (need + nnal * (4 - nl)) with
  | none => return none
  | some buf => do
    let nals ← recordNals buf nl need (need + 1) 0 0
    let (dst, buf) ← moveNals nals (need + nnal * (4 - nl)) buf
    let buf ← toFront buf dst (need + nnal * (4 - nl) - dst)
    return some (need + nnal * (4 - nl) - dst, buf)

/-- The units of a sample get start codes: the length of the sample then, and the buffer. -/
def annexB (env : Mp4Env) (nl need : Nat) (buf : List UInt8) : Checked (Option (Nat × List UInt8)) :=
  if nl = 4 then do
    let buf ← rewriteFour need (need + 1) 0 buf
    return some (need, buf)
  else expandNals env nl need buf

/-- What a caller gets of a sample. -/
structure SampleRead where
  ptsUs : Int64
  sync : Bool
  data : Option (List UInt8)
  deriving DecidableEq

/-- The part of `lm_mp4_sample` that reads the data. A buffer that is not there is no data. -/
def sampleData (env : Mp4Env) (pread : Int64 → Nat → List UInt8) (m : Mp4) (tr : Mp4Track) (s : Mp4Sample) :
    Checked (Option (List UInt8) × Mp4) :=
  match growBuf env m.buf s.size.toNat with
  | none => .ok (none, m)
  | some buf =>
    match lmReadAt pread (m.base + s.offset) s.size.toNat with
    | none => .ok (none, { m with buf })
    | some bytes => do
      let buf ← store buf 0 bytes
      if 0 < tr.nalLen ∧ tr.nalLen ≤ 4 then
        match ← annexB env tr.nalLen s.size.toNat buf with
        | none => return (none, { m with buf })
        | some (need, buf) => return (if buf = [] then none else some (buf.take need), { m with buf })
      else return (if buf = [] then none else some (buf.take s.size.toNat), { m with buf })

/-- `lm_mp4_sample` -/
def lmMp4Sample (env : Mp4Env) (pread : Int64 → Nat → List UInt8) (m : Mp4) (t i : Int) :
    Checked (Option SampleRead × Mp4) :=
  if t < 0 then .ok (none, m)
  else
    match m.tracks[t.toNat]? with
    | none => .ok (none, m)
    | some tr =>
      if i < 0 ∨ tr.ns ≤ i then .ok (none, m)
      else
        match tr.s[i.toNat]? with
        | none => .fault
        | some s => do
          let (data, m) ← sampleData env pread m tr s
          return (some ⟨s.ptsUs, s.sync, data⟩, m)

end Lunaria.Media
