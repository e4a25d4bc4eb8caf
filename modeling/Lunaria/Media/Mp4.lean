import Lunaria.Lib.BigEndian
import Lunaria.Lib.Word

/-! The sample tables of the MP4 demuxer: what is read of the boxes of a track, and the table of samples that is built of
    them. A place in `moov` is its offset, and a read outside of it is a fault. Signed sums wrap. -/

namespace Lunaria.Media
open Word Checked BigEndian

/-- What the demuxer needs of its surroundings: whether an allocation succeeds, and times in floating point. -/
structure Mp4Env where
  alloc : Nat → Bool
  /-- `(int64_t)((double)t * 1000000.0 / (double)timescale)` -/
  us : Int → Nat → Int64

def rd32 (p : List UInt8) (i : Nat) : Checked Nat := readFrom p i 4 0

def rd64 (p : List UInt8) (i : Nat) : Checked Nat := readFrom p i 8 0

/-! ### Tracks -/

/-- `lm_mp4_sample` -/
structure Mp4Sample where
  offset : Int64
  size : UInt32
  ptsUs : Int64
  sync : Bool
  deriving DecidableEq

inductive Mp4Mime where
  | avc
  | hevc
  | aac
  deriving DecidableEq

/-- `lm_mp4_track` -/
structure Mp4Track where
  mime : Option Mp4Mime
  timescale : Nat
  durationUs : Int64
  width : Nat
  height : Nat
  rate : Nat
  channels : Nat
  csd : List UInt8
  nalLen : Nat
  s : List Mp4Sample
  ns : Int
  deriving DecidableEq

def Mp4Track.zero : Mp4Track := ⟨none, 0, 0, 0, 0, 0, 0, [], 0, [], 0⟩

/-! ### Sample tables -/

/-- A table in `moov`: where its entries are, and how many. -/
structure Mp4Table where
  pos : Nat
  n : Nat
  deriving DecidableEq

/-- `lm_stbl` -/
structure Stbl where
  tr : Mp4Track
  stts : Mp4Table
  ctts : Option Mp4Table
  cttsVer : Nat
  stss : Option Mp4Table
  stsz : Mp4Table
  stszFixed : Nat
  stsc : Mp4Table
  stco : Mp4Table
  co64 : Bool
  deriving DecidableEq

/-- The number of samples of a time table. -/
def sttsTotal (p : List UInt8) (stts : Mp4Table) : Nat → Nat → Nat → Checked Nat
  | 0, _, n => .ok n
  | k + 1, i, n => do
    let count ← rd32 p (stts.pos + i * 8)
    sttsTotal p stts k (i + 1) (add 32 n count)

def storeSample (s : List Mp4Sample) (i : Nat) (f : Mp4Sample → Mp4Sample) : Checked (List Mp4Sample) :=
  match s[i]? with
  | some x => .ok (s.set i (f x))
  | none => .fault

/-- The entry of `stsc` for a chunk, from another on. -/
def stscEntry (p : List UInt8) (stsc : Mp4Table) (chunk : Nat) : Nat → Nat → Checked Nat
  | 0, entry => .ok entry
  | k + 1, entry =>
    if entry + 1 < stsc.n then do
      let first ← rd32 p (stsc.pos + (entry + 1) * 12)
      if first ≤ chunk + 1 then stscEntry p stsc chunk k (entry + 1) else return entry
    else .ok entry

def chunkOffset (p : List UInt8) (st : Stbl) (chunk : Nat) : Checked Int64 :=
  if st.co64 then do
    let v ← rd64 p (st.stco.pos + chunk * 8)
    return Int64.ofNat v
  else do
    let v ← rd32 p (st.stco.pos + chunk * 4)
    return Int64.ofNat v

def sampleSize (p : List UInt8) (st : Stbl) (sample : Nat) : Checked Nat :=
  if st.stszFixed ≠ 0 then .ok st.stszFixed else rd32 p (st.stsz.pos + sample * 4)

def chunkSamples (p : List UInt8) (st : Stbl) (n : Nat) : Nat → Nat → Int64 → List Mp4Sample →
    Checked (Nat × List Mp4Sample)
  | 0, sample, _, s => .ok (sample, s)
  | k + 1, sample, off, s =>
    if sample < n then do
      let size ← sampleSize p st sample
      let s ← storeSample s sample fun x => { x with offset := off, size := UInt32.ofNat size }
      chunkSamples p st n k (sample + 1) (off + Int64.ofNat size) s
    else .ok (sample, s)

def fillChunks (p : List UInt8) (st : Stbl) (n : Nat) : Nat → Nat → Nat → Nat → List Mp4Sample →
    Checked (Nat × List Mp4Sample)
  | 0, _, sample, _, s => .ok (sample, s)
  | k + 1, chunk, sample, entry, s =>
    if sample < n then do
      let entry ← stscEntry p st.stsc chunk st.stsc.n entry
      let per ← rd32 p (st.stsc.pos + entry * 12 + 4)
      let off ← chunkOffset p st chunk
      let (sample, s) ← chunkSamples p st n per sample off s
      fillChunks p st n k (chunk + 1) sample entry s
    else .ok (sample, s)

/-- The samples of an entry of a time table, each with its time and the time after it. -/
def runTimes (count : Nat) (f : Int64 → Mp4Sample → Mp4Sample) (delta : Nat) : Nat → Nat → Int64 → List Mp4Sample →
    Checked (Nat × Int64 × List Mp4Sample)
  | 0, sample, dts, s => .ok (sample, dts, s)
  | k + 1, sample, dts, s =>
    if sample < count then do
      let s ← storeSample s sample (f dts)
      runTimes count f delta k (sample + 1) (dts + Int64.ofNat delta) s
    else .ok (sample, dts, s)

/-- Decode times from `stts`. -/
def decodeTimes (env : Mp4Env) (p : List UInt8) (ts count : Nat) (stts : Mp4Table) :
    Nat → Nat → Nat → Int64 → List Mp4Sample → Checked (List Mp4Sample)
  | 0, _, _, _, s => .ok s
  | k + 1, i, sample, dts, s =>
    if sample < count then do
      let cnt ← rd32 p (stts.pos + i * 8)
      let delta ← rd32 p (stts.pos + i * 8 + 4)
      let (sample, dts, s) ← runTimes count (fun dts x => { x with ptsUs := env.us dts.toInt ts }) delta cnt sample dts s
      decodeTimes env p ts count stts k (i + 1) sample dts s
    else .ok s

/-- The offset of an entry of `ctts`, which has a sign unless the version is 0. -/
def compositionOffset (version v : Nat) : Int := if version ≠ 0 then (Int32.ofNat v).toInt else v

/-- Composition offsets from `ctts`. -/
def composeTimes (env : Mp4Env) (p : List UInt8) (ts count version : Nat) (ctts : Mp4Table) :
    Nat → Nat → Nat → List Mp4Sample → Checked (List Mp4Sample)
  | 0, _, _, s => .ok s
  | k + 1, i, sample, s =>
    if sample < count then do
      let cnt ← rd32 p (ctts.pos + i * 8)
      let v ← rd32 p (ctts.pos + i * 8 + 4)
      let (sample, _, s) ← runTimes count (fun _ x =>
        { x with ptsUs := x.ptsUs + env.us (compositionOffset version v) ts }) 0 cnt sample 0 s
      composeTimes env p ts count version ctts k (i + 1) sample s
    else .ok s

/-- The samples that `stss` lists. -/
def syncSamples (p : List UInt8) (count : Nat) (stss : Mp4Table) : Nat → Nat → List Mp4Sample → Checked (List Mp4Sample)
  | 0, _, s => .ok s
  | k + 1, i, s => do
    let idx ← rd32 p (stss.pos + i * 4)
    if 1 ≤ idx ∧ idx ≤ count then do
      let s ← storeSample s (idx - 1) fun x => { x with sync := true }
      syncSamples p count stss k (i + 1) s
    else syncSamples p count stss k (i + 1) s

/-- Without `stss` each sample is one. -/
def allSync : Nat → Nat → List Mp4Sample → Checked (List Mp4Sample)
  | 0, _, s => .ok s
  | k + 1, i, s => do
    let s ← storeSample s i fun x => { x with sync := true }
    allSync k (i + 1) s

def buildTimes (env : Mp4Env) (p : List UInt8) (st : Stbl) (count : Nat) (s : List Mp4Sample) :
    Checked (List Mp4Sample) := do
  let ts := if st.tr.timescale = 0 then 1000 else st.tr.timescale
  let s ← decodeTimes env p ts count st.stts st.stts.n 0 0 0 s
  match st.ctts with
  | none => return s
  | some ctts => composeTimes env p ts count st.cttsVer ctts ctts.n 0 0 s

def buildSync (p : List UInt8) (st : Stbl) (count : Nat) (s : List Mp4Sample) : Checked (List Mp4Sample) :=
  match st.stss with
  | some stss => syncSamples p count stss stss.n 0 s
  | none => allSync count 0 s

/-- The number of samples: if all have the same size, that of the time table. -/
def stblCount (p : List UInt8) (st : Stbl) : Checked Nat :=
  if st.stszFixed ≠ 0 then sttsTotal p st.stts st.stts.n 0 0 else .ok st.stsz.n

/-- `lm_stbl_build` -/
def lmStblBuild (env : Mp4Env) (p : List UInt8) (st : Stbl) : Checked Mp4Track := do
  let n ← stblCount p st
  if n = 0 ∨ st.stco.n = 0 ∨ st.stsc.n = 0 ∨ !env.alloc (n * 32) then return st.tr
  else do
    let (count, s) ← fillChunks p st n st.stco.n 0 0 0 (List.replicate n ⟨0, 0, 0, false⟩)
    let s ← buildTimes env p st count s
    let s ← buildSync p st count s
    return { st.tr with s, ns := (Int32.ofNat count).toInt }

/-! ### The movie -/

/-- `lm_mp4`; a buffer that is not there is empty. -/
structure Mp4 where
  base : Int64
  tracks : List Mp4Track
  buf : List UInt8
  deriving DecidableEq

/-! ### The file -/

/-- The loop of `lm_read_at`, for at most so many reads. -/
def readAtLoop (pread : Int64 → Nat → List UInt8) : Nat → Int64 → Nat → Option (List UInt8)
  | 0, _, len => if len = 0 then some [] else none
  | k + 1, off, len =>
    if len = 0 then some []
    else
      let got := pread off len
      if got = [] then none else (readAtLoop pread k (off + Int64.ofNat got.length) (len - got.length)).map (got ++ ·)

/-- `lm_read_at`; each read gives a byte at least. -/
def lmReadAt (pread : Int64 → Nat → List UInt8) (off : Int64) (len : Nat) : Option (List UInt8) :=
    readAtLoop pread len off len

end Lunaria.Media
