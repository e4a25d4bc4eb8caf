import Mathlib

/-! The buffer of an audio stream: samples of 16 bits in a ring of frames, which are played at another rate. A ring of
    frames is a vector of samples, so many for each frame. -/

namespace Lunaria.Media
open Function

inductive AudioResult where
  | ok
  | illegal
  | outOfRange
  | invalidFormat
  | invalidRate
  | unavailable
  | noMemory
  | nullPointer
  deriving DecidableEq

/-- `Config` -/
structure AudioConfig where
  direction : Int
  channels : Int
  format : Int
  sampleRate : Int
  callbackFrames : Int
  capacity : Int
  sharing : Int
  performance : Int
  device : Int
  usage : Int
  contentType : Int
  inputPreset : Int
  dataCb : UInt64
  deriving DecidableEq

/-- `Config::validate` -/
def AudioConfig.validate (c : AudioConfig) : AudioResult :=
  if c.direction ≠ 0 ∧ c.direction ≠ 1 then .illegal
  else if c.sharing ≠ 0 ∧ c.sharing ≠ 1 then .illegal
  else if c.performance < 10 ∨ 12 < c.performance then .illegal
  else if c.usage ∉ ([0, 1, 2, 3, 4, 5, 6, 10, 11, 12, 13, 14, 16] : List Int) ∧
    ¬(1000 ≤ c.usage ∧ c.usage ≤ 1003) then .illegal
  else if c.contentType < 0 ∨ 4 < c.contentType then .illegal
  else if c.inputPreset ∉ ([0, 1, 5, 6, 7, 9, 10] : List Int) then .illegal
  else if c.channels < 0 ∨ 32 < c.channels ∨ c.capacity < 0 ∨ c.device < 0 ∨ c.callbackFrames < 0 ∨
    1024 * 1024 < c.callbackFrames then
    .outOfRange
  else if c.format < 0 ∨ 4 < c.format then .invalidFormat
  else if c.sampleRate ≠ 0 ∧ (c.sampleRate < 8000 ∨ 1600000 < c.sampleRate) then .invalidRate
  else .ok

/-- `Stream` -/
structure AudioStream extends AudioConfig where
  burst : UInt32
  bufferSize : UInt32
  framesWritten : UInt64
  framesRead : UInt64
  head : UInt32
  queued : UInt32
  phase : UInt32
  pcm : Nat → Int

namespace AudioStream

def cells (s : AudioStream) : UInt32 := UInt32.ofNat s.capacity.toNat

/-- The channels as they are counted with. -/
def width (s : AudioStream) : Nat := s.channels.toNat

def rate (s : AudioStream) : UInt32 := UInt32.ofNat s.sampleRate.toNat

end AudioStream

/-- The frames of ten milliseconds. -/
def AudioConfig.burst (c : AudioConfig) : Int := max 1 (c.sampleRate / 100)

/-- What `Stream::negotiate` makes of a configuration. -/
def AudioConfig.filled (c : AudioConfig) : AudioConfig :=
  let c := { c with
    device := 1, sharing := 1, performance := 10
    channels := if c.channels = 0 then 2 else c.channels
    format := if c.format = 0 then 2 else c.format
    sampleRate := if c.sampleRate = 0 then 48000 else c.sampleRate }
  { c with callbackFrames := if c.callbackFrames = 0 then c.burst else c.callbackFrames }

/-- The capacity that `Stream::negotiate` needs. -/
def AudioConfig.requested (c : AudioConfig) : Int :=
  max (max (if c.capacity ≠ 0 then c.capacity else c.burst * 8) (c.callbackFrames * 2)) (c.burst * 2)

def AudioStream.new (c : AudioConfig) : AudioStream :=
  { c with
    capacity := c.requested, bufferSize := UInt32.ofNat c.requested.toNat, burst := UInt32.ofNat c.burst.toNat
    framesWritten := 0, framesRead := 0, head := 0, queued := 0, phase := 0, pcm := fun _ => 0 }

/-- `Stream::negotiate` for a new stream, where `alloc` tells whether there is memory for the samples. -/
def negotiate (c : AudioConfig) (alloc : Bool) : Except AudioResult AudioStream :=
  if c.validate ≠ .ok then .error c.validate
  else if c.direction ≠ 0 then .error .unavailable
  else if c.device ≠ 0 ∧ c.device ≠ 1 then .error .unavailable
  else if 2 ^ 31 - 1 < c.filled.requested ∨
    (2 ^ 64 - 1) / 2 < c.filled.requested * c.filled.channels then .error .outOfRange
  else if !alloc then .error .noMemory
  else .ok (.new c.filled)

/-- `Stream::sample_bytes` -/
def sampleBytes (format : Int) : Nat := if format = 1 then 2 else if format = 3 then 3 else 4

/-- `Stream::available` -/
def AudioStream.available (s : AudioStream) : UInt32 := if s.bufferSize ≤ s.queued then 0 else s.bufferSize - s.queued

/-- `Stream::resize` -/
def AudioStream.resize (s : AudioStream) (requested : Int) : Except AudioResult AudioStream :=
  if requested < 0 then .error .outOfRange
  else
    let minimum := max (s.burst.toNat : Int) (if s.dataCb ≠ 0 then s.callbackFrames else 0)
    .ok { s with bufferSize := UInt32.ofNat (min s.capacity (max minimum requested)).toNat }

/-- `Stream::clear` -/
def AudioStream.clear (s : AudioStream) : AudioStream :=
  { s with framesRead := s.framesRead + s.queued.toUInt64, head := 0, queued := 0, phase := 0 }

/-- A number of so many bits as a signed one. -/
def signed (bits n : Nat) : Int := if n % 2 ^ bits < 2 ^ (bits - 1) then n % 2 ^ bits else n % 2 ^ bits - 2 ^ bits

/-- The number that bytes from a position on are, the least significant first. -/
def little (data : Nat → UInt8) (p : Nat) : Nat → Nat
  | 0 => 0
  | n + 1 => (data p).toNat + 256 * little data (p + 1) n

/-- A sample of a format, where `float` is what becomes of a sample that is a `float` of these bits. -/
def sampleValue (float : Nat → Int) (format : Int) (data : Nat → UInt8) (p : Nat) : Int :=
  if format = 1 then signed 16 (little data p 2)
  else if format = 2 then float (little data p 4)
  else if format = 3 then signed 24 (little data p 3) / 2 ^ 8
  else signed 32 (little data p 4) / 2 ^ 16

/-- The first frames of what the caller has. -/
def AudioStream.input (float : Nat → Int) (s : AudioStream) (data : Nat → UInt8) (frames : Nat) : List (List Int) :=
  (List.range frames).map fun i => (List.range s.width).map fun c =>
    signed 16 (sampleValue float s.format data ((i * s.width + c) * sampleBytes s.format) % 2 ^ 16).toNat

/-- Samples are written one after the other. -/
def writeFrame (pcm : Nat → Int) (p : Nat) : List Int → Nat → Int
  | [] => pcm
  | v :: frame => writeFrame (update pcm p v) (p + 1) frame

/-- Frames are written from a position on around the end of the ring. -/
def writeFrames (cells width : Nat) (pcm : Nat → Int) (pos : Nat) : List (List Int) → Nat → Int
  | [] => pcm
  | f :: frames => writeFrames cells width (writeFrame pcm (pos % cells * width) f) (pos + 1) frames

/-- `Stream::enqueue`, with the number of frames that are taken. -/
def AudioStream.enqueue (float : Nat → Int) (s : AudioStream) (data : Option (Nat → UInt8)) (frames : UInt32) :
    Except AudioResult UInt32 × AudioStream :=
  let frames := min frames s.available
  if frames = 0 then (.ok 0, s)
  else match data with
    | none => (.error .nullPointer, s)
    | some data =>
      let pcm := writeFrames s.cells.toNat s.width s.pcm (s.head.toNat + s.queued.toNat) (s.input float data frames.toNat)
      (.ok frames, { s with pcm, queued := s.queued + frames, framesWritten := s.framesWritten + frames.toUInt64 })

/-- Where `Stream::mix` is in the ring. -/
structure Mixing where
  pos : UInt32
  left : UInt32
  remainder : UInt32
  consumed : UInt64
  deriving DecidableEq

/-- Frames are left behind, as far as there are any. -/
def Mixing.settle (m : Mixing) (cells outputRate : UInt32) : Mixing :=
  let n := min m.left (m.remainder / outputRate)
  { pos := (m.pos + n) % cells
    left := m.left - n
    remainder := m.remainder - n * outputRate
    consumed := m.consumed + n.toUInt64 }

/-- The frame at a position of the ring. -/
def frameAt (pcm : Nat → Int) (width pos : Nat) : List Int := (List.range width).map fun c => pcm (pos * width + c)

def outputFrame (width outputChannels : Nat) (frame : List Int) : List Int :=
  (List.range outputChannels).map fun c =>
    if outputChannels = 1 ∧ 1 < width then frame.sum.tdiv width else frame.getD (if width = 1 then 0 else c % width) 0

/-- The loop of `Stream::mix`: what it adds to the output frames, and where it ends. -/
def mixLoop (s : AudioStream) (outputRate outputChannels : UInt32) : Nat → Mixing → List (List Int) × Mixing
  | 0, m => ([], m)
  | frames + 1, m =>
    if m.left = 0 then ([], m)
    else
      let frame := outputFrame s.width outputChannels.toNat (frameAt s.pcm s.width m.pos.toNat)
      let (out, m) := mixLoop s outputRate outputChannels frames
        (Mixing.settle { m with remainder := m.remainder + s.rate } s.cells outputRate)
      (frame :: out, m)

/-- `Stream::mix`, with what is added to the output. -/
def AudioStream.mix (s : AudioStream) (frames outputRate outputChannels : UInt32) (advance : Bool) :
    List (List Int) × AudioStream :=
  if outputRate = 0 ∨ outputChannels = 0 ∨ s.queued = 0 then ([], s)
  else
    let (out, m) :=
      mixLoop s outputRate outputChannels frames.toNat (Mixing.settle ⟨s.head, s.queued, s.phase, 0⟩ s.cells outputRate)
    (out, if advance then
        { s with head := m.pos, queued := m.left, phase := m.remainder, framesRead := s.framesRead + m.consumed }
      else s)

/-! ### Runs -/

/-- What is settled in a call of `Stream::mix`, before it is. -/
inductive AudioStream.Settles (s : AudioStream) (outputRate : UInt32) : Mixing → Prop
  | start : s.Settles outputRate ⟨s.head, s.queued, s.phase, 0⟩
  | next {m : Mixing} : s.Settles outputRate m → (m.settle s.cells outputRate).left ≠ 0 →
      s.Settles outputRate { m.settle s.cells outputRate with
        remainder := (m.settle s.cells outputRate).remainder + s.rate }

/-- A stream whose output has one rate and channel count, with the frames that it accepted and those that advancing calls
    played, since it was empty at first or was cleared. -/
inductive AudioReach (float : Nat → Int) (outputRate outputChannels : UInt32) :
    AudioStream → List (List Int) → List (List Int) → Prop
  | negotiated {c : AudioConfig} {s : AudioStream} : negotiate c true = .ok s →
    AudioReach float outputRate outputChannels s [] []
  | enqueue {s : AudioStream} {input output : List (List Int)} (data : Nat → UInt8) (frames : UInt32) :
      AudioReach float outputRate outputChannels s input output →
      AudioReach float outputRate outputChannels (s.enqueue float (some data) frames).2
        (input ++ s.input float data (min frames s.available).toNat) output
  | refused {s : AudioStream} {input output : List (List Int)} (frames : UInt32) :
      AudioReach float outputRate outputChannels s input output →
      AudioReach float outputRate outputChannels (s.enqueue float none frames).2 input output
  | mix {s : AudioStream} {input output : List (List Int)} (frames : UInt32) :
      AudioReach float outputRate outputChannels s input output →
      AudioReach float outputRate outputChannels (s.mix frames outputRate outputChannels true).2 input
        (output ++ (s.mix frames outputRate outputChannels true).1)
  | look {s : AudioStream} {input output : List (List Int)} (frames : UInt32) :
      AudioReach float outputRate outputChannels s input output →
      AudioReach float outputRate outputChannels (s.mix frames outputRate outputChannels false).2 input output
  | resize {s s' : AudioStream} {input output : List (List Int)} (requested : Int) :
      AudioReach float outputRate outputChannels s input output → s.resize requested = .ok s' →
      AudioReach float outputRate outputChannels s' input output
  | clear {s : AudioStream} {input output : List (List Int)} :
      AudioReach float outputRate outputChannels s input output → AudioReach float outputRate outputChannels s.clear [] []

end Lunaria.Media
