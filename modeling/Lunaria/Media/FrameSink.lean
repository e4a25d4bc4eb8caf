import Mathlib

/-! The frame sink of `dvm_media.c` between the codec thread, which draws and commits frames, and the render thread, which
    takes them. A section under the mutex is one step, and what is done outside it is a step for each access. A sink
    without an image queue. -/

namespace Lunaria.Media
open Function

/-- `lm_sinkbuf`; its pixels are in memory. -/
structure SinkBuf where
  rgba : Option Nat
  cap : Nat
  w : Int
  h : Int
  ts : Int
  deriving DecidableEq

structure SinkFrame where
  pixels : List UInt8
  w : Int
  h : Int
  ts : Int
  deriving DecidableEq

inductive Producer where
  | idle
  /-- In `lm_sink_begin`, behind its section. -/
  | growing (w h : Int)
  /-- In `lm_sink_commit`, before its section. -/
  | committing (w h ts : Int)
  deriving DecidableEq

/-- Where the consumer is: in `lm_sink_take` it reads the fields one by one behind the section. -/
inductive Consumer where
  | idle
  | unlocked (got : Bool)
  | rgbaRead (p : Nat)
  | widthRead (p : Nat) (w : Int)
  deriving DecidableEq

/-- `lm_sink`, the memory of pixels, the two threads, and what has happened. -/
structure SinkState where
  front : SinkBuf
  mid : SinkBuf
  back : SinkBuf
  pending : Bool
  tsNs : Int
  commitId : UInt64
  abandoned : Bool
  mem : Nat → Nat → UInt8
  producer : Producer
  /-- What the producer may draw to, and for how many bytes: the pointer of the last `lm_sink_begin` that gave one, until it
      is committed or moved. -/
  pointer : Option (Nat × Nat)
  consumer : Consumer
  /-- What the last take that succeeded has returned. -/
  handed : Option (Nat × Int × Int)
  /-- The frames that were committed, in this order. -/
  commits : List SinkFrame
  /-- The numbers of the frames that were taken, counted from 1. -/
  taken : List Nat

/-- `lm_sink_new` -/
def lmSinkNew (mem : Nat → Nat → UInt8) : SinkState :=
  ⟨⟨none, 0, 0, 0, 0⟩, ⟨none, 0, 0, 0, 0⟩, ⟨none, 0, 0, 0, 0⟩, false, 0, 0, false, mem, .idle, none, .idle, none, [], []⟩

/-- `SIZE_MAX` -/
def sinkSizeMax : Nat := 2 ^ 64 - 1

def frameBytes (w h : Int) : Nat := w.toNat * h.toNat * 4

/-- The size of a frame is a `size_t`. -/
def frameFits (w h : Int) : Prop := w.toNat ≤ sinkSizeMax / 4 / h.toNat

instance (w h : Int) : Decidable (frameFits w h) := inferInstanceAs (Decidable (_ ≤ _))

inductive SinkEvent where
  /-- `lm_sink_begin` up to the end of its section. -/
  | begin (w h : Int)
  /-- The rest of it; `realloc` gives a pointer, and bytes behind those that it keeps. -/
  | grow (fresh : Option Nat) (bytes : Nat → UInt8)
  | write (off : Nat) (b : UInt8)
  /-- `lm_sink_commit` up to its section. -/
  | commit (w h ts : Int)
  | commitSection
  | takeSection
  | takeRgba
  | takeWidth
  | takeHeight
  | abandon

namespace SinkState

/-- The rest of `lm_sink_begin`. -/
def grow (s : SinkState) (w h : Int) (fresh : Option Nat) (bytes : Nat → UInt8) : SinkState :=
  if ¬frameFits w h then { s with producer := .idle }
  else
    let need := frameBytes w h
    if need > s.back.cap then
      match fresh with
      | none => { s with producer := .idle }
      | some p =>
        let kept := fun i =>
          match s.back.rgba with
          | some old => if i < s.back.cap then s.mem old i else bytes i
          | none => bytes i
        { s with
          back := { s.back with rgba := some p, cap := need }, mem := update s.mem p kept, producer := .idle
          pointer := some (p, need) }
    else
      match s.back.rgba with
      | some p => { s with producer := .idle, pointer := some (p, need) }
      | none => { s with producer := .idle }

/-- `lm_sink_commit` up to its section. -/
def commit (s : SinkState) (w h ts : Int) : SinkState :=
  if s.back.rgba = none ∨ w ≤ 0 ∨ h ≤ 0 ∨ ¬frameFits w h ∨ frameBytes w h > s.back.cap then { s with producer := .idle }
  else { s with back := { s.back with w, h, ts }, producer := .committing w h ts }

def drawn (s : SinkState) (w h : Int) : List UInt8 :=
  match s.back.rgba with
  | some p => (List.range (frameBytes w h)).map (s.mem p)
  | none => []

/-- The section of `lm_sink_commit`. -/
def commitSection (s : SinkState) (w h ts : Int) : SinkState :=
  if s.abandoned then { s with producer := .idle }
  else { s with
    mid := s.back, back := s.mid, pending := true, tsNs := ts, commitId := s.commitId + 1, producer :=
      .idle, pointer := none,
    commits := s.commits ++ [⟨s.drawn w h, w, h, ts⟩] }

/-- The section of `lm_sink_take`. -/
def takeSection (s : SinkState) : SinkState :=
  if s.pending ∧ ¬s.abandoned then { s with
    front := s.mid, mid := s.front, pending := false, consumer := .unlocked true, taken := s.taken ++ [s.commits.length] }
  else { s with consumer := .unlocked false }

/-- A step; `none` where the thread is not there. -/
def step (s : SinkState) : SinkEvent → Option SinkState
  | .begin w h =>
    match s.producer with
    | .idle => some { s with producer := if w ≤ 0 ∨ h ≤ 0 ∨ s.abandoned then .idle else .growing w h }
    | _ => none
  | .grow fresh bytes =>
    match s.producer with
    | .growing w h => some (s.grow w h fresh bytes)
    | _ => none
  | .write off b =>
    match s.producer, s.pointer with
    | .idle, some (p, n) => if off < n then some { s with mem := update s.mem p (update (s.mem p) off b) } else none
    | _, _ => none
  | .commit w h ts =>
    match s.producer with
    | .idle => some (s.commit w h ts)
    | _ => none
  | .commitSection =>
    match s.producer with
    | .committing w h ts => some (s.commitSection w h ts)
    | _ => none
  | .takeSection =>
    match s.consumer with
    | .idle => some s.takeSection
    | _ => none
  | .takeRgba =>
    match s.consumer, s.front.rgba with
    | .unlocked true, some p => some { s with consumer := .rgbaRead p }
    | .unlocked _, _ => some { s with consumer := .idle }
    | _, _ => none
  | .takeWidth =>
    match s.consumer with
    | .rgbaRead p => some { s with consumer := .widthRead p s.front.w }
    | _ => none
  | .takeHeight =>
    match s.consumer with
    | .widthRead p w => some { s with consumer := .idle, handed := some (p, w, s.front.h) }
    | _ => none
  | .abandon => some { s with abandoned := true, pending := false }

/-- `realloc` gives what no other buffer has. -/
def Allowed (s : SinkState) : SinkEvent → Prop
  | .grow fresh _ => ∀ p, fresh = some p → s.front.rgba ≠ some p ∧ s.mid.rgba ≠ some p
  | _ => True

/-- `lm_sink_peek` -/
def peek (s : SinkState) : Option (Nat × Int × Int) :=
  match s.front.rgba with
  | some p => if s.front.w ≤ 0 ∨ s.front.h ≤ 0 then none else some (p, s.front.w, s.front.h)
  | none => none

/-- `lm_sink_acquired_timestamp` -/
def acquiredTimestamp (s : SinkState) : Int := s.front.ts

end SinkState

/-- The states that any order of steps of the threads comes to. -/
inductive SinkReach : SinkState → Prop
  | new (mem : Nat → Nat → UInt8) : SinkReach (lmSinkNew mem)
  | step {s s' : SinkState} {e : SinkEvent} : SinkReach s → s.Allowed e → s.step e = some s' → SinkReach s'

end Lunaria.Media
