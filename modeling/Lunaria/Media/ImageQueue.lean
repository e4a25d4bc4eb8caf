import Lunaria.Lib.Checked
import Lunaria.Lib.LinkedList

/-! The queue of images between a producer and an `ImageReader`. A state has the queue, the images in memory, what threads
    have still to do outside the mutex, and who holds what; a step is a section under the mutex or one of these rests. An
    image is named by the number of the submit that made it. Reading what is freed is a fault, and a call without a
    reference to the queue, or a second release, is none. -/

namespace Lunaria.Media
open Function

inductive LiqStatus where
  | ok
  | invalidObject
  | invalidParameter
  | wouldBlock
  | noBuffer
  | maxAcquired
  | noMemory
  deriving DecidableEq

/-- `liq_image`; its pixels go with it. -/
structure LiqImage where
  next : Option Nat
  width : Nat
  height : Nat
  timestamp : Int
  deriving DecidableEq

/-- `liq_queue` -/
structure LiqQueue where
  refs : UInt32
  head : Option Nat
  tail : Option Nat
  maxImages : UInt32
  capacity : UInt32
  buffers : UInt32
  acquired : UInt32
  sequence : UInt64
  closed : Bool
  deriving DecidableEq

/-- What a thread has still to do. -/
inductive LiqTask where
  /-- The end of `liq_close`: the images that were queued are freed. -/
  | freeChain (image : Option Nat)
  /-- The end of `liq_release`: the image is freed, and its reference dropped. -/
  | freeImage (i : Nat)
  /-- `liq_unref` -/
  | unref
  /-- The end of `liq_unref`, where the last reference is dropped. -/
  | destroy
  deriving DecidableEq

structure LiqState where
  queue : Option LiqQueue
  images : Nat → Option LiqImage
  pending : List LiqTask
  /-- The references that callers hold. -/
  held : Nat
  /-- The images that were acquired and are not released. -/
  out : List Nat
  /-- The number of submits that were accepted. -/
  accepted : Nat
  /-- The images that acquires have returned, in this order. -/
  returned : List Nat
  /-- The images whose pixels are freed, in this order. -/
  freed : List Nat

namespace LiqState

/-- The queue, which must not be freed. -/
def live (s : LiqState) : Checked LiqQueue :=
  match s.queue with
  | some q => .ok q
  | none => .fault

/-- An image, which must not be freed. -/
def image (s : LiqState) (i : Nat) : Checked LiqImage :=
  match s.images i with
  | some img => .ok img
  | none => .fault

def link (s : LiqState) (i : Nat) : Option (Option Nat) := (s.images i).map LiqImage.next

/-- The references to the queue that will be dropped some time. -/
def references (s : LiqState) : Nat :=
  s.held + s.out.length + s.pending.countP fun
    | .freeImage _ => true
    | .unref => true
    | _ => false

end LiqState

/-- `liq_new` -/
def liqNew (maxImages capacity : UInt32) : Option LiqState :=
  if maxImages = 0 ∨ capacity < maxImages then none
  else some ⟨some ⟨1, none, none, maxImages, capacity, 0, 0, 0, false⟩, fun _ => none, [], 1, [], 0, [], []⟩

/-- `image_free` -/
def imageFree (s : LiqState) (i : Nat) : Checked LiqState := do
  let _ ← s.image i
  return { s with images := update s.images i none, freed := s.freed ++ [i] }

/-- The loop that frees the images from a pointer on. -/
def freeChain : Nat → LiqState → Option Nat → Checked LiqState
  | _, s, none => .ok s
  | 0, _, some _ => .fail
  | fuel + 1, s, some i => do
    let img ← s.image i
    let s ← imageFree s i
    freeChain fuel s img.next

/-- `SIZE_MAX` -/
def liqSizeMax : Nat := 2 ^ 64 - 1

/-- What `liq_submit` checks before it takes the mutex. -/
def submitValid (pixels : Bool) (bytes width height : Nat) : Bool :=
  pixels ∧ width ≠ 0 ∧ height ≠ 0 ∧ width ≤ liqSizeMax / 4 / height ∧ width * height * 4 ≤ bytes

/-- `liq_submit`, where `alloc` tells whether there is memory for the image; with whether the caller still has its pixels. -/
def liqSubmit (s : LiqState) (pixels : Bool) (bytes width height : Nat) (timestamp : Int) (alloc : Bool) :
    Checked (LiqStatus × Bool × LiqState) :=
  if submitValid pixels bytes width height then do
    let q ← s.live
    if q.closed then return (.invalidObject, pixels, s)
    else if q.capacity ≤ q.buffers then return (.wouldBlock, pixels, s)
    else if alloc then
      let i := s.accepted
      let s := { s with images := update s.images i (some ⟨none, width, height, timestamp⟩), accepted := i + 1 }
      match q.tail with
      | some t =>
        let last ← s.image t
        return (.ok, false, { s with
          images := update s.images t (some { last with next := some i }),
          queue := some { q with tail := some i, buffers := q.buffers + 1, sequence := q.sequence + 1 } })
      | none =>
        return (.ok, false, { s with
          queue := some { q with head := some i, tail := some i, buffers := q.buffers + 1, sequence := q.sequence + 1 } })
    else return (.noMemory, pixels, s)
  else return (.invalidParameter, pixels, s)

/-- The loop of `liq_acquire` that frees all queued images but the newest. -/
def discardOlder : Nat → LiqState → LiqQueue → Checked (LiqState × LiqQueue)
  | 0, _, _ => .fail
  | fuel + 1, s, q =>
    match q.head with
    | none => .fault
    | some i => do
      let old ← s.image i
      match old.next with
      | none => return (s, q)
      | some j =>
        let s ← imageFree s i
        discardOlder fuel s { q with head := some j, buffers := q.buffers - 1 }

/-- The end of `liq_acquire`: the first image is taken. -/
def takeFirst (s : LiqState) (q : LiqQueue) : Checked (LiqStatus × Option Nat × LiqState) :=
  match q.head with
  | none => .fault
  | some i => do
    let img ← s.image i
    let tail := if img.next = none then none else q.tail
    return (.ok, some i, { s with
      images := update s.images i (some { img with next := none }),
      queue := some { q with head := img.next, tail, acquired := q.acquired + 1, refs := q.refs + 1 },
      out := s.out ++ [i], returned := s.returned ++ [i] })

/-- `liq_acquire` -/
def liqAcquire (s : LiqState) (latest : Bool) : Checked (LiqStatus × Option Nat × LiqState) := do
  let q ← s.live
  if q.closed then return (.invalidObject, none, s)
  else if q.maxImages ≤ q.acquired then return (.maxAcquired, none, s)
  else if q.head = none then return (.noBuffer, none, s)
  else if latest ∧ 2 ≤ q.maxImages - q.acquired then
    let (s, q) ← discardOlder s.accepted s q
    takeFirst s q
  else takeFirst s q

/-- The section of `liq_release`. -/
def liqRelease (s : LiqState) (i : Nat) : Checked LiqState := do
  let _ ← s.image i
  let q ← s.live
  return { s with
    queue := some { q with acquired := q.acquired - 1, buffers := q.buffers - 1 },
    out := s.out.erase i, pending := s.pending ++ [.freeImage i] }

/-- The section of `liq_close`. -/
def liqClose (s : LiqState) : Checked LiqState := do
  let q ← s.live
  if q.closed then return s
  else return { s with
    queue := some { q with closed := true, head := none, tail := none, buffers := q.acquired },
    pending := s.pending ++ [.freeChain q.head] }

/-- `liq_ref` -/
def liqRef (s : LiqState) : Checked LiqState := do
  let q ← s.live
  return { s with queue := some { q with refs := q.refs + 1 }, held := s.held + 1 }

/-- What is pending of a thread goes on. -/
def liqTask (s : LiqState) : LiqTask → Checked LiqState
  | .freeChain image => freeChain s.accepted s image
  | .freeImage i => do
    let s ← imageFree s i
    return { s with pending := s.pending ++ [.unref] }
  | .unref => do
    let q ← s.live
    let s := { s with queue := some { q with refs := q.refs - 1 } }
    return if q.refs = 1 then { s with pending := s.pending ++ [.destroy] } else s
  | .destroy => do
    let q ← s.live
    let s ← freeChain s.accepted s q.head
    return { s with queue := none }

/-! ### Runs -/

inductive LiqEvent where
  | submit (pixels : Bool) (bytes width height : Nat) (timestamp : Int) (alloc : Bool)
  | acquire (latest : Bool)
  | release (i : Nat)
  | close
  | ref
  | unref
  | task (t : LiqTask)
  deriving DecidableEq

/-- A caller needs a reference to the queue, its own or that of an image. -/
def LiqState.MayCall (s : LiqState) : Prop := 0 < s.held ∨ s.out ≠ []

/-- Who may do a step. An image is released once, and so is a reference. -/
def LiqState.Allowed (s : LiqState) : LiqEvent → Prop
  | .submit .. => s.MayCall
  | .acquire _ => s.MayCall
  | .release i => i ∈ s.out
  | .close => s.MayCall
  | .ref => s.MayCall
  | .unref => 0 < s.held
  | .task t => t ∈ s.pending

def LiqState.step (s : LiqState) : LiqEvent → Checked LiqState
  | .submit pixels bytes width height timestamp alloc => do
    return (← liqSubmit s pixels bytes width height timestamp alloc).2.2
  | .acquire latest => do
    return (← liqAcquire s latest).2.2
  | .release i => liqRelease s i
  | .close => liqClose s
  | .ref => liqRef s
  | .unref => .ok { s with held := s.held - 1, pending := s.pending ++ [.unref] }
  | .task t => liqTask { s with pending := s.pending.erase t } t

/-- The states that are reached through states with a property. -/
inductive LiqReach (P : LiqState → Prop) (maxImages capacity : UInt32) : LiqState → Prop
  | new {s : LiqState} : liqNew maxImages capacity = some s → LiqReach P maxImages capacity s
  | step {s s' : LiqState} {e : LiqEvent} : LiqReach P maxImages capacity s → s.Allowed e → s.step e = .ok s' → P s' →
      LiqReach P maxImages capacity s'

end Lunaria.Media
