import Mathlib.Data.List.Basic
import Lunaria.Lib.Checked

/-! The POSIX timers of the guest: deadlines on several clocks, and expirations that are counted until somebody takes them.
    Arithmetic of 64 bits is that of the naturals, and a result that wraps is a fault. -/

namespace Lunaria.Os

def uint64Max : Nat := 2 ^ 64 - 1

def int64Max : Nat := 2 ^ 63 - 1

/-- A product of `uint64_t`. -/
def mul64 (a b : Nat) : Checked Nat := do
  Checked.assert (a * b ≤ uint64Max)
  return a * b

/-- `luna_posix_timer` -/
structure PosixTimer where
  id : Nat
  owner : Nat
  clockTid : Nat
  targetTid : Nat
  notifiedTid : Nat
  clock : Int
  armedClock : Int
  notify : Int
  signo : Int
  overrun : Nat
  value : Nat
  callback : Nat
  due : Nat
  interval : Nat
  pending : Nat
  armed : Bool
  published : Bool
  deleted : Bool
  deriving DecidableEq

/-- A timer after `memset`. -/
def PosixTimer.zero : PosixTimer := ⟨0, 0, 0, 0, 0, 0, 0, 0, 0, 0, 0, 0, 0, 0, 0, false, false, false⟩

/-- `luna_posix_timers`, with the `count` items that are in use. -/
structure PosixTimers where
  items : List PosixTimer
  capacity : Nat
  sequence : Nat
  deriving DecidableEq

/-- `luna_timer_spec` -/
structure TimerSpec where
  interval : UInt64
  value : UInt64
  deriving DecidableEq

/-- What `luna_timer_clock` reads for a clock and a thread. -/
abbrev TimerClock := Int → Nat → UInt64

inductive TimerStatus where
  | ok
  | einval
  | eagain
  deriving DecidableEq

def PosixTimer.isFor (owner id : Nat) (t : PosixTimer) : Bool := t.id = id ∧ !t.deleted ∧ t.owner = owner

/-- `luna_timer_find`: the index of the timer. -/
def timerFind (s : PosixTimers) (owner id : Nat) : Option Nat :=
  if id = 0 then none else s.items.findIdx? (PosixTimer.isFor owner id)

def timerCapacity (capacity : Nat) : Checked Nat := if capacity ≠ 0 then mul64 capacity 2 else .ok 8

/-- The capacity of `luna_timer_create` where an item is to be at `i`, and `grown` tells whether `realloc` can. A
    `luna_posix_timer` has 88 bytes. -/
def timerRoom (s : PosixTimers) (i : Nat) (grown : Bool) : Checked (Option Nat) :=
  if i = s.capacity then do
    let cap ← timerCapacity s.capacity
    return if cap < s.capacity ∨ uint64Max / 88 < cap ∨ !grown then none else some cap
  else .ok (some s.capacity)

/-- An item that is used again, or a new one. -/
def timerPut (items : List PosixTimer) (i : Nat) (t : PosixTimer) : List PosixTimer :=
  if i = items.length then items ++ [t] else items.set i t

/-- What `luna_timer_create` takes. -/
def timerValid (clock notify signo : Int) (callback : Nat) : Bool :=
  (clock = 0 ∨ clock = 1 ∨ clock = 2 ∨ clock = 3 ∨ clock = 7) ∧
    (notify = 0 ∨ notify = 1 ∨ notify = 2 ∨ notify = 4) ∧
    ¬((notify = 0 ∨ notify = 4) ∧ (signo < 1 ∨ 64 < signo) ∨ notify = 2 ∧ callback = 0)

/-- `luna_timer_create`, with the id of the timer. -/
def timerCreate (s : PosixTimers) (owner : Nat) (clock notify signo : Int) (value callback tid : Nat) (grown : Bool) :
    Checked (TimerStatus × Nat × PosixTimers) :=
  if !timerValid clock notify signo callback then .ok (.einval, 0, s)
  else if s.sequence = 2 ^ 32 - 1 then .ok (.eagain, 0, s)
  else do
    let i := s.items.findIdx fun t => t.id = 0
    match ← timerRoom s i grown with
    | none => return (.eagain, 0, s)
    | some capacity =>
      let id := s.sequence + 1
      let t := { PosixTimer.zero with
        id, owner, clock, armedClock := clock, notify, signo, value, callback, clockTid := tid, targetTid := tid }
      return (.ok, id, { items := timerPut s.items i t, capacity, sequence := id })

/-- What `luna_timer_delete` makes of a timer. -/
def PosixTimer.dropped (t : PosixTimer) : PosixTimer :=
  if t.published ∧ t.pending ≠ 0 ∧ (t.notify = 0 ∨ t.notify = 4) then { t with deleted := true, armed := false } else .zero

/-- `luna_timer_delete` -/
def timerDelete (s : PosixTimers) (owner id : Nat) : TimerStatus × PosixTimers :=
  match timerFind s owner id with
  | none => (.einval, s)
  | some i => (.ok, { s with items := s.items.modify i PosixTimer.dropped })

/-- The time to a timer's deadline. -/
def PosixTimer.left (t : PosixTimer) (now : Nat) : Checked Nat := if now < t.due then Checked.minus t.due now else .ok 0

/-- `luna_timer_get`, with the interval and the value. -/
def timerGet (s : PosixTimers) (owner id : Nat) (clock : TimerClock) : Checked (TimerStatus × Nat × Nat) :=
  match (timerFind s owner id).bind (s.items[·]?) with
  | none => .ok (.einval, 0, 0)
  | some t => do
    let left ← t.left (clock t.armedClock t.clockTid).toNat
    return (.ok, t.interval, if t.armed then left else 0)

/-- The deadline that `luna_timer_set` sets: absolute, or relative to now. -/
def timerDue (absolute : Bool) (value now : Nat) : Checked Nat :=
  if absolute then .ok (if int64Max < value then int64Max else value)
  else if int64Max ≤ now then .ok int64Max
  else do
    let room ← Checked.minus int64Max now
    if room < value then return int64Max else Checked.plus uint64Max now value

/-- What `luna_timer_set` makes of a timer. -/
def PosixTimer.arm (t : PosixTimer) (flags : UInt32) (spec : TimerSpec) (clock : TimerClock) : Checked PosixTimer := do
  let absolute : Bool := flags &&& 1 ≠ 0
  let armedClock := if t.clock = 0 ∧ !absolute then 1 else t.clock
  let due ← timerDue absolute spec.value.toNat (clock armedClock t.clockTid).toNat
  let interval := if int64Max < spec.interval.toNat then int64Max else spec.interval.toNat
  return { t with armedClock, interval, due, armed := spec.value ≠ 0 }

/-- What `luna_timer_set` gets first where its caller wants the old value. -/
def timerOld (s : PosixTimers) (owner id : Nat) (old : Bool) (clock : TimerClock) : Checked (TimerStatus × Nat × Nat) :=
  if old then timerGet s owner id clock else .ok (.ok, 0, 0)

/-- `luna_timer_set`, with the old interval and value. -/
def timerSet (s : PosixTimers) (owner id : Nat) (flags : UInt32) (spec : TimerSpec) (old : Bool) (clock : TimerClock) :
    Checked (TimerStatus × (Nat × Nat) × PosixTimers) :=
  match timerFind s owner id with
  | none => .ok (.einval, (0, 0), s)
  | some i =>
    match s.items[i]? with
    | none => .fault
    | some t =>
      if flags &&& 0xfffffffe ≠ 0 then .ok (.einval, (0, 0), s)
      else do
        let (_, old) ← timerOld s owner id old clock
        let t ← t.arm flags spec clock
        return (.ok, old, { s with items := s.items.set i t })

/-- The number of expirations that a poll counts. -/
def timerExpirations (now due interval : Nat) : Checked Nat := do
  let late ← Checked.minus now due
  let extra := if interval ≠ 0 then late / interval else 0
  if extra = uint64Max then return uint64Max else Checked.plus uint64Max extra 1

/-- The deadline is set to the next instant. -/
def PosixTimer.advance (t : PosixTimer) (n : Nat) : Checked PosixTimer :=
  if t.interval = 0 then .ok { t with armed := false }
  else do
    let room ← Checked.minus int64Max t.due
    if room / t.interval < n then return { t with due := int64Max }
    else
      let steps ← mul64 n t.interval
      let due ← Checked.plus uint64Max t.due steps
      return { t with due }

/-- Expirations are pending, unless nobody is notified. -/
def PosixTimer.add (t : PosixTimer) (n : Nat) : Checked PosixTimer :=
  if t.notify ≠ 1 then do
    let room ← Checked.minus uint64Max t.pending
    if room < n then return { t with pending := uint64Max }
    else
      let pending ← Checked.plus uint64Max t.pending n
      return { t with pending }
  else .ok t

/-- `luna_timer_poll` for one timer. -/
def PosixTimer.poll (t : PosixTimer) (clock : TimerClock) : Checked PosixTimer :=
  let now := (clock t.armedClock t.clockTid).toNat
  if t.id = 0 ∨ !t.armed ∨ now < t.due then .ok t
  else do
    let n ← timerExpirations now t.due t.interval
    let t ← t.advance n
    t.add n

/-- The loop of `luna_timer_poll`. The clocks go on from one timer to the next. -/
def pollItems : List PosixTimer → (Nat → TimerClock) → Checked (List PosixTimer)
  | [], _ => .ok []
  | t :: items, clock => do
    let t ← t.poll (clock 0)
    let items ← pollItems items fun i => clock (i + 1)
    return t :: items

/-- `luna_timer_poll` -/
def timerPoll (s : PosixTimers) (clock : Nat → TimerClock) : Checked PosixTimers := do
  let items ← pollItems s.items clock
  return { s with items }

/-- The least time to a deadline so far. -/
def PosixTimer.least (t : PosixTimer) (now next : Nat) : Checked Nat :=
  if t.id = 0 ∨ !t.armed then .ok next
  else do
    let left ← t.left now
    return if left < next then left else next

/-- The loop of `luna_timer_next`. -/
def nextItems : List PosixTimer → (Nat → TimerClock) → Nat → Checked Nat
  | [], _, next => .ok next
  | t :: items, clock, next => do
    let next ← t.least (clock 0 t.armedClock t.clockTid).toNat next
    nextItems items (fun i => clock (i + 1)) next

/-- `luna_timer_next` -/
def timerNext (s : PosixTimers) (clock : Nat → TimerClock) : Checked Nat := nextItems s.items clock uint64Max

/-- `INT_MAX` -/
def intMax : Nat := 2 ^ 31 - 1

/-- `luna_timer_take`, with whether there was something pending. -/
def PosixTimer.take (t : PosixTimer) : Checked (Bool × PosixTimer) :=
  if t.pending = 0 then .ok (false, t)
  else do
    let more ← Checked.minus t.pending 1
    return (true, { t with overrun := if intMax < more then intMax else more, pending := 0, published := false })

/-! ### Runs -/

inductive TimerEvent where
  | create (owner : Nat) (clock notify signo : Int) (value callback tid : Nat) (grown : Bool)
  | delete (owner id : Nat)
  | set (owner id : Nat) (flags : UInt32) (spec : TimerSpec) (old : Bool) (clock : TimerClock)
  | poll (clock : Nat → TimerClock)
  | take (i : Nat)
  /-- The caller tells whom it notifies of a timer, and whether it has. -/
  | mark (i targetTid notifiedTid value : Nat) (published : Bool)
  /-- The caller forgets a timer that is deleted. -/
  | forget (i : Nat)

/-- An item is changed. -/
def PosixTimers.at (s : PosixTimers) (i : Nat) (f : PosixTimer → Checked PosixTimer) : Checked PosixTimers :=
  match s.items[i]? with
  | none => .ok s
  | some t => do
    let t ← f t
    return { s with items := s.items.set i t }

def PosixTimers.step (s : PosixTimers) : TimerEvent → Checked PosixTimers
  | .create owner clock notify signo value callback tid grown => do
    return (← timerCreate s owner clock notify signo value callback tid grown).2.2
  | .delete owner id => .ok (timerDelete s owner id).2
  | .set owner id flags spec old clock => do
    return (← timerSet s owner id flags spec old clock).2.2
  | .poll clock => timerPoll s clock
  | .take i => s.at i fun t => do return (← t.take).2
  | .mark i targetTid notifiedTid value published => s.at i fun t => .ok { t with targetTid, notifiedTid, value, published }
  | .forget i => s.at i fun t => .ok (if t.deleted then .zero else t)

/-- The timers of a guest, with the ids and owners that were handed out and the ids that were deleted. -/
structure TimerWorld where
  timers : PosixTimers
  made : List (Nat × Nat)
  gone : List Nat
  deriving DecidableEq

def TimerWorld.step (w : TimerWorld) (e : TimerEvent) : Checked TimerWorld :=
  match e with
  | .create owner clock notify signo value callback tid grown => do
    let (status, id, timers) ← timerCreate w.timers owner clock notify signo value callback tid grown
    return { w with timers, made := if status = .ok then w.made ++ [(id, owner)] else w.made }
  | .delete owner id =>
    let (status, timers) := timerDelete w.timers owner id
    .ok { w with timers, gone := if status = .ok then w.gone ++ [id] else w.gone }
  | e => do
    let timers ← w.timers.step e
    return { w with timers }

inductive TimerReach : TimerWorld → Prop
  | start : TimerReach ⟨⟨[], 0, 0⟩, [], []⟩
  | step {w w' : TimerWorld} {e : TimerEvent} : TimerReach w → w.step e = .ok w' → TimerReach w'

/-- An event that leaves the expirations of an item as they are. -/
def TimerEvent.Leaves (e : TimerEvent) (s : PosixTimers) (i : Nat) : Prop :=
  match e with
  | .create .. => True
  | .delete owner id => timerFind s owner id ≠ some i
  | .set owner id _ _ _ _ => timerFind s owner id ≠ some i
  | .poll _ => False
  | .take j => j ≠ i
  | .mark .. => True
  | .forget _ => True

/-- What happens from a state on to the item `i`, with the expirations that were taken of it and the last reading of its
    clock at a poll. -/
inductive TimerSince (i : Nat) (s : PosixTimers) : PosixTimers → Nat → Nat → Prop
  | refl : TimerSince i s s 0 0
  | poll {s' s'' : PosixTimers} {t : PosixTimer} {taken last : Nat} (clock : Nat → TimerClock) :
      TimerSince i s s' taken last →
      s'.items[i]? = some t → last ≤ (clock i t.armedClock t.clockTid).toNat → s'.step (.poll clock) = .ok s'' →
      TimerSince i s s'' taken (clock i t.armedClock t.clockTid).toNat
  | take {s' s'' : PosixTimers} {t : PosixTimer} {taken last : Nat} : TimerSince i s s' taken last →
      s'.items[i]? = some t → s'.step (.take i) = .ok s'' → TimerSince i s s'' (taken + t.pending) last
  | other {s' s'' : PosixTimers} {taken last : Nat} {e : TimerEvent} : TimerSince i s s' taken last → e.Leaves s' i →
      s'.step e = .ok s'' → TimerSince i s s'' taken last

end Lunaria.Os
