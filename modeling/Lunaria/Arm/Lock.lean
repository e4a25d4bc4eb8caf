import Mathlib.Data.UInt
import Lunaria.Lib.Handover

/-! The ARM execution lock of `arm.c`, with its waiters that spin and sleep. A step of a thread is one section under `g_m`
    together with what the thread does around it on its own data; a waiter that spins reads its flag without `g_m`. The
    times and labels that the lock keeps for its report are left out. -/

namespace Lunaria.Arm
open Handover

/-- Where a thread is. A waiter knows the depth it returns with, which `arm_lock_relock` sets. -/
inductive Pc
  | idle
  /-- Queued, and looking at `go` without `g_m`. -/
  | spinning (d : UInt32)
  /-- In `pthread_cond_wait`, and whether its condition variable was signalled since it got there. -/
  | parked (d : UInt32) (signalled : Bool)
  /-- In `arm_lock_yield`, between its two halves. -/
  | relocking (d : UInt32)
  deriving DecidableEq

/-- The thread-local data: `t_depth`, the two flags of `t_waiter`, and the caller's variable for what
    `arm_lock_unlock_all` returned. -/
structure Thread where
  depth : UInt32
  go : Bool
  sleeping : Bool
  pc : Pc
  ret : UInt32
  deriving DecidableEq

/-- `g_locked` and the queue from `g_head` to `g_tail`; then the history: whose lock it is, who queued and who was
    handed the lock, in order. -/
structure State (T : Type) where
  locked : Bool
  queue : List T
  thread : T → Thread
  holder : Option T
  arrived : List T
  served : List T

/-- A signal to the condition variable reaches a thread that is parked on it. -/
def Pc.signal : Pc → Pc
  | .parked d _ => .parked d true
  | pc => pc

/-- The releaser's part for the first waiter. -/
def Thread.hand (th : Thread) : Thread := { th with go := true, pc := if th.sleeping then th.pc.signal else th.pc }

/-- The section of a waiter that did not see its flag, or woke up: it returns, or it sleeps (again). -/
def Thread.await (th : Thread) (d : UInt32) : Thread :=
  if th.go then { th with sleeping := false, depth := d, pc := .idle }
  else { th with sleeping := true, pc := .parked d false }

namespace State
variable {T : Type} [DecidableEq T]

def init : State T := ⟨false, [], fun _ => ⟨0, false, false, .idle, 0⟩, none, [], []⟩

def put (s : State T) (t : T) (th : Thread) : State T := { s with thread := Function.update s.thread t th }

/-- `arm_lock_acquire` for a thread that does not have the lock, up to the wait; it returns with depth `d`. -/
def take (s : State T) (t : T) (d : UInt32) : State T :=
  let th := s.thread t
  if !s.locked && s.queue.isEmpty then
    { s.put t { th with depth := d, pc := .idle } with locked := true, holder := some t }
  else
    { s.put t { th with go := false, sleeping := false, pc := .spinning d } with
      queue := s.queue ++ [t], arrived := s.arrived ++ [t] }

def acquire (s : State T) (t : T) : State T :=
  let th := s.thread t
  if th.depth ≠ 0 then s.put t { th with depth := th.depth + 1 } else s.take t 1

/-- The section of `arm_lock_release`. -/
def handOver (s : State T) : State T :=
  match s.queue with
  | w :: q =>
    { s.put w (s.thread w).hand with queue := q, holder := some w, served := s.served ++ [w] }
  | [] => { s with locked := false, holder := none }

def release (s : State T) (t : T) : State T :=
  let th := s.thread t
  if th.depth = 0 then s
  else
    let s := s.put t { th with depth := th.depth - 1 }
    if th.depth - 1 ≠ 0 then s else s.handOver

/-- `arm_lock_unlock_all`, which returns `t_depth` as it was. -/
def unlockAll (s : State T) (t : T) : State T :=
  let th := s.thread t
  if th.depth ≠ 0 then (s.put t { th with depth := 1 }).release t else s

def relock (s : State T) (t : T) (d : UInt32) : State T :=
  let th := s.thread t
  if d = 0 then s.put t { th with pc := .idle }
  -- the increment of `arm_lock_acquire` is overwritten
  else if th.depth ≠ 0 then s.put t { th with depth := d, pc := .idle }
  else s.take t d

/-- `arm_lock_yield` up to `arm_lock_relock`; the relaxed load of `g_waiters` may be stale and decides nothing here. -/
def yield (s : State T) (t : T) (waiters : Bool) : State T :=
  let d := (s.thread t).depth
  if !waiters then s
  else
    let s := s.unlockAll t
    if d = 0 then s else s.put t { s.thread t with pc := .relocking d }

end State

/-- A thread makes a call, or goes on with the one it is in. -/
inductive Act (T : Type)
  | acquire (t : T)
  | release (t : T)
  | unlockAll (t : T)
  | relock (t : T) (d : UInt32)
  | yield (t : T) (waiters : Bool)
  /-- A waiter reads its flag. -/
  | look (t : T)
  /-- A waiter gives up spinning and enters `g_m`. -/
  | park (t : T)
  /-- `pthread_cond_wait` returns, signalled or not, with `g_m`. -/
  | wake (t : T)
  /-- The second half of a yield. -/
  | goOn (t : T)

section Step
variable {T : Type} [DecidableEq T]

def State.step (s : State T) : Act T → Option (State T)
  | .acquire t => if (s.thread t).pc = .idle then some (s.acquire t) else none
  | .release t => if (s.thread t).pc = .idle then some (s.release t) else none
  | .unlockAll t =>
    if (s.thread t).pc = .idle then
      let d := (s.thread t).depth
      let s := s.unlockAll t
      some (s.put t { s.thread t with ret := d })
    else none
  | .relock t d => if (s.thread t).pc = .idle then some (s.relock t d) else none
  | .yield t waiters => if (s.thread t).pc = .idle then some (s.yield t waiters) else none
  | .look t =>
    match (s.thread t).pc with
    | .spinning d => if (s.thread t).go then some (s.put t { s.thread t with depth := d, pc := .idle }) else some s
    | _ => none
  | .park t =>
    match (s.thread t).pc with
    | .spinning d => some (s.put t ((s.thread t).await d))
    | _ => none
  | .wake t =>
    match (s.thread t).pc with
    | .parked d _ => some (s.put t ((s.thread t).await d))
    | _ => none
  | .goOn t =>
    match (s.thread t).pc with
    | .relocking d => some (s.relock t d)
    | _ => none

inductive Reach : State T → Prop
  | init : Reach .init
  | step {s s' : State T} {a : Act T} : Reach s → s.step a = some s' → Reach s'

/-- The step is no recursive acquire at the greatest depth. -/
def Act.Fits (s : State T) : Act T → Prop
  | .acquire t => (s.thread t).depth ≠ 0xffffffff
  | _ => True

/-- Runs whose steps all fit. -/
inductive ReachFits : State T → Prop
  | init : ReachFits .init
  | step {s s' : State T} {a : Act T} : ReachFits s → a.Fits s → s.step a = some s' → ReachFits s'

end Step

end Lunaria.Arm
