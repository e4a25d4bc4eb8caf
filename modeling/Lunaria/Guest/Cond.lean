import Mathlib.Data.Fintype.Card
import Lunaria.Lib.Word

/-! The guest's condition variables (`cond_wait_common`, `cond_wake`), one atomic access at a time. Any number of
    threads wait, signal, broadcast and use their mutexes; the kernel compares the state word and puts the caller
    to sleep in one step, and a wake takes as many sleepers as it asks for, whichever the kernel chooses. Beside the
    two words of the object the state counts the generation bumps, so that one can say what a thread sampled before
    what, and keeps the sleepers in the order in which they fell asleep. -/

namespace Lunaria.Guest.Cond
open Word Function

/-- How the futex call returned: woken, refused (`EAGAIN`), timed out or interrupted. -/
inductive Rc where
  | woken
  | again
  | timedOut
  | interrupted
deriving DecidableEq

/-- What `cond_wait_common` returns. -/
inductive Errno where
  | zero
  | einval
  | etimedout
deriving DecidableEq

/-- `pthread_cond_signal` or `pthread_cond_broadcast`. -/
inductive Kind where
  | signal
  | broadcast
deriving DecidableEq

/-- The number of sleepers the call asks the kernel to wake. -/
def Kind.count : Kind → Nat
  | .signal => 1
  | .broadcast => 0x7fffffff

/-- Where a thread is: outside, at one of the accesses of `cond_wait_common` on a mutex, asleep in the kernel,
    back from the wait, or at one of the accesses of `cond_wake`. -/
inductive Pc where
  | outside
  | enter (m : Nat) (nsec : Option Int)
  | sample (m : Nat)
  | count (m seq : Nat)
  | unlock (m seq : Nat)
  | futex (m seq : Nat)
  | asleep (m seq : Nat)
  | uncount (m : Nat) (rc : Rc)
  | relock (m : Nat) (rc : Rc)
  | returned (m : Nat) (err : Errno)
  | bump (kind : Kind)
  | load (kind : Kind)
  | wake (kind : Kind)
deriving DecidableEq

/-- A finished signal or broadcast: the generation its bump made, the threads that its wake found asleep, the one
    that had slept longest first, and those that it woke, each with the generation it had sampled. -/
structure Wake (T : Type) where
  gen : Nat
  kind : Kind
  asleep : List (T × Nat)
  woken : List (T × Nat)
deriving DecidableEq

/-- The object's two words, the mutexes, the threads and the kernel's sleepers; then the history. -/
structure State (T : Type) where
  word : Nat
  waiters : Nat
  owner : Nat → Option T
  pc : T → Pc
  queue : List T
  bumps : Nat
  sampled : T → Nat
  gen : T → Nat
  done : List (Wake T)

/-- One step of one thread. `wake` names the sleepers that the kernel wakes. `sleepEnd` ends a sleep without a wake:
    by its deadline or by a signal handler, after which the call is restarted (`none`) or returns, or for no reason. -/
inductive Act (T : Type) where
  | lock (t : T) (m : Nat)
  | unlock (t : T) (m : Nat)
  | callWait (t : T) (m : Nat) (nsec : Option Int)
  | callWake (t : T) (kind : Kind)
  | advance (t : T)
  | wake (t : T) (l : List T)
  | sleepEnd (t : T) (rc : Option Rc)

section Step
variable {T : Type} [DecidableEq T]

/-- After `pthread_cond_init` with the flags `flags`. -/
def State.init (flags : Nat) : State T where
  word := flags
  waiters := 0
  owner := fun _ => none
  pc := fun _ => .outside
  queue := []
  bumps := 0
  sampled := fun _ => 0
  gen := fun _ => 0
  done := []

def State.goto (s : State T) (t : T) (pc : Pc) : State T := { s with pc := update s.pc t pc }

def State.setOwner (s : State T) (m : Nat) (o : Option T) : State T := { s with owner := update s.owner m o }

/-- The check of the deadline's nanoseconds. -/
def badDeadline : Option Int → Bool
  | none => false
  | some nsec => nsec < 0 || 1000000000 ≤ nsec

/-- A woken thread goes on behind its futex call. -/
def Pc.wakeUp : Pc → Pc
  | .asleep m _ => .uncount m .woken
  | pc => pc

/-- The kernel may wake these threads when it is asked for `n`: as many sleepers, or all that there are. -/
def State.MayWake (s : State T) (n : Nat) (l : List T) : Prop :=
  l.Nodup ∧ l ⊆ s.queue ∧ l.length = min n s.queue.length

instance (s : State T) (n : Nat) (l : List T) : Decidable (s.MayWake n l) := inferInstanceAs (Decidable (_ ∧ _ ∧ _))

/-- The kernel wakes these threads. -/
def State.futexWake (s : State T) (l : List T) : State T :=
  { s with
    queue := s.queue.filter fun u => u ∉ l
    pc := fun u => if u ∈ l then (s.pc u).wakeUp else s.pc u }

/-- Threads with what they sampled. -/
def State.withSampled (s : State T) (l : List T) : List (T × Nat) := l.map fun u => (u, s.sampled u)

/-- The next access of a thread that is inside a call. -/
def State.advance (s : State T) (t : T) : Option (State T) :=
  match s.pc t with
  | .outside => none
  | .enter m nsec => if badDeadline nsec then some (s.goto t (.returned m .einval)) else some (s.goto t (.sample m))
  | .sample m => some ({ s with sampled := update s.sampled t s.bumps }.goto t (.count m s.word))
  | .count m seq => some ({ s with waiters := add 32 s.waiters 1 }.goto t (.unlock m seq))
  | .unlock m seq => some ((s.setOwner m none).goto t (.futex m seq))
  | .futex m seq =>
    if s.word = seq then some ({ s with queue := s.queue ++ [t] }.goto t (.asleep m seq))
    else some (s.goto t (.uncount m .again))
  | .asleep _ _ => none
  | .uncount m rc => some ({ s with waiters := sub 32 s.waiters 1 }.goto t (.relock m rc))
  | .relock m rc =>
    if s.owner m = none then
      some ((s.setOwner m (some t)).goto t (.returned m (if rc = .timedOut then .etimedout else .zero)))
    else none
  | .returned _ _ => some (s.goto t .outside)
  | .bump kind =>
    some ({ s with
      word := add 32 s.word 4
      bumps := s.bumps + 1
      gen := update s.gen t (s.bumps + 1) }.goto t (.load kind))
  | .load kind =>
    if s.waiters ≠ 0 then some (s.goto t (.wake kind))
    else some ({ s with done := ⟨s.gen t, kind, s.withSampled s.queue, []⟩ :: s.done }.goto t .outside)
  | .wake _ => none

/-- The wake of a signal or broadcast. -/
def State.wake (s : State T) (t : T) (kind : Kind) (l : List T) : State T :=
  ({ s with done := ⟨s.gen t, kind, s.withSampled s.queue, s.withSampled l⟩ :: s.done }.futexWake l).goto t .outside

/-- A thread locks and unlocks mutexes only between its calls, and waits only with a mutex it holds. -/
def State.step (s : State T) : Act T → Option (State T)
  | .lock t m => if s.pc t = .outside ∧ s.owner m = none then some (s.setOwner m (some t)) else none
  | .unlock t m => if s.pc t = .outside ∧ s.owner m = some t then some (s.setOwner m none) else none
  | .callWait t m nsec => if s.pc t = .outside ∧ s.owner m = some t then some (s.goto t (.enter m nsec)) else none
  | .callWake t kind => if s.pc t = .outside then some (s.goto t (.bump kind)) else none
  | .advance t => s.advance t
  | .wake t l =>
    match s.pc t with
    | .wake kind => if s.MayWake kind.count l then some (s.wake t kind l) else none
    | _ => none
  | .sleepEnd t rc =>
    match s.pc t, rc with
    | .asleep m seq, none => some ({ s with queue := s.queue.erase t }.goto t (.futex m seq))
    | .asleep m _, some .timedOut => some ({ s with queue := s.queue.erase t }.goto t (.uncount m .timedOut))
    | .asleep m _, some .interrupted => some ({ s with queue := s.queue.erase t }.goto t (.uncount m .interrupted))
    | .asleep m _, some .woken => some ({ s with queue := s.queue.erase t }.goto t (.uncount m .woken))
    | _, _ => none

/-- The thread has sampled the state and has not returned. -/
def Pc.waiting : Pc → Bool
  | .count _ _ | .unlock _ _ | .futex _ _ | .asleep _ _ | .uncount _ _ | .relock _ _ => true
  | _ => false

/-- The thread is between its increment and its decrement of `waiters`. -/
def Pc.counted : Pc → Bool
  | .unlock _ _ | .futex _ _ | .asleep _ _ | .uncount _ _ => true
  | _ => false

def Pc.isAsleep : Pc → Bool
  | .asleep _ _ => true
  | _ => false

/-- Fewer than `2 ^ 30` bumps since any waiting thread sampled. -/
def State.Few (s : State T) : Prop := ∀ t, (s.pc t).waiting = true → s.bumps < s.sampled t + 2 ^ 30

/-- The states of a run with fewer than `2 ^ 30` wakes during any one wait. -/
inductive Reach (flags : Nat) : State T → Prop
  | init : Reach flags (.init flags)
  | step {s s' : State T} {a : Act T} : Reach flags s → s.step a = some s' → s'.Few → Reach flags s'

end Step

end Lunaria.Guest.Cond
