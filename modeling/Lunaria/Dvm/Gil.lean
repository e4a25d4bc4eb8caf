import Lunaria.Lib.Handover
import Lunaria.Lib.Word

/-! The interpreter lock and the ARM execution lock. Both are handed over; the interpreter lock carries the
    per-thread interpreter state, which lives in fields of the VM while a thread holds the lock and in the
    thread's own `g_tstate` while it does not. A call is a list of instructions, each of them one critical
    section or one access to thread-local data, so that threads interleave between any two of them. -/

namespace Lunaria.Dvm.Gil
open Word Handover Function

/-- `struct dvm_tstate`; the VM has fields of the same names. References and pointers are numbers. -/
structure TState where
  exception : Nat
  excTrace : Fin 16 → Nat
  nexcTrace : Int
  excRef : Nat
  excPc : Nat
  curThread : Nat
  drainDepth : Int
  quietUncaught : Bool
  parked : Bool
  curMethod : Nat
  curPc : Nat
  callstack : Fin 128 → Nat
  ncallstack : Int
  invokeFrame : Nat
  depth : Int
  callSteps : Nat
  stepLimit : Nat

/-- All bytes zero, as `dvm__tstate_reset` makes it. -/
def TState.zero : TState where
  exception := 0
  excTrace := fun _ => 0
  nexcTrace := 0
  excRef := 0
  excPc := 0
  curThread := 0
  drainDepth := 0
  quietUncaught := false
  parked := false
  curMethod := 0
  curPc := 0
  callstack := fun _ => 0
  ncallstack := 0
  invokeFrame := 0
  depth := 0
  callSteps := 0
  stepLimit := 0

/-- The number of call stack entries that are copied. -/
def TState.live (t : TState) : Nat := min t.ncallstack.toNat 128

/-- `dvm__tstate_save` and `dvm__tstate_load`: all fields of `src` go to `dst`, and of the call stack the part in
    use. -/
def TState.copy (dst src : TState) : TState :=
  { src with callstack := fun i => if i < src.live then src.callstack i else dst.callstack i }

/-- The fields without the unused part of the call stack. -/
def TState.view (t : TState) : TState := { t with callstack := fun i => if i < t.live then t.callstack i else 0 }

/-- One step of a call; the name says which function, or which part of one, it is. -/
inductive Instr where
  | gilAcquire
  | acquireTry
  | acquireSlow
  | gilLock
  | gilWait
  | setDepth (d : Nat)
  | install
  | enterFromGuest
  | guestTry
  | guestSlow
  | leaveToGuest (cookie : Nat)
  | gilRelease
  | save
  | gilHandOver
  | gilUnlockAll
  | gilRelock (d : Nat)
  | gilYield
  | armAcquire
  | armLock
  | armWait
  | armSetDepth (d : Nat)
  | armRelease
  | armHandOver
  | armUnlockAll
  | armRelock (d : Nat)
deriving DecidableEq

/-- The calls a thread makes from outside. -/
def Instr.isCall : Instr → Bool
  | .gilAcquire | .enterFromGuest | .leaveToGuest _ | .gilRelease | .gilUnlockAll | .gilRelock _ | .gilYield
  | .armAcquire | .armRelease | .armUnlockAll | .armRelock _ => true
  | _ => false

/-- A thread: what it has left to do of its call, its thread-local variables and its saved state. -/
structure Thread where
  code : List Instr
  gilDepth : Nat
  armDepth : Nat
  tstate : TState
  tstateValid : Bool

/-- The locks, the count of waiters, the VM's fields and the threads; then the history: whose state is installed,
    whether it was changed since, and what each thread's fields were when it last released the lock. -/
structure State (T : Type) where
  gil : Lock T
  waiters : Nat
  arm : Lock T
  vm : TState
  thread : T → Thread
  installed : Option T
  clean : Bool
  last : T → Option TState

section Step
variable {T : Type} [DecidableEq T]

def State.init (vm : TState) : State T where
  gil := .init
  waiters := 0
  arm := .init
  vm := vm
  thread := fun _ => ⟨[], 0, 0, .zero, false⟩
  installed := none
  clean := false
  last := fun _ => none

def State.put (s : State T) (t : T) (th : Thread) : State T := { s with thread := update s.thread t th }

/-- The thread goes on with `code`. -/
def State.goto (s : State T) (t : T) (code : List Instr) : State T := s.put t { s.thread t with code }

/-- The critical section of `dvm_gil_release`. -/
def State.handOver (s : State T) (t : T) : State T :=
  { s with
    gil := s.gil.handOver
    installed := none
    clean := false
    last := update s.last t (some s.vm.view) }

/-- What `arm_lock_unlock_all` does before it enters the critical section, and whether it enters it. -/
def dropArm (th : Thread) : Thread × List Instr :=
    ({ th with armDepth := 0 }, if th.armDepth = 0 then [] else [.armHandOver])

/-- The instruction `i` of thread `t`, with `rest` left to do; `none` while it has to wait. -/
def State.exec (s : State T) (t : T) (rest : List Instr) : Instr → Option (State T)
  | .gilAcquire =>
    let th := s.thread t
    if th.gilDepth ≠ 0 then some (s.put t { th with gilDepth := add 32 th.gilDepth 1, code := rest })
    else some (s.goto t (.acquireTry :: rest))
  | .acquireTry =>
    match s.gil.tryTake t with
    | some gil => some ({ s with gil }.goto t (.setDepth 1 :: .install :: rest))
    | none => some (s.goto t (.acquireSlow :: rest))
  | .acquireSlow =>
    let th := s.thread t
    let r := dropArm th
    some (s.put t { r.1 with code := r.2 ++ .gilLock :: .setDepth 1 :: .install :: .armRelock th.armDepth :: rest })
  | .gilLock =>
    match s.gil.tryTake t with
    | some gil => some ({ s with gil }.goto t rest)
    | none => some ({ s with gil := s.gil.enqueue t, waiters := add 32 s.waiters 1 }.goto t (.gilWait :: rest))
  | .gilWait =>
    if s.gil.go t then some ({ s with gil := s.gil.resume t, waiters := sub 32 s.waiters 1 }.goto t rest) else none
  | .setDepth d => some (s.put t { s.thread t with gilDepth := d, code := rest })
  | .install =>
    let th := s.thread t
    -- A thread without a saved state resets it first and installs that.
    let th := if th.tstateValid then th else { th with tstate := .zero, tstateValid := true }
    some ({ s with vm := s.vm.copy th.tstate, installed := some t, clean := true }.put t { th with code := rest })
  | .enterFromGuest =>
    if (s.thread t).gilDepth ≠ 0 then some (s.goto t rest) else some (s.goto t (.guestTry :: rest))
  | .guestTry =>
    match s.gil.tryTake t with
    | some gil => some ({ s with gil }.goto t (.setDepth 1 :: .install :: rest))
    | none => some (s.goto t (.guestSlow :: rest))
  | .guestSlow =>
    let th := s.thread t
    let r := dropArm th
    some (s.put t { r.1 with code := r.2 ++ .gilAcquire :: .armRelock th.armDepth :: rest })
  | .leaveToGuest cookie => if cookie = 0 then some (s.goto t rest) else some (s.goto t (.gilRelease :: rest))
  | .gilRelease =>
    let th := s.thread t
    if th.gilDepth = 0 then some (s.goto t rest)
    else if th.gilDepth - 1 ≠ 0 then some (s.put t { th with gilDepth := th.gilDepth - 1, code := rest })
    else some (s.put t { th with gilDepth := 0, code := .save :: .gilHandOver :: rest })
  | .save =>
    let th := s.thread t
    some (s.put t { th with tstate := th.tstate.copy s.vm, tstateValid := true, code := rest })
  | .gilHandOver => some ((s.handOver t).goto t rest)
  | .gilUnlockAll =>
    let th := s.thread t
    if th.gilDepth = 0 then some (s.goto t rest) else some (s.put t { th with gilDepth := 1, code := .gilRelease :: rest })
  | .gilRelock d => if d = 0 then some (s.goto t rest) else some (s.goto t (.gilAcquire :: .setDepth d :: rest))
  | .gilYield =>
    let th := s.thread t
    if s.waiters = 0 then some (s.goto t rest)
    else if th.gilDepth = 0 then some (s.goto t rest)
    else some (s.put t { th with gilDepth := 1, code := .gilRelease :: .gilRelock th.gilDepth :: rest })
  | .armAcquire =>
    let th := s.thread t
    if th.armDepth ≠ 0 then some (s.put t { th with armDepth := add 32 th.armDepth 1, code := rest })
    else some (s.goto t (.armLock :: rest))
  | .armLock =>
    match s.arm.tryTake t with
    | some arm => some ({ s with arm }.goto t (.armSetDepth 1 :: rest))
    | none => some ({ s with arm := s.arm.enqueue t }.goto t (.armWait :: .armSetDepth 1 :: rest))
  | .armWait => if s.arm.go t then some ({ s with arm := s.arm.resume t }.goto t rest) else none
  | .armSetDepth d => some (s.put t { s.thread t with armDepth := d, code := rest })
  | .armRelease =>
    let th := s.thread t
    if th.armDepth = 0 then some (s.goto t rest)
    else if th.armDepth - 1 ≠ 0 then some (s.put t { th with armDepth := th.armDepth - 1, code := rest })
    else some (s.put t { th with armDepth := 0, code := .armHandOver :: rest })
  | .armHandOver => some ({ s with arm := s.arm.handOver }.goto t rest)
  | .armUnlockAll =>
    let r := dropArm (s.thread t)
    some (s.put t { r.1 with code := r.2 ++ rest })
  | .armRelock d => if d = 0 then some (s.goto t rest) else some (s.goto t (.armAcquire :: .armSetDepth d :: rest))

/-- A thread starts a call, goes on with one, or, holding the interpreter lock between calls, changes the VM. -/
inductive Act (T : Type) where
  | call (t : T) (i : Instr)
  | advance (t : T)
  | interpret (t : T) (vm : TState)

def State.step (s : State T) : Act T → Option (State T)
  | .call t i => if (s.thread t).code = [] ∧ i.isCall then some (s.goto t [i]) else none
  | .advance t =>
    match (s.thread t).code with
    | [] => none
    | i :: rest => s.exec t rest i
  | .interpret t vm =>
    if (s.thread t).code = [] ∧ (s.thread t).gilDepth ≠ 0 then some { s with vm, clean := false } else none

inductive Reach (vm : TState) : State T → Prop
  | init : Reach vm (.init vm)
  | step {s s' : State T} {a : Act T} : Reach vm s → s.step a = some s' → Reach vm s'

end Step

end Lunaria.Dvm.Gil
