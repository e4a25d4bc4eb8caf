import Lunaria.Lib.Waiters
import Lunaria.Lib.Word

/-! Java monitors. The interpreter lock is held through a monitor call and dropped only inside
    `dvm_gil_wait_for`, so what a thread does between two drops is one step: a call up to its first wait, or the
    rest of a call after one. A thread that waits is listed until it wakes up, and goes on when it has the
    interpreter lock again; in between the other threads run. -/

namespace Lunaria.Dvm.Monitor
open Word Waiters Function

/-- `dvm_ref`; zero is null. -/
abbrev Ref := UInt32

/-- A Java thread, by its id, which is never zero. -/
abbrev Tid := Nat

/-- What a thread waits for at a monitor: to enter it, or to be notified. -/
inductive Kind where
  | entry
  | wait
deriving DecidableEq

def Kind.code : Kind → Nat
  | .entry => 1
  | .wait => 2

/-- `monitor_channel`; a reference has 32 bits, so that nothing is shifted out of a `uintptr_t`. -/
def monitorChannel (ref : Ref) (kind : Kind) : Nat := ref.toNat <<< 2 ||| kind.code

/-- What a thread waits for: a monitor, or what others wait for on a reference or a pointer of their own. -/
inductive Target where
  | monitor (ref : Ref) (kind : Kind)
  | bare (channel : Nat)
deriving DecidableEq

def Target.channel : Target → Nat
  | .monitor ref kind => monitorChannel ref kind
  | .bare channel => channel

/-- The exceptions of the monitor calls. -/
inductive Thrown where
  | enterNull
  | threadIdentity
  | exitNotOwner
  | waitNotOwner
  | waitInterrupted
  | waitedFreed
  | notifyNotOwner
deriving DecidableEq

/-- The monitor of an object: `monitor_owner`, `monitor_depth` and `monitor_seq`. -/
structure Obj where
  owner : Tid
  depth : Nat
  seq : Nat
deriving DecidableEq

/-- A wait that has been left: the depth it gave up, and why it ended. -/
structure Waited where
  saved : Nat
  signalled : Bool
  interrupted : Bool
deriving DecidableEq

/-- Where a thread is: outside the calls, in the loop of `dvm__monitor_enter` (which may be that of a wait), in
    the loop of `dvm__monitor_wait`, or in some other wait. -/
inductive Phase where
  | running
  | entering (ref : Ref) (waited : Option Waited)
  | waiting (ref : Ref) (saved seen deadline : Nat)
  | waitingFor (channel : Nat)
deriving DecidableEq

def Phase.target : Phase → Option Target
  | .running => none
  | .entering ref _ => some (.monitor ref .entry)
  | .waiting ref _ _ _ => some (.monitor ref .wait)
  | .waitingFor channel => some (.bare channel)

/-- What came of a call. A wait is called with some depth and returns later: true, with what it puts in
    `*notified`, or false, with an exception or without. -/
inductive Event where
  | entered (t : Tid) (ref : Ref)
  | refused (t : Tid) (ref : Ref) (thrown : Option Thrown)
  | exited (t : Tid) (ref : Ref)
  | waitCalled (t : Tid) (ref : Ref) (depth : Nat)
  | waitTrue (t : Tid) (ref : Ref) (notified : Bool)
  | waitFalse (t : Tid) (ref : Ref) (thrown : Option Thrown)
  | notified (t : Tid) (ref : Ref) (all : Bool)
  | threw (t : Tid) (ref : Ref) (thrown : Thrown)
deriving DecidableEq

/-- The objects, the list of waiters, the flags and the threads; then what came of the calls, newest first. -/
structure State where
  objs : Ref → Option Obj
  waiters : List (Waiter Tid Nat)
  stopping : Bool
  interrupted : Tid → Bool
  waitChannel : Tid → Nat
  phase : Tid → Phase
  log : List Event

def State.init : State where
  objs := fun _ => none
  waiters := []
  stopping := false
  interrupted := fun _ => false
  waitChannel := fun _ => 0
  phase := fun _ => .running
  log := []

def State.setObj (s : State) (ref : Ref) (o : Obj) : State := { s with objs := update s.objs ref (some o) }

def State.setWait (s : State) (t : Tid) (channel : Nat) : State :=
  { s with waitChannel := update s.waitChannel t channel }

/-- The call returns. -/
def State.finish (s : State) (t : Tid) (e : Event) : State :=
  { s with phase := update s.phase t .running, log := e :: s.log }

/-- `dvm_gil_wait_for_ns` up to the drop of the lock: the thread is listed, in front. -/
def State.park (s : State) (t : Tid) (phase : Phase) (channel : Nat) : State :=
  { s with waiters := ⟨t, channel, false⟩ :: s.waiters, phase := update s.phase t phase }

/-- `dvm_gil_notify_for`; channel zero wakes nobody in the list. -/
def State.notifyFor (s : State) (channel : Nat) : State :=
  if channel = 0 then s else { s with waiters := markAll channel s.waiters }

/-- `dvm_gil_notify_one_for`. -/
def State.notifyOneFor (s : State) (channel : Nat) : State :=
  if channel = 0 then s else { s with waiters := markFirst channel s.waiters }

/-- `monitor_thread_token`: zero when the thread has no identity and none can be made. -/
def threadToken (t : Tid) (ident : Bool) : Tid := if ident then t else 0

/-- What an attempt to enter comes to: the object as it is then, an exception, or another owner. -/
inductive Attempt where
  | entered (o : Obj)
  | threw (e : Thrown)
  | busy
deriving DecidableEq

/-- `dvm__monitor_try_enter`. -/
def State.tryEnter (s : State) (t : Tid) (ref : Ref) (ident : Bool) : Attempt :=
  match s.objs ref with
  | none => .threw .enterNull
  | some o =>
    if threadToken t ident = 0 then .threw .threadIdentity
    else if o.owner ≠ 0 ∧ o.owner ≠ threadToken t ident then .busy
    else .entered { o with owner := threadToken t ident, depth := add 32 o.depth 1 }

/-- One turn of the loop of `dvm__monitor_enter`. -/
inductive Turn where
  | entered (o : Obj)
  | failed (e : Option Thrown)
  | blocked
deriving DecidableEq

/-- `pending` says that `vm->exception` was set before. -/
def State.enterTurn (s : State) (t : Tid) (ref : Ref) (ident pending : Bool) : Turn :=
  if s.stopping then .failed none
  else
    match s.tryEnter t ref ident with
    | .entered o => .entered o
    | .threw e => .failed (some e)
    | .busy => if pending then .failed none else .blocked

/-- `dvm__monitor_enter` from the top of its loop to its return or to the wait. -/
def State.enter (s : State) (t : Tid) (ref : Ref) (ident pending : Bool) : State :=
  match s.enterTurn t ref ident pending with
  | .entered o => (s.setObj ref o).finish t (.entered t ref)
  | .failed e => s.finish t (.refused t ref e)
  | .blocked => s.park t (.entering ref none) (monitorChannel ref .entry)

/-- The end of `dvm__monitor_wait`: it enters the monitor again and restores the depth. -/
def State.regain (s : State) (t : Tid) (ref : Ref) (w : Waited) (ident pending : Bool) : State :=
  match s.enterTurn t ref ident pending with
  | .entered o =>
    (s.setObj ref { o with depth := w.saved }).finish t
      (if w.interrupted then .waitFalse t ref (some .waitInterrupted) else .waitTrue t ref w.signalled)
  | .failed e => s.finish t (.waitFalse t ref e)
  | .blocked => s.park t (.entering ref (some w)) (monitorChannel ref .entry)

/-- The loop of `dvm__monitor_wait` from its top to the wait, or to what follows the loop. -/
def State.waitTurn (s : State) (t : Tid) (ref : Ref) (saved seen deadline now : Nat) (ident pending : Bool) : State :=
  if s.stopping then s.finish t (.waitFalse t ref none)
  else if deadline ≠ 0 ∧ deadline ≤ now then s.regain t ref ⟨saved, false, false⟩ ident pending
  else
    let channel := monitorChannel ref .wait
    (s.setWait t channel).park t (.waiting ref saved seen deadline) channel

/-- The loop of `dvm__monitor_wait` after its wait. -/
def State.waitAwake (s : State) (t : Tid) (ref : Ref) (saved seen deadline now : Nat) (ident pending : Bool) : State :=
  match s.objs ref with
  | none => s.finish t (.waitFalse t ref (some .waitedFreed))
  | some o =>
    if o.seq ≠ seen then s.regain t ref ⟨saved, true, false⟩ ident pending
    else if s.interrupted t then
      { s with interrupted := update s.interrupted t false }.regain t ref ⟨saved, false, true⟩ ident pending
    else s.waitTurn t ref saved seen deadline now ident pending

/-- The object, if the caller owns it, as `exit`, `wait` and `notify` check. -/
def State.owned (s : State) (t : Tid) (ref : Ref) (ident : Bool) : Option Obj :=
  match s.objs ref with
  | none => none
  | some o => if o.owner ≠ threadToken t ident ∨ o.depth = 0 then none else some o

/-- `dvm__monitor_exit`. -/
def State.exit (s : State) (t : Tid) (ref : Ref) (ident : Bool) : State :=
  match s.owned t ref ident with
  | none => s.finish t (.threw t ref .exitNotOwner)
  | some o =>
    if o.depth - 1 ≠ 0 then (s.setObj ref { o with depth := o.depth - 1 }).finish t (.exited t ref)
    else
      ((s.setObj ref { o with owner := 0, depth := 0 }).notifyOneFor (monitorChannel ref .entry)).finish t
        (.exited t ref)

/-- `dvm__monitor_wait` up to its first wait; `called` and `now` are its two readings of the clock. -/
def State.wait (s : State) (t : Tid) (ref : Ref) (timeout called now : Nat) (ident pending : Bool) : State :=
  match s.owned t ref ident with
  | none => s.finish t (.threw t ref .waitNotOwner)
  | some o =>
    let s := { s with log := .waitCalled t ref o.depth :: s.log }
    if s.interrupted t then
      { s with interrupted := update s.interrupted t false }.finish t
        (.waitFalse t ref (some .waitInterrupted))
    else
      let deadline := if timeout = 0 then 0 else add 64 called timeout
      ((s.setObj ref { o with owner := 0, depth := 0 }).notifyOneFor (monitorChannel ref .entry)).waitTurn t ref
        o.depth o.seq deadline now ident pending

/-- `dvm__monitor_notify`. -/
def State.notify (s : State) (t : Tid) (ref : Ref) (all ident : Bool) : State :=
  match s.owned t ref ident with
  | none => s.finish t (.threw t ref .notifyNotOwner)
  | some o =>
    let s := s.setObj ref { o with seq := add 64 o.seq 1 }
    let channel := monitorChannel ref .wait
    (if all then s.notifyFor channel else s.notifyOneFor channel).finish t (.notified t ref all)

/-- `t_interrupt` on the thread `t`, whose `Thread` object is `self`. -/
def State.interrupt (s : State) (t : Tid) (self : Ref) : State :=
  let s := { s with interrupted := update s.interrupted t true }
  (s.notifyFor (s.waitChannel t)).notifyFor self.toNat

/-- `dvm_request_stop`. -/
def State.requestStop (s : State) : State :=
  { s with stopping := true, waiters := s.waiters.map fun w => { w with ready := true } }

/-- One step. The calls say whether the thread has an identity, whether an exception is pending and what the
    clock reads. Some other wait (`waitFor`) may record its channel for `interrupt`. A listed thread wakes up when
    it is ready, when the VM stops or when its time is over, and goes on later. -/
inductive Act where
  | alloc (ref : Ref)
  | tryEnter (t : Tid) (ref : Ref) (ident : Bool)
  | enter (t : Tid) (ref : Ref) (ident pending : Bool)
  | exit (t : Tid) (ref : Ref) (ident : Bool)
  | wait (t : Tid) (ref : Ref) (timeout called now : Nat) (ident pending : Bool)
  | notify (t : Tid) (ref : Ref) (all ident : Bool)
  | waitFor (t : Tid) (channel : Nat) (recorded : Bool)
  | notifyFor (channel : Nat)
  | interrupt (t : Tid) (self : Ref)
  | requestStop
  | wake (t : Tid) (timedOut : Bool)
  | resume (t : Tid) (now : Nat) (ident pending : Bool)
deriving DecidableEq

/-- The thread that makes the step, if it is a monitor call or the rest of one. -/
def Act.caller : Act → Option Tid
  | .tryEnter t _ _ | .enter t _ _ _ | .exit t _ _ | .wait t _ _ _ _ _ _ | .notify t _ _ _ | .resume t _ _ _ => some t
  | _ => none

def State.tryEnterCall (s : State) (t : Tid) (ref : Ref) (ident : Bool) : State :=
  match s.tryEnter t ref ident with
  | .entered o => (s.setObj ref o).finish t (.entered t ref)
  | .threw e => s.finish t (.refused t ref (some e))
  | .busy => s.finish t (.refused t ref none)

/-- A thread that has the interpreter lock again. -/
def State.resume (s : State) (t : Tid) (now : Nat) (ident pending : Bool) : Option State :=
  match s.phase t with
  | .running => none
  | .entering ref none => some (s.enter t ref ident pending)
  | .entering ref (some w) => some (s.regain t ref w ident pending)
  | .waiting ref saved seen deadline =>
    some ((s.setWait t 0).waitAwake t ref saved seen deadline now ident pending)
  | .waitingFor _ => some { s.setWait t 0 with phase := update s.phase t .running }

/-- The thread is outside the calls and can start one. -/
def State.idle (s : State) (t : Tid) : Prop := t ≠ 0 ∧ s.phase t = .running

instance (s : State) (t : Tid) : Decidable (s.idle t) := inferInstanceAs (Decidable (_ ∧ _))

def State.step (s : State) : Act → Option State
  | .alloc ref => if ref ≠ 0 ∧ s.objs ref = none then some (s.setObj ref ⟨0, 0, 0⟩) else none
  | .tryEnter t ref ident => if s.idle t then some (s.tryEnterCall t ref ident) else none
  | .enter t ref ident pending => if s.idle t then some (s.enter t ref ident pending) else none
  | .exit t ref ident => if s.idle t then some (s.exit t ref ident) else none
  | .wait t ref timeout called now ident pending =>
    if s.idle t then some (s.wait t ref timeout called now ident pending) else none
  | .notify t ref all ident => if s.idle t then some (s.notify t ref all ident) else none
  | .waitFor t channel recorded =>
    if s.idle t ∧ channel ≠ 0 ∧ s.stopping = false then
      some ((if recorded then s.setWait t channel else s).park t (.waitingFor channel) channel)
    else none
  | .notifyFor channel => some (s.notifyFor channel)
  | .interrupt t self => some (s.interrupt t self)
  | .requestStop => some s.requestStop
  | .wake t timedOut =>
    match s.waiters.find? (fun w => w.thread = t) with
    | none => none
    | some w =>
      if w.ready ∨ s.stopping ∨ timedOut then some { s with waiters := s.waiters.filter fun w => w.thread ≠ t }
      else none
  | .resume t now ident pending =>
    if s.waiters.any (fun w => w.thread = t) then none else s.resume t now ident pending

/-- The states of the runs whose steps all meet `P`. -/
inductive Run (P : State → Act → Prop) : State → State → Prop
  | refl (s : State) : Run P s s
  | step {s s₁ s' : State} {a : Act} : Run P s s₁ → P s₁ a → s₁.step a = some s' → Run P s s'

theorem Run.trans {P : State → Act → Prop} {s s₁ s' : State} (h : Run P s s₁) (h' : Run P s₁ s') : Run P s s' := by
  induction h' with
  | refl => exact h
  | step _ hmeets hstep ih => exact .step ih hmeets hstep

/-- The steps one after another, as long as they meet `P`. -/
def State.run (P : State → Act → Prop) [∀ s a, Decidable (P s a)] (s : State) : List Act → Option State
  | [] => some s
  | a :: acts => if P s a then (s.step a).bind fun s' => s'.run P acts else none

theorem Run.of_run {P : State → Act → Prop} [∀ s a, Decidable (P s a)] :
    ∀ {acts : List Act} {s s' : State}, s.run P acts = some s' → Run P s s'
  | [], s, s', h => Option.some.inj h ▸ .refl s
  | a :: acts, s, s', h => by
    simp only [State.run] at h
    split at h
    · next hmeets =>
      obtain ⟨s₁, hstep, hrest⟩ := Option.bind_eq_some_iff.mp h
      exact Run.trans (.step (.refl s) hmeets hstep) (Run.of_run hrest)
    · cases h

end Lunaria.Dvm.Monitor
