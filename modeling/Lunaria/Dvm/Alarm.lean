import Lunaria.Lib.Checked

/-! The alarm service: a list of records with two clocks, which is searched again after each delivery. Times are `int64_t`
    and never negative; a result that is negative or more than `INT64_MAX` is a fault. -/

namespace Lunaria.Dvm
open Function

/-- `INT64_MAX` -/
def alarmMax : Nat := 2 ^ 63 - 1

/-- `dvm_alarm`. An object is named by its reference, and zero is none. -/
structure Alarm where
  token : Nat
  listener : Nat
  handler : Nat
  type : Int
  when : Nat
  interval : Nat
  minElapsed : Nat
  deriving DecidableEq

/-- What the alarms need of the virtual machine. -/
structure AlarmVm where
  alarms : List Alarm
  pendingIntents : List Nat
  cancelled : Nat → Bool
  flags : Nat → UInt32
  /-- The records that were delivered, each with its count. -/
  delivered : List (Alarm × Nat)

/-- `alarm_remove` -/
def alarmRemove (alarms : List Alarm) (token listener : Nat) : List Alarm :=
  alarms.filter fun a => ¬(token ≠ 0 ∧ a.token = token ∨ listener ≠ 0 ∧ a.listener = listener)

/-- `pending_cancel_token` -/
def pendingCancelToken (vm : AlarmVm) (token : Nat) : AlarmVm :=
  if token ∈ vm.pendingIntents then
    { vm with
      pendingIntents := vm.pendingIntents.erase token
      cancelled := update vm.cancelled token true
      alarms := alarmRemove vm.alarms token 0 }
  else vm

/-- `pending_send_token`, where `made` tells whether there is an intent to broadcast. -/
def pendingSendToken (vm : AlarmVm) (token : Nat) (made : Bool) : Bool × AlarmVm :=
  if token = 0 ∨ vm.cancelled token ∨ !made then (false, vm)
  else (true, if vm.flags token &&& 0x40000000 ≠ 0 then pendingCancelToken vm token else vm)

/-! ### Polls -/

def Alarm.clock (a : Alarm) (wall elapsed : Nat) : Nat := if a.type < 2 then wall else elapsed

/-- Whether a record is due. -/
def Alarm.isDue (a : Alarm) (wall elapsed : Nat) : Bool := a.when ≤ a.clock wall elapsed ∧ a.minElapsed ≤ elapsed

/-- The search of `dvm_alarm_poll_at`: the list up to a record that is due, without what is cancelled, and from there on. -/
def alarmSearch (cancelled : Nat → Bool) (wall elapsed : Nat) : List Alarm → List Alarm × List Alarm
  | [] => ([], [])
  | a :: rest =>
    if a.token ≠ 0 ∧ cancelled a.token then alarmSearch cancelled wall elapsed rest
    else if a.isDue wall elapsed then ([], a :: rest)
    else
      let (before, found) := alarmSearch cancelled wall elapsed rest
      (a :: before, found)

/-- How often a record was due. -/
def Alarm.count (a : Alarm) (now : Nat) : Checked Nat :=
  if 0 < a.interval then do
    let late ← Checked.minus now a.when
    Checked.plus alarmMax 1 (late / a.interval)
  else .ok 1

/-- What is left of a record that is delivered. -/
def Alarm.next (a : Alarm) (now : Nat) : Checked (Option Alarm) :=
  if 0 < a.interval ∧ now < alarmMax then do
    let late ← Checked.minus now a.when
    let increment ← Checked.minus a.interval (late % a.interval)
    let room ← Checked.minus alarmMax increment
    let time ← if room < now then .ok alarmMax else Checked.plus alarmMax now increment
    return some { a with when := time, minElapsed := 0 }
  else .ok none

/-- A delivery: the token of an operation is sent, or work is queued for a listener. -/
def deliverAlarm (vm : AlarmVm) (a : Alarm) (made : Bool) : AlarmVm :=
  if a.token ≠ 0 then (pendingSendToken vm a.token made).2 else vm

/-- `INT_MAX` -/
def countMax : Nat := 2 ^ 31 - 1

/-- The loop of `dvm_alarm_poll_at`. -/
def alarmPollLoop (wall elapsed : Nat) (made : Alarm → Bool) : Nat → AlarmVm → Checked AlarmVm
  | 0, vm => .ok vm
  | n + 1, vm =>
    match alarmSearch vm.cancelled wall elapsed vm.alarms with
    | (before, []) => .ok { vm with alarms := before }
    | (before, a :: rest) => do
      let count ← a.count (a.clock wall elapsed)
      let next ← a.next (a.clock wall elapsed)
      let vm := { vm with
        alarms := before ++ (next.toList ++ rest)
        delivered := vm.delivered ++ [(a, if countMax < count then countMax else count)] }
      alarmPollLoop wall elapsed made n (deliverAlarm vm a (made a))

/-- `dvm_alarm_poll_at`, where `ready` tells whether the machine runs and no exception is pending. -/
def alarmPollAt (vm : AlarmVm) (ready : Bool) (wall elapsed : Nat) (made : Alarm → Bool) : Checked AlarmVm :=
  if ready then alarmPollLoop wall elapsed made 500 vm else .ok vm

/-! ### Calls -/

inductive AlarmMethod where
  | set
  | setExact
  | setAndAllowWhileIdle
  | setExactAndAllowWhileIdle
  | setRepeating
  | setInexactRepeating
  | setWindow
  deriving DecidableEq

/-- The methods that take a listener. -/
def AlarmMethod.direct : AlarmMethod → Bool
  | set => true
  | setExact => true
  | setWindow => true
  | _ => false

inductive AlarmResult where
  | ok
  | securityException
  | illegalArgument
  | illegalState
  | outOfMemory
  | nullPointer
  deriving DecidableEq

/-- The arguments of a method: an operation, if there is one, by its token, or a listener. -/
structure AlarmCall where
  method : AlarmMethod
  direct : Bool
  type : Int
  trigger : Int64
  length : Int64
  operation : Option Nat
  listener : Nat
  handler : Nat
  deriving DecidableEq

/-- What a call finds around it. -/
structure AlarmEnv where
  realtimeNs : UInt64
  boottimeNs : UInt64
  targetSdk : Int
  uid : Nat
  permission : Bool
  alloc : Bool
  deriving DecidableEq

/-- `alarm_can_exact` -/
def alarmCanExact (env : AlarmEnv) : Bool := env.targetSdk < 31 ∨ env.uid < 10000 ∨ env.permission

/-- Whether a call asks for an exact time. -/
def AlarmCall.exact (call : AlarmCall) (env : AlarmEnv) : Bool :=
  call.method = .setExact ∨ call.method = .setExactAndAllowWhileIdle ∨ call.method = .setWindow ∧ call.length = 0 ∨
    call.method = .set ∧ env.targetSdk < 19

def AlarmCall.interval (call : AlarmCall) : Nat :=
  let interval := if call.method = .setRepeating ∨ call.method = .setInexactRepeating then call.length.toInt.toNat else 0
  let interval := if 0 < interval ∧ interval < 60000 then 60000 else interval
  if 31536000000 < interval then 31536000000 else interval

def AlarmCall.record (call : AlarmCall) (env : AlarmEnv) : Checked Alarm := do
  let wall := env.realtimeNs.toNat / 1000000
  let elapsed := env.boottimeNs.toNat / 1000000
  let futurity := if env.uid < 10000 then 0 else 5000
  let minimum ← Checked.plus alarmMax (if call.type < 2 then wall else elapsed) futurity
  let minElapsed ← Checked.plus alarmMax elapsed futurity
  return {
    token := if call.direct then 0 else call.operation.getD 0
    listener := if call.direct then call.listener else 0
    handler := if call.direct then call.handler else 0
    type := call.type
    when := if call.trigger.toInt < minimum then minimum else call.trigger.toInt.toNat
    interval := call.interval
    minElapsed }

/-- `alarm_set` -/
def alarmSet (vm : AlarmVm) (call : AlarmCall) (env : AlarmEnv) : Checked (AlarmResult × AlarmVm) :=
  if (if call.direct then call.listener = 0 else call.operation = none) then .ok (.ok, vm)
  else if call.exact env ∧ !alarmCanExact env then .ok (.securityException, vm)
  else if call.type < 0 ∨ 3 < call.type then .ok (.illegalArgument, vm)
  else if !call.direct ∧ (call.operation.getD 0 = 0 ∨ vm.cancelled (call.operation.getD 0)) then .ok (.ok, vm)
  else do
    let a ← call.record env
    let replacement := vm.alarms.any fun b => a.token ≠ 0 ∧ b.token = a.token ∨ a.listener ≠ 0 ∧ b.listener = a.listener
    if 500 ≤ vm.alarms.length ∧ !replacement then return (.illegalState, vm)
    else if !env.alloc then return (.outOfMemory, vm)
    else return (.ok, { vm with alarms := a :: alarmRemove vm.alarms a.token a.listener })

/-- `alarm_cancel` -/
def alarmCancel (vm : AlarmVm) (direct : Bool) (operation : Option Nat) (listener : Nat) (targetSdk : Int) :
    AlarmResult × AlarmVm :=
  if (if direct then listener = 0 else operation = none) then (if direct ∨ 24 ≤ targetSdk then .nullPointer else .ok, vm)
  else (.ok, { vm with
    alarms := alarmRemove vm.alarms (if direct then 0 else operation.getD 0) (if direct then listener else 0) })

/-! ### Runs -/

inductive AlarmEvent where
  | set (call : AlarmCall) (env : AlarmEnv)
  | cancel (direct : Bool) (operation : Option Nat) (listener : Nat) (targetSdk : Int)
  /-- `PendingIntent.cancel` -/
  | cancelToken (token : Nat)
  /-- A new `PendingIntent`. -/
  | issue (token : Nat) (flags : UInt32)
  | poll (ready : Bool) (wall elapsed : Nat) (made : Alarm → Bool)

/-- Methods have a listener only if they take one; a new token is the token of no record; clocks are numbers of 63 bits. -/
def AlarmEvent.Allowed (vm : AlarmVm) : AlarmEvent → Prop
  | set call _ => call.direct = true → call.method.direct = true
  | cancel .. => True
  | cancelToken _ => True
  | issue token _ => ∀ a ∈ vm.alarms, a.token ≠ token
  | poll _ wall elapsed _ => wall ≤ alarmMax ∧ elapsed ≤ alarmMax

def AlarmVm.step (vm : AlarmVm) : AlarmEvent → Checked AlarmVm
  | .set call env => do return (← alarmSet vm call env).2
  | .cancel direct operation listener targetSdk => .ok (alarmCancel vm direct operation listener targetSdk).2
  | .cancelToken token => .ok (pendingCancelToken vm token)
  | .issue token flags => .ok { vm with
      pendingIntents := token :: vm.pendingIntents, cancelled := update vm.cancelled token false, flags :=
        update vm.flags token flags }
  | .poll ready wall elapsed made => alarmPollAt vm ready wall elapsed made

inductive AlarmReach : AlarmVm → Prop
  | start {flags : Nat → UInt32} : AlarmReach ⟨[], [], fun _ => false, flags, []⟩
  | step {vm vm' : AlarmVm} {e : AlarmEvent} : AlarmReach vm → e.Allowed vm → vm.step e = .ok vm' → AlarmReach vm'

end Lunaria.Dvm
