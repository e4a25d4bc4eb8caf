import Lunaria.Dvm.Insns

/-! The switch of `execute`, its `exception` label and its loop. -/

namespace Lunaria.Dvm.Interp

section Loop
variable {C M F W : Type} [DecidableEq C] [DecidableEq M] (E : Env C M F W)

def badOpcode (op : UInt8) : Exec C M W Unit := do
  let s ← get
  throwing E (.opcode op s.pc)

/-- Moves, returns and constants: opcodes below `0x1a`. -/
def execMoves (op : UInt8) (u0 : UInt16) : Exec C M W Unit :=
  if op = 0x00 then nop
  else if op = 0x01 ∨ op = 0x07 then move E (A4 u0) (B4 u0) 1
  else if op = 0x02 ∨ op = 0x08 then do
    let src ← iu E 1
    move E (AA u0) src.toNat 2
  else if op = 0x03 ∨ op = 0x09 then do
    let dst ← iu E 1
    let src ← iu E 2
    move E dst.toNat src.toNat 3
  else if op = 0x04 then moveWide E (A4 u0) (B4 u0) 1
  else if op = 0x05 then do
    let src ← iu E 1
    moveWide E (AA u0) src.toNat 2
  else if op = 0x06 then do
    let dst ← iu E 1
    let src ← iu E 2
    moveWide E dst.toNat src.toNat 3
  else if op = 0x0a ∨ op = 0x0c then moveResult E (AA u0)
  else if op = 0x0b then moveResultWide E (AA u0)
  else if op = 0x0d then moveException E (AA u0)
  else if op = 0x0e then returnVoid
  else if op = 0x0f ∨ op = 0x11 then returnValue E (AA u0)
  else if op = 0x10 then returnWide E (AA u0)
  else if op = 0x12 then const E (A4 u0) (pure ((B4 u0 * 16).toUInt8.toInt8.toInt32 >>> 4).toUInt32) 1
  else if op = 0x13 then const E (AA u0) (operand E sext16) 2
  else if op = 0x14 then const E (AA u0) (iu32 E) 3
  else if op = 0x15 then const E (AA u0) (operand E fun v => v.toUInt32 <<< 16) 2
  else if op = 0x16 then constWide E (AA u0) (operand E fun v => v.toInt16.toInt64.toUInt64) 2
  else if op = 0x17 then constWide E (AA u0) (do pure (sext32 (← iu32 E))) 3
  else if op = 0x18 then constWide E (AA u0) (iu64 E) 5
  else constWide E (AA u0) (operand E fun v => v.toUInt64 <<< 48) 2

/-- Strings, classes, monitors, objects, arrays and `throw`: opcodes `0x1a` to `0x27`. -/
def execObjects (op : UInt8) (u0 : UInt16) : Exec C M W Unit :=
  if op = 0x1a then constString E (AA u0) (operand E (·.toUInt32)) 2
  else if op = 0x1b then constString E (AA u0) (iu32 E) 3
  else if op = 0x1c then constClass E (AA u0)
  else if op = 0x1d then monitor E E.monitorEnter (AA u0)
  else if op = 0x1e then monitor E E.monitorExit (AA u0)
  else if op = 0x1f then checkCast E (AA u0)
  else if op = 0x20 then instanceOf E (A4 u0) (B4 u0)
  else if op = 0x21 then arrayLength E (A4 u0) (B4 u0)
  else if op = 0x22 then newInstance E (AA u0)
  else if op = 0x23 then newArray E (A4 u0) (B4 u0)
  else if op = 0x24 ∨ op = 0x25 then filledNewArray E (op = 0x25) u0
  else if op = 0x26 then fillArrayData E (AA u0)
  else throwInsn E (AA u0)

/-- Branches and comparisons: opcodes `0x28` to `0x3d`. -/
def execBranches (op : UInt8) (u0 : UInt16) : Exec C M W Unit :=
  if op = 0x28 then goto8 E u0
  else if op = 0x29 then do
    let off ← iu E 1
    gotoInsn (sext16 off)
  else if op = 0x2a then do
    let off ← iu32 E
    gotoInsn off
  else if op = 0x2b ∨ op = 0x2c then switch E (op = 0x2b) (AA u0)
  else if op = 0x2d ∨ op = 0x2e then
    cmp32 E (fun a b => cmpFloat (if op = 0x2d then 0xffffffff else 1) (.ofBits a) (.ofBits b)) (AA u0)
  else if op = 0x2f ∨ op = 0x30 then
    cmp64 E (fun a b => cmpDouble (if op = 0x2f then 0xffffffff else 1) (.ofBits a) (.ofBits b)) (AA u0)
  else if op = 0x31 then cmp64 E cmpLong (AA u0)
  else if op ≤ 0x37 then ifInsn E (op - 0x32).toNat (A4 u0) (B4 u0)
  else ifzInsn E (op - 0x38).toNat (AA u0)

/-- Array elements, fields and calls: opcodes `0x44` to `0x78`, but `0x73`. -/
def execMembers (op : UInt8) (u0 : UInt16) : Exec C M W Unit :=
  if op ≤ 0x4a then aget E (op - 0x44).toNat (AA u0)
  else if op ≤ 0x51 then aput E (op - 0x4b).toNat (AA u0)
  else if op ≤ 0x58 then iget E (op = 0x53) (A4 u0) (B4 u0)
  else if op ≤ 0x5f then iput E (op = 0x5a) (A4 u0) (B4 u0)
  else if op ≤ 0x66 then sget E (op = 0x61) (op = 0x62) (AA u0)
  else if op ≤ 0x6d then sput E (op = 0x68) (AA u0)
  else invokeInsn E op u0

/-- Unary operations and conversions: opcodes `0x7b` to `0x8f`. -/
def execUnary (op : UInt8) (u0 : UInt16) : Exec C M W Unit :=
  let dst := A4 u0
  let src := B4 u0
  if op = 0x7b then unary32 E (fun v => 0 - v) dst src
  else if op = 0x7c then unary32 E (fun v => ~~~v) dst src
  else if op = 0x7d then unary64 E (fun v => 0 - v) dst src
  else if op = 0x7e then unary64 E (fun v => ~~~v) dst src
  else if op = 0x7f then unary32 E (fun v => (-Float32.ofBits v).toBits) dst src
  else if op = 0x80 then unary64 E (fun v => (-Float.ofBits v).toBits) dst src
  else if op = 0x81 then widen E sext32 dst src
  else if op = 0x82 then unary32 E (fun v => v.toInt32.toFloat32.toBits) dst src
  else if op = 0x83 then widen E (fun v => v.toInt32.toFloat.toBits) dst src
  else if op = 0x84 then narrow E (·.toUInt32) dst src
  else if op = 0x85 then narrow E (fun v => v.toInt64.toFloat32.toBits) dst src
  else if op = 0x86 then unary64 E (fun v => v.toInt64.toFloat.toBits) dst src
  else if op = 0x87 then unary32 E (fun v => floatToInt (.ofBits v)) dst src
  else if op = 0x88 then widen E (fun v => floatToLong (.ofBits v)) dst src
  else if op = 0x89 then widen E (fun v => (Float32.ofBits v).toFloat.toBits) dst src
  else if op = 0x8a then narrow E (fun v => doubleToInt (.ofBits v)) dst src
  else if op = 0x8b then unary64 E (fun v => doubleToLong (.ofBits v)) dst src
  else if op = 0x8c then narrow E (fun v => (Float.ofBits v).toFloat32.toBits) dst src
  else if op = 0x8d then unary32 E (fun v => sext8 v.toUInt8) dst src
  else if op = 0x8e then unary32 E (fun v => v.toUInt16.toUInt32) dst src
  else unary32 E (fun v => sext16 v.toUInt16) dst src

/-- Binary operations: opcodes `0x90` to `0xe2`. -/
def execBinary (op : UInt8) (u0 : UInt16) : Exec C M W Unit :=
  let float (k : Nat) (a b : UInt32) : Option UInt32 := some (floatOp E.fmodf k (.ofBits a) (.ofBits b)).toBits
  let double (k : Nat) (a b : UInt64) : Option UInt64 := some (doubleOp E.fmod k (.ofBits a) (.ofBits b)).toBits
  if op ≤ 0x9a then binop32 E (arith32 (op - 0x90).toNat) (AA u0)
  else if op ≤ 0xa5 then binop64 E (0xa3 ≤ op) (arith64 (op - 0x9b).toNat) (AA u0)
  else if op ≤ 0xaa then binop32 E (float (op - 0xa6).toNat) (AA u0)
  else if op ≤ 0xaf then binop64 E false (double (op - 0xab).toNat) (AA u0)
  else if op ≤ 0xba then binop32Addr E (arith32 (op - 0xb0).toNat) (A4 u0) (B4 u0)
  else if op ≤ 0xc5 then binop64Addr E (0xc3 ≤ op) (arith64 (op - 0xbb).toNat) (A4 u0) (B4 u0)
  else if op ≤ 0xca then binop32Addr E (float (op - 0xc6).toNat) (A4 u0) (B4 u0)
  else if op ≤ 0xcf then binop64Addr E false (double (op - 0xcb).toNat) (A4 u0) (B4 u0)
  else if op ≤ 0xd7 then binopLit16 E (op - 0xd0).toNat (A4 u0) (B4 u0)
  else binopLit8 E (op - 0xd8).toNat (AA u0)

/-- The switch. -/
def execOp (op : UInt8) (u0 : UInt16) : Exec C M W Unit :=
  if op ≤ 0x19 then execMoves E op u0
  else if op ≤ 0x27 then execObjects E op u0
  else if op ≤ 0x3d then execBranches E op u0
  else if op ≤ 0x43 then badOpcode E op
  else if op ≤ 0x78 ∧ op ≠ 0x73 then execMembers E op u0
  else if op ≤ 0x7a then badOpcode E op
  else if op ≤ 0x8f then execUnary E op u0
  else if op ≤ 0xe2 then execBinary E op u0
  else if op ≤ 0xf9 then badOpcode E op
  else if op ≤ 0xfb then skip 4
  else if op ≤ 0xfd then skip 3
  else const E (AA u0) (pure 0) 2

/-- The thread gives the lock up and has it back: its own state is installed again, the rest of the VM may have
    changed. -/
def Env.yield (vm : Vm C M W) : Vm C M W :=
  { E.gilYield vm with
    exception := vm.exception
    excRef := vm.excRef
    excTrace := vm.excTrace
    excPc := vm.excPc
    parked := vm.parked
    depth := vm.depth
    callSteps := vm.callSteps
    stepLimit := vm.stepLimit
    curMethod := vm.curMethod
    curPc := vm.curPc }

/-- The lock is offered up every so many steps. -/
def offerLock : Exec C M W Unit := do
  modify fun s => { s with vm := { s.vm with steps := s.vm.steps + 1 } }
  let s ← get
  if s.vm.steps &&& 32767 = 0 then do
    modify fun s => { s with vm := E.yield s.vm }
    let s ← get
    if s.vm.stopping then throw .returnFalse else pure ()
  else pure ()

def countStep : Exec C M W Unit := do
  let s ← get
  if s.vm.stepLimit ≠ 0 then do
    modify fun s => { s with vm := { s.vm with callSteps := s.vm.callSteps + 1 } }
    let s ← get
    if s.vm.stepLimit < s.vm.callSteps then throwing E .stepLimit else pure ()
  else pure ()

/-- The top of the loop, up to the switch: the code unit at `fr->pc`. -/
def fetch : Exec C M W UInt16 := do
  let s ← get
  if E.nins ≤ s.pc then throwing E .ranPastEnd
  else do
    offerLock E
    countStep E
    let u0 ← insn E s.pc.toNat
    modify fun s => { s with vm := { s.vm with curMethod := some E.method, curPc := s.pc } }
    pure u0

/-- One instruction. -/
def execInsn : Exec C M W Unit := do
  let u0 ← fetch E
  execOp E (u0 &&& 0xff).toUInt8 u0

/-- How a turn of the loop ends. -/
inductive Turn (C M W : Type) where
  | next (s : State C M W)
  | returned (ok : Bool) (out : UInt64) (s : State C M W)
  | fault (f : Fault) (s : State C M W)

def State.caught (s : State C M W) (handler : UInt32) : State C M W :=
  { s with vm := { s.vm with excRef := s.vm.exception, exception := 0 }, pc := handler }

/-- The `exception` label. -/
def exceptionLabel (s : State C M W) : Turn C M W :=
  if s.vm.stopping then .returned false 0 s
  else
    let s := if s.vm.exception = 0 then { s with vm := E.dvmThrow .noExceptionObject s.vm } else s
    let eo := if s.vm.exception = 0 then none else s.vm.heap s.vm.exception
    if s.vm.parked then
      match E.findCatchall s.pc with
      | some handler => .next (s.caught handler)
      | none => .returned false 0 s
    else
      let r := E.findHandler s.pc (eo.bind (·.cls)) s.vm
      match r.1 with
      | some handler => .next ({ s with vm := r.2 }.caught handler)
      | none => .returned false 0 { s with vm := r.2 }

/-- One turn of the loop of `execute`. -/
def turn (s : State C M W) : Turn C M W :=
  match execInsn E s with
  | .ok _ s => .next s
  | .error .exception s => exceptionLabel E s
  | .error (.returnTrue out) s => .returned true out s
  | .error .returnFalse s => .returned false 0 s
  | .error (.fault f) s => .fault f s

/-- The states at the top of the loop, from the first one on. -/
inductive Turns : State C M W → State C M W → Prop
  | refl (s : State C M W) : Turns s s
  | next {s s₁ s' : State C M W} : Turns s s₁ → turn E s₁ = .next s' → Turns s s'

end Loop

end Lunaria.Dvm.Interp
