import Mathlib.Logic.Function.Basic
import Mathlib.Algebra.Group.Nat.Defs
import Lunaria.Lib.Exits

/-! The machine of the bytecode interpreter `execute`: the frame, the part of the VM that instructions touch
    themselves, and the functions they call, each of which may change the VM in any way and leave an exception
    pending. Reads of the code array and accesses to registers and array payloads that are out of bounds leave by a
    fault; everything else leaves as the code does, by `goto exception` or by a return. -/

namespace Lunaria.Dvm.Interp

/-- `enum dvm_obj_kind`. -/
inductive ObjKind where
  | plain
  | string
  | array
  | klass
  | external
deriving DecidableEq

/-- The fields of `struct dvm_object` that instructions use. -/
structure Obj (C : Type) where
  cls : Option C
  kind : ObjKind
  length : UInt32
  elemKind : Char
  data : Nat → UInt8
  slots : Option (Nat → UInt64)

/-- The exceptions that `execute` and `dvm_new_array` throw, with what their messages say beside the method. -/
inductive Thrown (C : Type) where
  | register (reg nregs : Nat)
  | ranPastEnd
  | stepLimit
  | noClassDef (cls : Option C)
  | classCast (obj : Option C) (target : C)
  | arrayLength
  | negativeArraySize (len : Int32)
  | fillArrayData
  | throwNull
  | gotoZero
  | arrayNull
  | arrayIndex (length idx : UInt32)
  | igetNull (cls : Option C) (name type : Option String)
  | iputNull (cls : Option C) (name type : Option String)
  | noStatic (cls : C) (name : String)
  | noReceiver
  | receiverNull (cls : Option C) (name : Option String) (midx : UInt32)
  | divideByZero
  | opcode (op : UInt8) (pc : UInt32)
  | noExceptionObject
  | arrayComponent
  | arrayDescriptor
  | arraySize
  | arrayData

/-- The VM: what instructions read and write themselves, and the rest. References are numbers, null is zero. -/
structure Vm (C M W : Type) where
  exception : UInt32
  excRef : UInt32
  excTrace : List M
  excPc : UInt32
  parked : Bool
  stopping : Bool
  steps : UInt64
  callSteps : UInt64
  stepLimit : UInt64
  depth : Int
  curMethod : Option M
  curPc : UInt32
  heap : UInt32 → Option (Obj C)
  sslots : C → Option (Nat → UInt64)
  world : W

/-- What `resolve_field` gives: the field, and the class, name and type of the reference as far as it got. -/
structure FieldRef (C F : Type) where
  field : Option F
  cls : Option C
  name : Option String
  type : Option String

/-- What `resolve_method` gives. -/
structure MethodRef (C M : Type) where
  method : Option M
  cls : Option C
  name : Option String
  sig : String

/-- The method, its code and the rest of the VM's code: attributes of classes and fields, and functions that are
    called with the VM as it is and leave it as they like. `hasDex` says that the method's dex is registered. -/
structure Env (C M F W : Type) where
  method : M
  insns : Nat → UInt16
  nins : UInt32
  nregs : UInt32
  hasDex : Bool
  super : Option C
  desc : C → List Char
  external : C → Bool
  isInterface : C → Bool
  absent : C → Bool
  assignable : Option C → C → Bool
  islots : C → Nat
  nsslots : C → Nat
  fieldCls : F → C
  slot : F → Nat
  newThrowable : Thrown C → Vm C M W → UInt32 × Vm C M W
  gilYield : Vm C M W → Vm C M W
  constString : UInt32 → Vm C M W → UInt32 × Vm C M W
  resolveType : UInt32 → Vm C M W → Option C × Vm C M W
  classObject : C → Vm C M W → UInt32 × Vm C M W
  monitorEnter : UInt32 → Vm C M W → Bool × Vm C M W
  monitorExit : UInt32 → Vm C M W → Bool × Vm C M W
  initClass : C → Vm C M W → Bool × Vm C M W
  newExternal : Option (C → Vm C M W → UInt32 × Vm C M W)
  newObject : C → Vm C M W → UInt32 × Vm C M W
  classByDesc : List Char → Vm C M W → Option C × Vm C M W
  malloc : Nat → Vm C M W → Bool
  heapAlloc : Vm C M W → UInt32 × Vm C M W
  resolveField : UInt32 → Bool → Vm C M W → FieldRef C F × Vm C M W
  getExternalStatic : Option (C → String → Option String → Vm C M W → Option UInt64 × Vm C M W)
  resolveMethod : UInt32 → Vm C M W → MethodRef C M × Vm C M W
  findMethod : C → Option String → String → Vm C M W → Option M × Vm C M W
  virtualTarget : UInt32 → M → Vm C M W → M × Vm C M W
  invoke : M → UInt32 → List UInt32 → Vm C M W → (Bool × UInt64) × Vm C M W
  callOut : C → String → String → Bool → UInt32 → List UInt32 → Vm C M W → (Bool × UInt64) × Vm C M W
  findHandler : UInt32 → Option C → Vm C M W → Option UInt32 × Vm C M W
  findCatchall : UInt32 → Option UInt32
  fmodf : Float32 → Float32 → Float32
  fmod : Float → Float → Float

structure State (C M W : Type) where
  regs : Nat → UInt32
  pc : UInt32
  result : UInt64
  vm : Vm C M W

/-- An access out of bounds. -/
inductive Fault where
  | insn (i : Nat)
  | reg (i : Nat)
  | data (off width : Nat)
deriving DecidableEq

/-- How an instruction leaves, other than by the end of the switch. -/
inductive Exit where
  | exception
  | returnTrue (out : UInt64)
  | returnFalse
  | fault (f : Fault)
deriving DecidableEq

/-- Bytes of one element of an array. -/
def elemWidth (kind : Char) : Nat :=
  if kind = 'Z' ∨ kind = 'B' then 1
  else if kind = 'C' ∨ kind = 'S' then 2
  else if kind = 'J' ∨ kind = 'D' then 8
  else 4

/-- `dvm__kind_of`. -/
def kindOf : List Char → Char
  | [] => 'V'
  | c :: _ => if c ∈ ['Z', 'B', 'C', 'S', 'I', 'J', 'F', 'D', 'V'] then c else 'L'

section Machine
variable {C M F W : Type}

abbrev Exec (C M W α : Type) := EStateM Exit (State C M W) α

/-- Bytes of the payload of an array. -/
def Obj.bytes (o : Obj C) : Nat := o.length.toNat * elemWidth o.elemKind

/-- `dvm__throw`: the object may be null when there is no memory for it. -/
def Env.dvmThrow (E : Env C M F W) (t : Thrown C) (vm : Vm C M W) : Vm C M W :=
  let r := E.newThrowable t vm
  { r.2 with
    exception := r.1
    excRef := r.1
    excTrace := r.2.curMethod.toList
    excPc := if r.2.curMethod.isSome then r.2.curPc else r.2.excPc }

variable (E : Env C M F W)

/-- A function of the VM is called. -/
def call {α : Type} (f : Vm C M W → α × Vm C M W) : Exec C M W α :=
  modifyGet fun s => ((f s.vm).1, { s with vm := (f s.vm).2 })

/-- `dvm__throw`, then `goto exception`. -/
def throwing {α : Type} (t : Thrown C) : Exec C M W α := do
  modify fun s => { s with vm := E.dvmThrow t s.vm }
  throw .exception

/-- `insns[i]`. -/
def insn (i : Nat) : Exec C M W UInt16 := if i < E.nins.toNat then pure (E.insns i) else throw (.fault (.insn i))

/-- `IU(k)`: an operand, zero past the end of the code. -/
def iu (k : UInt32) : Exec C M W UInt16 := do
  let s ← get
  if s.pc + k < E.nins then insn E (s.pc + k).toNat else pure 0

/-- Two code units, low one first. -/
def join (lo hi : UInt16) : UInt32 := lo.toUInt32 ||| (hi.toUInt32 <<< 16)

/-- `REQ(reg)`. -/
def req (i : Nat) : Exec C M W Unit :=
  if E.nregs.toNat ≤ i then throwing E (.register i E.nregs.toNat) else pure ()

/-- `r[i]`. -/
def getR (i : Nat) : Exec C M W UInt32 := do
  let s ← get
  if i < E.nregs.toNat then pure (s.regs i) else throw (.fault (.reg i))

/-- `r[i] = v`. -/
def setR (i : Nat) (v : UInt32) : Exec C M W Unit :=
  if i < E.nregs.toNat then modify fun s => { s with regs := Function.update s.regs i v } else throw (.fault (.reg i))

/-- `rw(r, i)`. -/
def getW (i : Nat) : Exec C M W UInt64 := do
  let lo ← getR E i
  let hi ← getR E (i + 1)
  pure (lo.toUInt64 ||| (hi.toUInt64 <<< 32))

/-- `sw(r, i, v)`. -/
def setW (i : Nat) (v : UInt64) : Exec C M W Unit := do
  setR E i v.toUInt32
  setR E (i + 1) (v >>> 32).toUInt32

/-- `dvm__obj`. -/
def obj (ref : UInt32) : Exec C M W (Option (Obj C)) := do
  let s ← get
  pure (if ref = 0 then none else s.vm.heap ref)

/-- `fr->pc += n`, and the end of the case. -/
def advance (n : UInt32) : Exec C M W Unit := modify fun s => { s with pc := s.pc + n }

/-- `fr->pc = target`, and the end of the case. -/
def goto (target : UInt32) : Exec C M W Unit := modify fun s => { s with pc := target }

/-- The `n` bytes of a little-endian number. -/
def bytesOf (v : UInt64) (n : Nat) : List UInt8 := (List.range n).map fun i => (v >>> (8 * i).toUInt64).toUInt8

/-- The number that bytes spell. -/
def ofBytes : List UInt8 → UInt64
  | [] => 0
  | b :: l => b.toUInt64 ||| (ofBytes l <<< 8)

/-- A read of the payload. -/
def loadData (o : Obj C) (off width : Nat) : Exec C M W UInt64 :=
  if off + width ≤ o.bytes then pure (ofBytes ((List.range width).map fun i => o.data (off + i)))
  else throw (.fault (.data off width))

/-- The payload with bytes replaced. -/
def patch (data : Nat → UInt8) (off : Nat) (l : List UInt8) : Nat → UInt8 :=
  fun i => if off ≤ i then l.getD (i - off) (data i) else data i

/-- A write of the payload of the object `o`, which is at `ref`. -/
def storeData (ref : UInt32) (o : Obj C) (off : Nat) (l : List UInt8) : Exec C M W Unit :=
  if off + l.length ≤ o.bytes then
    modify fun s => { s with vm := { s.vm with
      heap := Function.update s.vm.heap ref ((s.vm.heap ref).map fun o => { o with data := patch o.data off l }) } }
  else throw (.fault (.data off l.length))

end Machine

end Lunaria.Dvm.Interp
