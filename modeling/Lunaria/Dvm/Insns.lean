import Lunaria.Dvm.Machine

/-! The instructions of `execute`, one definition for each group of opcodes that shares its code. -/

namespace Lunaria.Dvm.Interp

open Function

/-- `AA(u)`, `A4(u)` and `B4(u)`. -/
def AA (u : UInt16) : Nat := (u >>> 8).toNat
def A4 (u : UInt16) : Nat := ((u >>> 8) &&& 0xf).toNat
def B4 (u : UInt16) : Nat := ((u >>> 12) &&& 0xf).toNat

/-- The registers of a second code unit: its low and its high byte. -/
def lowByte (u : UInt16) : Nat := (u &&& 0xff).toNat
def highByte (u : UInt16) : Nat := (u >>> 8).toNat

def sext8 (v : UInt8) : UInt32 := v.toInt8.toInt32.toUInt32
def sext16 (v : UInt16) : UInt32 := v.toInt16.toInt32.toUInt32
def sext32 (v : UInt32) : UInt64 := v.toInt32.toInt64.toUInt64

section Values

/-- The switch of the `int` operations; nothing for a division by zero. -/
def arith32 (k : Nat) (a b : UInt32) : Option UInt32 :=
  match k with
  | 0 => some (a + b)
  | 1 => some (a - b)
  | 2 => some (a * b)
  | 3 =>
    if b = 0 then none
    else some (if a = 0x80000000 ∧ b = 0xffffffff then 0x80000000 else (a.toInt32 / b.toInt32).toUInt32)
  | 4 =>
    if b = 0 then none
    else some (if a = 0x80000000 ∧ b = 0xffffffff then 0 else (a.toInt32 % b.toInt32).toUInt32)
  | 5 => some (a &&& b)
  | 6 => some (a ||| b)
  | 7 => some (a ^^^ b)
  | 8 => some (a <<< (b &&& 31))
  | 9 => some (a.toInt32 >>> (b &&& 31).toInt32).toUInt32
  | _ => some (a >>> (b &&& 31))

/-- The switch of the `long` operations. -/
def arith64 (k : Nat) (a b : UInt64) : Option UInt64 :=
  match k with
  | 0 => some (a + b)
  | 1 => some (a - b)
  | 2 => some (a * b)
  | 3 =>
    if b = 0 then none
    else some (if a = 0x8000000000000000 ∧ b = 0xffffffffffffffff then 0x8000000000000000
      else (a.toInt64 / b.toInt64).toUInt64)
  | 4 =>
    if b = 0 then none
    else some (if a = 0x8000000000000000 ∧ b = 0xffffffffffffffff then 0 else (a.toInt64 % b.toInt64).toUInt64)
  | 5 => some (a &&& b)
  | 6 => some (a ||| b)
  | 7 => some (a ^^^ b)
  | 8 => some (a <<< (b &&& 63))
  | 9 => some (a.toInt64 >>> (b &&& 63).toInt64).toUInt64
  | _ => some (a >>> (b &&& 63))

/-- The literal operations, whose second one subtracts the other way round. -/
def arithLit (k : Nat) (a b : UInt32) : Option UInt32 := if k = 1 then some (b - a) else arith32 k a b

def floatOp (fmodf : Float32 → Float32 → Float32) (k : Nat) (a b : Float32) : Float32 :=
  match k with
  | 0 => a + b
  | 1 => a - b
  | 2 => a * b
  | 3 => a / b
  | _ => fmodf a b

def doubleOp (fmod : Float → Float → Float) (k : Nat) (a b : Float) : Float :=
  match k with
  | 0 => a + b
  | 1 => a - b
  | 2 => a * b
  | 3 => a / b
  | _ => fmod a b

/-- `cmpl-float` and `cmpg-float`; `nan` is what an unordered pair gives. -/
def cmpFloat (nan : UInt32) (a b : Float32) : UInt32 :=
  if a.isNaN || b.isNaN then nan else if b < a then 1 else if a < b then 0xffffffff else 0

def cmpDouble (nan : UInt32) (a b : Float) : UInt32 :=
  if a.isNaN || b.isNaN then nan else if b < a then 1 else if a < b then 0xffffffff else 0

def cmpLong (a b : UInt64) : UInt32 := if b.toInt64 < a.toInt64 then 1 else if a = b then 0 else 0xffffffff

/-- The tests of `if-eq` to `if-le`, and of `if-eqz` to `if-lez` with zero. -/
def ifTest (k : Nat) (a b : UInt32) : Bool :=
  match k with
  | 0 => a = b
  | 1 => a ≠ b
  | 2 => a.toInt32 < b.toInt32
  | 3 => b.toInt32 ≤ a.toInt32
  | 4 => b.toInt32 < a.toInt32
  | _ => a.toInt32 ≤ b.toInt32

def floatToInt (f : Float32) : UInt32 :=
  if f.isNaN then 0
  else if f ≥ 2147483647.0 then 0x7fffffff
  else if f ≤ -2147483648.0 then 0x80000000
  else f.toInt32.toUInt32

def floatToLong (f : Float32) : UInt64 :=
  if f.isNaN then 0
  else if f ≥ 9223372036854775807.0 then 0x7fffffffffffffff
  else if f ≤ -9223372036854775808.0 then 0x8000000000000000
  else f.toInt64.toUInt64

def doubleToInt (f : Float) : UInt32 :=
  if f.isNaN then 0
  else if f ≥ 2147483647.0 then 0x7fffffff
  else if f ≤ -2147483648.0 then 0x80000000
  else f.toInt32.toUInt32

def doubleToLong (f : Float) : UInt64 :=
  if f.isNaN then 0
  else if f ≥ 9223372036854775807.0 then 0x7fffffffffffffff
  else if f ≤ -9223372036854775808.0 then 0x8000000000000000
  else f.toInt64.toUInt64

/-- Bytes that `aget` and `aput` access, in the order of their opcodes. -/
def accessWidth (k : Nat) : Nat :=
  match k with
  | 1 => 8
  | 3 | 4 => 1
  | 5 | 6 => 2
  | _ => 4

/-- What `aget` makes of the element. -/
def agetValue (k : Nat) (v : UInt64) : UInt32 :=
  match k with
  | 3 => if v = 0 then 0 else 1
  | 4 => sext8 v.toUInt8
  | 6 => sext16 v.toUInt16
  | _ => v.toUInt32

/-- What `aput` makes of the register. -/
def aputValue (k : Nat) (v : UInt32) : UInt64 :=
  match k with
  | 3 => if v = 0 then 0 else 1
  | _ => v.toUInt64

end Values

section Handlers
variable {C M F W : Type} (E : Env C M F W)

def nop : Exec C M W Unit := advance 1

/-- `move` and `move-object` of all sizes. -/
def move (dst src : Nat) (len : UInt32) : Exec C M W Unit := do
  req E dst
  req E src
  let v ← getR E src
  setR E dst v
  advance len

def moveWide (dst src : Nat) (len : UInt32) : Exec C M W Unit := do
  req E (dst + 1)
  req E (src + 1)
  let v ← getW E src
  setW E dst v
  advance len

def moveResult (dst : Nat) : Exec C M W Unit := do
  req E dst
  let s ← get
  setR E dst s.result.toUInt32
  advance 1

def moveResultWide (dst : Nat) : Exec C M W Unit := do
  req E (dst + 1)
  let s ← get
  setW E dst s.result
  advance 1

def moveException (dst : Nat) : Exec C M W Unit := do
  req E dst
  let s ← get
  setR E dst (if s.vm.exception ≠ 0 then s.vm.exception else s.vm.excRef)
  modify fun s => { s with vm := { s.vm with exception := 0 } }
  advance 1

def returnVoid : Exec C M W Unit := throw (.returnTrue 0)

def returnValue (src : Nat) : Exec C M W Unit := do
  req E src
  let v ← getR E src
  throw (.returnTrue v.toUInt64)

def returnWide (src : Nat) : Exec C M W Unit := do
  req E (src + 1)
  let v ← getW E src
  throw (.returnTrue v)

/-- The constants of 32 bits; the value comes from the operands. -/
def const (dst : Nat) (v : Exec C M W UInt32) (len : UInt32) : Exec C M W Unit := do
  req E dst
  let v ← v
  setR E dst v
  advance len

def constWide (dst : Nat) (v : Exec C M W UInt64) (len : UInt32) : Exec C M W Unit := do
  req E (dst + 1)
  let v ← v
  setW E dst v
  advance len

/-- `(uint32_t)IU(1) | ((uint32_t)IU(2) << 16)`. -/
def iu32 : Exec C M W UInt32 := do
  let lo ← iu E 1
  let hi ← iu E 2
  pure (join lo hi)

/-- A value made of `IU(1)`. -/
def operand {α : Type} (f : UInt16 → α) : Exec C M W α := do
  let v ← iu E 1
  pure (f v)

def iu64 : Exec C M W UInt64 := do
  let a ← iu E 1
  let b ← iu E 2
  let c ← iu E 3
  let d ← iu E 4
  pure (a.toUInt64 ||| (b.toUInt64 <<< 16) ||| (c.toUInt64 <<< 32) ||| (d.toUInt64 <<< 48))

/-- `dd ? const_string(vm, dd, idx) : 0`. -/
def stringOf (idx : UInt32) : Exec C M W UInt32 := if E.hasDex then call (E.constString idx) else pure 0

def constString (dst : Nat) (idx : Exec C M W UInt32) (len : UInt32) : Exec C M W Unit := do
  req E dst
  let idx ← idx
  let v ← stringOf E idx
  setR E dst v
  advance len

/-- `dd ? resolve_type(vm, dd, IU(1)) : NULL`. -/
def typeOperand : Exec C M W (Option C) := do
  let idx ← iu E 1
  if E.hasDex then call (E.resolveType idx.toUInt32) else pure none

def constClass (dst : Nat) : Exec C M W Unit := do
  req E dst
  let t ← typeOperand E
  match t with
  | none => throwing E (.noClassDef none)
  | some t =>
    if E.absent t then throwing E (.noClassDef (some t))
    else
      let v ← call (E.classObject t)
      setR E dst v
      advance 2

/-- `monitor-enter` and `monitor-exit`. -/
def monitor (f : UInt32 → Vm C M W → Bool × Vm C M W) (src : Nat) : Exec C M W Unit := do
  req E src
  let ref ← getR E src
  let ok ← call (f ref)
  if ok then advance 1 else throw .exception

def checkCast (src : Nat) : Exec C M W Unit := do
  req E src
  let t ← typeOperand E
  let ref ← getR E src
  let o ← obj ref
  match o, t with
  | some o, some t => if E.assignable o.cls t then advance 2 else throwing E (.classCast o.cls t)
  | _, _ => advance 2

/-- `o && t && class_assignable(vm, o->cls, t)`. -/
def isInstance (o : Option (Obj C)) (t : Option C) : Bool :=
  match o, t with
  | some o, some t => E.assignable o.cls t
  | _, _ => false

def instanceOf (dst src : Nat) : Exec C M W Unit := do
  req E dst
  req E src
  let t ← typeOperand E
  let ref ← getR E src
  let o ← obj ref
  setR E dst (if isInstance E o t then 1 else 0)
  advance 2

def arrayLength (dst src : Nat) : Exec C M W Unit := do
  req E dst
  req E src
  let ref ← getR E src
  let o ← obj ref
  match o with
  | none => throwing E .arrayLength
  | some o =>
    if o.kind ≠ .array then throwing E .arrayLength
    else
      setR E dst o.length
      advance 1

/-- An object of the class: from the host, for a class of its own, or a new one. -/
def newObjectOf (t : C) : Exec C M W UInt32 :=
  match E.newExternal with
  | some hook =>
    if E.external t then do
      let h ← call (hook t)
      if h ≠ 0 then pure h else call (E.newObject t)
    else call (E.newObject t)
  | none => call (E.newObject t)

def newInstance (dst : Nat) : Exec C M W Unit := do
  req E dst
  let t ← typeOperand E
  match t with
  | none => throwing E (.noClassDef none)
  | some t =>
    if E.absent t then throwing E (.noClassDef (some t))
    else
      let ok ← call (E.initClass t)
      if ok then
        let v ← newObjectOf E t
        setR E dst v
        advance 2
      else throw .exception

/-- `dvm_new_array`; null when it has thrown or there is no object left. -/
def Env.newArray (elem : Char) (component : List Char) (length : UInt32) (vm : Vm C M W) : UInt32 × Vm C M W :=
  if 255 ≤ (component.takeWhile (· = '[')).length ∨ component = [] ∨ component = ['V'] then
    (0, E.dvmThrow .arrayComponent vm)
  else if 256 < component.length + 2 ∧ E.malloc (component.length + 2) vm = false then
    (0, E.dvmThrow .arrayDescriptor vm)
  else
    let cls := E.classByDesc ('[' :: component) vm
    let width := elemWidth elem
    if width = 0 ∨ (2 ^ 64 - 1) / width < length.toNat then (0, E.dvmThrow .arraySize cls.2)
    else
      let r := E.heapAlloc cls.2
      if r.1 = 0 then (0, r.2)
      else
        let o : Obj C :=
          { cls := cls.1, kind := .array, length := length, elemKind := elem, data := fun _ => 0, slots := none }
        let vm := { r.2 with heap := update r.2.heap r.1 (some o) }
        if E.malloc (max 1 (length.toNat * width)) vm then (r.1, vm)
        else (0, E.dvmThrow .arrayData { vm with heap := update vm.heap r.1 none })

/-- The descriptor of the elements of an array type, `I` for no such type. -/
def elemDesc (t : Option C) : List Char :=
  match t with
  | none => ['I']
  | some t =>
    match E.desc t with
    | '[' :: desc => desc
    | _ => ['I']

def newArray (dst src : Nat) : Exec C M W Unit := do
  req E dst
  req E src
  let t ← typeOperand E
  let len ← getR E src
  if len.toInt32 < 0 then throwing E (.negativeArraySize len.toInt32)
  else
    let ed := elemDesc E t
    let v ← call (E.newArray (kindOf ed) ed len)
    setR E dst v
    advance 2

/-- `idx < nregs ? regs[idx] : 0`, for each of the registers. -/
def slotsOf : List Nat → Exec C M W (List UInt32)
  | [] => pure []
  | i :: l =>
    if i < E.nregs.toNat then do
      let v ← getR E i
      let rest ← slotsOf l
      pure (v :: rest)
    else do
      let rest ← slotsOf l
      pure (0 :: rest)

/-- `gather_args`. -/
def gatherArgs (range : Bool) (u0 : UInt16) : Exec C M W (List UInt32) := do
  let cccc ← iu E 2
  if range then slotsOf E ((List.range (AA u0)).map fun i => cccc.toNat + i)
  else
    let idx := [(cccc &&& 0xf).toNat, ((cccc >>> 4) &&& 0xf).toNat, ((cccc >>> 8) &&& 0xf).toNat,
      ((cccc >>> 12) &&& 0xf).toNat, A4 u0]
    slotsOf E (idx.take (B4 u0))

/-- The loop of `filled-new-array`, from element `i` on: elements of eight bytes get four. -/
def fillElements (ref : UInt32) (o : Obj C) (width : Nat) : Nat → List UInt32 → Exec C M W Unit
  | _, [] => pure ()
  | i, v :: l => do
    let w := if width = 1 then 1 else if width = 2 then 2 else 4
    storeData ref o (i * w) (bytesOf v.toUInt64 w)
    fillElements ref o width (i + 1) l

def fillArray (arr : UInt32) (width : Nat) (slots : List UInt32) : Exec C M W Unit := do
  let ao ← obj arr
  match ao with
  | none => pure ()
  | some ao => fillElements arr ao width 0 slots

def filledNewArray (range : Bool) (u0 : UInt16) : Exec C M W Unit := do
  let t ← typeOperand E
  let slots ← gatherArgs E range u0
  let ed := elemDesc E t
  let arr ← call (E.newArray (kindOf ed) ed slots.length.toUInt32)
  fillArray arr (elemWidth (kindOf ed)) slots
  modify fun s => { s with result := arr.toUInt64 }
  advance 3

/-- The bytes of the code from unit `i` on, low byte first, as `memcpy` sees them. -/
def codeBytes (i n : Nat) : List UInt8 :=
  (List.range n).map fun j =>
    let u := E.insns (i + j / 2)
    if j % 2 = 0 then u.toUInt8 else (u >>> 8).toUInt8

/-- `memcpy(ao->data, &insns[i], n)`. -/
def copyPayload (ref : UInt32) (o : Obj C) (i n : Nat) : Exec C M W Unit :=
  if n = 0 ∨ i + (n + 1) / 2 ≤ E.nins.toNat then storeData ref o 0 (codeBytes E i n)
  else throw (.fault (.insn (i + (n + 1) / 2 - 1)))

def fillPayload (ref : UInt32) (ao : Obj C) (poff : UInt32) : Exec C M W Unit := do
  let width ← insn E (poff + 1).toNat
  let lo ← insn E (poff + 2).toNat
  let hi ← insn E (poff + 3).toNat
  let count := (join lo hi).toNat
  let n := min count ao.length.toNat
  let units := (count * width.toNat + 1) / 2
  if (poff + 4).toNat + units ≤ E.nins.toNat ∧ width.toNat = elemWidth ao.elemKind then
    copyPayload E ref ao (poff + 4).toNat (n * width.toNat)
  else pure ()

/-- The payload, if there is one: the sum wraps at the end of the address space. -/
def fillFrom (ref : UInt32) (ao : Obj C) (poff : UInt32) : Exec C M W Unit :=
  if poff + 4 ≤ E.nins then do
    let ident ← insn E poff.toNat
    if ident = 0x0300 then fillPayload E ref ao poff else pure ()
  else pure ()

def fillArrayData (src : Nat) : Exec C M W Unit := do
  req E src
  let off ← iu32 E
  let s ← get
  let ref ← getR E src
  let ao ← obj ref
  match ao with
  | none => throwing E .fillArrayData
  | some ao =>
    if ao.kind ≠ .array then throwing E .fillArrayData
    else do
      fillFrom E ref ao (s.pc + off)
      advance 3

/-- `throw`: the origin of an exception that is thrown again is kept, and the frames it passes are added. -/
def throwInsn [DecidableEq M] (src : Nat) : Exec C M W Unit := do
  req E src
  let ref ← getR E src
  if ref = 0 then throwing E .throwNull
  else
    modify fun s =>
      let vm := { s.vm with exception := ref }
      if vm.excRef ≠ ref then
        { s with vm := { vm with excRef := ref, excTrace := [E.method], excPc := s.pc } }
      else if vm.excTrace.length < 16 ∧ vm.excTrace.getLast? ≠ some E.method then
        { s with vm := { vm with excTrace := vm.excTrace ++ [E.method] } }
      else { s with vm }
    throw .exception

def gotoInsn (off : UInt32) : Exec C M W Unit := do
  let s ← get
  goto (s.pc + off)

def goto8 (u0 : UInt16) : Exec C M W Unit :=
  if AA u0 = 0 then throwing E .gotoZero else gotoInsn (sext8 (u0 >>> 8).toUInt8)

/-- The search of `sparse-switch`, from key `k` on. -/
def sparseFind (poff size val : UInt32) : Nat → Nat → Exec C M W (Option UInt32)
  | 0, _ => pure none
  | n + 1, k => do
    let ke := poff + 2 + k.toUInt32 * 2
    let lo ← insn E ke.toNat
    let hi ← insn E (ke + 1).toNat
    if join lo hi ≠ val then sparseFind poff size val n (k + 1)
    else
      let te := poff + 2 + size * 2 + k.toUInt32 * 2
      let lo ← insn E te.toNat
      let hi ← insn E (te + 1).toNat
      pure (some (join lo hi))

/-- The entry of `packed-switch` for the value. -/
def packedFind (poff size val : UInt32) : Exec C M W (Option UInt32) := do
  let lo ← insn E (poff + 2).toNat
  let hi ← insn E (poff + 3).toNat
  let k := val.toInt32.toInt - (join lo hi).toInt32.toInt
  if 0 ≤ k ∧ k < size.toNat then
    let e := poff + 4 + k.toNat.toUInt32 * 2
    let lo ← insn E e.toNat
    let hi ← insn E (e + 1).toNat
    pure (some (join lo hi))
  else pure none

/-- The entry of the payload for the value, if there is a payload: the sum wraps at the end of the address space. -/
def switchFind (packed : Bool) (poff val : UInt32) : Exec C M W (Option UInt32) :=
  if poff + 2 ≤ E.nins then do
    let ident ← insn E poff.toNat
    let size ← insn E (poff + 1).toNat
    if ident = 0x0100 ∧ packed ∧ poff.toNat + 4 + size.toNat * 2 ≤ E.nins.toNat then
      packedFind E poff size.toUInt32 val
    else if ident = 0x0200 ∧ packed = false ∧ poff.toNat + 2 + size.toNat * 4 ≤ E.nins.toNat then
      sparseFind E poff size.toUInt32 val size.toNat 0
    else pure none
  else pure none

/-- `packed-switch` (`packed`) and `sparse-switch`. -/
def switch (packed : Bool) (src : Nat) : Exec C M W Unit := do
  req E src
  let off ← iu32 E
  let s ← get
  let val ← getR E src
  let found ← switchFind E packed (s.pc + off) val
  match found with
  | none => goto (s.pc + 3)
  | some off => goto (s.pc + off)

/-- A comparison of two values of one or two registers. -/
def cmp32 (f : UInt32 → UInt32 → UInt32) (dst : Nat) : Exec C M W Unit := do
  req E dst
  let bc ← iu E 1
  req E (lowByte bc)
  req E (highByte bc)
  let a ← getR E (lowByte bc)
  let b ← getR E (highByte bc)
  setR E dst (f a b)
  advance 2

def cmp64 (f : UInt64 → UInt64 → UInt32) (dst : Nat) : Exec C M W Unit := do
  req E dst
  let bc ← iu E 1
  req E (lowByte bc + 1)
  req E (highByte bc + 1)
  let a ← getW E (lowByte bc)
  let b ← getW E (highByte bc)
  setR E dst (f a b)
  advance 2

/-- The end of a conditional branch. -/
def branch (taken : Bool) : Exec C M W Unit := do
  let off ← iu E 1
  let s ← get
  goto (if taken then s.pc + sext16 off else s.pc + 2)

def ifInsn (k : Nat) (a b : Nat) : Exec C M W Unit := do
  req E a
  req E b
  let va ← getR E a
  let vb ← getR E b
  branch E (ifTest k va vb)

def ifzInsn (k : Nat) (a : Nat) : Exec C M W Unit := do
  req E a
  let va ← getR E a
  branch E (ifTest k va 0)

/-- `array_check`, and the array if there is one and the index is inside. -/
def arrayCheck (o : Option (Obj C)) (idx : UInt32) : Exec C M W (Obj C) :=
  match o with
  | none => throwing E .arrayNull
  | some a =>
    if a.kind ≠ .array then throwing E .arrayNull
    else if a.length ≤ idx then throwing E (.arrayIndex a.length idx)
    else pure a

/-- The switch of `aget`. -/
def agetElement (k : Nat) (dst : Nat) (a : Obj C) (idx : UInt32) : Exec C M W Unit :=
  if k = 1 then do
    req E (dst + 1)
    let v ← loadData a (idx.toNat * 8) 8
    setW E dst v
  else do
    let v ← loadData a (idx.toNat * accessWidth k) (accessWidth k)
    setR E dst (agetValue k v)

def aget (k : Nat) (dst : Nat) : Exec C M W Unit := do
  req E dst
  let bc ← iu E 1
  req E (lowByte bc)
  req E (highByte bc)
  let ref ← getR E (lowByte bc)
  let o ← obj ref
  let idx ← getR E (highByte bc)
  let a ← arrayCheck E o idx
  agetElement E k dst a idx
  advance 2

/-- The switch of `aput`. -/
def aputElement (k : Nat) (src : Nat) (ref : UInt32) (a : Obj C) (idx : UInt32) : Exec C M W Unit :=
  if k = 1 then do
    req E (src + 1)
    let v ← getW E src
    storeData ref a (idx.toNat * 8) (bytesOf v 8)
  else do
    let v ← getR E src
    storeData ref a (idx.toNat * accessWidth k) (bytesOf (aputValue k v) (accessWidth k))

def aput (k : Nat) (src : Nat) : Exec C M W Unit := do
  req E src
  let bc ← iu E 1
  req E (lowByte bc)
  req E (highByte bc)
  let ref ← getR E (lowByte bc)
  let o ← obj ref
  let idx ← getR E (highByte bc)
  let a ← arrayCheck E o idx
  aputElement E k src ref a idx
  advance 2

/-- `dd ? resolve_field(vm, dd, IU(1), ...) : NULL`. -/
def fieldOperand (statics : Bool) : Exec C M W (FieldRef C F) := do
  let idx ← iu E 1
  if E.hasDex then call (E.resolveField idx.toUInt32 statics) else pure ⟨none, none, none, none⟩

/-- The slot of an instance field, if the object has it. -/
def instanceSlot (o : Obj C) (f : Option F) : Option (Nat × (Nat → UInt64)) :=
  match f, o.slots, o.cls with
  | some f, some slots, some c => if E.slot f < E.islots c then some (E.slot f, slots) else none
  | _, _, _ => none

/-- The register or the pair of registers that a field is read into. -/
def putResult (wide : Bool) (dst : Nat) (v : UInt64) : Exec C M W Unit :=
  if wide then do
    req E (dst + 1)
    setW E dst v
  else setR E dst v.toUInt32

/-- The register or the pair of registers that a field is written from. -/
def putOperand (wide : Bool) (src : Nat) : Exec C M W UInt64 :=
  if wide then do
    req E (src + 1)
    getW E src
  else do
    let v ← getR E src
    pure v.toUInt64

def iget (wide : Bool) (dst src : Nat) : Exec C M W Unit := do
  req E dst
  req E src
  let f ← fieldOperand E false
  let ref ← getR E src
  let o ← obj ref
  match o with
  | none => throwing E (.igetNull f.cls f.name f.type)
  | some o => do
    putResult E wide dst (match instanceSlot E o f.field with
      | some (i, slots) => slots i
      | none => 0)
    advance 2

/-- The slot, if there is one, gets the value. -/
def storeSlot (ref : UInt32) (o : Obj C) (slot : Option (Nat × (Nat → UInt64))) (v : UInt64) : Exec C M W Unit :=
  match slot with
  | some (i, slots) =>
    modify fun s => { s with vm := { s.vm with
      heap := update s.vm.heap ref (some { o with slots := some (update slots i v) }) } }
  | none => pure ()

def iput (wide : Bool) (src dst : Nat) : Exec C M W Unit := do
  req E src
  req E dst
  let f ← fieldOperand E false
  let ref ← getR E dst
  let o ← obj ref
  match o with
  | none => throwing E (.iputNull f.cls f.name f.type)
  | some o => do
    let v ← putOperand E wide src
    storeSlot ref o (instanceSlot E o f.field) v
    advance 2

section Static
variable [DecidableEq C]

/-- The value in the slot of a static field, zero without one. -/
def staticValue (f : F) (vm : Vm C M W) : UInt64 :=
  match vm.sslots (E.fieldCls f) with
  | some slots => if E.slot f < E.nsslots (E.fieldCls f) then slots (E.slot f) else 0
  | none => 0

/-- The slot of a static field, if it has one, gets a value. -/
def setStatic (f : F) (v : UInt64) (vm : Vm C M W) : Vm C M W :=
  match vm.sslots (E.fieldCls f) with
  | some slots =>
    if E.slot f < E.nsslots (E.fieldCls f) then
      { vm with sslots := update vm.sslots (E.fieldCls f) (some (update slots (E.slot f) v)) }
    else vm
  | none => vm

/-- What the host says of the activity that the field of that name holds. -/
def hostStatic (object : Bool) (r : FieldRef C F) (f : F) (v : UInt64) : Exec C M W UInt64 :=
  match r.cls, r.name, r.type, E.getExternalStatic with
  | some c, some name, some type, some hook =>
    if object ∧ v.toUInt32 = 0 ∧ name = "currentActivity" then do
      let host ← call (hook c name (some type))
      match host with
      | some host =>
        if host.toUInt32 ≠ 0 then do
          modify fun s => { s with vm := setStatic E f host s.vm }
          pure host
        else pure v
      | none => pure v
    else pure v
  | _, _, _, _ => pure v

/-- The value of a static field; `object` is `sget-object`. -/
def staticOf (object : Bool) (r : FieldRef C F) : Exec C M W UInt64 :=
  match r.field with
  | some f => do
    let ok ← call (E.initClass (E.fieldCls f))
    if ok then do
      let s ← get
      hostStatic E object r f (staticValue E f s.vm)
    else throw .exception
  | none =>
    match r.cls, r.name, E.getExternalStatic with
    | some c, some name, some hook => do
      let v ← call (hook c name r.type)
      match v with
      | some v => pure v
      | none => throwing E (.noStatic c name)
    | _, _, _ => pure 0

def sget (wide object : Bool) (dst : Nat) : Exec C M W Unit := do
  req E dst
  let r ← fieldOperand E true
  let v ← staticOf E object r
  putResult E wide dst v
  advance 2

/-- The static field, if there is one, gets the value. -/
def storeStatic (f : Option F) (v : UInt64) : Exec C M W Unit :=
  match f with
  | some f => do
    let ok ← call (E.initClass (E.fieldCls f))
    if ok then modify fun s => { s with vm := setStatic E f v s.vm } else throw .exception
  | none => pure ()

def sput (wide : Bool) (src : Nat) : Exec C M W Unit := do
  req E src
  let r ← fieldOperand E true
  let v ← putOperand E wide src
  storeStatic E r.field v
  advance 2

end Static

/-- `dd ? resolve_method(vm, dd, midx, ...) : NULL`. -/
def methodOf (midx : UInt32) : Exec C M W (MethodRef C M) :=
  if E.hasDex then call (E.resolveMethod midx) else pure ⟨none, none, none, ""⟩

/-- `invoke-super` looks at the superclass of the calling class, but for an interface. -/
def superTarget (kind : UInt8) (r : MethodRef C M) : Exec C M W (Option M) :=
  match r.cls, E.super with
  | some c, some super =>
    if kind = 0x6f ∧ E.isInterface c = false then call (E.findMethod super r.name r.sig) else pure r.method
  | _, _ => pure r.method

/-- Virtual and interface calls look at the receiver. -/
def receiverTarget (kind : UInt8) (self : UInt32) (r : MethodRef C M) (target : Option M) : Exec C M W (Option M) :=
  if kind = 0x6e ∨ kind = 0x72 then
    match target with
    | some m => do
      let m ← call (E.virtualTarget self m)
      pure (some m)
    | none =>
      if self ≠ 0 then do
        let ro ← obj self
        match ro.bind (·.cls) with
        | some c => call (E.findMethod c r.name r.sig)
        | none => pure none
      else pure none
  else pure target

/-- The call, to the method or, without one, out of the VM. -/
def invokeCall (isStatic : Bool) (self : UInt32) (args : List UInt32) (r : MethodRef C M) (target : Option M) :
    Exec C M W (Bool × UInt64) :=
  match target with
  | some m => call (E.invoke m self args)
  | none =>
    match r.cls with
    | none => pure (true, 0)
    | some c =>
      if E.absent c then throwing E (.noClassDef (some c))
      else
        match r.name with
        | none => pure (true, 0)
        | some name => do
          modify fun s => { s with vm := { s.vm with depth := s.vm.depth + 1 } }
          let ret ← call (E.callOut c name r.sig isStatic self args)
          modify fun s => { s with vm := { s.vm with depth := s.vm.depth - 1 } }
          pure ret

/-- The result of the call, if no exception is pending. -/
def invokeResult (ret : Bool × UInt64) : Exec C M W Unit := do
  let s ← get
  if ret.1 = false ∨ s.vm.exception ≠ 0 then throw .exception
  else do
    modify fun s => { s with result := ret.2 }
    advance 3

def invokeInsn (op : UInt8) (u0 : UInt16) : Exec C M W Unit := do
  let range : Bool := 0x74 ≤ op
  let kind := if range then op - 0x74 + 0x6e else op
  let midx ← iu E 1
  let r ← methodOf E midx.toUInt32
  let slots ← gatherArgs E range u0
  let isStatic : Bool := kind = 0x71
  if isStatic = false ∧ slots = [] then throwing E .noReceiver
  else
    let self := if isStatic then 0 else slots.headD 0
    let args := if isStatic then slots else slots.tail
    if isStatic = false ∧ self = 0 then throwing E (.receiverNull r.cls r.name midx.toUInt32)
    else do
      let target ← superTarget E kind r
      let target ← receiverTarget E kind self r target
      let ret ← invokeCall E isStatic self args r target
      invokeResult ret

/-- The unary operations and conversions, by the sizes of their operands. -/
def unary32 (f : UInt32 → UInt32) (dst src : Nat) : Exec C M W Unit := do
  req E dst
  req E src
  let v ← getR E src
  setR E dst (f v)
  advance 1

def unary64 (f : UInt64 → UInt64) (dst src : Nat) : Exec C M W Unit := do
  req E (dst + 1)
  req E (src + 1)
  let v ← getW E src
  setW E dst (f v)
  advance 1

def widen (f : UInt32 → UInt64) (dst src : Nat) : Exec C M W Unit := do
  req E (dst + 1)
  req E src
  let v ← getR E src
  setW E dst (f v)
  advance 1

def narrow (f : UInt64 → UInt32) (dst src : Nat) : Exec C M W Unit := do
  req E dst
  req E (src + 1)
  let v ← getW E src
  setR E dst (f v)
  advance 1

/-- The result of an operation, or a division by zero. -/
def orDivide {α : Type} (v : Option α) : Exec C M W α :=
  match v with
  | some v => pure v
  | none => throwing E .divideByZero

/-- `binop vAA, vBB, vCC` on one register each. -/
def binop32 (f : UInt32 → UInt32 → Option UInt32) (dst : Nat) : Exec C M W Unit := do
  req E dst
  let bc ← iu E 1
  req E (lowByte bc)
  req E (highByte bc)
  let a ← getR E (lowByte bc)
  let b ← getR E (highByte bc)
  let v ← orDivide E (f a b)
  setR E dst v
  advance 2

/-- The second operand of a `long` operation; the count of a shift has one register. -/
def operand64 (shift : Bool) (i : Nat) : Exec C M W UInt64 :=
  if shift then do
    let b ← getR E i
    pure (sext32 b)
  else getW E i

/-- `binop vAA, vBB, vCC` on two registers each; the count of a shift has one. -/
def binop64 (shift : Bool) (f : UInt64 → UInt64 → Option UInt64) (dst : Nat) : Exec C M W Unit := do
  req E (dst + 1)
  let bc ← iu E 1
  req E (lowByte bc + 1)
  req E (if shift then highByte bc else highByte bc + 1)
  let a ← getW E (lowByte bc)
  let b ← operand64 E shift (highByte bc)
  let v ← orDivide E (f a b)
  setW E dst v
  advance 2

/-- `binop/2addr vA, vB`. -/
def binop32Addr (f : UInt32 → UInt32 → Option UInt32) (dst src : Nat) : Exec C M W Unit := do
  req E dst
  req E src
  let a ← getR E dst
  let b ← getR E src
  let v ← orDivide E (f a b)
  setR E dst v
  advance 1

def binop64Addr (shift : Bool) (f : UInt64 → UInt64 → Option UInt64) (dst src : Nat) : Exec C M W Unit := do
  req E (dst + 1)
  req E (if shift then src else src + 1)
  let a ← getW E dst
  let b ← operand64 E shift src
  let v ← orDivide E (f a b)
  setW E dst v
  advance 1

/-- `binop/lit16 vA, vB, #+CCCC`. -/
def binopLit16 (k : Nat) (dst src : Nat) : Exec C M W Unit := do
  req E dst
  req E src
  let a ← getR E src
  let b ← iu E 1
  let v ← orDivide E (arithLit k a (sext16 b))
  setR E dst v
  advance 2

/-- `binop/lit8 vAA, vBB, #+CC`. -/
def binopLit8 (k : Nat) (dst : Nat) : Exec C M W Unit := do
  req E dst
  let bc ← iu E 1
  req E (lowByte bc)
  let a ← getR E (lowByte bc)
  let v ← orDivide E (arithLit k a (sext8 (bc >>> 8).toUInt8))
  setR E dst v
  advance 2

/-- The instructions that are skipped, with zero as their result. -/
def skip (len : UInt32) : Exec C M W Unit := do
  modify fun s => { s with result := 0 }
  advance len

end Handlers

end Lunaria.Dvm.Interp
