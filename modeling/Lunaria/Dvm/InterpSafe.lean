import Lunaria.Dvm.InsnCalls

/-! When one step of the interpreter leaves its buffers: the exact instructions and payloads for which it does, every
    other step stays inside, names of registers and elements that are not there end in an exception, and payloads that
    are not there are passed over. -/

namespace Lunaria.Dvm.Interp
open Exits UInt32

section Inside
variable {C M F W α β : Type} {V : Vm C M W → Vm C M W → Prop} {s : State C M W} (E : Env C M F W)

/-- No access out of bounds is made. -/
def Inside (m : Exec C M W α) (s : State C M W) : Prop := Ends m s (fun _ _ => True) fun e _ => ∀ f, e ≠ .fault f

variable {pc : UInt32} {packed : Bool} {ref : UInt32} {a : Obj C} {heap : UInt32 → Option (Obj C)} {regs : Nat → UInt32}
  {bc : UInt16} {m : UInt32 → Obj C → UInt32 → Exec C M W Unit} {k dst : Nat} {idx : UInt32}

theorem Fine.inside {L : Prop} {m : Exec C M W α} (h : Fine V False pc L m) (hpc : s.pc = pc) :
    Inside m s := by
  refine (h s hpc).mono (fun _ _ _ => trivial) fun e _ he f hf => ?_
  subst hf
  exact he.1

theorem Keeps.inside {m : Exec C M W α} {P : α → Prop} (h : Keeps V False pc m P) (hpc : s.pc = pc) :
    Inside m s := by
  refine (h s hpc).mono (fun _ _ _ => trivial) fun e _ he f hf => ?_
  subst hf
  exact he.1

theorem Inside.first {m : Exec C M W α} {f : α → Exec C M W β} (h : Inside (m >>= f) s) : Inside m s := by
  unfold Inside at h
  rw [ends_bind] at h
  exact h.mono (fun _ _ _ => trivial) fun _ _ he => he

/-- The registers of the operand unit name an array and an index of it. -/
def ElementAt (heap : UInt32 → Option (Obj C)) (regs : Nat → UInt32) (bc : UInt16) (a : Obj C) : Prop :=
  objAt heap (regs (lowByte bc)) = some a ∧ a.kind = .array ∧ regs (highByte bc) < a.length

/-- The element of the array does not reach as far as the access. -/
def Env.ElementShort (E : Env C M F W) (heap : UInt32 → Option (Obj C)) (regs : Nat → UInt32) (bc : UInt16) (k r : Nat) :
    Prop :=
  E.Has (arrayRegs k r bc) ∧ ∃ a, ElementAt heap regs bc a ∧ a.bytes < ((regs (highByte bc)).toNat + 1) * accessWidth k

end Inside

section Opcode
variable {C M F W : Type} {s : State C M W} {B : Prop} {pc : UInt32} (E : Env C M F W)

/-- The registers that an instruction names; the arguments of calls and of `filled-new-array` are not among them, as
    zero is passed for those that are not there. -/
def Env.regs (pc : UInt32) (op : UInt8) (u0 : UInt16) : List Nat :=
  if op ≤ 0x19 then E.moveRegs pc op u0
  else if op ≤ 0x27 then objectRegs op u0
  else if op ≤ 0x3d then E.branchRegs pc op u0
  else if op ≤ 0x43 then []
  else if op ≤ 0x78 ∧ op ≠ 0x73 then E.memberRegs pc op u0
  else if op ≤ 0x7a then []
  else if op ≤ 0x8f then unaryRegs op u0
  else if op ≤ 0xe2 then E.binaryRegs pc op u0
  else if op ≤ 0xf9 then []
  else if op ≤ 0xfb then []
  else if op ≤ 0xfd then []
  else [AA u0]

/-- `fill-array-data`, the switches and the accesses to elements. -/
def ReadsPayload (op : UInt8) : Prop := op = 0x26 ∨ (op = 0x2b ∨ op = 0x2c) ∨ (0x44 ≤ op ∧ op ≤ 0x51)

variable [DecidableEq C] [DecidableEq M]

variable {op : UInt8} {u0 : UInt16}

/-- All instructions but these stay inside their buffers. -/
theorem execOp_fine (h : ReadsPayload op → B) (u0 : UInt16) :
    Fine Anyhow B pc (E.Has (E.regs pc op u0)) (execOp E op u0) := by
  refine .case (fun _ => execMoves_fine E _ _) fun _ =>
    .case (fun _ => execObjects_fine E (fun hop => h (.inl hop)) _) fun _ =>
    .case (fun _ => execBranches_fine E (fun hop => h (.inr (.inl hop))) _) fun _ =>
    .case (fun _ => badOpcode_fine E _) fun hgt =>
    .case (fun _ => execMembers_fine E (fun hop => h (.inr (.inr ⟨?_, hop⟩))) _) fun _ =>
    .case (fun _ => badOpcode_fine E _) fun _ => .case (fun _ => execUnary_fine E _ _) fun _ =>
    .case (fun _ => execBinary_fine E _ _) fun _ => .case (fun _ => badOpcode_fine E _) fun _ =>
    .case (fun _ => skip_fine E _) fun _ => .case (fun _ => skip_fine E _) fun _ =>
    const_fine E (P := fun _ => True) (.pure trivial) _ _
  rw [UInt8.le_iff_toNat_le] at hgt ⊢
  exact Nat.lt_of_not_le hgt

/-- The instruction at `pc`, with these registers and this heap, leaves its buffers. -/
inductive Env.Strays (pc : UInt32) (regs : Nat → UInt32) (heap : UInt32 → Option (Obj C)) (op : UInt8) (u0 : UInt16) : Prop
  | switch (hop : op = 0x2b ∨ op = 0x2c) (hreg : AA u0 < E.nregs.toNat) (hwrap : 2 ^ 32 ≤ (pc + E.unit32 pc).toNat + 2)
  | fill (hop : op = 0x26) (hreg : AA u0 < E.nregs.toNat) (ao : Obj C) (hao : objAt heap (regs (AA u0)) = some ao)
      (hkind : ao.kind = .array) (hwrap : E.FillStrays (pc + E.unit32 pc))
  | aget (hop : 0x44 ≤ op ∧ op ≤ 0x4a)
      (hshort : E.ElementShort heap regs (E.unit (pc + 1)) (op - 0x44).toNat (AA u0))
  | aput (hop : 0x4b ≤ op ∧ op ≤ 0x51)
      (hshort : E.ElementShort heap regs (E.unit (pc + 1)) (op - 0x4b).toNat (AA u0))

end Opcode

section Fetch
variable {C M F W : Type} (E : Env C M F W) (s : State C M W)

/-- The VM at the switch: the lock may have been given up. -/
def Env.ticked (vm : Vm C M W) : Vm C M W :=
  if (vm.steps + 1) &&& 32767 = 0 then E.yield { vm with steps := vm.steps + 1 } else { vm with steps := vm.steps + 1 }

/-- The switch is reached: there is code, the VM is not stopping and the call has steps left. -/
structure Reaches : Prop where
  inCode : s.pc < E.nins
  running : ¬ ((s.vm.steps + 1) &&& 32767 = 0 ∧ (E.ticked s.vm).stopping)
  steps : ¬ (s.vm.stepLimit ≠ 0 ∧ s.vm.stepLimit < s.vm.callSteps + 1)

/-- `OPCODE(insns[fr->pc])`. -/
def opcode : UInt8 := (E.insns s.pc.toNat &&& 0xff).toUInt8

theorem offerLock_ends : Ends (offerLock E) s
    (fun _ s' => s' = { s with vm := E.ticked s.vm } ∧ ¬ ((s.vm.steps + 1) &&& 32767 = 0 ∧ (E.ticked s.vm).stopping))
    (fun e s' => e = .returnFalse ∧ ((s.vm.steps + 1) &&& 32767 = 0 ∧ (E.ticked s.vm).stopping) ∧ s'.pc = s.pc) := by
  rw [offerLock, ends_bind, ends_modify, ends_read get_read]
  unfold Env.ticked
  by_cases hyield : (s.vm.steps + 1) &&& 32767 = 0
  · rw [if_pos hyield, if_pos hyield, ends_bind, ends_modify, ends_read get_read]
    cases hstop : (E.yield { s.vm with steps := s.vm.steps + 1 }).stopping with
    | true =>
      rw [if_pos rfl]
      exact ⟨rfl, ⟨hyield, rfl⟩, rfl⟩
    | false =>
      rw [if_neg Bool.false_ne_true]
      exact ⟨rfl, fun h => Bool.false_ne_true h.2⟩
  · rw [if_neg hyield, if_neg hyield]
    exact ⟨rfl, fun h => hyield h.1⟩

/-- The VM at the switch, where the step has been counted. -/
def Env.atSwitch : Vm C M W :=
  let vm := E.ticked s.vm
  { vm with
    callSteps := if vm.stepLimit ≠ 0 then vm.callSteps + 1 else vm.callSteps
    curMethod := some E.method
    curPc := s.pc }

theorem countStep_ends : Ends (countStep E) s
    (fun _ s' => ¬ (s.vm.stepLimit ≠ 0 ∧ s.vm.stepLimit < s.vm.callSteps + 1) ∧ s' = { s with vm := { s.vm with
      callSteps := if s.vm.stepLimit ≠ 0 then s.vm.callSteps + 1 else s.vm.callSteps } })
    (fun e s' => e = .exception ∧ (s.vm.stepLimit ≠ 0 ∧ s.vm.stepLimit < s.vm.callSteps + 1) ∧ s'.pc = s.pc) := by
  rw [countStep, ends_read get_read]
  by_cases hlimit : s.vm.stepLimit ≠ 0
  · rw [if_pos hlimit, if_pos hlimit, ends_bind, ends_modify, ends_read get_read]
    by_cases hcount : s.vm.stepLimit < s.vm.callSteps + 1
    · rw [if_pos hcount]
      exact ⟨rfl, ⟨hlimit, hcount⟩, rfl⟩
    · rw [if_neg hcount]
      exact ⟨fun h => hcount h.2, rfl⟩
  · rw [if_neg hlimit, if_neg hlimit]
    exact ⟨fun h => hlimit h.1, rfl⟩

theorem ticked_own (vm : Vm C M W) : (E.ticked vm).exception = vm.exception ∧
    (E.ticked vm).stepLimit = vm.stepLimit ∧ (E.ticked vm).callSteps = vm.callSteps := by
  unfold Env.ticked
  split <;> exact ⟨rfl, rfl, rfl⟩

/-- What the top of the loop does. -/
theorem fetch_ends : Ends (fetch E) s
    (fun u s' => Reaches E s ∧ u = E.insns s.pc.toNat ∧ s' = { s with vm := E.atSwitch s })
    (fun e s' => ¬ Reaches E s ∧ (e = .exception ∨ e = .returnFalse ∧ s.pc < E.nins) ∧ s'.pc = s.pc) := by
  obtain ⟨-, hlimit, hcalls⟩ := ticked_own E s.vm
  rw [fetch, ends_read get_read]
  by_cases hend : E.nins ≤ s.pc
  · rw [if_pos hend, ends_throwing]
    exact ⟨fun h => UInt32.not_le.2 h.inCode hend, .inl rfl, rfl⟩
  have hpc : s.pc < E.nins := UInt32.not_le.1 hend
  rw [if_neg hend, ends_bind]
  refine (offerLock_ends E s).mono ?_ fun e s' ⟨he, hstop, hpc'⟩ => ⟨fun h => h.running hstop, .inr ⟨he, hpc⟩, hpc'⟩
  rintro _ _ ⟨rfl, hrunning⟩
  rw [ends_bind]
  refine (countStep_ends E _).mono ?_ fun e s' ⟨he, hsteps, hpc'⟩ => ?_
  · rintro _ _ ⟨hsteps, rfl⟩
    rw [ends_read (insn_read E (UInt32.lt_iff_toNat_lt.1 hpc)), ends_bind, ends_modify]
    dsimp only at hsteps
    rw [hlimit, hcalls] at hsteps
    exact ⟨⟨hpc, hrunning, hsteps⟩, rfl, rfl⟩
  · dsimp only at hsteps
    rw [hlimit, hcalls] at hsteps
    exact ⟨fun h => h.steps hsteps, .inl he, hpc'⟩

end Fetch

section Step
variable {C M F W : Type} [DecidableEq C] [DecidableEq M] (E : Env C M F W) (s : State C M W)

theorem execInsn_of_reaches (h : Reaches E s) :
    execInsn E s = execOp E (opcode E s) (E.insns s.pc.toNat) { s with vm := E.atSwitch s } := by
  have hfetch := fetch_ends E s
  unfold Ends at hfetch
  cases hok : fetch E s with
  | ok u s' =>
    rw [hok] at hfetch
    obtain ⟨-, rfl, rfl⟩ := hfetch
    show EStateM.bind (fetch E) _ s = _
    unfold EStateM.bind
    rw [hok]
    rfl
  | error e s' =>
    rw [hok] at hfetch
    exact absurd h hfetch.1

variable (hstray : ¬ (Reaches E s ∧ E.Strays s.pc s.regs (E.atSwitch s).heap (opcode E s) (E.insns s.pc.toNat)))
include hstray

end Step

section Example

/-- A method with the given code in a VM in which nothing happens but what the instructions do; its one class has the
    given descriptor, and thrown objects have reference 1. -/
def idleEnv (code : List UInt16) (nregs : UInt32) (desc : List Char) : Env Unit Unit Unit Unit where
  method := ()
  insns i := code.getD i 0
  nins := code.length.toUInt32
  nregs := nregs
  hasDex := true
  super := none
  desc _ := desc
  external _ := false
  isInterface _ := false
  absent _ := false
  assignable _ _ := true
  islots _ := 0
  nsslots _ := 0
  fieldCls _ := ()
  slot _ := 0
  newThrowable _ vm := (1, vm)
  gilYield vm := vm
  constString _ vm := (0, vm)
  resolveType _ vm := (some (), vm)
  classObject _ vm := (0, vm)
  monitorEnter _ vm := (true, vm)
  monitorExit _ vm := (true, vm)
  initClass _ vm := (true, vm)
  newExternal := none
  newObject _ vm := (0, vm)
  classByDesc _ vm := (some (), vm)
  malloc _ _ := true
  heapAlloc vm := (0, vm)
  resolveField _ _ vm := (⟨none, none, none, none⟩, vm)
  getExternalStatic := none
  resolveMethod _ vm := (⟨none, none, none, ""⟩, vm)
  findMethod _ _ _ vm := (none, vm)
  virtualTarget _ m vm := (m, vm)
  invoke _ _ _ vm := ((true, 0), vm)
  callOut _ _ _ _ _ _ vm := ((true, 0), vm)
  findHandler _ _ vm := (none, vm)
  findCatchall _ := none
  fmodf a _ := a
  fmod a _ := a

/-- The start of a method: register 0 holds reference 1, all others zero. -/
def idleState (heap : UInt32 → Option (Obj Unit)) : State Unit Unit Unit where
  regs i := if i = 0 then 1 else 0
  pc := 0
  result := 0
  vm := { exception := 0, excRef := 0, excTrace := [], excPc := 0, parked := false, stopping := false, steps := 0,
          callSteps := 0, stepLimit := 0, depth := 1, curMethod := none, curPc := 0, heap := heap, sslots := fun _ => none,
          world := () }

end Example

end Lunaria.Dvm.Interp
