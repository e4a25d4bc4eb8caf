import Lunaria.Dvm.Interp

/-! Rules for the parts of an instruction, which keep the pc and the VM's exception and stay inside the buffers. -/

namespace Lunaria.Dvm.Interp
open Exits

section Rules
variable {C M F W α β : Type}

/-- A relation between the VM before and after that the writes of an instruction itself keep. -/
class Tolerant (V : Vm C M W → Vm C M W → Prop) : Prop where
  refl : ∀ vm, V vm vm
  trans : ∀ {vm vm₁ vm'}, V vm vm₁ → V vm₁ vm' → V vm vm'
  heap : ∀ vm heap, V vm { vm with heap }
  cleared : ∀ vm, V vm { vm with exception := 0 }

/-- No exception comes to be pending. -/
def Unraised (vm vm' : Vm C M W) : Prop := vm'.exception = vm.exception ∨ vm'.exception = 0

instance tolerant_unraised : Tolerant (Unraised : Vm C M W → Vm C M W → Prop) where
  refl := fun _ => .inl rfl
  trans := by
    rintro vm vm₁ vm' (h | h) (h' | h')
    · exact .inl (h'.trans h)
    · exact .inr h'
    · exact .inr (h'.trans h)
    · exact .inr h'
  heap := fun _ _ => .inl rfl
  cleared := fun _ => .inr rfl

/-- Exits that are allowed: exceptions, faults if `B`, and returns from the method if `L`. -/
def Exit.Of (B L : Prop) : Exit → Prop
  | .exception => True
  | .returnTrue _ => L
  | .returnFalse => False
  | .fault _ => B

theorem Exit.Of.mono {B B' L L' : Prop} {e : Exit} (h : e.Of B L) (hB : B → B') (hL : L → L') : e.Of B' L' := by
  cases e with
  | exception => trivial
  | returnTrue out => exact hL h
  | returnFalse => exact h
  | fault f => exact hB h

/-- A part of an instruction at `pc`: it keeps the pc, leaves the VM as `V` says, gives a value with `P`, and leaves by
    a fault only if `B`; it does not return from the method. -/
def Keeps (V : Vm C M W → Vm C M W → Prop) (B : Prop) (pc : UInt32) (m : Exec C M W α) (P : α → Prop) : Prop :=
  ∀ s, s.pc = pc → Ends m s (fun a s' => P a ∧ s'.pc = pc ∧ V s.vm s'.vm) fun e s' => e.Of B False ∧ s'.pc = pc

/-- A whole instruction, which sets the pc at its end: it completes, or returns from the method, only if `L`. -/
def Fine (V : Vm C M W → Vm C M W → Prop) (B : Prop) (pc : UInt32) (L : Prop) (m : Exec C M W α) : Prop :=
  ∀ s, s.pc = pc → Ends m s (fun _ s' => L ∧ V s.vm s'.vm) fun e s' => e.Of B (L ∧ V s.vm s'.vm) ∧ s'.pc = pc

variable {V : Vm C M W → Vm C M W → Prop} {B L : Prop} {pc : UInt32} {m : Exec C M W α} {f : α → Exec C M W β}
  {P : α → Prop} {Q : β → Prop}

theorem Keeps.bind [Tolerant V] (hm : Keeps V B pc m P) (hf : ∀ a, P a → Keeps V B pc (f a) Q) :
    Keeps V B pc (m >>= f) Q := by
  intro s hs
  rw [ends_bind]
  refine (hm s hs).mono (fun a s' ⟨ha, hpc, hvm⟩ => ?_) fun _ _ h => h
  exact (hf a ha s' hpc).mono (fun b s'' ⟨hb, hpc', hvm'⟩ => ⟨hb, hpc', Tolerant.trans hvm hvm'⟩) fun _ _ h => h

theorem Fine.then [Tolerant V] (hm : Keeps V B pc m P) (hf : ∀ a, P a → Fine V B pc L (f a)) :
    Fine V B pc L (m >>= f) := by
  intro s hs
  rw [ends_bind]
  refine (hm s hs).mono (fun a s' ⟨ha, hpc, hvm⟩ => ?_) fun e s' ⟨he, hpc⟩ => ?_
  · refine (hf a ha s' hpc).mono (fun b s'' ⟨hL, hvm'⟩ => ⟨hL, Tolerant.trans hvm hvm'⟩) fun e s'' ⟨he, hpc'⟩ => ?_
    exact ⟨he.mono id fun ⟨hL, hvm'⟩ => ⟨hL, Tolerant.trans hvm hvm'⟩, hpc'⟩
  · exact ⟨he.mono id False.elim, hpc⟩

theorem Keeps.weaken {P' : α → Prop} (hm : Keeps V B pc m P) (h : ∀ a, P a → P' a) : Keeps V B pc m P' :=
  fun s hs => (hm s hs).mono (fun a _ ⟨ha, hrest⟩ => ⟨h a ha, hrest⟩) fun _ _ => id

theorem Keeps.pure [Tolerant V] {a : α} (ha : P a) : Keeps V B pc (pure a) P := fun _ hs => ⟨ha, hs, Tolerant.refl _⟩

theorem Keeps.get [Tolerant V] : Keeps V B pc (get : Exec C M W (State C M W)) fun s => s.pc = pc :=
  fun _ hs => ⟨hs, hs, Tolerant.refl _⟩

theorem Keeps.raise : Keeps V B pc (throw .exception : Exec C M W α) P := fun _ hs => ⟨trivial, hs⟩

theorem Fine.raise : Fine V B pc L (throw .exception : Exec C M W α) := fun _ hs => ⟨trivial, hs⟩

theorem Fine.return [Tolerant V] (hL : L) (out : UInt64) :
    Fine V B pc L (throw (.returnTrue out) : Exec C M W α) := fun _ hs => ⟨⟨hL, Tolerant.refl _⟩, hs⟩

theorem Keeps.fault (hB : B) (f : Fault) : Keeps V B pc (throw (.fault f) : Exec C M W α) P :=
  fun _ hs => ⟨hB, hs⟩

variable {c : Prop} {m m' : Exec C M W α} {i : Nat}

theorem Keeps.ite [Decidable c] {m' : Exec C M W α} (hm : c → Keeps V B pc m P)
    (hm' : ¬ c → Keeps V B pc m' P) : Keeps V B pc (if c then m else m') P := by
  split
  · exact hm (by assumption)
  · exact hm' (by assumption)

theorem Fine.ite [Decidable c] (hm : Fine V B pc L m) (hm' : Fine V B pc L m') :
    Fine V B pc L (if c then m else m') := by
  split
  · exact hm
  · exact hm'

theorem Fine.ite_of [Decidable c] (hm : c → Fine V B pc L m)
    (hm' : Fine V B pc L m') : Fine V B pc L (if c then m else m') := by
  split
  · exact hm (by assumption)
  · exact hm'

theorem Keeps.frame [Tolerant V] {g : State C M W → State C M W} (hpc : ∀ s, (g s).pc = s.pc)
    (hvm : ∀ s, (g s).vm = s.vm) : Keeps V B pc (modify g : Exec C M W Unit) fun _ => True := by
  intro s hs
  rw [ends_modify]
  exact ⟨trivial, (hpc s).trans hs, hvm s ▸ Tolerant.refl _⟩

theorem advance_fine [Tolerant V] (hL : L) (n : UInt32) : Fine V B pc L (advance n : Exec C M W Unit) :=
  fun _ _ => ⟨hL, Tolerant.refl _⟩

theorem goto_fine [Tolerant V] (hL : L) (target : UInt32) : Fine V B pc L (goto target : Exec C M W Unit) :=
  fun _ _ => ⟨hL, Tolerant.refl _⟩

variable (E : Env C M F W)

/-- The code unit at an offset, zero past the end of the code. -/
def Env.unit (i : UInt32) : UInt16 := if i < E.nins then E.insns i.toNat else 0

theorem throwing_keeps (t : Thrown C) : Keeps V B pc (throwing E t : Exec C M W α) P := fun _ hs => ⟨trivial, hs⟩

theorem throwing_fine (t : Thrown C) : Fine V B pc L (throwing E t : Exec C M W α) := fun _ hs => ⟨trivial, hs⟩

theorem call_keeps {g : Vm C M W → α × Vm C M W} (hg : ∀ vm, V vm (g vm).2) : Keeps V B pc (call g) fun _ => True :=
  fun s hs => ⟨trivial, hs, hg s.vm⟩

theorem req_keeps [Tolerant V] (i : Nat) : Keeps V B pc (req E i) fun _ => i < E.nregs.toNat :=
  .ite (fun _ => throwing_keeps E _) fun h => .pure (Nat.lt_of_not_le h)

theorem getR_keeps [Tolerant V] (h : i < E.nregs.toNat) : Keeps V B pc (getR E i) fun _ => True :=
  .bind .get fun _ _ => .ite (fun _ => .pure trivial) fun hi => absurd h hi

theorem setR_keeps [Tolerant V] (h : i < E.nregs.toNat) (v : UInt32) :
    Keeps V B pc (setR E i v) fun _ => True :=
  .ite (fun _ => .frame (fun _ => rfl) fun _ => rfl) fun hi => absurd h hi

theorem getW_keeps [Tolerant V] (h : i + 1 < E.nregs.toNat) : Keeps V B pc (getW E i) fun _ => True :=
  .bind (getR_keeps E (by omega)) fun _ _ => .bind (getR_keeps E h) fun _ _ => .pure trivial

theorem setW_keeps [Tolerant V] (h : i + 1 < E.nregs.toNat) (v : UInt64) :
    Keeps V B pc (setW E i v) fun _ => True :=
  .bind (setR_keeps E (by omega) _) fun _ _ => setR_keeps E h _

theorem insn_keeps [Tolerant V] (h : B ∨ i < E.nins.toNat) :
    Keeps V B pc (insn E i) fun u => i < E.nins.toNat ∧ u = E.insns i :=
  .ite (fun hi => .pure ⟨hi, rfl⟩) fun hi => .fault (h.resolve_right hi) _

theorem iu_keeps [Tolerant V] (k : UInt32) : Keeps V B pc (iu E k) fun u => u = E.unit (pc + k) := by
  refine .bind .get fun s hs => ?_
  subst hs
  unfold Env.unit
  by_cases h : s.pc + k < E.nins
  · rw [if_pos h, if_pos h]
    rw [insn, if_pos (UInt32.lt_iff_toNat_lt.1 h)]
    exact .pure rfl
  · rw [if_neg h, if_neg h]
    exact .pure rfl

/-- The 32-bit operand of an instruction. -/
def Env.unit32 (pc : UInt32) : UInt32 := join (E.unit (pc + 1)) (E.unit (pc + 2))

theorem iu32_keeps [Tolerant V] : Keeps V B pc (iu32 E) fun v => v = E.unit32 pc := by
  refine .bind (iu_keeps E 1) ?_
  rintro _ rfl
  refine .bind (iu_keeps E 2) ?_
  rintro _ rfl
  exact .pure rfl

theorem iu64_keeps [Tolerant V] : Keeps V B pc (iu64 E) fun _ => True :=
  .bind (iu_keeps E 1) fun _ _ => .bind (iu_keeps E 2) fun _ _ =>
    .bind (iu_keeps E 3) fun _ _ => .bind (iu_keeps E 4) fun _ _ => .pure trivial

theorem operand_keeps [Tolerant V] (g : UInt16 → α) : Keeps V B pc (operand E g) fun _ => True :=
  .bind (iu_keeps E 1) fun _ _ => .pure trivial

theorem obj_keeps [Tolerant V] (ref : UInt32) :
    Keeps V B pc (obj ref : Exec C M W (Option (Obj C))) fun _ => True :=
  .bind .get fun _ _ => .pure trivial

theorem loadData_keeps [Tolerant V] {o : Obj C} {off width : Nat} (h : B ∨ off + width ≤ o.bytes) :
    Keeps V B pc (loadData o off width : Exec C M W UInt64) fun _ => True :=
  .ite (fun _ => .pure trivial) fun hi => .fault (h.resolve_right hi) _

theorem storeData_keeps [Tolerant V] {ref : UInt32} {o : Obj C} {off : Nat} {l : List UInt8}
    (h : B ∨ off + l.length ≤ o.bytes) : Keeps V B pc (storeData ref o off l : Exec C M W Unit) fun _ => True :=
  .ite (fun _ _ hs => ⟨trivial, hs, Tolerant.heap _ _⟩) fun hi => .fault (h.resolve_right hi) _

theorem orDivide_keeps [Tolerant V] (v : Option α) : Keeps V B pc (orDivide E v : Exec C M W α) fun _ => True := by
  unfold orDivide
  split
  · exact .pure trivial
  · exact throwing_keeps E _

/-! An instruction that goes on after a check, a read or a write of its registers. -/

section Registers
variable [Tolerant V] {f : Unit → Exec C M W β} {g : UInt32 → Exec C M W β} {k : UInt64 → Exec C M W β}

theorem Fine.req (hf : i < E.nregs.toNat → Fine V B pc L (f ())) : Fine V B pc L (req E i >>= f) :=
  .then (req_keeps E i) fun _ => hf

theorem Fine.getR (h : i < E.nregs.toNat) (hf : ∀ v, Fine V B pc L (g v)) : Fine V B pc L (getR E i >>= g) :=
  .then (getR_keeps E h) fun v _ => hf v

theorem Fine.getW (h : i + 1 < E.nregs.toNat) (hf : ∀ v, Fine V B pc L (k v)) : Fine V B pc L (getW E i >>= k) :=
  .then (getW_keeps E h) fun v _ => hf v

theorem Fine.setR {v : UInt32} (h : i < E.nregs.toNat) (hf : Fine V B pc L (f ())) : Fine V B pc L (setR E i v >>= f) :=
  .then (setR_keeps E h v) fun _ _ => hf

theorem Fine.setW {v : UInt64} (h : i + 1 < E.nregs.toNat) (hf : Fine V B pc L (f ())) : Fine V B pc L (setW E i v >>= f) :=
  .then (setW_keeps E h v) fun _ _ => hf

end Registers

end Rules

section Reads
variable {C M F W α β : Type} {Q : β → State C M W → Prop} {R : Exit → State C M W → Prop} {s : State C M W}
  {f : α → Exec C M W β} (E : Env C M F W)

/-- What only reads the state. -/
theorem ends_read {m : Exec C M W α} {v : α} (h : m s = .ok v s) : Ends (m >>= f) s Q R ↔ Ends (f v) s Q R := by
  rw [ends_bind]
  unfold Ends
  rw [h]

theorem get_read : (get : Exec C M W (State C M W)) s = .ok s s := rfl

variable {i : Nat}

theorem getR_read (h : i < E.nregs.toNat) : getR E i s = .ok (s.regs i) s := by
  show (if i < E.nregs.toNat then pure (s.regs i) else throw (.fault (.reg i)) : Exec C M W UInt32) s = _
  rw [if_pos h]
  rfl

theorem insn_read (h : i < E.nins.toNat) : (insn E i : Exec C M W UInt16) s = .ok (E.insns i) s := by
  rw [insn, if_pos h]
  rfl

theorem iu_read (k : UInt32) : iu E k s = .ok (E.unit (s.pc + k)) s := by
  show (if s.pc + k < E.nins then insn E (s.pc + k).toNat else pure 0 : Exec C M W UInt16) s = _
  unfold Env.unit
  by_cases h : s.pc + k < E.nins
  · rw [if_pos h, if_pos h]
    exact insn_read E (UInt32.lt_iff_toNat_lt.1 h)
  · rw [if_neg h, if_neg h]
    rfl

theorem iu32_read : iu32 E s = .ok (E.unit32 s.pc) s := by
  show (iu E 1 >>= fun lo => iu E 2 >>= fun hi => pure (join lo hi)) s = _
  simp only [bind, EStateM.bind, iu_read]
  rfl

theorem operand_read (g : UInt16 → α) : operand E g s = .ok (g (E.unit (s.pc + 1))) s := by
  show (iu E 1 >>= fun v => pure (g v)) s = _
  simp only [bind, EStateM.bind, iu_read]
  rfl

/-- The object of a reference. -/
def objAt (heap : UInt32 → Option (Obj C)) (ref : UInt32) : Option (Obj C) := if ref = 0 then none else heap ref

theorem obj_read (ref : UInt32) : (obj ref : Exec C M W (Option (Obj C))) s = .ok (objAt s.vm.heap ref) s := rfl

theorem ends_req {f : Unit → Exec C M W β} : Ends (req E i >>= f) s Q R ↔ (i < E.nregs.toNat → Ends (f ()) s Q R) ∧
    (E.nregs.toNat ≤ i → R .exception { s with vm := E.dvmThrow (.register i E.nregs.toNat) s.vm }) := by
  rw [ends_bind, req]
  by_cases h : E.nregs.toNat ≤ i
  · rw [if_pos h]
    refine ⟨fun hthrow => ⟨fun hlt => absurd h (Nat.not_le_of_lt hlt), fun _ => hthrow⟩, fun hends => hends.2 h⟩
  · rw [if_neg h]
    exact ⟨fun hok => ⟨fun _ => hok, fun hle => absurd hle h⟩, fun hends => hends.1 (Nat.lt_of_not_le h)⟩

theorem ends_throwing {Q : α → State C M W → Prop} (t : Thrown C) :
    Ends (throwing E t : Exec C M W α) s Q R ↔ R .exception { s with vm := E.dvmThrow t s.vm } := Iff.rfl

theorem ends_call {g : Vm C M W → α × Vm C M W} :
    Ends (call g >>= f) s Q R ↔ Ends (f (g s.vm).1) { s with vm := (g s.vm).2 } Q R := by
  rw [ends_bind]
  exact Iff.rfl

end Reads

end Lunaria.Dvm.Interp
