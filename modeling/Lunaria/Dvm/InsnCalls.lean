import Lunaria.Dvm.InsnFine

/-! The instructions that call other parts of the VM: whatever these do, they stay inside their buffers, throw with the
    pc they were fetched at and complete only if the registers they name are there. -/

namespace Lunaria.Dvm.Interp
open Exits

section Calls
variable {C M F W : Type} {V : Vm C M W → Vm C M W → Prop} {B : Prop} {pc : UInt32} (E : Env C M F W)

/-- Nothing is asked of the VM. -/
def Anyhow (_ _ : Vm C M W) : Prop := True

instance tolerant_anyhow : Tolerant (Anyhow : Vm C M W → Vm C M W → Prop) :=
  ⟨fun _ => trivial, fun _ _ => trivial, fun _ _ => trivial, fun _ => trivial⟩

/-- Any function may be called. -/
theorem call_anyhow {α : Type} (g : Vm C M W → α × Vm C M W) : Keeps Anyhow B pc (call g) fun _ => True :=
  call_keeps fun _ => trivial

theorem modify_anyhow {g : State C M W → State C M W} (hpc : ∀ s, (g s).pc = s.pc) :
    Keeps Anyhow B pc (modify g : Exec C M W Unit) fun _ => True :=
  fun s hs => ⟨trivial, (hpc s).trans hs, trivial⟩

theorem stringOf_keeps (idx : UInt32) : Keeps Anyhow B pc (stringOf E idx) fun _ => True :=
  .ite (fun _ => call_anyhow _) fun _ => .pure trivial

theorem constString_fine {idx : Exec C M W UInt32} {P : UInt32 → Prop} (hidx : Keeps Anyhow B pc idx P) (dst : Nat)
    (len : UInt32) : Fine Anyhow B pc (E.Has [dst]) (constString E dst idx len) := by
  refine .req E fun hdst => .then hidx fun idx _ => ?_
  refine .then (stringOf_keeps E idx) fun _ _ => .setR E hdst ?_
  exact advance_fine (E.has_one hdst) _

theorem typeOperand_keeps : Keeps Anyhow B pc (typeOperand E) fun _ => True :=
  .bind (iu_keeps E 1) fun _ _ =>
    .ite (fun _ => call_anyhow _) fun _ => .pure trivial

theorem constClass_fine (dst : Nat) : Fine Anyhow B pc (E.Has [dst]) (constClass E dst) := by
  refine .req E fun hdst => .then (typeOperand_keeps E) fun t _ => ?_
  cases t with
  | none => exact throwing_fine E _
  | some t =>
    refine .ite (throwing_fine E _) (.then (call_anyhow _) fun _ _ => ?_)
    exact .setR E hdst (advance_fine (E.has_one hdst) _)

theorem monitor_fine (f : UInt32 → Vm C M W → Bool × Vm C M W) (src : Nat) :
    Fine Anyhow B pc (E.Has [src]) (monitor E f src) := by
  refine .req E fun hsrc => .getR E hsrc fun ref => ?_
  exact .then (call_anyhow _) fun _ _ => .ite (advance_fine (E.has_one hsrc) _) .raise

theorem checkCast_fine (src : Nat) : Fine Anyhow B pc (E.Has [src]) (checkCast E src) := by
  refine .req E fun hsrc => .then (typeOperand_keeps E) fun t _ => ?_
  refine .getR E hsrc fun ref => .then (obj_keeps ref) fun o _ => ?_
  split
  · exact .ite (advance_fine (E.has_one hsrc) _) (throwing_fine E _)
  · exact advance_fine (E.has_one hsrc) _

theorem instanceOf_fine (dst src : Nat) : Fine Anyhow B pc (E.Has [dst, src]) (instanceOf E dst src) := by
  refine .req E fun hdst => .req E fun hsrc => ?_
  refine .then (typeOperand_keeps E) fun t _ => .getR E hsrc fun ref => ?_
  refine .then (obj_keeps ref) fun o _ => .setR E hdst ?_
  exact advance_fine (E.has_two hdst hsrc) _

theorem newObjectOf_keeps (t : C) : Keeps Anyhow B pc (newObjectOf E t) fun _ => True := by
  unfold newObjectOf
  split
  · refine .ite (fun _ => .bind (call_anyhow _) fun h _ => ?_) fun _ => call_anyhow _
    exact .ite (fun _ => .pure trivial) fun _ => call_anyhow _
  · exact call_anyhow _

theorem newInstance_fine (dst : Nat) : Fine Anyhow B pc (E.Has [dst]) (newInstance E dst) := by
  refine .req E fun hdst => .then (typeOperand_keeps E) fun t _ => ?_
  cases t with
  | none => exact throwing_fine E _
  | some t =>
    refine .ite (throwing_fine E _) (.then (call_anyhow _) fun ok _ => .ite ?_ .raise)
    refine .then (newObjectOf_keeps E t) fun _ _ => .setR E hdst ?_
    exact advance_fine (E.has_one hdst) _

theorem newArray_fine (dst src : Nat) : Fine Anyhow B pc (E.Has [dst, src]) (newArray E dst src) := by
  refine .req E fun hdst => .req E fun hsrc => ?_
  refine .then (typeOperand_keeps E) fun t _ => .getR E hsrc fun len => ?_
  refine .ite (throwing_fine E _) (.then (call_anyhow _) fun v _ => ?_)
  exact .setR E hdst (advance_fine (E.has_two hdst hsrc) _)

theorem newArray_obj (elem : Char) (component : List Char) (length : UInt32) (vm : Vm C M W) :
    let r := E.newArray elem component length vm
    r.1 ≠ 0 → ∃ o, r.2.heap r.1 = some o ∧ o.length = length ∧ o.elemKind = elem := by
  dsimp only
  unfold Env.newArray
  dsimp only
  intro hne
  iterate 4
    split at hne
    · exact absurd rfl hne
  split at hne
  · rw [if_neg ‹_›, if_neg ‹_›, if_neg ‹_›, if_neg ‹_›, if_pos ‹_›]
    exact ⟨_, Function.update_self _ _ _, rfl, rfl⟩
  · exact absurd rfl hne

theorem slotsOf_keeps : ∀ l : List Nat, Keeps Anyhow B pc (slotsOf E l) fun v => v.length = l.length
  | [] => .pure rfl
  | i :: l => by
    refine .ite (fun hi => .bind (getR_keeps E hi) fun _ _ => ?_) fun _ => ?_
    · exact .bind (slotsOf_keeps l) fun _ hlen => .pure (congrArg (· + 1) hlen)
    · exact .bind (slotsOf_keeps l) fun _ hlen => .pure (congrArg (· + 1) hlen)

theorem AA_le (u : UInt16) : AA u ≤ 255 := by
  have hu := u.toNat_lt
  rw [AA, UInt16.toNat_shiftRight, Nat.shiftRight_eq_div_pow]
  exact Nat.le_of_lt_succ (Nat.div_lt_of_lt_mul hu)

theorem gatherArgs_keeps (range : Bool) (u0 : UInt16) :
    Keeps Anyhow B pc (gatherArgs E range u0) fun v => v.length ≤ 255 := by
  refine .bind (iu_keeps E 2) fun cccc _ => .ite (fun _ => ?_) fun _ => ?_
  · refine (slotsOf_keeps E _).weaken fun v hv => ?_
    rw [hv, List.length_map, List.length_range]
    exact AA_le u0
  · refine (slotsOf_keeps E _).weaken fun v hv => ?_
    rw [hv]
    exact Nat.le_trans (List.length_take_le' _ _) (by simp)

theorem elemWidth_cases (kind : Char) :
    elemWidth kind = 1 ∨ elemWidth kind = 2 ∨ elemWidth kind = 4 ∨ elemWidth kind = 8 := by
  unfold elemWidth
  split
  · exact .inl rfl
  split
  · exact .inr (.inl rfl)
  split
  · exact .inr (.inr (.inr rfl))
  · exact .inr (.inr (.inl rfl))

theorem fillElements_keeps [Tolerant V] {ref : UInt32} {o : Obj C} {width : Nat} : ∀ (l : List UInt32) (i : Nat),
    (B ∨ (width = elemWidth o.elemKind ∧ i + l.length ≤ o.length.toNat)) →
    Keeps V B pc (fillElements ref o width i l : Exec C M W Unit) fun _ => True
  | [], _, _ => .pure trivial
  | v :: l, i, h => by
    refine .bind (storeData_keeps (h.imp_right ?_)) fun _ _ => fillElements_keeps l _ (h.imp_right ?_)
    · rintro ⟨rfl, hle⟩
      rw [List.length_cons] at hle
      have hwidth : (if elemWidth o.elemKind = 1 then 1 else if elemWidth o.elemKind = 2 then 2 else 4) ≤
          elemWidth o.elemKind := by
        split
        · omega
        · split
          · omega
          · have := elemWidth_cases o.elemKind
            omega
      rw [bytesOf, List.length_map, List.length_range, Obj.bytes, ← Nat.succ_mul]
      exact Nat.mul_le_mul (by omega) hwidth
    · rintro ⟨hwidth, hle⟩
      rw [List.length_cons] at hle
      exact ⟨hwidth, by omega⟩

theorem fillArray_ends {arr : UInt32} {elem : Char} {slots : List UInt32} {s : State C M W} (hlen : slots.length ≤ 255)
    (h : arr ≠ 0 → ∃ o, s.vm.heap arr = some o ∧ o.length = slots.length.toUInt32 ∧ o.elemKind = elem) :
    Ends (fillArray arr (elemWidth elem) slots) s (fun _ _ => True) fun e s' => e.Of B False ∧ s'.pc = s.pc := by
  rw [fillArray, ends_bind, obj, ends_bind, ends_get, ends_pure]
  by_cases harr : arr = 0
  · rw [if_pos harr]
    trivial
  · obtain ⟨o, ho, hlength, rfl⟩ := h harr
    rw [if_neg harr, ho]
    have hnat : slots.length.toUInt32.toNat = slots.length := Nat.mod_eq_of_lt (by omega)
    refine (fillElements_keeps (V := Anyhow) slots 0 (.inr ⟨rfl, ?_⟩) s rfl).mono (fun _ _ _ => trivial) fun _ _ h => h
    rw [hlength, hnat]
    omega

theorem filledNewArray_fine (range : Bool) (u0 : UInt16) :
    Fine Anyhow B pc (E.Has []) (filledNewArray E range u0) := by
  refine .then (typeOperand_keeps E) fun t _ => .then (gatherArgs_keeps E range u0) fun slots hslots => ?_
  -- The array is looked up in the heap that the allocation has left.
  intro s hs
  rw [ends_bind, call, ends_modifyGet, ends_bind]
  dsimp only
  refine (fillArray_ends (B := B) hslots (newArray_obj E _ _ _ _)).mono (fun _ s' _ => ?_) ?_
  · rw [ends_bind, ends_modify]
    exact ⟨E.has_nil, trivial⟩
  · exact fun _ _ ⟨he, hpc⟩ => ⟨he.mono id False.elim, hpc.trans hs⟩

theorem fieldOperand_keeps (statics : Bool) : Keeps Anyhow B pc (fieldOperand E statics) fun _ => True :=
  .bind (iu_keeps E 1) fun _ _ =>
    .ite (fun _ => call_anyhow _) fun _ => .pure trivial

/-- The last register of the value of a field. -/
def fieldReg (wide : Bool) (r : Nat) : Nat := if wide then r + 1 else r

theorem putResult_keeps [Tolerant V] {dst : Nat} (hdst : dst < E.nregs.toNat) (wide : Bool) (v : UInt64) :
    Keeps V B pc (putResult E wide dst v) fun _ => fieldReg wide dst < E.nregs.toNat := by
  cases wide with
  | false => exact (setR_keeps E hdst _).weaken fun _ _ => hdst
  | true =>
    refine .bind (req_keeps E _) fun _ hwide => ?_
    exact (setW_keeps E hwide _).weaken fun _ _ => hwide

theorem putOperand_keeps [Tolerant V] {src : Nat} (hsrc : src < E.nregs.toNat) (wide : Bool) :
    Keeps V B pc (putOperand E wide src) fun _ => fieldReg wide src < E.nregs.toNat := by
  cases wide with
  | false => exact .bind (getR_keeps E hsrc) fun _ _ => .pure hsrc
  | true =>
    refine .bind (req_keeps E _) fun _ hwide => ?_
    exact (getW_keeps E hwide).weaken fun _ _ => hwide

theorem iget_fine (wide : Bool) (dst src : Nat) :
    Fine Anyhow B pc (E.Has [fieldReg wide dst, src]) (iget E wide dst src) := by
  refine .req E fun hdst => .req E fun hsrc => ?_
  refine .then (fieldOperand_keeps E false) fun f _ => .getR E hsrc fun ref => ?_
  refine .then (obj_keeps ref) fun o _ => ?_
  cases o with
  | none => exact throwing_fine E _
  | some o =>
    refine .then (putResult_keeps E hdst wide _) fun _ hlast => ?_
    exact advance_fine (E.has_two hlast hsrc) _

theorem storeSlot_keeps [Tolerant V] (ref : UInt32) (o : Obj C) (slot : Option (Nat × (Nat → UInt64)))
    (v : UInt64) : Keeps V B pc (storeSlot ref o slot v : Exec C M W Unit) fun _ => True := by
  unfold storeSlot
  split
  · exact fun _ hs => ⟨trivial, hs, Tolerant.heap _ _⟩
  · exact .pure trivial

theorem iput_fine (wide : Bool) (src dst : Nat) :
    Fine Anyhow B pc (E.Has [fieldReg wide src, dst]) (iput E wide src dst) := by
  refine .req E fun hsrc => .req E fun hdst => ?_
  refine .then (fieldOperand_keeps E false) fun f _ => .getR E hdst fun ref => ?_
  refine .then (obj_keeps ref) fun o _ => ?_
  cases o with
  | none => exact throwing_fine E _
  | some o =>
    refine .then (putOperand_keeps E hsrc wide) fun v hlast => .then (storeSlot_keeps ref o _ v) fun _ _ => ?_
    exact advance_fine (E.has_two hlast hdst) _

section Static
variable [DecidableEq C]

theorem hostStatic_keeps (object : Bool) (r : FieldRef C F) (f : F) (v : UInt64) :
    Keeps Anyhow B pc (hostStatic E object r f v) fun _ => True := by
  unfold hostStatic
  split
  · refine .ite (fun _ => .bind (call_anyhow _) fun host _ => ?_) fun _ => .pure trivial
    cases host with
    | none => exact .pure trivial
    | some host =>
      refine .ite (fun _ => .bind (modify_anyhow fun _ => rfl) fun _ _ => ?_) fun _ => .pure trivial
      exact .pure trivial
  · exact .pure trivial

theorem staticOf_keeps (object : Bool) (r : FieldRef C F) : Keeps Anyhow B pc (staticOf E object r) fun _ => True := by
  unfold staticOf
  split
  · refine .bind (call_anyhow _) fun ok _ => .ite (fun _ => .bind .get fun s _ => ?_) fun _ => .raise
    exact hostStatic_keeps E object r _ _
  · split
    · refine .bind (call_anyhow _) fun v _ => ?_
      cases v with
      | none => exact throwing_keeps E _
      | some v => exact .pure trivial
    · exact .pure trivial

theorem sget_fine (wide object : Bool) (dst : Nat) :
    Fine Anyhow B pc (E.Has [fieldReg wide dst]) (sget E wide object dst) := by
  refine .req E fun hdst => .then (fieldOperand_keeps E true) fun r _ => ?_
  refine .then (staticOf_keeps E object r) fun v _ => .then (putResult_keeps E hdst wide v) fun _ hlast => ?_
  exact advance_fine (E.has_one hlast) _

theorem storeStatic_keeps (f : Option F) (v : UInt64) : Keeps Anyhow B pc (storeStatic E f v) fun _ => True := by
  cases f with
  | none => exact .pure trivial
  | some f => exact .bind (call_anyhow _) fun ok _ => .ite (fun _ => modify_anyhow fun _ => rfl) fun _ => .raise

theorem sput_fine (wide : Bool) (src : Nat) : Fine Anyhow B pc (E.Has [fieldReg wide src]) (sput E wide src) := by
  refine .req E fun hsrc => .then (fieldOperand_keeps E true) fun r _ => ?_
  refine .then (putOperand_keeps E hsrc wide) fun v hlast => .then (storeStatic_keeps E _ v) fun _ _ => ?_
  exact advance_fine (E.has_one hlast) _

end Static

theorem methodOf_keeps (midx : UInt32) : Keeps Anyhow B pc (methodOf E midx) fun _ => True :=
  .ite (fun _ => call_anyhow _) fun _ => .pure trivial

theorem superTarget_keeps (kind : UInt8) (r : MethodRef C M) : Keeps Anyhow B pc (superTarget E kind r) fun _ => True := by
  unfold superTarget
  split
  · exact .ite (fun _ => call_anyhow _) fun _ => .pure trivial
  · exact .pure trivial

theorem receiverTarget_keeps (kind : UInt8) (self : UInt32) (r : MethodRef C M) (target : Option M) :
    Keeps Anyhow B pc (receiverTarget E kind self r target) fun _ => True := by
  refine .ite (fun _ => ?_) fun _ => .pure trivial
  cases target with
  | some m => exact .bind (call_anyhow _) fun _ _ => .pure trivial
  | none =>
    refine .ite (fun _ => .bind (obj_keeps self) fun ro _ => ?_) fun _ => .pure trivial
    split
    · exact call_anyhow _
    · exact .pure trivial

theorem invokeCall_keeps (isStatic : Bool) (self : UInt32) (args : List UInt32) (r : MethodRef C M)
    (target : Option M) : Keeps Anyhow B pc (invokeCall E isStatic self args r target) fun _ => True := by
  unfold invokeCall
  split
  · exact call_anyhow _
  · split
    · exact .pure trivial
    · refine .ite (fun _ => throwing_keeps E _) fun _ => ?_
      split
      · exact .pure trivial
      · refine .bind (modify_anyhow fun _ => rfl) fun _ _ => .bind (call_anyhow _) fun _ _ => ?_
        exact .bind (modify_anyhow fun _ => rfl) fun _ _ => .pure trivial

theorem invokeResult_fine (ret : Bool × UInt64) : Fine Anyhow B pc (E.Has []) (invokeResult ret : Exec C M W Unit) := by
  refine .then .get fun s _ => .ite .raise (.then (.frame (fun _ => rfl) fun _ => rfl) fun _ _ => ?_)
  exact advance_fine E.has_nil _

/-- Registers of the arguments that are not there are passed as zero, so a call names none. -/
theorem invokeInsn_fine (op : UInt8) (u0 : UInt16) : Fine Anyhow B pc (E.Has []) (invokeInsn E op u0) := by
  refine .then (iu_keeps E 1) fun midx _ => .then (methodOf_keeps E _) fun r _ => ?_
  refine .then (gatherArgs_keeps E _ u0) fun slots _ => .ite (throwing_fine E _) (.ite (throwing_fine E _) ?_)
  refine .then (superTarget_keeps E _ r) fun target _ => .then (receiverTarget_keeps E _ _ r target) fun target _ => ?_
  exact .then (invokeCall_keeps E _ _ _ r target) fun ret _ => invokeResult_fine E ret

end Calls

section Switch
variable {C M F W : Type} {B : Prop} {pc : UInt32} (E : Env C M F W)

/-- The registers that instructions about strings, classes, objects and arrays name. -/
def objectRegs (op : UInt8) (u0 : UInt16) : List Nat :=
  if op ∈ [0x20, 0x21, 0x23] then [A4 u0, B4 u0] else if op = 0x24 ∨ op = 0x25 then [] else [AA u0]

theorem execObjects_fine [DecidableEq M] {op : UInt8} (h : op = 0x26 → B) (u0 : UInt16) :
    Fine Anyhow B pc (E.Has (objectRegs op u0)) (execObjects E op u0) := by
  refine .opcode (constString_fine E (operand_keeps E _) _ _) fun _ =>
    .opcode (constString_fine E (iu32_keeps E) _ _) fun _ =>
    .opcode (constClass_fine E _) fun _ =>
    .opcode (monitor_fine E _ _) fun _ =>
    .opcode (monitor_fine E _ _) fun _ =>
    .opcode (checkCast_fine E _) fun _ =>
    .opcode (instanceOf_fine E _ _) fun h20 =>
    .opcode (arrayLength_fine E _ _) fun h21 =>
    .opcode (newInstance_fine E _) fun _ =>
    .opcode (newArray_fine E _ _) fun h23 => ?_
  have hmem : op ∉ ([0x20, 0x21, 0x23] : List UInt8) := by simp [h20, h21, h23]
  rw [objectRegs, if_neg hmem]
  refine .case (fun _ => filledNewArray_fine E _ u0) fun _ => .ite_of ?_ (throwInsn_fine E _)
  exact fun h26 => fillArrayData_fine E (h h26) _

/-- The registers that array, field and call instructions name. -/
def Env.memberRegs (pc : UInt32) (op : UInt8) (u0 : UInt16) : List Nat :=
  if op ≤ 0x4a then arrayRegs (op - 0x44).toNat (AA u0) (E.unit (pc + 1))
  else if op ≤ 0x51 then arrayRegs (op - 0x4b).toNat (AA u0) (E.unit (pc + 1))
  else if op ≤ 0x58 then [fieldReg (op = 0x53) (A4 u0), B4 u0]
  else if op ≤ 0x5f then [fieldReg (op = 0x5a) (A4 u0), B4 u0]
  else if op ≤ 0x66 then [fieldReg (op = 0x61) (AA u0)]
  else if op ≤ 0x6d then [fieldReg (op = 0x68) (AA u0)]
  else []

theorem execMembers_fine [DecidableEq C] {op : UInt8} (h : op ≤ 0x51 → B) (u0 : UInt16) :
    Fine Anyhow B pc (E.Has (E.memberRegs pc op u0)) (execMembers E op u0) := by
  refine .case (fun hop => aget_fine E (h (UInt8.le_trans hop (by decide))) _ _) fun _ =>
    .case (fun hop => aput_fine E (h hop) _ _) fun _ => .case (fun _ => iget_fine E _ _ _) fun _ =>
      .case (fun _ => iput_fine E _ _ _) fun _ => .case (fun _ => sget_fine E _ _ _) fun _ =>
        .case (fun _ => sput_fine E _ _) fun _ => invokeInsn_fine E _ _

end Switch

end Lunaria.Dvm.Interp
