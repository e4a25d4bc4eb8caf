import Lunaria.Dvm.InterpSafe

/-! Exceptions and the loop of the interpreter: an exception that a function leaves pending is looked at by some
    instructions only. Over runs in which none is overlooked no instruction is fetched with an exception pending, and
    every exception is thrown with the pc of its instruction. -/

namespace Lunaria.Dvm.Interp
open Exits

section Left
variable {C M F W : Type} (E : Env C M F W) (pc : UInt32) (vm : Vm C M W)

/-- What looking up the type operand gives, and the VM after it. -/
def Env.typed : Option C × Vm C M W := if E.hasDex then E.resolveType (E.unit (pc + 1)).toUInt32 vm else (none, vm)

/-- What looking up the field operand gives, and the VM after it. -/
def Env.fielded (statics : Bool) : FieldRef C F × Vm C M W :=
  if E.hasDex then E.resolveField (E.unit (pc + 1)).toUInt32 statics vm else (⟨none, none, none, none⟩, vm)

/-- The VM as the functions that an instruction calls leave it, for an instruction that goes on whether or not an
    exception is pending by then; nothing where it throws. First `const-string`. -/
def Env.leftString (idx : UInt32) : Option (Vm C M W) := some (if E.hasDex then (E.constString idx vm).2 else vm)

def Env.leftClass : Option (Vm C M W) :=
  match E.typed pc vm with
  | (some t, vm) => if E.absent t then none else some (E.classObject t vm).2
  | (none, _) => none

def leftMonitor (f : UInt32 → Vm C M W → Bool × Vm C M W) (ref : UInt32) : Option (Vm C M W) :=
  if (f ref vm).1 then some (f ref vm).2 else none

def Env.leftCast (ref : UInt32) : Option (Vm C M W) :=
  match objAt (E.typed pc vm).2.heap ref, (E.typed pc vm).1 with
  | some o, some t => if E.assignable o.cls t then some (E.typed pc vm).2 else none
  | _, _ => some (E.typed pc vm).2

def Env.leftInstance : Option (Vm C M W) := some (E.typed pc vm).2

/-- The VM after an object of the class has been made. -/
def Env.leftObject (t : C) : Vm C M W :=
  match E.newExternal with
  | some hook =>
    if E.external t then
      if (hook t vm).1 ≠ 0 then (hook t vm).2 else (E.newObject t (hook t vm).2).2
    else (E.newObject t vm).2
  | none => (E.newObject t vm).2

def Env.leftNew : Option (Vm C M W) :=
  match E.typed pc vm with
  | (some t, vm) =>
    if E.absent t then none
    else if (E.initClass t vm).1 then some (E.leftObject (E.initClass t vm).2 t) else none
  | (none, _) => none

/-- The VM after `dvm_new_array`. -/
def Env.leftElements (length : UInt32) : Vm C M W :=
  let ed := elemDesc E (E.typed pc vm).1
  (E.newArray (kindOf ed) ed length (E.typed pc vm).2).2

def Env.leftArray (length : UInt32) : Option (Vm C M W) :=
  if length.toInt32 < 0 then none else some (E.leftElements pc vm length)

/-- The number of arguments of `filled-new-array`. -/
def argCount (range : Bool) (u0 : UInt16) : Nat := if range then AA u0 else min (B4 u0) 5

/-- `iget` and `iput`. -/
def Env.leftField (ref : UInt32) : Option (Vm C M W) :=
  if (objAt (E.fielded pc vm false).2.heap ref).isSome then some (E.fielded pc vm false).2 else none

section Static
variable [DecidableEq C]

def Env.leftHost (object : Bool) (r : FieldRef C F) (f : F) (v : UInt64) : Vm C M W :=
  match r.cls, r.name, r.type, E.getExternalStatic with
  | some c, some name, some type, some hook =>
    if object ∧ v.toUInt32 = 0 ∧ name = "currentActivity" then
      match (hook c name (some type) vm).1 with
      | some host =>
        if host.toUInt32 ≠ 0 then setStatic E f host (hook c name (some type) vm).2
        else (hook c name (some type) vm).2
      | none => (hook c name (some type) vm).2
    else vm
  | _, _, _, _ => vm

def Env.leftValue (object : Bool) (r : FieldRef C F) : Option (Vm C M W) :=
  match r.field with
  | some f =>
    let init := E.initClass (E.fieldCls f) vm
    if init.1 then some (E.leftHost init.2 object r f (staticValue E f init.2)) else none
  | none =>
    match r.cls, r.name, E.getExternalStatic with
    | some c, some name, some hook =>
      if (hook c name r.type vm).1.isSome then some (hook c name r.type vm).2 else none
    | _, _, _ => some vm

/-- `sget`. -/
def Env.leftStatic (object : Bool) : Option (Vm C M W) :=
  E.leftValue (E.fielded pc vm true).2 object (E.fielded pc vm true).1

end Static

/-- `sput`. -/
def Env.leftPut : Option (Vm C M W) :=
  match E.fielded pc vm true with
  | (⟨some f, _, _, _⟩, vm) =>
    if (E.initClass (E.fieldCls f) vm).1 then some (E.initClass (E.fieldCls f) vm).2 else none
  | (⟨none, _, _, _⟩, vm) => some vm

end Left

section Clean
variable {C M F W α β : Type} {s : State C M W} (E : Env C M F W)

/-- Completing or returning, the instruction leaves no exception pending. -/
def Clean (m : Exec C M W α) (s : State C M W) : Prop :=
  Ends m s (fun _ s' => s'.vm.exception = 0) fun e s' => ∀ out, e = .returnTrue out → s'.vm.exception = 0

variable {m : Exec C M W α} {Q : β → State C M W → Prop} {R : Exit → State C M W → Prop} {dst src : Nat} {wide : Bool}

/-- An instruction that calls nothing raises nothing. -/
theorem Fine.clean {L : Prop} (h : Fine Unraised True s.pc L m) (hs : s.vm.exception = 0) :
    Clean m s := by
  have zero : ∀ {vm : Vm C M W}, Unraised s.vm vm → vm.exception = 0 := fun h => h.elim (fun h => h.trans hs) id
  refine (h s rfl).mono (fun _ _ ⟨_, hvm⟩ => zero hvm) fun e s' ⟨he, _⟩ out hout => ?_
  subst hout
  exact zero he.2

theorem Clean.ite {c : Prop} [Decidable c] {m m' : Exec C M W α} (hm : c → Clean m s) (hm' : ¬ c → Clean m' s) :
    Clean (if c then m else m') s := by
  split
  · exact hm (by assumption)
  · exact hm' (by assumption)

theorem ends_typeOperand {f : Option C → Exec C M W β} :
    Ends (typeOperand E >>= f) s Q R ↔
      Ends (f (E.typed s.pc s.vm).1) { s with vm := (E.typed s.pc s.vm).2 } Q R := by
  rw [typeOperand, bind_assoc, ends_read (iu_read E 1)]
  unfold Env.typed
  by_cases hdex : E.hasDex
  · rw [if_pos hdex, if_pos hdex]
    exact ends_call
  · rw [if_neg hdex, if_neg hdex]
    exact Iff.rfl

theorem ends_fieldOperand {statics : Bool} {f : FieldRef C F → Exec C M W β}
    : Ends (fieldOperand E statics >>= f) s Q R ↔
      Ends (f (E.fielded s.pc s.vm statics).1) { s with vm := (E.fielded s.pc s.vm statics).2 } Q R := by
  rw [fieldOperand, bind_assoc, ends_read (iu_read E 1)]
  unfold Env.fielded
  by_cases hdex : E.hasDex
  · rw [if_pos hdex, if_pos hdex]
    exact ends_call
  · rw [if_neg hdex, if_neg hdex]
    exact Iff.rfl

/-- The end of an instruction with a result in a register. -/
theorem setR_advance_clean {dst : Nat} (hdst : dst < E.nregs.toNat) (v : UInt32) (n : UInt32)
    (hs : s.vm.exception = 0) : Clean (setR E dst v >>= fun _ => advance n) s :=
  Fine.clean (L := True) (.then (setR_keeps E hdst v) fun _ _ =>
    advance_fine trivial n) hs

theorem constString_clean {dst : Nat} {idx : Exec C M W UInt32} {i len : UInt32} (hidx : idx s = .ok i s)
    (h : ∀ vm, E.leftString s.vm i = some vm → vm.exception = 0) : Clean (constString E dst idx len) s := by
  have hleft := h _ rfl
  unfold Clean constString
  rw [ends_req]
  refine ⟨fun hdst => ?_, fun _ => nofun⟩
  rw [ends_read hidx, stringOf]
  by_cases hdex : E.hasDex
  · rw [if_pos hdex] at hleft ⊢
    rw [ends_call]
    exact setR_advance_clean E hdst _ _ hleft
  · rw [if_neg hdex] at hleft ⊢
    exact setR_advance_clean E hdst _ _ hleft

theorem constClass_clean {dst : Nat} (h : ∀ vm, E.leftClass s.pc s.vm = some vm → vm.exception = 0) :
    Clean (constClass E dst) s := by
  unfold Env.leftClass at h
  unfold Clean constClass
  rw [ends_req]
  refine ⟨fun hdst => ?_, fun _ => nofun⟩
  rw [ends_typeOperand]
  generalize E.typed s.pc s.vm = r at h ⊢
  obtain ⟨t, vm⟩ := r
  cases t with
  | none => exact nofun
  | some t =>
    dsimp only at h ⊢
    by_cases habsent : E.absent t
    · rw [if_pos habsent]
      exact nofun
    · rw [if_neg habsent] at h ⊢
      rw [ends_call]
      exact setR_advance_clean E hdst _ _ (h _ rfl)

theorem monitor_clean {f : UInt32 → Vm C M W → Bool × Vm C M W} {src : Nat}
    (h : ∀ vm, leftMonitor s.vm f (s.regs src) = some vm → vm.exception = 0) : Clean (monitor E f src) s := by
  unfold leftMonitor at h
  unfold Clean monitor
  rw [ends_req]
  refine ⟨fun hsrc => ?_, fun _ => nofun⟩
  rw [ends_read (getR_read E hsrc), ends_call]
  by_cases hok : (f (s.regs src) s.vm).1
  · rw [if_pos hok] at h ⊢
    exact h _ rfl
  · rw [if_neg hok]
    exact nofun

theorem checkCast_clean {src : Nat} (h : ∀ vm, E.leftCast s.pc s.vm (s.regs src) = some vm → vm.exception = 0) :
    Clean (checkCast E src) s := by
  unfold Env.leftCast at h
  unfold Clean checkCast
  rw [ends_req]
  refine ⟨fun hsrc => ?_, fun _ => nofun⟩
  rw [ends_typeOperand, ends_read (getR_read E hsrc), ends_read (obj_read _)]
  dsimp only
  split
  · next o t ho ht =>
    rw [ho, ht] at h
    dsimp only at h
    by_cases hcast : E.assignable o.cls t
    · rw [if_pos hcast] at h ⊢
      exact h _ rfl
    · rw [if_neg hcast]
      exact nofun
  · next hnone =>
    refine h _ ?_
    split
    · next o t ho ht => exact absurd ht (hnone o t ho)
    · rfl

theorem instanceOf_clean (h : ∀ vm, E.leftInstance s.pc s.vm = some vm → vm.exception = 0) :
    Clean (instanceOf E dst src) s := by
  unfold Clean instanceOf
  rw [ends_req]
  refine ⟨fun hdst => ?_, fun _ => nofun⟩
  rw [ends_req]
  refine ⟨fun hsrc => ?_, fun _ => nofun⟩
  rw [ends_typeOperand, ends_read (getR_read E hsrc), ends_read (obj_read _)]
  exact setR_advance_clean E hdst _ _ (h _ rfl)

theorem ends_newObjectOf {t : C} {f : UInt32 → Exec C M W β}
    (h : ∀ v, Ends (f v) { s with vm := E.leftObject s.vm t } Q R) :
    Ends (newObjectOf E t >>= f) s Q R := by
  unfold Env.leftObject at h
  unfold newObjectOf
  cases hhook : E.newExternal with
  | none =>
    rw [hhook] at h
    rw [ends_call]
    exact h _
  | some hook =>
    rw [hhook] at h
    dsimp only at h ⊢
    by_cases hext : E.external t
    · rw [if_pos hext] at h ⊢
      rw [bind_assoc, ends_call]
      by_cases hnull : (hook t s.vm).1 ≠ 0
      · rw [if_pos hnull] at h ⊢
        exact h _
      · rw [if_neg hnull] at h ⊢
        rw [ends_call]
        exact h _
    · rw [if_neg hext] at h ⊢
      rw [ends_call]
      exact h _

theorem newInstance_clean {dst : Nat} (h : ∀ vm, E.leftNew s.pc s.vm = some vm → vm.exception = 0) :
    Clean (newInstance E dst) s := by
  unfold Env.leftNew at h
  unfold Clean newInstance
  rw [ends_req]
  refine ⟨fun hdst => ?_, fun _ => nofun⟩
  rw [ends_typeOperand]
  generalize E.typed s.pc s.vm = r at h ⊢
  obtain ⟨t, vm⟩ := r
  cases t with
  | none => exact nofun
  | some t =>
    dsimp only at h ⊢
    by_cases habsent : E.absent t
    · rw [if_pos habsent]
      exact nofun
    · rw [if_neg habsent] at h ⊢
      rw [ends_call]
      dsimp only
      by_cases hinit : (E.initClass t vm).1
      · rw [if_pos hinit] at h ⊢
        exact ends_newObjectOf E fun v => setR_advance_clean E hdst _ _ (h _ rfl)
      · rw [if_neg hinit]
        exact nofun

theorem newArray_clean (h : ∀ vm, E.leftArray s.pc s.vm (s.regs src) = some vm → vm.exception = 0) :
    Clean (newArray E dst src) s := by
  unfold Env.leftArray at h
  unfold Clean newArray
  rw [ends_req]
  refine ⟨fun hdst => ?_, fun _ => nofun⟩
  rw [ends_req]
  refine ⟨fun hsrc => ?_, fun _ => nofun⟩
  rw [ends_typeOperand, ends_read (getR_read E hsrc)]
  dsimp only
  by_cases hneg : (s.regs src).toInt32 < 0
  · rw [if_pos hneg]
    exact nofun
  · rw [if_neg hneg] at h ⊢
    rw [ends_call]
    exact setR_advance_clean E hdst _ _ (h _ rfl)

theorem slotsOf_read : ∀ l : List Nat, ∃ v, slotsOf E l s = .ok v s ∧ v.length = l.length
  | [] => ⟨[], rfl, rfl⟩
  | i :: l => by
    obtain ⟨v, hv, hlen⟩ := slotsOf_read l
    rw [slotsOf]
    by_cases hi : i < E.nregs.toNat
    · refine ⟨s.regs i :: v, ?_, congrArg (· + 1) hlen⟩
      rw [if_pos hi]
      simp only [bind, EStateM.bind, getR_read E hi, hv]
      rfl
    · refine ⟨0 :: v, ?_, congrArg (· + 1) hlen⟩
      rw [if_neg hi]
      simp only [bind, EStateM.bind, hv]
      rfl

theorem gatherArgs_read (range : Bool) (u0 : UInt16) :
    ∃ v, gatherArgs E range u0 s = .ok v s ∧ v.length = argCount range u0 := by
  unfold gatherArgs argCount
  simp only [bind, EStateM.bind, iu_read]
  cases range with
  | true =>
    obtain ⟨v, hv, hlen⟩ := slotsOf_read (s := s) E ((List.range (AA u0)).map fun i => (E.unit (s.pc + 2)).toNat + i)
    rw [List.length_map, List.length_range] at hlen
    exact ⟨v, hv, hlen⟩
  | false =>
    simp only [Bool.false_eq_true, if_false]
    refine (slotsOf_read E _).imp fun v ⟨hv, hlen⟩ => ⟨hv, ?_⟩
    rw [hlen, List.length_take]
    rfl

theorem filledNewArray_clean {range : Bool} {u0 : UInt16}
    (h : (E.leftElements s.pc s.vm (argCount range u0).toUInt32).exception = 0) :
    Clean (filledNewArray E range u0) s := by
  unfold Clean filledNewArray
  rw [ends_typeOperand]
  obtain ⟨slots, hslots, hlen⟩ := gatherArgs_read (s := { s with vm := (E.typed s.pc s.vm).2 }) E range u0
  rw [ends_read hslots, ends_call, hlen]
  refine Fine.clean (L := True) ?_ h
  refine .then (P := fun _ => True) (.bind (obj_keeps _) fun ao _ => ?_) fun _ _ => ?_
  · cases ao with
    | none => exact .pure trivial
    | some ao => exact fillElements_keeps _ _ (.inl trivial)
  · exact .then (.frame (fun _ => rfl) fun _ => rfl) fun _ _ => advance_fine trivial _

theorem iget_clean
    (h : ∀ vm, E.leftField s.pc s.vm (s.regs src) = some vm → vm.exception = 0) : Clean (iget E wide dst src) s := by
  unfold Env.leftField at h
  unfold Clean iget
  rw [ends_req]
  refine ⟨fun hdst => ?_, fun _ => nofun⟩
  rw [ends_req]
  refine ⟨fun hsrc => ?_, fun _ => nofun⟩
  rw [ends_fieldOperand, ends_read (getR_read E hsrc), ends_read (obj_read _)]
  dsimp only
  cases ho : objAt (E.fielded s.pc s.vm false).2.heap (s.regs src) with
  | none => exact nofun
  | some o =>
    rw [ho] at h
    refine Fine.clean (L := True) (.then (putResult_keeps E hdst wide _) fun _ _ => ?_) (h _ rfl)
    exact advance_fine trivial _

theorem iput_clean {src dst : Nat}
    (h : ∀ vm, E.leftField s.pc s.vm (s.regs dst) = some vm → vm.exception = 0) : Clean (iput E wide src dst) s := by
  unfold Env.leftField at h
  unfold Clean iput
  rw [ends_req]
  refine ⟨fun hsrc => ?_, fun _ => nofun⟩
  rw [ends_req]
  refine ⟨fun hdst => ?_, fun _ => nofun⟩
  rw [ends_fieldOperand, ends_read (getR_read E hdst), ends_read (obj_read _)]
  dsimp only
  cases ho : objAt (E.fielded s.pc s.vm false).2.heap (s.regs dst) with
  | none => exact nofun
  | some o =>
    rw [ho] at h
    refine Fine.clean (L := True) (.then (putOperand_keeps E hsrc wide) fun v _ => ?_) (h _ rfl)
    exact .then (storeSlot_keeps _ o _ v) fun _ _ => advance_fine trivial _

theorem ends_putOperand {src : Nat} {k : UInt64 → Exec C M W β}
    (hsrc : src < E.nregs.toNat) (hR : ∀ s', R .exception s')
    (h : ∀ v, Ends (k v) s Q R) : Ends (putOperand E wide src >>= k) s Q R := by
  cases wide with
  | false =>
    rw [putOperand, if_neg Bool.false_ne_true, bind_assoc, ends_read (getR_read E hsrc)]
    exact h _
  | true =>
    rw [putOperand, if_pos rfl, bind_assoc, ends_req]
    refine ⟨fun hwide => ?_, fun _ => hR _⟩
    rw [getW, bind_assoc, ends_read (getR_read E hsrc), bind_assoc, ends_read (getR_read E hwide)]
    exact h _

/-- What a part of an instruction leaves does not matter where the rest looks at it. -/
theorem Clean.then {V : Vm C M W → Vm C M W → Prop} {f : α → Exec C M W β} {P : α → Prop}
    (hm : Keeps V True s.pc m P) (hf : ∀ a s', s'.pc = s.pc → Clean (f a) s') : Clean (m >>= f) s := by
  unfold Clean
  rw [ends_bind]
  refine (hm s rfl).mono (fun a s' ⟨_, hpc, _⟩ => hf a s' hpc) fun e s' ⟨he, _⟩ out hout => ?_
  subst hout
  exact he.elim

theorem invokeResult_clean (ret : Bool × UInt64) : Clean (invokeResult ret) s := by
  unfold Clean invokeResult
  rw [ends_read get_read]
  by_cases hexc : ret.1 = false ∨ s.vm.exception ≠ 0
  · rw [if_pos hexc]
    exact nofun
  · rw [if_neg hexc]
    exact not_not.1 fun hne => hexc (.inr hne)

theorem invokeInsn_clean (op : UInt8) (u0 : UInt16) : Clean (invokeInsn E op u0) s := by
  refine .then (iu_keeps (V := Anyhow) E 1) fun midx s₁ hs₁ => .then (methodOf_keeps E _) fun r s₂ hs₂ => ?_
  refine .then (gatherArgs_keeps E _ u0) fun slots s₃ hs₃ => ?_
  refine .ite (fun _ => nofun) fun _ => .ite (fun _ => nofun) fun _ => ?_
  refine .then (superTarget_keeps E _ r) fun target s₄ hs₄ => .then (receiverTarget_keeps E _ _ r target)
    fun target s₅ hs₅ => ?_
  exact .then (invokeCall_keeps E _ _ _ r target) fun ret s₆ hs₆ => invokeResult_clean ret

section Static
variable [DecidableEq C]

theorem setStatic_exception (f : F) (v : UInt64) (vm : Vm C M W) : (setStatic E f v vm).exception = vm.exception := by
  unfold setStatic
  split
  · split <;> rfl
  · rfl

variable {object : Bool} {r : FieldRef C F} {k : UInt64 → Exec C M W β} {Q : β → State C M W → Prop}
  {R : Exit → State C M W → Prop}

theorem ends_hostStatic {f : F} {v : UInt64}
    (h : ∀ v', Ends (k v') { s with vm := E.leftHost s.vm object r f v } Q R) :
    Ends (hostStatic E object r f v >>= k) s Q R := by
  unfold Env.leftHost at h
  unfold hostStatic
  split
  · next c name type hook hc hname htype hhook =>
    rw [hc, hname, htype, hhook] at h
    dsimp only at h
    by_cases hask : object ∧ v.toUInt32 = 0 ∧ name = "currentActivity"
    · rw [if_pos hask] at h ⊢
      rw [bind_assoc, ends_call]
      cases hhost : (hook c name (some type) s.vm).1 with
      | none =>
        rw [hhost] at h
        exact h v
      | some host =>
        rw [hhost] at h
        dsimp only at h ⊢
        by_cases hnull : host.toUInt32 ≠ 0
        · rw [if_pos hnull] at h ⊢
          rw [bind_assoc, ends_bind, ends_modify]
          exact h host
        · rw [if_neg hnull] at h ⊢
          exact h v
    · rw [if_neg hask] at h ⊢
      exact h v
  · next hnone =>
    split at h
    · next c name type hook hc hname htype hhook => exact absurd hhook (hnone c name type hook hc hname htype)
    · exact h v

theorem ends_staticOf
    (hR : ∀ s', R .exception s')
    (h : ∀ vm, E.leftValue s.vm object r = some vm → ∀ v, Ends (k v) { s with vm } Q R) :
    Ends (staticOf E object r >>= k) s Q R := by
  unfold Env.leftValue at h
  unfold staticOf
  cases hfield : r.field with
  | some f =>
    rw [hfield] at h
    dsimp only at h ⊢
    rw [bind_assoc, ends_call]
    by_cases hinit : (E.initClass (E.fieldCls f) s.vm).1
    · rw [if_pos hinit] at h ⊢
      rw [bind_assoc, ends_read get_read]
      exact ends_hostStatic E fun v => h _ rfl v
    · rw [if_neg hinit]
      exact hR _
  | none =>
    rw [hfield] at h
    dsimp only at h ⊢
    split
    · next c name hook hc hname hhook =>
      rw [hc, hname, hhook] at h
      dsimp only at h
      rw [bind_assoc, ends_call]
      cases hv : (hook c name r.type s.vm).1 with
      | none => exact hR _
      | some v =>
        rw [hv] at h
        exact h _ rfl v
    · next hnone =>
      split at h
      · next c name hook hc hname hhook => exact absurd hhook (hnone c name hook hc hname)
      · exact h _ rfl 0

theorem sget_clean {wide object : Bool} {dst : Nat}
    (h : ∀ vm, E.leftStatic s.pc s.vm object = some vm → vm.exception = 0) : Clean (sget E wide object dst) s := by
  unfold Clean sget
  rw [ends_req]
  refine ⟨fun hdst => ?_, fun _ => nofun⟩
  rw [ends_fieldOperand]
  refine ends_staticOf E (fun _ => nofun) fun vm hvm v => ?_
  refine Fine.clean (L := True) (.then (putResult_keeps E hdst wide v) fun _ _ => ?_) (h vm hvm)
  exact advance_fine trivial _

theorem sput_clean {wide : Bool} {src : Nat} (h : ∀ vm, E.leftPut s.pc s.vm = some vm → vm.exception = 0) :
    Clean (sput E wide src) s := by
  unfold Env.leftPut at h
  unfold Clean sput
  rw [ends_req]
  refine ⟨fun hsrc => ?_, fun _ => nofun⟩
  rw [ends_fieldOperand]
  generalize E.fielded s.pc s.vm true = r at h ⊢
  obtain ⟨⟨field, cls, name, type⟩, vm⟩ := r
  refine ends_putOperand E hsrc (fun _ => nofun) fun v => ?_
  cases field with
  | none => exact h _ rfl
  | some f =>
    dsimp only at h ⊢
    rw [storeStatic, bind_assoc, ends_call]
    dsimp only
    by_cases hinit : (E.initClass (E.fieldCls f) vm).1
    · rw [if_pos hinit] at h ⊢
      rw [ends_bind, ends_modify]
      exact (setStatic_exception E f v _).trans (h _ rfl)
    · rw [if_neg hinit]
      exact nofun

end Static

end Clean

section Run
variable {C M F W : Type} [DecidableEq C] [DecidableEq M] (E : Env C M F W)

/-- The VM as the functions that the instruction calls leave it, for the instructions up to `throw`. -/
def Env.leftObjects (s : State C M W) (op : UInt8) (u0 : UInt16) : Option (Vm C M W) :=
  if op = 0x1a then E.leftString s.vm (E.unit (s.pc + 1)).toUInt32
  else if op = 0x1b then E.leftString s.vm (E.unit32 s.pc)
  else if op = 0x1c then E.leftClass s.pc s.vm
  else if op = 0x1d then leftMonitor s.vm E.monitorEnter (s.regs (AA u0))
  else if op = 0x1e then leftMonitor s.vm E.monitorExit (s.regs (AA u0))
  else if op = 0x1f then E.leftCast s.pc s.vm (s.regs (AA u0))
  else if op = 0x20 then E.leftInstance s.pc s.vm
  else if op = 0x22 then E.leftNew s.pc s.vm
  else if op = 0x23 then E.leftArray s.pc s.vm (s.regs (B4 u0))
  else if op = 0x24 ∨ op = 0x25 then some (E.leftElements s.pc s.vm (argCount (op = 0x25) u0).toUInt32)
  else none

/-- The same for all instructions that go on whatever the functions leave. -/
def Env.left (s : State C M W) (op : UInt8) (u0 : UInt16) : Option (Vm C M W) :=
  if op ≤ 0x27 then E.leftObjects s op u0
  else if op ≤ 0x51 then none
  else if op ≤ 0x5f then E.leftField s.pc s.vm (s.regs (B4 u0))
  else if op ≤ 0x66 then E.leftStatic s.pc s.vm (op = 0x62)
  else if op ≤ 0x6d then E.leftPut s.pc s.vm
  else none

variable {s : State C M W} (hs : s.vm.exception = 0)
include hs

variable {u0 : UInt16}

omit [DecidableEq C] in
theorem execObjects_clean {op : UInt8} (h : ∀ vm, E.leftObjects s op u0 = some vm → vm.exception = 0) :
    Clean (execObjects E op u0) s := by
  refine .ite (fun hop => constString_clean E (operand_read E _) (by subst hop; exact h)) fun _ =>
    .ite (fun hop => constString_clean E (iu32_read E) (by subst hop; exact h)) fun _ =>
    .ite (fun hop => constClass_clean E (by subst hop; exact h)) fun _ =>
    .ite (fun hop => monitor_clean E (by subst hop; exact h)) fun _ =>
    .ite (fun hop => monitor_clean E (by subst hop; exact h)) fun _ =>
    .ite (fun hop => checkCast_clean E (by subst hop; exact h)) fun _ =>
    .ite (fun hop => instanceOf_clean E (by subst hop; exact h)) fun _ => ?_
  refine .ite (fun _ => (arrayLength_fine E _ _).clean hs) fun _ =>
    .ite (fun hop => newInstance_clean E (by subst hop; exact h)) fun _ =>
    .ite (fun hop => newArray_clean E (by subst hop; exact h)) fun _ =>
    .ite (fun hop => filledNewArray_clean E (h _ ?_)) fun _ =>
    .ite (fun _ => (fillArrayData_fine E trivial _).clean hs) fun _ =>
    (throwInsn_fine E _).clean hs
  rcases hop with rfl | rfl <;> rfl

theorem execOp_clean {op : UInt8} (h : ∀ vm, E.left s op u0 = some vm → vm.exception = 0) :
    Clean (execOp E op u0) s := by
  unfold Env.left at h
  refine .ite (fun _ => (execMoves_fine E op u0).clean hs) fun _ => .ite (fun hop => ?_) fun h27 =>
    .ite (fun _ => (execBranches_fine E (fun _ => trivial) u0).clean hs) fun _ =>
    .ite (fun _ => (badOpcode_fine E op).clean hs) fun _ => .ite (fun _ => ?_) fun _ =>
    .ite (fun _ => (badOpcode_fine E op).clean hs) fun _ =>
    .ite (fun _ => (execUnary_fine E op u0).clean hs) fun _ =>
    .ite (fun _ => (execBinary_fine E op u0).clean hs) fun _ =>
    .ite (fun _ => (badOpcode_fine E op).clean hs) fun _ => .ite (fun _ => (skip_fine E _).clean hs) fun _ =>
    .ite (fun _ => (skip_fine E _).clean hs) fun _ =>
    (const_fine E (P := fun _ => True) (.pure trivial) _ _).clean hs
  · rw [if_pos hop] at h
    exact execObjects_clean E hs h
  · rw [if_neg h27] at h
    refine .ite (fun _ => (aget_fine E trivial _ _).clean hs) fun _ =>
      .ite (fun _ => (aput_fine E trivial _ _).clean hs) fun h51 => .ite (fun hget => ?_) fun _ =>
      .ite (fun hput => ?_) fun h5f => .ite (fun hget => ?_) fun h66 => .ite (fun hput => ?_) fun _ =>
      invokeInsn_clean E op u0
    · rw [if_neg h51, if_pos (UInt8.le_trans hget (by decide))] at h
      exact iget_clean E h
    · rw [if_neg h51, if_pos hput] at h
      exact iput_clean E h
    · rw [if_neg h51, if_neg h5f, if_pos hget] at h
      exact sget_clean E h
    · rw [if_neg h51, if_neg h5f, if_neg h66, if_pos hput] at h
      exact sput_clean E h

end Run

section Delivery
variable {C M F W : Type} [DecidableEq C] [DecidableEq M] (E : Env C M F W) {s : State C M W}

/-- The instruction at the pc calls functions that leave an exception pending, and goes on without looking. -/
def Overlooks (s : State C M W) : Prop :=
  let u0 := E.insns s.pc.toNat
  Reaches E s ∧ E.Has (E.regs s.pc (opcode E s) u0) ∧
    ∃ vm, E.left { s with vm := E.atSwitch s } (opcode E s) u0 = some vm ∧ vm.exception ≠ 0

/-- The exceptions of the instruction that is fetched: none is pending before it, none is left when it completes or
    returns, and those thrown are thrown with its pc. -/
structure Delivered (s : State C M W) : Prop where
  before : s.vm.exception = 0
  completed : ∀ s', execInsn E s = .ok () s' → s'.vm.exception = 0
  returned : ∀ out s', execInsn E s = .error (.returnTrue out) s' → s'.vm.exception = 0
  thrown : ∀ s', execInsn E s = .error .exception s' → s'.pc = s.pc

theorem execInsn_clean (hs : s.vm.exception = 0) (h : ¬ Overlooks E s) : Clean (execInsn E) s := by
  by_cases hreach : Reaches E s
  · unfold Clean Ends
    rw [execInsn_of_reaches E s hreach]
    by_cases hregs : E.Has (E.regs s.pc (opcode E s) (E.insns s.pc.toNat))
    · refine execOp_clean (s := { s with vm := E.atSwitch s }) E ((ticked_own E s.vm).1.trans hs) fun vm hvm => ?_
      exact not_not.1 fun hne => h ⟨hreach, hregs, vm, hvm, hne⟩
    · -- A register is missing, so that the instruction throws.
      have hfine : Fine Anyhow True s.pc _ (execOp E (opcode E s) (E.insns s.pc.toNat)) :=
        execOp_fine E (fun _ => trivial) _
      refine (hfine { s with vm := E.atSwitch s } rfl).mono (fun _ _ hok => absurd hok.1 hregs) fun e s' he out hout => ?_
      subst hout
      exact absurd he.1.1 hregs
  · unfold Clean
    rw [execInsn, ends_bind]
    refine (fetch_ends E s).mono (fun _ _ hok => absurd hok.1 hreach) fun e s' he out hout => ?_
    subst hout
    rcases he.2.1 with he | ⟨he, -⟩ <;> cases he

variable {s' : State C M W}

theorem execInsn_thrown_pc (h : execInsn E s = .error .exception s') : s'.pc = s.pc := by
  have hends : Ends (execInsn E) s (fun _ _ => True) fun _ s' => s'.pc = s.pc := by
    rw [execInsn, ends_bind]
    refine (fetch_ends E s).mono ?_ fun _ _ he => he.2.2
    rintro u _ ⟨-, -, rfl⟩
    have hfine : Fine Anyhow True s.pc _ (execOp E (u &&& 0xff).toUInt8 u) := execOp_fine E (fun _ => trivial) _
    exact (hfine { s with vm := E.atSwitch s } rfl).mono (fun _ _ _ => trivial) fun _ _ he => he.2
  exact hends.error h

omit [DecidableEq C] [DecidableEq M] in
/-- A handler is entered with nothing pending. -/
theorem exceptionLabel_next (h : exceptionLabel E s = .next s') : s'.vm.exception = 0 := by
  unfold exceptionLabel at h
  split at h
  · cases h
  dsimp only at h
  generalize (if s.vm.exception = 0 then { s with vm := E.dvmThrow .noExceptionObject s.vm } else s) = thrown at h
  split at h
  · split at h
    · cases h
      rfl
    · cases h
  · split at h
    · cases h
      rfl
    · cases h

theorem turn_next (hs : s.vm.exception = 0) (hquiet : ¬ Overlooks E s) (h : turn E s = .next s') :
    s'.vm.exception = 0 := by
  unfold turn at h
  split at h
  · next hok =>
    cases h
    exact (execInsn_clean E hs hquiet).ok hok
  · exact exceptionLabel_next E h
  · cases h
  · cases h
  · cases h

/-- Along a run in which no instruction overlooks an exception, no instruction is fetched with one pending, and all
    are thrown with the pc of their instruction. -/
theorem exceptions_delivered {s₀ : State C M W} (hstart : s₀.vm.exception = 0) (hrun : Turns E s₀ s)
    (hquiet : ∀ s₁, Turns E s₀ s₁ → Turns E s₁ s → ¬ Overlooks E s₁) : Delivered E s := by
  have hbefore : s.vm.exception = 0 := by
    induction hrun with
    | refl => exact hstart
    | next hrun hturn ih =>
      have hzero := ih fun s₁ h h' => hquiet s₁ h (.next h' hturn)
      exact turn_next E hzero (hquiet _ hrun (.next (.refl _) hturn)) hturn
  have hclean := execInsn_clean E hbefore (hquiet s hrun (.refl s))
  exact ⟨hbefore, fun _ h => hclean.ok h, fun out _ h => hclean.error h out rfl, fun _ h => execInsn_thrown_pc E h⟩

end Delivery

section Example

def Turn.state {C M W : Type} : Turn C M W → State C M W
  | .next s | .returned _ _ s | .fault _ s => s

def emptyState : State Unit Unit Unit := idleState fun _ => none

/-- `const-string`, a division by zero, and its handler: `move-exception`, and the return after it. -/
def divisionEnv : Env Unit Unit Unit Unit :=
  { idleEnv [0x001a, 0x0000, 0x0093, 0x0101, 0x000d, 0x000e] 2 ['I'] with
    findHandler := fun pc _ vm => (if pc = 2 then some 4 else none, vm) }

def divisionState : Nat → State Unit Unit Unit
  | 0 => emptyState
  | k + 1 => (turn divisionEnv (divisionState k)).state

theorem divisionState_turns : ∀ k ≤ 3, Turns divisionEnv emptyState (divisionState k)
  | 0, _ => .refl _
  | 1, _ => .next (.refl _) rfl
  | 2, _ => .next (.next (.refl _) rfl) rfl
  | 3, _ => .next (.next (.next (.refl _) rfl) rfl) rfl

/-- The run has four states at the top of the loop. -/
theorem turns_divisionState {s : State Unit Unit Unit} (h : Turns divisionEnv emptyState s) :
    ∃ k ≤ 3, s = divisionState k := by
  induction h with
  | refl => exact ⟨0, by omega, rfl⟩
  | next hrun hturn ih =>
    obtain ⟨k, hk, rfl⟩ := ih
    have hlast : turn divisionEnv (divisionState 3) = .returned true 0 (divisionState 4) := rfl
    refine ⟨k + 1, ?_, ?_⟩
    · rcases Nat.lt_succ_iff_lt_or_eq.1 (Nat.lt_succ_of_le hk) with hlt | rfl
      · exact hlt
      · cases hlast.symm.trans hturn
    · rw [divisionState, hturn]
      rfl

theorem divisionState_quiet {k : Nat} (hk : k ≤ 3) : ¬ Overlooks divisionEnv (divisionState k) := by
  rintro ⟨-, -, vm, hleft, hexc⟩
  obtain rfl | rfl | rfl | rfl : k = 0 ∨ k = 1 ∨ k = 2 ∨ k = 3 := by omega
  · cases hleft
    exact hexc rfl
  all_goals cases show none = some vm from hleft

/-- The exception is thrown at the division, caught by the handler and moved into the register. -/
theorem exceptions_delivered_division : (∀ k ≤ 3, Delivered divisionEnv (divisionState k)) ∧
    (∃ s, execInsn divisionEnv (divisionState 1) = .error .exception s ∧ s.pc = 2 ∧ s.vm.exception = 1) ∧
      (divisionState 2).pc = 4 ∧ (divisionState 2).vm.excRef = 1 ∧ (divisionState 3).regs 0 = 1 := by
  refine ⟨fun k hk => ?_, ⟨_, rfl, rfl, rfl⟩, rfl, rfl, rfl⟩
  refine exceptions_delivered divisionEnv rfl (divisionState_turns k hk) fun s hs _ => ?_
  obtain ⟨j, hj, rfl⟩ := turns_divisionState hs
  exact divisionState_quiet hj

/-- `new-array` of a type with 256 dimensions. -/
def deepEnv : Env Unit Unit Unit Unit := idleEnv [0x1023, 0x0000, 0x000e] 2 (List.replicate 256 '[' ++ ['I'])

set_option maxRecDepth 4000 in
/-- The component has too many dimensions: `dvm_new_array` throws, and the next instruction is fetched with the
    exception pending. -/
theorem new_array_overlooks : emptyState.vm.exception = 0 ∧ Turns deepEnv emptyState (turn deepEnv emptyState).state ∧
    (turn deepEnv emptyState).state.pc = 2 ∧ (turn deepEnv emptyState).state.vm.exception = 1 ∧
    ¬ Delivered deepEnv (turn deepEnv emptyState).state :=
  ⟨rfl, .next (.refl _) rfl, rfl, rfl, fun h => absurd (show (1 : UInt32) = 0 from h.before) (by decide)⟩

end Example

end Lunaria.Dvm.Interp
