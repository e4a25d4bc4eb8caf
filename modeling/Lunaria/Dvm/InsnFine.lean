import Lunaria.Dvm.InsnRules

/-! What holds of every instruction that calls nothing: it stays inside its buffers, throws with the pc it was fetched
    at, completes only if the registers it names are there, and raises no exception that it does not throw. -/

namespace Lunaria.Dvm.Interp
open Exits UInt32

section Registers
variable {C M F W : Type} {E : Env C M F W} {i j k : Nat}

/-- The registers are there; of a pair, the second one stands for both. -/
def Env.Has (E : Env C M F W) (l : List Nat) : Prop := ∀ i ∈ l, i < E.nregs.toNat

theorem Env.has_nil : E.Has [] := nofun

theorem Env.has_one (hi : i < E.nregs.toNat) : E.Has [i] := by simpa [Has] using hi

theorem Env.has_two (hi : i < E.nregs.toNat) (hj : j < E.nregs.toNat) : E.Has [i, j] := by
  simpa [Has] using ⟨hi, hj⟩

theorem Env.has_three (hi : i < E.nregs.toNat) (hj : j < E.nregs.toNat) (hk : k < E.nregs.toNat) : E.Has [i, j, k] := by
  simpa [Has] using ⟨hi, hj, hk⟩

variable {V : Vm C M W → Vm C M W → Prop} {B : Prop} {pc : UInt32} {α : Type} {l l' : List Nat}

variable {m m' : Exec C M W α}

/-- A switch of instructions names the registers of the one it takes. -/
theorem Fine.case {c : Prop} [Decidable c] (hm : c → Fine V B pc (E.Has l) m)
    (hm' : ¬ c → Fine V B pc (E.Has l') m') : Fine V B pc (E.Has (if c then l else l')) (if c then m else m') := by
  split
  · exact hm (by assumption)
  · exact hm' (by assumption)

theorem Fine.opcode {l : UInt8 → UInt16 → List Nat} {op c : UInt8} {u0 : UInt16} (hm : Fine V B pc (E.Has (l c u0)) m)
    (hm' : op ≠ c → Fine V B pc (E.Has (l op u0)) m') : Fine V B pc (E.Has (l op u0)) (if op = c then m else m') := by
  split
  case isTrue h => exact h ▸ hm
  case isFalse h => exact hm' h

end Registers

section Handlers
variable {C M F W : Type} {V : Vm C M W → Vm C M W → Prop} {B : Prop} {pc : UInt32} (E : Env C M F W) [Tolerant V]

theorem nop_fine : Fine V B pc (E.Has []) (nop : Exec C M W Unit) := advance_fine E.has_nil _

theorem move_fine (dst src : Nat) (len : UInt32) : Fine V B pc (E.Has [dst, src]) (move E dst src len) := by
  refine .req E fun hdst => .req E fun hsrc => ?_
  refine .getR E hsrc fun _ => .setR E hdst ?_
  exact advance_fine (E.has_two hdst hsrc) _

theorem moveWide_fine (dst src : Nat) (len : UInt32) :
    Fine V B pc (E.Has [dst + 1, src + 1]) (moveWide E dst src len) := by
  refine .req E fun hdst => .req E fun hsrc => ?_
  refine .getW E hsrc fun _ => .setW E hdst ?_
  exact advance_fine (E.has_two hdst hsrc) _

theorem moveResult_fine (dst : Nat) : Fine V B pc (E.Has [dst]) (moveResult E dst) := by
  refine .req E fun hdst => .then .get fun _ _ => ?_
  exact .setR E hdst (advance_fine (E.has_one hdst) _)

theorem moveResultWide_fine (dst : Nat) : Fine V B pc (E.Has [dst + 1]) (moveResultWide E dst) := by
  refine .req E fun hdst => .then .get fun _ _ => ?_
  exact .setW E hdst (advance_fine (E.has_one hdst) _)

theorem moveException_fine (dst : Nat) : Fine V B pc (E.Has [dst]) (moveException E dst) := by
  refine .req E fun hdst => .then .get fun _ _ => ?_
  refine .setR E hdst ?_
  refine .then (P := fun _ => True) (fun _ hs => ⟨trivial, hs, Tolerant.cleared _⟩) fun _ _ => ?_
  exact advance_fine (E.has_one hdst) _

theorem returnVoid_fine : Fine V B pc (E.Has []) (returnVoid : Exec C M W Unit) := .return E.has_nil _

theorem returnValue_fine (src : Nat) : Fine V B pc (E.Has [src]) (returnValue E src) := by
  refine .req E fun hsrc => .getR E hsrc fun _ => ?_
  exact .return (E.has_one hsrc) _

theorem returnWide_fine (src : Nat) : Fine V B pc (E.Has [src + 1]) (returnWide E src) := by
  refine .req E fun hsrc => .getW E hsrc fun _ => ?_
  exact .return (E.has_one hsrc) _

theorem const_fine {v : Exec C M W UInt32} {P : UInt32 → Prop} (hv : Keeps V B pc v P) (dst : Nat) (len : UInt32) :
    Fine V B pc (E.Has [dst]) (const E dst v len) := by
  refine .req E fun hdst => .then hv fun _ _ => ?_
  exact .setR E hdst (advance_fine (E.has_one hdst) _)

theorem constWide_fine {v : Exec C M W UInt64} {P : UInt64 → Prop} (hv : Keeps V B pc v P) (dst : Nat)
    (len : UInt32) : Fine V B pc (E.Has [dst + 1]) (constWide E dst v len) := by
  refine .req E fun hdst => .then hv fun _ _ => ?_
  exact .setW E hdst (advance_fine (E.has_one hdst) _)

theorem arrayLength_fine (dst src : Nat) : Fine V B pc (E.Has [dst, src]) (arrayLength E dst src) := by
  refine .req E fun hdst => .req E fun hsrc => ?_
  refine .getR E hsrc fun _ => .then (obj_keeps _) fun o _ => ?_
  cases o with
  | none => exact throwing_fine E _
  | some o =>
    refine .ite (throwing_fine E _) ?_
    exact .setR E hdst (advance_fine (E.has_two hdst hsrc) _)

theorem throwInsn_fine [DecidableEq M] (src : Nat) : Fine V B pc (E.Has [src]) (throwInsn E src) := by
  refine .req E fun hsrc => .getR E hsrc fun ref => ?_
  refine .ite (throwing_fine E _) ?_
  -- What is left of the instruction ends at the exception label.
  intro s hs
  rw [ends_bind, ends_modify, ends_throw]
  refine ⟨trivial, ?_⟩
  dsimp only
  split
  · exact hs
  · split <;> exact hs

theorem gotoInsn_fine (off : UInt32) : Fine V B pc (E.Has []) (gotoInsn off : Exec C M W Unit) :=
  .then .get fun _ _ => goto_fine E.has_nil _

theorem goto8_fine (u0 : UInt16) : Fine V B pc (E.Has []) (goto8 E u0 : Exec C M W Unit) :=
  .ite (throwing_fine E _) (gotoInsn_fine E _)

theorem cmp32_fine (f : UInt32 → UInt32 → UInt32) (dst : Nat) :
    Fine V B pc (E.Has [dst, lowByte (E.unit (pc + 1)), highByte (E.unit (pc + 1))]) (cmp32 E f dst) := by
  refine .req E fun hdst => .then (iu_keeps E 1) ?_
  rintro _ rfl
  refine .req E fun ha => .req E fun hb => ?_
  refine .getR E ha fun _ => .getR E hb fun _ => ?_
  exact .setR E hdst (advance_fine (E.has_three hdst ha hb) _)

theorem cmp64_fine (f : UInt64 → UInt64 → UInt32) (dst : Nat) :
    Fine V B pc (E.Has [dst, lowByte (E.unit (pc + 1)) + 1, highByte (E.unit (pc + 1)) + 1]) (cmp64 E f dst) := by
  refine .req E fun hdst => .then (iu_keeps E 1) ?_
  rintro _ rfl
  refine .req E fun ha => .req E fun hb => ?_
  refine .getW E ha fun _ => .getW E hb fun _ => ?_
  exact .setR E hdst (advance_fine (E.has_three hdst ha hb) _)

theorem branch_fine {L : Prop} (hL : L) (taken : Bool) : Fine V B pc L (branch E taken) :=
  .then (iu_keeps E 1) fun _ _ => .then .get fun _ _ => goto_fine hL _

theorem ifInsn_fine (k a b : Nat) : Fine V B pc (E.Has [a, b]) (ifInsn E k a b) := by
  refine .req E fun ha => .req E fun hb => ?_
  refine .getR E ha fun _ => .getR E hb fun _ => ?_
  exact branch_fine E (E.has_two ha hb) _

theorem ifzInsn_fine (k a : Nat) : Fine V B pc (E.Has [a]) (ifzInsn E k a) :=
  .req E fun ha => .getR E ha fun _ => branch_fine E (E.has_one ha) _

theorem unary32_fine (f : UInt32 → UInt32) (dst src : Nat) : Fine V B pc (E.Has [dst, src]) (unary32 E f dst src) := by
  refine .req E fun hdst => .req E fun hsrc => ?_
  refine .getR E hsrc fun _ => .setR E hdst ?_
  exact advance_fine (E.has_two hdst hsrc) _

theorem unary64_fine (f : UInt64 → UInt64) (dst src : Nat) :
    Fine V B pc (E.Has [dst + 1, src + 1]) (unary64 E f dst src) := by
  refine .req E fun hdst => .req E fun hsrc => ?_
  refine .getW E hsrc fun _ => .setW E hdst ?_
  exact advance_fine (E.has_two hdst hsrc) _

theorem widen_fine (f : UInt32 → UInt64) (dst src : Nat) : Fine V B pc (E.Has [dst + 1, src]) (widen E f dst src) := by
  refine .req E fun hdst => .req E fun hsrc => ?_
  refine .getR E hsrc fun _ => .setW E hdst ?_
  exact advance_fine (E.has_two hdst hsrc) _

theorem narrow_fine (f : UInt64 → UInt32) (dst src : Nat) : Fine V B pc (E.Has [dst, src + 1]) (narrow E f dst src) := by
  refine .req E fun hdst => .req E fun hsrc => ?_
  refine .getW E hsrc fun _ => .setR E hdst ?_
  exact advance_fine (E.has_two hdst hsrc) _

theorem binop32_fine (f : UInt32 → UInt32 → Option UInt32) (dst : Nat) :
    Fine V B pc (E.Has [dst, lowByte (E.unit (pc + 1)), highByte (E.unit (pc + 1))]) (binop32 E f dst) := by
  refine .req E fun hdst => .then (iu_keeps E 1) ?_
  rintro _ rfl
  refine .req E fun ha => .req E fun hb => ?_
  refine .getR E ha fun _ => .getR E hb fun _ => ?_
  refine .then (orDivide_keeps E _) fun _ _ => .setR E hdst ?_
  exact advance_fine (E.has_three hdst ha hb) _

/-- The last register of the second operand of a `long` operation. -/
def countReg (shift : Bool) (i : Nat) : Nat := if shift then i else i + 1

theorem operand64_keeps {shift : Bool} {i : Nat} (h : countReg shift i < E.nregs.toNat) :
    Keeps V B pc (operand64 E shift i) fun _ => True := by
  cases shift with
  | true => exact .bind (getR_keeps E h) fun _ _ => .pure trivial
  | false => exact getW_keeps E h

theorem binop64_fine (shift : Bool) (f : UInt64 → UInt64 → Option UInt64) (dst : Nat) :
    Fine V B pc (E.Has [dst + 1, lowByte (E.unit (pc + 1)) + 1, countReg shift (highByte (E.unit (pc + 1)))])
      (binop64 E shift f dst) := by
  refine .req E fun hdst => .then (iu_keeps E 1) ?_
  rintro _ rfl
  refine .req E fun ha => .req E fun hb => ?_
  refine .getW E ha fun _ => .then (operand64_keeps E hb) fun _ _ => ?_
  refine .then (orDivide_keeps E _) fun _ _ => .setW E hdst ?_
  exact advance_fine (E.has_three hdst ha hb) _

theorem binop32Addr_fine (f : UInt32 → UInt32 → Option UInt32) (dst src : Nat) :
    Fine V B pc (E.Has [dst, src]) (binop32Addr E f dst src) := by
  refine .req E fun hdst => .req E fun hsrc => ?_
  refine .getR E hdst fun _ => .getR E hsrc fun _ => ?_
  refine .then (orDivide_keeps E _) fun _ _ => .setR E hdst ?_
  exact advance_fine (E.has_two hdst hsrc) _

theorem binop64Addr_fine (shift : Bool) (f : UInt64 → UInt64 → Option UInt64) (dst src : Nat) :
    Fine V B pc (E.Has [dst + 1, countReg shift src]) (binop64Addr E shift f dst src) := by
  refine .req E fun hdst => .req E fun hsrc => ?_
  refine .getW E hdst fun _ => .then (operand64_keeps E hsrc) fun _ _ => ?_
  refine .then (orDivide_keeps E _) fun _ _ => .setW E hdst ?_
  exact advance_fine (E.has_two hdst hsrc) _

theorem binopLit16_fine (k dst src : Nat) : Fine V B pc (E.Has [dst, src]) (binopLit16 E k dst src) := by
  refine .req E fun hdst => .req E fun hsrc => ?_
  refine .getR E hsrc fun _ => .then (iu_keeps E 1) fun _ _ => ?_
  refine .then (orDivide_keeps E _) fun _ _ => .setR E hdst ?_
  exact advance_fine (E.has_two hdst hsrc) _

theorem binopLit8_fine (k dst : Nat) :
    Fine V B pc (E.Has [dst, lowByte (E.unit (pc + 1))]) (binopLit8 E k dst) := by
  refine .req E fun hdst => .then (iu_keeps E 1) ?_
  rintro _ rfl
  refine .req E fun hsrc => .getR E hsrc fun _ => ?_
  refine .then (orDivide_keeps E _) fun _ _ => .setR E hdst ?_
  exact advance_fine (E.has_two hdst hsrc) _

theorem skip_fine (len : UInt32) : Fine V B pc (E.Has []) (skip len : Exec C M W Unit) :=
  .then (.frame (fun _ => rfl) fun _ => rfl) fun _ _ => advance_fine E.has_nil _

theorem badOpcode_fine (op : UInt8) : Fine V B pc (E.Has []) (badOpcode E op) :=
  .then .get fun _ _ => throwing_fine E _

variable {poff size val : UInt32} {ref : UInt32} {idx : UInt32}

/-- The search for a key stays inside the code, if the payload does. -/
theorem sparseFind_keeps : ∀ {n k : Nat},
    (B ∨ (poff.toNat + 2 + size.toNat * 4 ≤ E.nins.toNat ∧ k + n ≤ size.toNat)) →
    Keeps V B pc (sparseFind E poff size val n k) fun _ => True
  | 0, _, _ => .pure trivial
  | n + 1, k, h => by
    have hlt := E.nins.toNat_lt
    have hk : B ∨ (poff.toNat + 2 + size.toNat * 4 ≤ E.nins.toNat ∧ k < size.toNat ∧ k.toUInt32.toNat = k) := by
      refine h.imp_right fun ⟨hsize, hle⟩ => ⟨hsize, by omega, ?_⟩
      exact Nat.mod_eq_of_lt (by omega)
    refine .bind (insn_keeps E (hk.imp_right fun ⟨hsize, hk, hnat⟩ => ?_)) fun _ _ =>
      .bind (insn_keeps E (hk.imp_right fun ⟨hsize, hk, hnat⟩ => ?_)) fun _ _ =>
        .ite (fun _ => sparseFind_keeps (h.imp_right fun ⟨hsize, hle⟩ => ⟨hsize, by omega⟩)) fun _ =>
          .bind (insn_keeps E (hk.imp_right fun ⟨hsize, hk, hnat⟩ => ?_)) fun _ _ =>
            .bind (insn_keeps E (hk.imp_right fun ⟨hsize, hk, hnat⟩ => ?_)) fun _ _ => .pure trivial
    all_goals
      simp only [UInt32.toNat_add, UInt32.toNat_mul, hnat]
      simp only [toNat_ofNat]
      omega

/-- So does the look at the entry of a value. -/
theorem packedFind_keeps (h : B ∨ poff.toNat + 4 + size.toNat * 2 ≤ E.nins.toNat) :
    Keeps V B pc (packedFind E poff size val) fun _ => True := by
  have hlt := E.nins.toNat_lt
  refine .bind (insn_keeps E (h.imp_right fun h => ?_)) fun lo _ =>
    .bind (insn_keeps E (h.imp_right fun h => ?_)) fun hi _ => .ite (fun hk => ?_) fun _ => .pure trivial
  · simp only [UInt32.toNat_add, toNat_ofNat]
    omega
  · simp only [UInt32.toNat_add, toNat_ofNat]
    omega
  · generalize val.toInt32.toInt - (join lo hi).toInt32.toInt = k at hk ⊢
    have hsize := size.toNat_lt
    have hnat : k.toNat.toUInt32.toNat = k.toNat := Nat.mod_eq_of_lt (by omega)
    refine .bind (insn_keeps E (h.imp_right fun h => ?_)) fun _ _ =>
      .bind (insn_keeps E (h.imp_right fun h => ?_)) fun _ _ => .pure trivial
    all_goals
      simp only [UInt32.toNat_add, UInt32.toNat_mul, hnat]
      simp only [toNat_ofNat]
      omega

/-- A switch looks outside the code only if the sum that is compared with the end of the code wraps. -/
theorem switchFind_keeps {packed : Bool} {poff val : UInt32} (h : B ∨ poff.toNat + 2 < 2 ^ 32) :
    Keeps V B pc (switchFind E packed poff val) fun _ => True := by
  refine .ite (fun hle => ?_) fun _ => .pure trivial
  have hbound : B ∨ poff.toNat + 2 ≤ E.nins.toNat := h.imp_right fun h => by
    simp only [le_iff_toNat_le, UInt32.toNat_add, toNat_ofNat] at hle
    omega
  refine .bind (insn_keeps E (hbound.imp_right fun h => by omega)) fun ident _ =>
    .bind (insn_keeps E (hbound.imp_right fun h => ?_)) fun size _ => ?_
  · simp only [UInt32.toNat_add, toNat_ofNat]
    have hlt := E.nins.toNat_lt
    omega
  · refine .ite (fun hp => packedFind_keeps E (.inr ?_)) fun _ =>
      .ite (fun hs => sparseFind_keeps E (.inr ⟨?_, ?_⟩)) fun _ => .pure trivial
    · rw [UInt16.toNat_toUInt32]
      exact hp.2.2
    · rw [UInt16.toNat_toUInt32]
      exact hs.2.2
    · rw [UInt16.toNat_toUInt32]
      omega

theorem switch_fine (h : B) (packed : Bool) (src : Nat) : Fine V B pc (E.Has [src]) (switch E packed src) := by
  refine .req E fun hsrc => .then (iu32_keeps E) fun _ _ => ?_
  refine .then .get fun _ _ => .getR E hsrc fun _ => ?_
  refine .then (switchFind_keeps E (.inl h)) fun found _ => ?_
  cases found with
  | none => exact goto_fine (E.has_one hsrc) _
  | some off => exact goto_fine (E.has_one hsrc) _

theorem copyPayload_keeps {o : Obj C} {i n : Nat}
    (h : i + (n + 1) / 2 ≤ E.nins.toNat) (hn : n ≤ o.bytes) : Keeps V B pc (copyPayload E ref o i n) fun _ => True := by
  refine .ite (fun _ => storeData_keeps (.inr ?_)) fun hi => absurd (.inr h) hi
  rw [codeBytes, List.length_map, List.length_range, Nat.zero_add]
  exact hn

theorem fillPayload_keeps {ao : Obj C} {poff : UInt32} (h : B ∨ poff.toNat + 4 ≤ E.nins.toNat) :
    Keeps V B pc (fillPayload E ref ao poff) fun _ => True := by
  have hlt := E.nins.toNat_lt
  refine .bind (insn_keeps E (h.imp_right fun h => ?_)) fun width _ =>
    .bind (insn_keeps E (h.imp_right fun h => ?_)) fun lo _ =>
      .bind (insn_keeps E (h.imp_right fun h => ?_)) fun hi _ =>
        .ite (fun hfits => copyPayload_keeps E ?_ ?_) fun _ => .pure trivial
  iterate 3
    · simp only [UInt32.toNat_add, toNat_ofNat]
      omega
  · have hmin : min (join lo hi).toNat ao.length.toNat * width.toNat ≤ (join lo hi).toNat * width.toNat :=
      Nat.mul_le_mul_right _ (Nat.min_le_left _ _)
    have := hfits.1
    omega
  · rw [Obj.bytes, ← hfits.2]
    exact Nat.mul_le_mul_right _ (Nat.min_le_right _ _)

/-- The check of the place of a payload of `fill-array-data` is passed by a sum that has wrapped. -/
def Env.FillStrays (poff : UInt32) : Prop :=
  2 ^ 32 ≤ poff.toNat + 4 ∧ poff + 4 ≤ E.nins ∧ (E.nins ≤ poff ∨ E.insns poff.toNat = 0x0300)

theorem fillFrom_keeps {ao : Obj C} {poff : UInt32} (h : E.FillStrays poff → B) :
    Keeps V B pc (fillFrom E ref ao poff) fun _ => True := by
  refine .ite (fun hle => ?_) fun _ => .pure trivial
  have hbound : B ∨ poff.toNat + 4 ≤ E.nins.toNat ∨ (poff < E.nins ∧ E.insns poff.toNat ≠ 0x0300) := by
    by_cases hwrap : 2 ^ 32 ≤ poff.toNat + 4
    · by_cases hident : E.nins ≤ poff ∨ E.insns poff.toNat = 0x0300
      · exact .inl (h ⟨hwrap, hle, hident⟩)
      · exact .inr (.inr ⟨UInt32.not_le.1 fun hle => hident (.inl hle), fun heq => hident (.inr heq)⟩)
    · refine .inr (.inl ?_)
      simp only [le_iff_toNat_le, UInt32.toNat_add, toNat_ofNat] at hle
      omega
  refine .bind (insn_keeps E (hbound.imp_right fun h => ?_)) fun ident hident => .ite (fun heq => ?_) fun _ =>
    .pure trivial
  · exact h.elim (fun h => by omega) fun h => UInt32.lt_iff_toNat_lt.1 h.1
  · refine fillPayload_keeps E (hbound.imp_right fun h => h.resolve_right ?_)
    exact fun hne => hne.2 (hident.2 ▸ heq)

theorem fillArrayData_fine (h : B) (src : Nat) : Fine V B pc (E.Has [src]) (fillArrayData E src) := by
  refine .req E fun hsrc => .then (iu32_keeps E) fun _ _ => ?_
  refine .then .get fun _ _ => .getR E hsrc fun ref => ?_
  refine .then (obj_keeps ref) fun ao _ => ?_
  cases ao with
  | none => exact throwing_fine E _
  | some ao =>
    refine .ite (throwing_fine E _) (.then (fillFrom_keeps E fun _ => h) fun _ _ => ?_)
    exact advance_fine (E.has_one hsrc) _

theorem arrayCheck_keeps (o : Option (Obj C)) (idx : UInt32) :
    Keeps V B pc (arrayCheck E o idx) fun a => o = some a ∧ a.kind = .array ∧ idx < a.length := by
  cases o with
  | none => exact throwing_keeps E _
  | some a =>
    refine .ite (fun _ => throwing_keeps E _) fun hkind => .ite (fun _ => throwing_keeps E _) fun hlt => ?_
    exact .pure ⟨rfl, not_not.1 hkind, UInt32.not_le.1 hlt⟩

/-- What `aget` and `aput` have in common: the array and the index are read and checked. -/
def withElement (r : Nat) (m : UInt32 → Obj C → UInt32 → Exec C M W Unit) : Exec C M W Unit := do
  req E r
  let bc ← iu E 1
  req E (lowByte bc)
  req E (highByte bc)
  let ref ← getR E (lowByte bc)
  let o ← obj ref
  let idx ← getR E (highByte bc)
  let a ← arrayCheck E o idx
  m ref a idx
  advance 2

/-- The registers of `aget` and `aput`. -/
def arrayRegs (k r : Nat) (bc : UInt16) : List Nat := [if k = 1 then r + 1 else r, lowByte bc, highByte bc]

theorem withElement_fine {k r : Nat} {m : UInt32 → Obj C → UInt32 → Exec C M W Unit} (h : r < E.nregs.toNat →
    ∀ ref a idx, Keeps V B pc (m ref a idx) fun _ => (if k = 1 then r + 1 else r) < E.nregs.toNat) :
    Fine V B pc (E.Has (arrayRegs k r (E.unit (pc + 1)))) (withElement E r m) := by
  refine .req E fun hr => .then (iu_keeps E 1) ?_
  rintro _ rfl
  refine .req E fun harr => .req E fun hidx => ?_
  refine .getR E harr fun ref => .then (obj_keeps ref) fun o _ => ?_
  refine .getR E hidx fun idx => .then (arrayCheck_keeps E o idx) fun a _ => ?_
  refine .then (h hr ref a idx) fun _ hlast => ?_
  exact advance_fine (E.has_three hlast harr hidx) _

theorem agetElement_keeps {k dst : Nat} {a : Obj C}
    (h : B ∨ (idx.toNat + 1) * accessWidth k ≤ a.bytes) (hdst : dst < E.nregs.toNat) :
    Keeps V B pc (agetElement E k dst a idx) fun _ => (if k = 1 then dst + 1 else dst) < E.nregs.toNat := by
  rw [Nat.succ_mul] at h
  by_cases hk : k = 1
  · subst hk
    refine .bind (req_keeps E _) fun _ hwide => .bind (loadData_keeps h) fun _ _ => ?_
    exact .bind (setR_keeps E (by omega) _) fun _ _ => .weaken (setR_keeps E hwide _) fun _ _ => hwide
  · rw [agetElement, if_neg hk, if_neg hk]
    refine .bind (loadData_keeps h) fun _ _ => ?_
    exact .weaken (setR_keeps E hdst _) fun _ _ => hdst

theorem aget_fine (h : B) (k dst : Nat) :
    Fine V B pc (E.Has (arrayRegs k dst (E.unit (pc + 1)))) (aget E k dst) :=
  withElement_fine E fun hdst _ _ _ => agetElement_keeps E (.inl h) hdst

theorem aputElement_keeps {k src : Nat} {a : Obj C}
    (h : B ∨ (idx.toNat + 1) * accessWidth k ≤ a.bytes) (hsrc : src < E.nregs.toNat) :
    Keeps V B pc (aputElement E k src ref a idx) fun _ => (if k = 1 then src + 1 else src) < E.nregs.toNat := by
  have hlen : ∀ v, (bytesOf v (accessWidth k)).length = accessWidth k := by simp [bytesOf]
  rw [Nat.succ_mul] at h
  by_cases hk : k = 1
  · subst hk
    refine .bind (req_keeps E _) fun _ hwide => .bind (getW_keeps E hwide) fun v _ => ?_
    exact .weaken (storeData_keeps ((hlen v).symm ▸ h)) fun _ _ => hwide
  · rw [aputElement, if_neg hk, if_neg hk]
    refine .bind (getR_keeps E hsrc) fun v _ => ?_
    exact .weaken (storeData_keeps ((hlen _).symm ▸ h)) fun _ _ => hsrc

theorem aput_fine (h : B) (k src : Nat) :
    Fine V B pc (E.Has (arrayRegs k src (E.unit (pc + 1)))) (aput E k src) :=
  withElement_fine E fun hsrc _ _ _ => aputElement_keeps E (.inl h) hsrc

end Handlers

section Switch
variable {C M F W : Type} {V : Vm C M W → Vm C M W → Prop} {B : Prop} {pc : UInt32} (E : Env C M F W)

/-- The registers that moves, returns and constants name. -/
def Env.moveRegs (pc : UInt32) (op : UInt8) (u0 : UInt16) : List Nat :=
  if op = 0x00 then []
  else if op = 0x01 ∨ op = 0x07 then [A4 u0, B4 u0]
  else if op = 0x02 ∨ op = 0x08 then [AA u0, (E.unit (pc + 1)).toNat]
  else if op = 0x03 ∨ op = 0x09 then [(E.unit (pc + 1)).toNat, (E.unit (pc + 2)).toNat]
  else if op = 0x04 then [A4 u0 + 1, B4 u0 + 1]
  else if op = 0x05 then [AA u0 + 1, (E.unit (pc + 1)).toNat + 1]
  else if op = 0x06 then [(E.unit (pc + 1)).toNat + 1, (E.unit (pc + 2)).toNat + 1]
  else if op = 0x0a ∨ op = 0x0c then [AA u0]
  else if op = 0x0b then [AA u0 + 1]
  else if op = 0x0d then [AA u0]
  else if op = 0x0e then []
  else if op = 0x0f ∨ op = 0x11 then [AA u0]
  else if op = 0x10 then [AA u0 + 1]
  else if op = 0x12 then [A4 u0]
  else if op = 0x13 then [AA u0]
  else if op = 0x14 then [AA u0]
  else if op = 0x15 then [AA u0]
  else [AA u0 + 1]

/-- The registers that branches and comparisons name. -/
def Env.branchRegs (pc : UInt32) (op : UInt8) (u0 : UInt16) : List Nat :=
  if op = 0x28 then []
  else if op = 0x29 then []
  else if op = 0x2a then []
  else if op = 0x2b ∨ op = 0x2c then [AA u0]
  else if op = 0x2d ∨ op = 0x2e then [AA u0, lowByte (E.unit (pc + 1)), highByte (E.unit (pc + 1))]
  else if op = 0x2f ∨ op = 0x30 then [AA u0, lowByte (E.unit (pc + 1)) + 1, highByte (E.unit (pc + 1)) + 1]
  else if op = 0x31 then [AA u0, lowByte (E.unit (pc + 1)) + 1, highByte (E.unit (pc + 1)) + 1]
  else if op ≤ 0x37 then [A4 u0, B4 u0]
  else [AA u0]

/-- The registers that unary operations and conversions name. -/
def unaryRegs (op : UInt8) (u0 : UInt16) : List Nat :=
  let dst := A4 u0
  let src := B4 u0
  if op ∈ [0x7d, 0x7e, 0x80, 0x86, 0x8b] then [dst + 1, src + 1]
  else if op ∈ [0x81, 0x83, 0x88, 0x89] then [dst + 1, src]
  else if op ∈ [0x84, 0x85, 0x8a, 0x8c] then [dst, src + 1]
  else [dst, src]

/-- The registers that binary operations name. -/
def Env.binaryRegs (pc : UInt32) (op : UInt8) (u0 : UInt16) : List Nat :=
  let b := lowByte (E.unit (pc + 1))
  let c := highByte (E.unit (pc + 1))
  if op ≤ 0x9a then [AA u0, b, c]
  else if op ≤ 0xa5 then [AA u0 + 1, b + 1, countReg (0xa3 ≤ op) c]
  else if op ≤ 0xaa then [AA u0, b, c]
  else if op ≤ 0xaf then [AA u0 + 1, b + 1, countReg false c]
  else if op ≤ 0xba then [A4 u0, B4 u0]
  else if op ≤ 0xc5 then [A4 u0 + 1, countReg (0xc3 ≤ op) (B4 u0)]
  else if op ≤ 0xca then [A4 u0, B4 u0]
  else if op ≤ 0xcf then [A4 u0 + 1, countReg false (B4 u0)]
  else if op ≤ 0xd7 then [A4 u0, B4 u0]
  else [AA u0, b]

variable [Tolerant V]

theorem execMoves_fine (op : UInt8) (u0 : UInt16) : Fine V B pc (E.Has (E.moveRegs pc op u0)) (execMoves E op u0) := by
  refine .case (fun _ => nop_fine E) fun _ => .case (fun _ => move_fine E _ _ _) fun _ =>
    .case (fun _ => .then (iu_keeps E 1) ?_) fun _ =>
      .case (fun _ => .then (iu_keeps E 1) ?_) fun _ => .case (fun _ => moveWide_fine E _ _ _) fun _ =>
        .case (fun _ => .then (iu_keeps E 1) ?_) fun _ =>
          .case (fun _ => .then (iu_keeps E 1) ?_) fun _ => ?_
  · rintro _ rfl
    exact move_fine E _ _ _
  · rintro _ rfl
    refine .then (iu_keeps E 2) ?_
    rintro _ rfl
    exact move_fine E _ _ _
  · rintro _ rfl
    exact moveWide_fine E _ _ _
  · rintro _ rfl
    refine .then (iu_keeps E 2) ?_
    rintro _ rfl
    exact moveWide_fine E _ _ _
  · refine .case (fun _ => moveResult_fine E _) fun _ => .case (fun _ => moveResultWide_fine E _) fun _ =>
      .case (fun _ => moveException_fine E _) fun _ => .case (fun _ => returnVoid_fine E) fun _ =>
        .case (fun _ => returnValue_fine E _) fun _ => .case (fun _ => returnWide_fine E _) fun _ => ?_
    refine .case (fun _ => const_fine E (P := fun _ => True) (.pure trivial) _ _) fun _ =>
      .case (fun _ => const_fine E (operand_keeps E _) _ _) fun _ =>
        .case (fun _ => const_fine E (iu32_keeps E) _ _) fun _ =>
          .case (fun _ => const_fine E (operand_keeps E _) _ _) fun _ => ?_
    refine .ite (constWide_fine E (operand_keeps E _) _ _) (.ite ?_ (.ite ?_ ?_))
    · refine constWide_fine E (P := fun _ => True) ?_ _ _
      exact .bind (iu32_keeps E) fun _ _ => .pure trivial
    · exact constWide_fine E (iu64_keeps E) _ _
    · exact constWide_fine E (operand_keeps E _) _ _

theorem execBranches_fine {op : UInt8} (h : op = 0x2b ∨ op = 0x2c → B) (u0 : UInt16) :
    Fine V B pc (E.Has (E.branchRegs pc op u0)) (execBranches E op u0) := by
  refine .case (fun _ => goto8_fine E _) fun _ =>
    .case (fun _ => .then (iu_keeps E 1) fun _ _ => gotoInsn_fine E _) fun _ =>
      .case (fun _ => .then (iu32_keeps E) fun _ _ => gotoInsn_fine E _) fun _ =>
        .case (fun hop => switch_fine E (h hop) _ _) fun _ => ?_
  refine .case (fun _ => cmp32_fine E _ _) fun _ => .case (fun _ => cmp64_fine E _ _) fun _ =>
    .case (fun _ => cmp64_fine E _ _) fun _ => .case (fun _ => ifInsn_fine E _ _ _) fun _ => ?_
  exact ifzInsn_fine E _ _

theorem execUnary_fine (op : UInt8) (u0 : UInt16) : Fine V B pc (E.Has (unaryRegs op u0)) (execUnary E op u0) := by
  refine .opcode (unary32_fine E _ _ _) fun _ =>
    .opcode (unary32_fine E _ _ _) fun _ =>
    .opcode (unary64_fine E _ _ _) fun _ =>
    .opcode (unary64_fine E _ _ _) fun _ =>
    .opcode (unary32_fine E _ _ _) fun _ =>
    .opcode (unary64_fine E _ _ _) fun _ =>
    .opcode (widen_fine E _ _ _) fun _ =>
    .opcode (unary32_fine E _ _ _) fun _ =>
    .opcode (widen_fine E _ _ _) fun _ =>
    .opcode (narrow_fine E _ _ _) fun _ => ?_
  refine .opcode (narrow_fine E _ _ _) fun _ =>
    .opcode (unary64_fine E _ _ _) fun _ =>
    .opcode (unary32_fine E _ _ _) fun _ =>
    .opcode (widen_fine E _ _ _) fun _ =>
    .opcode (widen_fine E _ _ _) fun _ =>
    .opcode (narrow_fine E _ _ _) fun _ =>
    .opcode (unary64_fine E _ _ _) fun _ =>
    .opcode (narrow_fine E _ _ _) fun _ =>
    .opcode (unary32_fine E _ _ _) fun _ =>
    .opcode (unary32_fine E _ _ _) fun _ => ?_
  rw [unaryRegs, if_neg (by simp [*]), if_neg (by simp [*]), if_neg (by simp [*])]
  exact unary32_fine E _ _ _

theorem execBinary_fine (op : UInt8) (u0 : UInt16) :
    Fine V B pc (E.Has (E.binaryRegs pc op u0)) (execBinary E op u0) :=
  .case (fun _ => binop32_fine E _ _) fun _ => .case (fun _ => binop64_fine E _ _ _) fun _ =>
    .case (fun _ => binop32_fine E _ _) fun _ => .case (fun _ => binop64_fine E _ _ _) fun _ =>
      .case (fun _ => binop32Addr_fine E _ _ _) fun _ => .case (fun _ => binop64Addr_fine E _ _ _ _) fun _ =>
        .case (fun _ => binop32Addr_fine E _ _ _) fun _ => .case (fun _ => binop64Addr_fine E _ _ _ _) fun _ =>
          .case (fun _ => binopLit16_fine E _ _ _) fun _ => binopLit8_fine E _ _

end Switch

end Lunaria.Dvm.Interp
