import Mathlib
import Lunaria.Media.Jobs

/-! Every step of the caller and of the thread keeps the invariant. -/

namespace Lunaria.Media.Codec
open List Option

/-! ### The calls -/

section Calls
variable {c c' : Codec}

theorem Inputs.count_decoding (h : Inputs c) :
    (finRange 6).countP (fun i => (c.inp i).decoding) = if (Pc.decode c.pc).isSome then 1 else 0 := by
  cases hd : Pc.decode c.pc with
  | none =>
    refine countP_eq_zero.2 fun i _ hi => ?_
    have := (h.decoding i).1 hi
    simp [hd] at this
  | some d =>
    have hcount : (finRange 6).countP (fun i => (c.inp i).decoding) = (finRange 6).count d.1 := by
      refine countP_congr fun i _ => ?_
      rw [h.decoding i, hd, any_some, decide_eq_true_iff, beq_iff_eq]
      exact eq_comm
    rw [hcount, count_eq_one_of_mem (nodup_finRange 6) (mem_finRange _)]
    rfl

theorem Epochs.le (h : Epochs c) {e : Nat} (hp : Pc.epoch c.pc = some e) : e ≤ c.epoch := by
  rcases h.pc e hp with ⟨he, -⟩ | ⟨he, -⟩ <;> omega

variable {i : Buf}

theorem decode_epoch {p : Pc} {eos : Bool} {e : Nat} (h : Pc.decode p = some (i, eos, e)) : Pc.epoch p = some e := by
  cases p with
  | taken =>
    cases h
    rfl
  | decoding =>
    cases h
    rfl
  | _ => cases h

theorem Inv.flush (h : Inv c) (hepoch : c.epoch + 1 < 2 ^ 32) : Inv c.flush := by
  obtain ⟨refs, hfold, heq⟩ := flush_eq h.threaded
  rw [Nat.mod_eq_of_lt hepoch] at heq
  have hrefs : ∀ s, refs s = c.refs s - sinkCount c.jobs s := by
    intro s
    have hs := foldl_sinkRef_refs (s := s) c.jobs c.cleared
    rw [hfold] at hs
    exact hs
  have hpast : ∀ i eos e, Pc.decode c.pc = some (i, eos, e) → e ≠ c.epoch + 1 := by
    intro i eos e hd
    have := h.epochs.le (decode_epoch hd)
    omega
  rw [heq]
  unfold cleared at heq ⊢
  refine ⟨h.threaded, ?_, ?_, ?_, ?_, ?_, h.committed⟩
  · refine ⟨fun i => ?_, fun i hi => ?_, (by rintro _ ⟨⟩), nodup_nil, ?_⟩
    · rw [← h.inputs.decoding i]
      dsimp only
      split_ifs <;> rfl
    · dsimp only at hi ⊢
      split_ifs at hi ⊢ with hd
      · exact h.inputs.reads i hd
      · exact absurd hi hd
    · dsimp only
      rw [h.inputs.count_decoding, decodes]
      split_ifs <;> rfl
  · exact ⟨(by simp), fun e he => .inr ⟨Nat.lt_succ_of_le (h.epochs.le he), rfl⟩, (by simp)⟩
  · refine ⟨fun i hi => ?_, (by simp), (by rintro _ ⟨⟩), nodup_nil, fun i => ?_, fun i hi => ?_, fun i hi => ?_,
      fun i s e hpc => ?_⟩
    · dsimp only at hi ⊢
      split_ifs at hi ⊢
      exact h.outputs.ready i hi
    · rw [← h.outputs.rendering i]
      dsimp only
      split_ifs <;> rfl
    · dsimp only at hi ⊢
      split_ifs at hi ⊢ with hr
      · exact h.outputs.busy i hr
      · exact absurd hi hr
    · dsimp only at hi
      split_ifs at hi with hr
      · have hbusy := h.outputs.busy i hr
        rcases hi with hi | hi
        · simp [h.outputs.ready i hi] at hbusy
        · simp [hr] at hi
      · simp at hi
    · have hren : (c.out i).rendering = true := by
        refine (h.outputs.rendering i).2 ?_
        rcases hpc with hpc | hpc <;> simp [show c.pc = _ from hpc, Pc.render]
      dsimp only
      rw [if_pos hren]
      exact h.outputs.converts i s e hpc
  · refine ⟨fun _ => ?_, (by simp), (by simp), fun e hpc he => ?_, fun xs i n e ys hj => ?_,
      fun i hd => absurd rfl (hpast i true _ hd)⟩
    · have hleases :
          ∀ f : Buf → InBuf, f = (fun i => if (c.inp i).decoding then c.inp i else { c.inp i with queued := false }) →
          (finRange 6).countP (fun i => (f i).queued && !(f i).submitted) = 0 := by
        rintro f rfl
        refine countP_eq_zero.2 fun i _ => ?_
        dsimp only
        split_ifs with hd
        · simp [h.inputs.reads i hd]
        · simp
      have hpend : pendingCurrent c.flush = 0 := by
        rw [heq, pendingCurrent, decodes]
        cases hd : Pc.decode c.pc with
        | none => simp
        | some d => simp [hpast d.1 d.2.1 d.2.2 hd]
      rw [heq] at hpend
      rw [hpend, leases, hleases _ rfl, freeCount]
      omega
    · have hlt := h.epochs.le (e := e) (by rw [show c.pc = .pulling e from hpc]; rfl)
      dsimp only at he
      omega
    · simp at hj
  · intro s
    dsimp only
    rw [hrefs, h.counted s, Int.add_comm, Int.add_sub_cancel, show ((sinkCount [] s : Nat) : Int) = 0 from rfl,
      Int.zero_add]

theorem Inputs.idle (h : Inputs c) (hi : (c.inp i).queued = false ∨ (c.inp i).submitted = false) :
    (c.inp i).decoding = false ∧ i ∉ decodes c.jobs := by
  constructor
  · by_contra hd
    obtain ⟨hq, hs⟩ := h.reads i (by simpa using hd)
    rcases hi with hi | hi
    · simp [hq] at hi
    · simp [hs] at hi
  · intro hmem
    obtain ⟨hq, hs, -⟩ := h.waits i hmem
    rcases hi with hi | hi
    · simp [hq] at hi
    · simp [hs] at hi

theorem Inputs.setIn (h : Inputs c) {b : InBuf} (hd : (c.inp i).decoding = false) (hw : i ∉ decodes c.jobs)
    (hb : b.decoding = false) : Inputs (c.setIn i b) where
  decoding j := by
    rw [setIn_inp]
    split_ifs with hj
    · subst hj
      rw [hb, ← hd]
      exact h.decoding j
    · exact h.decoding j
  reads j hj := by
    rw [setIn_inp] at hj ⊢
    split_ifs at hj ⊢
    · simp [hb] at hj
    · exact h.reads j hj
  waits j hj := by
    have hne : j ≠ i := by
      rintro rfl
      exact hw hj
    rw [setIn_inp, if_neg hne]
    exact h.waits j hj
  nodup := h.nodup
  pending := h.pending

/-- The caller changes a buffer that the thread has nothing to do with. -/
theorem Inv.setIn (h : Inv c) {b : InBuf} (hd : (c.inp i).decoding = false) (hw : i ∉ decodes c.jobs)
    (hb : b.decoding = false) (hroom : c.draining = false → (c.setIn i b).leases + c.pendingCurrent ≤ c.freeCount) :
    Inv (c.setIn i b) where
  threaded := h.threaded
  inputs := h.inputs.setIn hd hw hb
  epochs := h.epochs.frame (fun _ => id) rfl rfl (fun _ => id) id rfl
  outputs := h.outputs.frame rfl rfl rfl rfl rfl fun _ _ _ => id
  room := ⟨hroom, h.room.drain, h.room.drained, h.room.pulling, h.room.eosLast, h.room.eosRuns⟩
  counted := h.counted.frame rfl (fun _ => rfl) rfl
  committed := h.committed

theorem Inv.dequeueInput (h : Inv c) : Inv c.dequeueInput := by
  rw [Codec.dequeueInput, if_pos h.threaded]
  split
  · exact h
  split
  · rename_i hguard
    rw [leaseInput]
    split
    · exact h
    · rename_i i hfind
      have hq : (c.inp i).queued = false := by simpa using find?_some hfind
      obtain ⟨hd, hw⟩ := h.inputs.idle (.inl hq)
      refine h.setIn hd hw hd fun _ => ?_
      have hcount := leases_setIn (c := c) (i := i) { c.inp i with p := true, queued := true, submitted := false }
      rw [if_neg (by simp [lease, hq]), if_pos (by simp [lease])] at hcount
      have hle := pendingCurrent_le h.inputs
      omega
  · exact h

theorem Inv.threadEnsure (h : Inv c) {created b : Bool} (he : c.threadEnsure created = (b, c')) :
    Inv c' ∧ ∃ on, c' = { c with thOn := on } := by
  rw [Codec.threadEnsure] at he
  split at he <;> obtain ⟨-, rfl⟩ := Prod.mk.inj he
  · exact ⟨h, c.thOn, rfl⟩
  · exact ⟨h.frame rfl rfl rfl rfl rfl rfl rfl rfl rfl rfl rfl rfl rfl rfl rfl, created, rfl⟩

theorem Inv.pushDecode (h : Inv c) {size : Nat} {eos : Bool} (hq : (c.inp i).queued = true)
    (hs : (c.inp i).submitted = true) (hd : (c.inp i).decoding = false) (hw : i ∉ decodes c.jobs)
    (hdr : c.draining = false) (hroom : c.leases + c.pendingCurrent + 1 ≤ c.freeCount) (heos : eos = true → c.gotEos = true)
    (hlast : ∀ xs i n e ys, c.jobs ≠ xs ++ .decode i n true e :: ys)
    (hruns : ∀ i, Pc.decode c.pc ≠ some (i, true, c.epoch)) :
    Inv { c with jobs := c.jobs ++ [.decode i size eos c.epoch], pendingDecodes := c.pendingDecodes + 1 } where
  threaded := h.threaded
  inputs := by
    refine ⟨h.inputs.decoding, h.inputs.reads, fun j hj => ?_, ?_, ?_⟩
    · dsimp only at hj
      rw [decodes_append] at hj
      rcases mem_append.1 hj with hj | hj
      · exact h.inputs.waits j hj
      · rw [mem_singleton.1 hj]
        exact ⟨hq, hs, hd⟩
    · dsimp only
      rw [decodes_append]
      refine nodup_append.2 ⟨h.inputs.nodup, nodup_singleton _, fun a ha b hb => ?_⟩
      rw [mem_singleton.1 hb]
      rintro rfl
      exact hw ha
    · dsimp only
      rw [h.inputs.pending, decodes_append, length_append]
      simp only [decodes, length_singleton]
      omega
  epochs := by
    refine ⟨fun j hj => ?_, h.epochs.pc, h.epochs.fed⟩
    rcases mem_append.1 hj with hj | hj
    · exact h.epochs.jobs j hj
    · rw [mem_singleton.1 hj]
      rfl
  outputs := h.outputs.frame rfl rfl (by simp [renders]) rfl rfl fun _ _ _ => id
  room := by
    have hpend :
        pendingCurrent { c with jobs := c.jobs ++ [.decode i size eos c.epoch], pendingDecodes := c.pendingDecodes + 1 } =
        c.pendingCurrent + 1 := by
      simp only [pendingCurrent, decodes_append, length_append, decodes, length_singleton]
      omega
    refine ⟨fun _ => ?_, fun hno => absurd hno (by simp [hdr]), h.room.drained, h.room.pulling, fun xs j n e ys hj => ?_,
      fun j hj => absurd hj (hruns j)⟩
    · rw [hpend]
      change c.leases + _ ≤ c.freeCount
      omega
    · rcases eq_nil_or_concat ys with rfl | ⟨zs, k, rfl⟩
      · obtain ⟨-, hk⟩ := append_inj' hj rfl
        obtain ⟨-, -, htrue, -⟩ := Job.decode.inj (singleton_inj.1 hk)
        exact ⟨heos htrue, rfl⟩
      · rw [concat_eq_append, ← cons_append, ← append_assoc] at hj
        obtain ⟨hold, -⟩ := append_inj' hj rfl
        exact absurd hold (hlast xs j n e zs)
  counted := h.counted.frame rfl (fun s => by simp [sinkCount, Job.sink]) rfl
  committed := h.committed

theorem Inv.setEos (h : Inv c) {g : Bool} (hg : c.gotEos = true → g = true) : Inv { c with gotEos := g } where
  threaded := h.threaded
  inputs := h.inputs.frame rfl rfl rfl rfl
  epochs := h.epochs.frame (fun _ => id) rfl rfl (fun _ => id) id rfl
  outputs := h.outputs.frame rfl rfl rfl rfl rfl fun _ _ _ => id
  room := ⟨h.room.room, fun hd => ⟨hg (h.room.drain hd).1, (h.room.drain hd).2⟩, h.room.drained, h.room.pulling,
    fun xs i n e ys hj => ⟨hg (h.room.eosLast xs i n e ys hj).1, (h.room.eosLast xs i n e ys hj).2⟩,
    fun i hd => ⟨hg (h.room.eosRuns i hd).1, (h.room.eosRuns i hd).2⟩⟩
  counted := h.counted.frame rfl (fun _ => rfl) rfl
  committed := h.committed

/-- A buffer that the caller leased is queued. -/
theorem Inv.queueInput (h : Inv c) {idx : Buf} {offset size : Nat} {eos created : Bool} {got : Option Picture}
    (hq : (c.inp idx).queued = true) (hs : (c.inp idx).submitted = false) (hg : c.gotEos = false) :
    Inv (c.queueInput idx offset size eos created got) := by
  unfold Codec.queueInput
  split
  · exact h
  rw [if_pos h.threaded]
  dsimp only
  obtain ⟨hd, hw⟩ := h.inputs.idle (.inr hs)
  have hdr : c.draining = false := by
    by_contra hdr
    have := (h.room.drain (by simpa using hdr)).1
    simp [hg] at this
  have hlease := leases_setIn (c := c) (i := idx) { c.inp idx with submitted := true }
  rw [if_pos (by simp [lease, hq, hs]), if_neg (by simp [lease])] at hlease
  have hroom := h.room.room hdr
  have hsub : Inv { c.setIn idx { c.inp idx with submitted := true } with gotEos := c.gotEos || eos } := by
    have hset : Inv (c.setIn idx { c.inp idx with submitted := true }) := h.setIn hd hw hd fun _ => by omega
    refine hset.setEos fun hgot => ?_
    rw [show c.gotEos = true from hgot]
    rfl
  -- giving the buffer back makes it no lease either
  have hback : ∀ d : Codec, Inv d → (d.inp idx).decoding = false → idx ∉ decodes d.jobs → (d.inp idx).submitted = true →
      Inv (d.setIn idx { d.inp idx with queued := false }) := by
    intro d hinv hdd hdw hds
    refine hinv.setIn hdd hdw hdd fun hno => ?_
    have hcount := leases_setIn (c := d) (i := idx) { d.inp idx with queued := false }
    rw [if_neg (by simp [lease, hds]), if_neg (by simp [lease])] at hcount
    have := hinv.room.room hno
    omega
  have hinp : ∀ b, (c.setIn idx b).inp idx = b := fun b => by rw [setIn_inp, if_pos rfl]
  split
  · split
    · rename_i d hensure
      obtain ⟨hinv, on, rfl⟩ := hsub.threadEnsure hensure
      exact hback _ hinv (by simp [hinp, hd]) hw (by simp [hinp])
    · rename_i d hensure
      obtain ⟨hinv, on, rfl⟩ := hsub.threadEnsure hensure
      rw [jobPush]
      split
      · rename_i hpush
        exact hback _ hinv (by simp [hinp, hd]) hw (by simp [hinp])
      · rename_i d' hpush
        obtain ⟨-, ⟨⟩⟩ := ite_none_left_eq_some.1 hpush
        have hnotLast : ∀ xs i n e ys, c.jobs ≠ xs ++ .decode i n true e :: ys := by
          intro xs i n e ys hj
          have := (h.room.eosLast xs i n e ys hj).1
          simp [hg] at this
        have hnotRuns : ∀ i, Pc.decode c.pc ≠ some (i, true, c.epoch) := by
          intro i hi
          have := (h.room.eosRuns i hi).1
          simp [hg] at this
        refine hinv.pushDecode (by simp [hinp, hq]) (by simp [hinp]) (by simp [hinp, hd]) hw hdr ?_ ?_ hnotLast hnotRuns
        · change (c.setIn idx _).leases + c.pendingCurrent + 1 ≤ c.freeCount
          omega
        · rintro rfl
          simp
  · exact hback _ hsub (by simp [hinp, hd]) hw (by simp [hinp])

theorem Outputs.hand (h : Outputs c) {b : OutBuf} (hi : (c.out i).busy = false) (hb : b.busy = true)
    (hready : b.ready = false) (hbr : b.rendering = false) (ho : ∀ p, b.picture = some p → p.origin = c.epoch) :
    Outputs { c.setOut i b with held := Function.update c.held i true } :=
  h.put (h.not_waits hi) (h.not_rendering hi) (fun _ hj => Function.update_of_ne hj _ _) (fun _ => hb)
    (by simp [hready]) hbr fun _ => ho

theorem Inv.dequeueOutput (h : Inv c) : Inv c.dequeueOutput := by
  rw [Codec.dequeueOutput]
  split
  · exact h
  split
  · exact h.frame rfl rfl rfl rfl rfl rfl rfl rfl rfl rfl rfl rfl rfl rfl rfl
  split
  · rename_i i hfind
    have hi := find?_some hfind
    have hready : (c.out i).ready = true := by simp_all
    have hbusy : (c.out i).busy = false := by simp_all
    have hcount := freeCount_setOut (c := c) (i := i) { c.out i with busy := true, ready := false }
    rw [if_neg (by simp [free, hready]), if_neg (by simp [free])] at hcount
    refine ⟨h.threaded, h.inputs.frame rfl rfl rfl rfl, h.epochs.frame (fun _ => id) rfl rfl (fun _ => id) id rfl, ?_, ?_,
      h.counted.frame rfl (fun _ => rfl) rfl, h.committed⟩
    · have hhand := h.outputs.hand (b := { c.out i with busy := true, ready := false }) hbusy rfl rfl
        (h.outputs.not_rendering hbusy) (h.outputs.origin i (.inl hready))
      exact hhand.frame rfl rfl rfl rfl rfl fun _ _ _ => id
    · refine h.room.frame rfl rfl rfl ?_ Int.le_rfl (fun e he => ⟨he, rfl, ?_⟩) (fun xs _ _ _ _ hj => ⟨xs, hj⟩)
        fun _ hd => ⟨hd, rfl⟩
      · change c.leases + c.pendingCurrent + _ ≤ c.leases + c.pendingCurrent + (c.setOut i _).freeCount
        omega
      · change c.freeCount ≤ (c.setOut i _).freeCount
        omega
  · rename_i hnone
    split
    · exact h
    rename_i hwait
    split
    · rename_i heos
      split
      · rename_i i hfind
        have hbusy : (c.out i).busy = false := by simpa using find?_some hfind
        have hdrained : c.drained = true := by
          by_contra hd
          exact hwait ⟨h.threaded, heos.1, .inr (by simpa using hd)⟩
        have hready : (c.out i).ready = false := by
          by_contra hr
          have := find?_eq_none.1 hnone i (mem_finRange i)
          simp [hbusy] at this
          exact hr this
        refine ⟨h.threaded, h.inputs.frame rfl rfl rfl rfl, h.epochs.frame (fun _ => id) rfl rfl (fun _ => id) id rfl,
          ?_, ?_, h.counted.frame rfl (fun _ => rfl) rfl, h.committed⟩
        · have hhand := h.outputs.hand (b := { c.out i with busy := true, picture := none, eos := true }) hbusy rfl hready
            (h.outputs.not_rendering hbusy) (by simp)
          exact hhand.frame rfl rfl rfl rfl rfl fun _ _ _ => id
        · -- the stream is drained: nothing is pulled, and nothing has to fit
          refine ⟨fun hno => ?_, h.room.drain, h.room.drained, fun e hpc he => ?_, h.room.eosLast, h.room.eosRuns⟩
          · have hdr : c.draining = false := hno
            simp [h.room.drained hdrained] at hdr
          · have := (h.room.pulling e hpc he).2.1
            simp [hdrained] at this
      · exact h
    · exact h

theorem Inv.freeSlot (h : Inv c) (hw : i ∉ renders c.jobs) (hr : (c.out i).rendering = false)
    (hh : c.held i = false) : Inv (c.freeSlot i) := by
  have hcount := freeCount_setOut (c := c) (i := i) { c.out i with busy := false, ready := false }
  rw [if_pos (by simp [free] : free { c.out i with busy := false, ready := false } = true)] at hcount
  have hle : c.freeCount ≤ (c.freeSlot i).freeCount := by
    rw [Codec.freeSlot]
    split_ifs at hcount <;> omega
  refine ⟨h.threaded, h.inputs.frame rfl rfl rfl rfl, h.epochs.frame (fun _ => id) rfl rfl (fun _ => id) id rfl,
    h.outputs.freeSlot hw hr hh, ?_, h.counted.frame rfl (fun _ => rfl) rfl, h.committed⟩
  refine h.room.frame rfl rfl rfl ?_ Int.le_rfl (fun e he => ⟨he, rfl, hle⟩) (fun xs _ _ _ _ hj => ⟨xs, hj⟩) fun _ hd =>
    ⟨hd, rfl⟩
  change c.leases + c.pendingCurrent + _ ≤ c.leases + c.pendingCurrent + (c.freeSlot i).freeCount
  omega

/-- The conversion of a slot is queued. -/
theorem Inv.pushRender (h : Inv c) {s : Sink} (hb : (c.out i).busy = true) (hw : i ∉ renders c.jobs)
    (hr : (c.out i).rendering = false) (hh : c.held i = false) :
    Inv ({ c with jobs := c.jobs ++ [Job.render i s c.epoch] }.sinkRef (some s) 1) where
  threaded := h.threaded
  inputs := h.inputs.frame rfl (by simp [sinkRef, decodes]) rfl rfl
  epochs := by
    refine ⟨fun j hj => ?_, h.epochs.pc, h.epochs.fed⟩
    rcases mem_append.1 hj with hj | hj
    · exact h.epochs.jobs j hj
    · rw [mem_singleton.1 hj]
      rfl
  outputs := by
    have happ : renders (c.jobs ++ [.render i s c.epoch]) = renders c.jobs ++ [i] := by simp [renders]
    refine ⟨h.outputs.ready, fun j hj => ?_, fun j hj => ?_, ?_, h.outputs.rendering, h.outputs.busy, h.outputs.origin,
      h.outputs.converts⟩
    · obtain ⟨h1, h2, h3⟩ := h.outputs.held j hj
      refine ⟨h1, h2, fun hmem => ?_⟩
      rcases mem_append.1 (happ ▸ hmem : j ∈ renders c.jobs ++ [i]) with hmem | hmem
      · exact h3 hmem
      · rw [mem_singleton.1 hmem] at hj
        exact absurd hj (by simp [sinkRef, hh])
    · rcases mem_append.1 (happ ▸ hj : j ∈ renders c.jobs ++ [i]) with hj | hj
      · exact h.outputs.waits j hj
      · rw [mem_singleton.1 hj]
        exact ⟨hb, hr⟩
    · change (renders (c.jobs ++ [.render i s c.epoch])).Nodup
      rw [happ]
      refine nodup_append.2 ⟨h.outputs.nodup, nodup_singleton _, fun a ha b hb => ?_⟩
      rw [mem_singleton.1 hb]
      rintro rfl
      exact hw ha
  room := by
    have hdec : decodes (c.jobs ++ [.render i s c.epoch]) = decodes c.jobs := by simp [decodes]
    have hpend :
        pendingCurrent ({ c with jobs := c.jobs ++ [Job.render i s c.epoch] }.sinkRef (some s) 1) = c.pendingCurrent := by
      dsimp only [pendingCurrent, sinkRef]
      rw [hdec]
    refine ⟨fun hd => ?_, fun hd => ?_, h.room.drained, h.room.pulling, fun xs j n e ys hj => ?_, fun j hj => ?_⟩
    · rw [hpend]
      exact h.room.room hd
    · rw [hpend]
      exact h.room.drain hd
    · rcases eq_nil_or_concat ys with rfl | ⟨zs, k, rfl⟩
      · obtain ⟨-, hk⟩ := append_inj' hj rfl
        cases singleton_inj.1 hk
      · rw [concat_eq_append, ← cons_append, ← append_assoc] at hj
        obtain ⟨hold, hk⟩ := append_inj' hj rfl
        obtain ⟨hg, hzs⟩ := h.room.eosLast xs j n e zs hold
        rw [concat_eq_append, decodes_append, hzs, ← singleton_inj.1 hk]
        exact ⟨hg, rfl⟩
    · obtain ⟨hg, hnil⟩ := h.room.eosRuns j hj
      exact ⟨hg, hdec.trans hnil⟩
  counted := by
    intro t
    rw [sinkRef_refs]
    change c.refs t + _ = (sinkCount (c.jobs ++ [.render i s c.epoch]) t : Int) + _
    rw [h.counted t, sinkCount, sinkCount, countP_append, countP_singleton]
    simp only [Job.sink]
    split_ifs <;> simp [sinkRef, *]
  committed := h.committed

theorem Inv.setHeld (h : Inv c) (i : Buf) : Inv { c with held := Function.update c.held i false } := by
  refine ⟨h.threaded, h.inputs.frame rfl rfl rfl rfl, h.epochs.frame (fun _ => id) rfl rfl (fun _ => id) id rfl, ?_,
    ⟨h.room.room, h.room.drain, h.room.drained, h.room.pulling, h.room.eosLast, h.room.eosRuns⟩,
    h.counted.frame rfl (fun _ => rfl) rfl, h.committed⟩
  refine ⟨h.outputs.ready, fun j hj => h.outputs.held j ?_, h.outputs.waits, h.outputs.nodup, h.outputs.rendering,
    h.outputs.busy, h.outputs.origin, h.outputs.converts⟩
  dsimp only at hj
  rw [Function.update_apply] at hj
  split_ifs at hj
  exact hj

theorem Inv.releaseOutput (h : Inv c) {idx : Buf} {sink : Option Sink} {images created : Bool} (hheld : c.held idx = true) :
    Inv (c.releaseOutput idx sink images created) := by
  obtain ⟨hb, hr, hw⟩ := h.outputs.held idx hheld
  have hinv := h.setHeld idx
  have hh : ∀ f : Buf → Bool, Function.update f idx false idx = false := fun f => Function.update_self _ _ _
  unfold Codec.releaseOutput
  dsimp only
  rw [if_pos h.threaded, if_neg (by simp [hb])]
  cases sink with
  | none => exact hinv.freeSlot hw hr (hh _)
  | some s =>
    dsimp only
    split
    · rename_i d hensure
      obtain ⟨hd, on, rfl⟩ := hinv.threadEnsure hensure
      exact hd.freeSlot hw hr (hh _)
    · rename_i d hensure
      obtain ⟨hd, on, rfl⟩ := hinv.threadEnsure hensure
      rw [jobPush]
      split
      · exact hd.freeSlot hw hr (hh _)
      · exact hd.pushRender hb hw hr (hh _)

end Calls

/-! ### The thread -/

section Thread
variable {c c' : Codec}

theorem Inv.begin (h : Inv c) (hidle : c.pc = .idle) {p : Pc} {f : Bool} (hd : Pc.decode p = none) (hr : Pc.render p = none)
    (he : Epochs { c with flushDecoder := f, pc := p })
    (hpull : ∀ e, p = .pulling e → e = c.epoch → c.draining = true ∧ c.drained = false ∧ 0 < c.freeCount) :
    Inv { c with flushDecoder := f, pc := p } where
  threaded := h.threaded
  inputs := h.inputs.frame rfl rfl (by rw [hidle]; exact hd) rfl
  epochs := he
  outputs := h.outputs.frame rfl rfl rfl rfl (by rw [hidle]; exact hr) (by
    rintro i s e (hpc | hpc) <;> rw [show p = _ from hpc] at hr <;> cases hr)
  room := by
    have hpend : pendingCurrent { c with flushDecoder := f, pc := p } = c.pendingCurrent := by
      rw [pendingCurrent_none hd, pendingCurrent_none (by rw [hidle]; rfl)]
    refine ⟨fun hno => ?_, fun hdr => ?_, h.room.drained, hpull, h.room.eosLast, fun i hi => ?_⟩
    · rw [hpend]
      exact h.room.room hno
    · rw [hpend]
      exact h.room.drain hdr
    · rw [hd] at hi
      cases hi
  counted := h.counted.frame rfl (fun _ => rfl) (by rw [hidle]; exact hr)
  committed := h.committed

variable {i : Buf} {e : Nat} {rest : List Job} {s : Sink} {got : Option Picture} {keepable : Bool} {eos current : Bool}

section
variable (h : Inv c)
include h

/-- The thread takes a decode job. -/
theorem Inv.takeDecode (hidle : c.pc = .idle) (hf : c.flushDecoder = false) {size : Nat} {eos : Bool}
    (hj : c.jobs = .decode i size eos e :: rest) :
    Inv { c.setIn i { c.inp i with decoding := true } with jobs := rest, pc := .taken i size eos e } := by
  have he : e = c.epoch := h.epochs.jobs (.decode i size eos e) (by simp [hj])
  obtain ⟨hq, hs, hd⟩ := h.inputs.waits i (by simp [hj, decodes])
  obtain ⟨hmem, hnodup⟩ := nodup_cons.1 (show (i :: decodes rest).Nodup by simpa [hj, decodes] using h.inputs.nodup)
  have hpend : pendingCurrent { c.setIn i { c.inp i with decoding := true } with jobs := rest, pc := .taken i size eos e } =
      c.pendingCurrent := by
    refine Eq.trans (pendingCurrent_current rfl (by exact he)) ?_
    rw [pendingCurrent_none (by rw [hidle]; rfl), hj]
    rfl
  refine ⟨h.threaded, ⟨fun j => ?_, fun j hjd => ?_, fun j hjm => ?_, hnodup, ?_⟩, ⟨fun j hjm => ?_, fun e' he' => ?_,
    fun hfl _ => ?_⟩,
    h.outputs.frame rfl rfl (by simp [hj, renders]) rfl (by simp [hidle, Pc.render])
      (by rintro _ _ _ (h | h) <;> cases h), ?_, ?_,
    h.committed⟩
  · change ((c.setIn i _).inp j).decoding = true ↔ _
    rw [setIn_inp]
    split_ifs with hji
    · simp [Pc.decode, hji]
    · rw [h.inputs.decoding j, hidle]
      simp [Pc.decode, Ne.symm hji]
  · change ((c.setIn i _).inp j).decoding = true at hjd
    change ((c.setIn i _).inp j).queued = true ∧ ((c.setIn i _).inp j).submitted = true
    rw [setIn_inp] at hjd ⊢
    split_ifs at hjd ⊢
    · exact ⟨hq, hs⟩
    · exact h.inputs.reads j hjd
  · have hne : j ≠ i := by
      rintro rfl
      exact hmem hjm
    change ((c.setIn i _).inp j).queued = true ∧ ((c.setIn i _).inp j).submitted = true ∧
      ((c.setIn i _).inp j).decoding = false
    rw [setIn_inp, if_neg hne]
    exact h.inputs.waits j (by simp [hj, decodes, show j ∈ decodes rest from hjm])
  · have hp := h.inputs.pending
    rw [hj, hidle] at hp
    simp only [decodes, Pc.decode, isSome_none, length_cons] at hp
    change c.pendingDecodes = (decodes rest).length + 1
    simpa using hp
  · exact h.epochs.jobs j (by rw [hj]; exact mem_cons_of_mem _ hjm)
  · cases he'
    exact .inl ⟨he, hf⟩
  · exact h.epochs.fed hf (by simp [hidle])
  · have hleases := leases_setIn (c := c) (i := i) { c.inp i with decoding := true }
    rw [if_neg (by simp [lease, hs]), if_neg (by simp [lease, hs])] at hleases
    refine ⟨fun hno => ?_, fun hdr => ?_, h.room.drained, (by simp), fun xs j n e' ys hrest => ?_, fun j hdj => ?_⟩
    · rw [hpend]
      change (c.setIn i _).leases + _ ≤ c.freeCount
      have := h.room.room hno
      omega
    · rw [hpend]
      exact h.room.drain hdr
    · exact h.room.eosLast (.decode i size eos e :: xs) j n e' ys (by rw [hj, show rest = _ from hrest]; rfl)
    · obtain ⟨-, heos, -⟩ : i = j ∧ eos = true ∧ e = c.epoch := by simpa [Pc.decode, Codec.setIn] using hdj
      subst heos
      exact h.room.eosLast [] i size e rest hj
  · exact h.counted.frame rfl (fun s => by simp [hj, sinkCount, Job.sink]) (by simp [hidle, Pc.render])

/-- The thread takes a render job and converts. -/
theorem Inv.takeRender (hidle : c.pc = .idle) (hf : c.flushDecoder = false)
    (hj : c.jobs = .render i s e :: rest) (hpic : (c.out i).picture.isSome = true) :
    Inv { c.setOut i { c.out i with rendering := true } with jobs := rest, pc := .converting i s e } := by
  have he : e = c.epoch := h.epochs.jobs (.render i s e) (by simp [hj])
  obtain ⟨hb, hr⟩ := h.outputs.waits i (by simp [hj, renders])
  obtain ⟨hmem, hnodup⟩ := nodup_cons.1 (show (i :: renders rest).Nodup by simpa [hj, renders] using h.outputs.nodup)
  have hdec : decodes rest = decodes c.jobs := by simp [hj, decodes]
  refine ⟨h.threaded, h.inputs.frame rfl hdec (by rw [hidle]; rfl) rfl,
    ⟨fun j hjm => ?_, fun e' he' => ?_, fun _ _ => h.epochs.fed hf (by simp [hidle])⟩,
    ⟨fun j hjr => ?_, fun j hjh => ?_, fun j hjm => ?_, hnodup, fun j => ?_, fun j hjr => ?_, fun j hjo => ?_,
      fun j t e' hpc => ?_⟩,
    ?_, fun t => ?_, h.committed⟩
  · exact h.epochs.jobs j (by rw [hj]; exact mem_cons_of_mem _ hjm)
  · cases he'
    exact .inl ⟨he, hf⟩
  · change ((c.setOut i _).out j).ready = true at hjr
    change ((c.setOut i _).out j).busy = false
    rw [setOut_out] at hjr ⊢
    split_ifs at hjr ⊢ with hji
    · exact h.outputs.ready i hjr
    · exact h.outputs.ready j hjr
  · obtain ⟨h1, h2, h3⟩ := h.outputs.held j hjh
    rw [hj, renders] at h3
    have hne : j ≠ i := fun hji => h3 (by simp [hji])
    change ((c.setOut i _).out j).busy = true ∧ ((c.setOut i _).out j).rendering = false ∧ j ∉ renders rest
    rw [setOut_out, if_neg hne]
    exact ⟨h1, h2, fun hm => h3 (mem_cons_of_mem _ hm)⟩
  · have hne : j ≠ i := by
      rintro rfl
      exact hmem hjm
    change ((c.setOut i _).out j).busy = true ∧ ((c.setOut i _).out j).rendering = false
    rw [setOut_out, if_neg hne]
    exact h.outputs.waits j (by rw [hj]; exact mem_cons_of_mem _ hjm)
  · change ((c.setOut i _).out j).rendering = true ↔ _
    rw [setOut_out]
    split_ifs with hji
    · simp [Pc.render, hji]
    · rw [h.outputs.rendering j, hidle]
      simp [Pc.render, Ne.symm hji]
  · change ((c.setOut i _).out j).rendering = true at hjr
    change ((c.setOut i _).out j).busy = true
    rw [setOut_out] at hjr ⊢
    split_ifs at hjr ⊢
    · exact hb
    · exact h.outputs.busy j hjr
  · change ((c.setOut i _).out j).ready = true ∨ ((c.setOut i _).out j).busy = true ∧
      ((c.setOut i _).out j).rendering = false at hjo
    change ∀ p, ((c.setOut i _).out j).picture = some p → p.origin = c.epoch
    rw [setOut_out] at hjo ⊢
    split_ifs at hjo ⊢
    · exact h.outputs.origin i (.inr ⟨hb, hr⟩)
    · exact h.outputs.origin j hjo
  · obtain ⟨rfl, rfl, rfl⟩ : i = j ∧ s = t ∧ e = e' := by simpa using hpc
    obtain ⟨p, hp⟩ := isSome_iff_exists.1 hpic
    refine ⟨p, ?_, (h.outputs.origin i (.inr ⟨hb, hr⟩) p hp).trans he.symm⟩
    change ((c.setOut i _).out i).picture = some p
    rw [setOut_out, if_pos rfl]
    exact hp
  · have hfree := freeCount_setOut (c := c) (i := i) { c.out i with rendering := true }
    rw [if_neg (by simp [free, hb]), if_neg (by simp [free, hb])] at hfree
    have hpend :
        pendingCurrent { c.setOut i { c.out i with rendering := true } with jobs := rest, pc := .converting i s e } =
        c.pendingCurrent := by
      rw [pendingCurrent_none rfl, pendingCurrent_none (by rw [hidle]; rfl), ← hdec]
    refine h.room.frame rfl rfl rfl ?_ (Int.le_of_eq hpend) (by simp) (fun xs _ _ _ _ hrest => ?_) (by rintro _ ⟨⟩)
    · rw [hpend]
      change c.leases + _ + _ ≤ c.leases + _ + (c.setOut i _).freeCount
      omega
    · exact ⟨.render i s e :: xs, by rw [hj, show rest = _ from hrest]; rfl⟩
  · have hc := h.counted t
    rw [hj, hidle, sinkCount_render] at hc
    change c.refs t = (sinkCount rest t : Int) + _
    rw [hc]
    simp [Pc.render]

theorem Inv.skipRender (hidle : c.pc = .idle)
    (hj : c.jobs = .render i s e :: rest) : Inv (({ c with jobs := rest }.freeSlot i).sinkRef (some s) (-1)) := by
  obtain ⟨hb, hr⟩ := h.outputs.waits i (by simp [hj, renders])
  obtain ⟨hmem, hnodup⟩ := nodup_cons.1 (show (i :: renders rest).Nodup by simpa [hj, renders] using h.outputs.nodup)
  have hdec : decodes rest = decodes c.jobs := by simp [hj, decodes]
  have hheld : ∀ j, c.held j = true → j ∉ i :: renders rest := by
    intro j hjh
    have hw := (h.outputs.held j hjh).2.2
    rwa [hj, renders] at hw
  have hpop : Inv ({ c with jobs := rest }.sinkRef (some s) (-1)) := by
    refine ⟨h.threaded, h.inputs.frame rfl hdec rfl rfl,
      h.epochs.frame (fun j hjm => by rw [hj]; exact mem_cons_of_mem _ hjm) rfl rfl (fun _ => id) id rfl,
      ⟨h.outputs.ready, fun j hjh => ?_, fun j hjm => ?_, hnodup, h.outputs.rendering, h.outputs.busy, h.outputs.origin,
        h.outputs.converts⟩, ?_, fun t => ?_, h.committed⟩
    · obtain ⟨h1, h2, -⟩ := h.outputs.held j hjh
      exact ⟨h1, h2, fun hm => hheld j hjh (mem_cons_of_mem _ hm)⟩
    · exact h.outputs.waits j (by rw [hj]; exact mem_cons_of_mem _ hjm)
    · have hpend : pendingCurrent ({ c with jobs := rest }.sinkRef (some s) (-1)) = c.pendingCurrent := by
        dsimp only [pendingCurrent, sinkRef]
        rw [hdec]
      refine h.room.frame rfl rfl rfl ?_ (Int.le_of_eq hpend) (fun e he => ⟨he, rfl, Int.le_rfl⟩)
        (fun xs _ _ _ _ hrest => ?_) fun _ hd => ⟨hd, hdec⟩
      · rw [hpend]
        exact Int.le_rfl
      · exact ⟨.render i s e :: xs, by rw [hj, show rest = _ from hrest]; rfl⟩
    · have hc := h.counted t
      rw [hj, hidle, sinkCount_render] at hc
      rw [sinkRef_refs]
      change c.refs t + _ = (sinkCount rest t : Int) + if (Pc.render c.pc).any (fun r => r.2 = t) then 1 else 0
      rw [hc, hidle]
      simp only [Pc.render, any_none, Bool.false_eq_true, ↓reduceIte, Option.some.injEq]
      split_ifs <;> omega
  refine hpop.freeSlot (i := i) hmem hr ?_
  by_contra hh
  exact hheld i (by simpa [sinkRef] using hh) (mem_cons_self ..)

theorem Inv.threadTake (ht : c.threadTake = some c') : Inv c' := by
  rw [Codec.threadTake] at ht
  split at ht
  · cases ht
  rename_i hbusy
  have hidle : c.pc = .idle := by
    by_contra hpc
    exact hbusy (.inl hpc)
  split at ht
  · cases ht
    refine h.begin hidle rfl rfl ⟨h.epochs.jobs, (by rintro _ ⟨⟩), fun _ hne => absurd rfl hne⟩ (by simp)
  rename_i hno
  have hf : c.flushDecoder = false := by simpa using hno
  split at ht
  · split at ht
    · rename_i hdrain
      cases ht
      have hfree := freeOutbuf_isSome.1 hdrain.2.2
      have hbegin := h.begin (f := c.flushDecoder) (p := .pulling c.epoch) hidle rfl rfl
        ⟨h.epochs.jobs, fun e he => .inl ⟨(some.inj he).symm, hf⟩, fun hfl _ => h.epochs.fed hfl (by simp [hidle])⟩
        fun e _ _ => ⟨hdrain.1, by simpa using hdrain.2.1, hfree⟩
      exact hbegin
    · cases ht
  · rename_i i size eos e rest hj
    cases ht
    exact h.takeDecode hidle hf hj
  · rename_i i s e rest hj
    dsimp only at ht
    split at ht
    · rename_i hcur
      cases ht
      exact h.takeRender hidle hf hj hcur.2
    · cases ht
      exact h.skipRender hidle hj

/-- The thread ends work that has no job, and changes nothing else. -/
theorem Inv.settle (hd : Pc.decode c.pc = none) (hr : Pc.render c.pc = none) (hfl : c.pc ≠ .flushing) :
    Inv { c with pc := .idle } where
  threaded := h.threaded
  inputs := h.inputs.frame rfl rfl (by rw [hd]; rfl) rfl
  epochs := h.epochs.frame (fun _ => id) rfl rfl nofun (fun _ => hfl) rfl
  outputs := h.outputs.frame rfl rfl rfl rfl (by rw [hr]; rfl) (by rintro _ _ _ (h | h) <;> cases h)
  room := by
    have hpend : pendingCurrent { c with pc := .idle } = c.pendingCurrent := by
      rw [pendingCurrent_none rfl, pendingCurrent_none hd]
    refine h.room.frame rfl rfl rfl ?_ (Int.le_of_eq hpend) nofun (fun xs _ _ _ _ hj => ⟨xs, hj⟩) nofun
    rw [hpend]
    exact Int.le_rfl
  counted := h.counted.frame rfl (fun _ => rfl) (by rw [hr]; rfl)
  committed := h.committed

theorem Inv.keepPicture {p : Picture} (hp : p.origin = c.epoch) (hf : 0 < c.freeCount)
    (hpc : c.pc = .idle) (hroom : c.draining = false → c.leases + c.pendingCurrent + 1 ≤ c.freeCount) :
    Inv (c.keepPicture p) := by
  obtain ⟨i, heq, hout, hcount⟩ := keepPicture_kept h.outputs hf hp
  rw [heq] at hout hcount ⊢
  refine ⟨h.threaded, h.inputs.frame rfl rfl rfl rfl, h.epochs.frame (fun _ => id) rfl rfl (fun _ => id) id rfl, hout, ?_,
    h.counted.frame rfl (fun _ => rfl) rfl, h.committed⟩
  refine ⟨fun hno => ?_, h.room.drain, h.room.drained, fun e he => ?_, h.room.eosLast, h.room.eosRuns⟩
  · rw [hcount]
    change c.leases + c.pendingCurrent ≤ _
    have := hroom hno
    omega
  · rw [show c.pc = _ from he] at hpc
    cases hpc

theorem Inv.finishPull {epoch : Nat} (hpc : c.pc = .pulling epoch)
    (hgot : ∀ p, got = some p → p.origin ∈ c.fed) : Inv (c.finishPull epoch got keepable) := by
  have hidle := h.settle (by rw [hpc]; rfl) (by rw [hpc]; rfl) (by simp [hpc])
  rw [Codec.finishPull]
  dsimp only
  split
  · exact hidle
  rename_i hcur
  have hcur : epoch = c.epoch := by simpa using hcur
  obtain ⟨hdr, hdd, hfree⟩ := h.room.pulling epoch hpc hcur
  split
  · rename_i hkeep
    obtain ⟨p, hp⟩ := isSome_iff_exists.1 hkeep.1
    subst hp
    have hflush : c.flushDecoder = false := by
      rcases h.epochs.pc epoch (by rw [hpc]; rfl) with ⟨-, hf⟩ | ⟨hlt, -⟩
      · exact hf
      · omega
    rw [keepFrame, if_pos ⟨hcur, hkeep.2⟩]
    refine hidle.keepPicture (h.epochs.fed hflush (by simp [hpc]) _ (hgot p rfl)) hfree rfl fun hno => ?_
    rw [show c.draining = false from hno] at hdr
    cases hdr
  · refine ⟨hidle.threaded, hidle.inputs.frame rfl rfl rfl rfl,
      hidle.epochs.frame (fun _ => id) rfl rfl (fun _ => id) id rfl, hidle.outputs.frame rfl rfl rfl rfl rfl
        fun _ _ _ => id,
      ⟨hidle.room.room, hidle.room.drain, fun _ => hdr, (by simp), hidle.room.eosLast, hidle.room.eosRuns⟩,
      hidle.counted.frame rfl (fun _ => rfl) rfl, hidle.committed⟩

/-- Before a picture is stored, a decode job leaves behind its buffer and the slot that was kept for it. -/
theorem Inv.unload (hpc : c.pc = .decoding i eos e current)
    {pending : Int} (hpending : pending = c.pendingDecodes - 1) :
    Inv { c.setIn i { c.inp i with decoding := false, queued := false } with
      fed := c.fedWith e current, pc := .idle, pendingDecodes := pending } ∧
    (e = c.epoch → c.draining = false → (c.setIn i { c.inp i with decoding := false, queued := false }).leases +
      (decodes c.jobs).length + 1 ≤ c.freeCount) := by
  have hdec : Pc.decode c.pc = some (i, eos, e) := by rw [hpc]; rfl
  have hdi : (c.inp i).decoding = true := (h.inputs.decoding i).2 (by simp [hdec])
  obtain ⟨hq, hs⟩ := h.inputs.reads i hdi
  have hw : i ∉ decodes c.jobs := by
    intro hmem
    have := (h.inputs.waits i hmem).2.2
    simp [hdi] at this
  have hleases := leases_setIn (c := c) (i := i) { c.inp i with decoding := false, queued := false }
  rw [if_neg (by simp [lease, hs]), if_neg (by simp [lease])] at hleases
  have hpend : pendingCurrent { c.setIn i { c.inp i with decoding := false, queued := false } with
      fed := c.fedWith e current, pc := .idle, pendingDecodes := pending } = (decodes c.jobs).length :=
    pendingCurrent_none rfl
  have hle : (decodes c.jobs).length ≤ c.pendingCurrent := by
    rw [pendingCurrent]
    split_ifs <;> omega
  refine ⟨⟨h.threaded, ⟨fun j => ?_, fun j hj => ?_, fun j hj => ?_, h.inputs.nodup, ?_⟩,
    ⟨h.epochs.jobs, (by rintro _ ⟨⟩), fun hfl _ o ho => ?_⟩,
    h.outputs.frame rfl rfl rfl rfl (by rw [hpc]; rfl) (by rintro _ _ _ (h | h) <;> cases h), ?_,
    h.counted.frame rfl (fun _ => rfl) (by rw [hpc]; rfl), h.committed⟩, fun he hno => ?_⟩
  · change ((c.setIn i _).inp j).decoding = true ↔ _
    rw [setIn_inp]
    split_ifs with hji
    · simp [Pc.decode]
    · rw [h.inputs.decoding j, hdec]
      simp [Pc.decode, Ne.symm hji]
  · change ((c.setIn i _).inp j).decoding = true at hj
    change ((c.setIn i _).inp j).queued = true ∧ ((c.setIn i _).inp j).submitted = true
    rw [setIn_inp] at hj ⊢
    split_ifs at hj ⊢
    exact h.inputs.reads j hj
  · have hne : j ≠ i := by
      rintro rfl
      exact hw hj
    change ((c.setIn i _).inp j).queued = true ∧ ((c.setIn i _).inp j).submitted = true ∧
      ((c.setIn i _).inp j).decoding = false
    rw [setIn_inp, if_neg hne]
    exact h.inputs.waits j hj
  · have hp := h.inputs.pending
    rw [hdec, isSome_some, if_pos rfl] at hp
    change pending = (decodes c.jobs).length + 0
    omega
  · have hold := h.epochs.fed hfl (by simp [hpc])
    have he : e = c.epoch := by
      rcases h.epochs.pc e (decode_epoch hdec) with ⟨he, -⟩ | ⟨-, hf⟩
      · exact he
      · rw [show c.flushDecoder = false from hfl] at hf
        cases hf
    dsimp only [fedWith] at ho
    split_ifs at ho
    · rcases mem_cons.1 ho with rfl | ho
      · exact he
      · exact hold o ho
    · exact hold o ho
  · refine h.room.frame rfl rfl rfl ?_ (hpend ▸ hle) (by simp) (fun xs _ _ _ _ hj => ⟨xs, hj⟩) (by rintro _ ⟨⟩)
    rw [hpend]
    change (c.setIn i _).leases + _ + _ ≤ _ + _ + c.freeCount
    omega
  · have hroom := h.room.room hno
    rw [pendingCurrent_current hdec he] at hroom
    omega

theorem Inv.drain (hg : c.gotEos = true) (hp : c.pendingCurrent = 0) (hpc : c.pc = .idle) :
    Inv { c with draining := true } where
  threaded := h.threaded
  inputs := h.inputs.frame rfl rfl rfl rfl
  epochs := h.epochs.frame (fun _ => id) rfl rfl (fun _ => id) id rfl
  outputs := h.outputs.frame rfl rfl rfl rfl rfl fun _ _ _ => id
  room := by
    refine ⟨nofun, fun _ => ⟨hg, hp⟩, fun _ => rfl, fun e he => ?_, h.room.eosLast, h.room.eosRuns⟩
    rw [show c.pc = _ from he] at hpc
    cases hpc
  counted := h.counted.frame rfl (fun _ => rfl) rfl
  committed := h.committed

end

theorem keepFrame_eq (epoch : Nat) (got : Option Picture) (keepable : Bool) :
    ∃ out known stored, c.keepFrame epoch got keepable = { c with out := out, known := known, stored := stored } := by
  unfold keepFrame
  split
  · split
    · rw [keepPicture]
      split
      · exact ⟨c.out, c.known, c.stored, rfl⟩
      · exact ⟨_, _, _, rfl⟩
    · exact ⟨c.out, c.known, c.stored, rfl⟩
  · exact ⟨c.out, c.known, c.stored, rfl⟩

/-- A decode job is over. -/
theorem Inv.finishDecode (h : Inv c)
    (hpc : c.pc = .decoding i eos e current) (hgot : ∀ p, got = some p → p.origin ∈ c.fedWith e current) :
    Inv (c.finishDecode i eos e current got keepable) := by
  have hdec : Pc.decode c.pc = some (i, eos, e) := by rw [hpc]; rfl
  have hpos : 0 < c.pendingDecodes := by
    rw [h.inputs.pending, hdec, isSome_some, if_pos rfl]
    omega
  have hpending : (if 0 < c.pendingDecodes then c.pendingDecodes - 1 else c.pendingDecodes) = c.pendingDecodes - 1 :=
    if_pos hpos
  obtain ⟨hun, hroom⟩ := h.unload hpc hpending
  rw [Codec.finishDecode]
  dsimp only
  generalize hd : ({ c.setIn i { c.inp i with decoding := false, queued := false } with
    fed := c.fedWith e current, pc := .idle
    pendingDecodes := if 0 < c.pendingDecodes then c.pendingDecodes - 1 else c.pendingDecodes } : Codec) = d at hun ⊢
  have hep : d.epoch = c.epoch := by rw [← hd]; rfl
  have hkept : Inv (d.keepFrame e got keepable) := by
    unfold keepFrame
    split
    · rename_i p
      split
      · rename_i hkeep
        subst hd
        have he : e = c.epoch := hkeep.1
        have hcur := pendingCurrent_current hdec he
        have hdr : c.draining = false := by
          by_contra hdr
          have := (h.room.drain (by simpa using hdr)).2
          omega
        have hflush : c.flushDecoder = false := by
          rcases h.epochs.pc e (decode_epoch hdec) with ⟨-, hf⟩ | ⟨hlt, -⟩
          · exact hf
          · omega
        have hslot := hroom he hdr
        have hl : 0 ≤ (c.setIn i { c.inp i with decoding := false, queued := false }).leases := by
          rw [leases]
          omega
        refine hun.keepPicture (hun.epochs.fed hflush (by simp) _ (hgot p rfl)) ?_ rfl fun _ => ?_
        · change 0 < c.freeCount
          omega
        · rw [pendingCurrent_none rfl]
          exact hslot
      · exact hun
    · exact hun
  by_cases hend : eos = true ∧ e = c.epoch
  · obtain ⟨rfl, he⟩ := hend
    obtain ⟨hg, hnil⟩ := h.room.eosRuns i (he ▸ hdec)
    obtain ⟨out, known, stored, heq⟩ := keepFrame_eq (c := d) e got keepable
    rw [heq] at hkept ⊢
    have hdrain := hkept.drain (by subst hd; exact hg) (by
      rw [pendingCurrent_none (by subst hd; rfl)]
      subst hd
      exact congrArg (fun l => (List.length l : Int)) hnil) (by subst hd; rfl)
    have htrue : (d.draining || (true && decide (e = d.epoch))) = true := by simp [hep, he]
    dsimp only
    rw [htrue]
    exact hdrain
  · have hsame : ((d.keepFrame e got keepable).draining || (eos && decide (e = (d.keepFrame e got keepable).epoch))) =
        (d.keepFrame e got keepable).draining := by
      obtain ⟨out, known, stored, heq⟩ := keepFrame_eq (c := d) e got keepable
      have hkeep : (d.keepFrame e got keepable).epoch = c.epoch := by
        rw [heq]
        exact hep
      rw [hkeep]
      by_cases heos : eos = true
      · simp [show e ≠ c.epoch from fun he => hend ⟨heos, he⟩]
      · simp [heos]
    rw [hsame]
    exact hkept

theorem Inv.advance (h : Inv c) {p : Pc} (hd : Pc.decode p = Pc.decode c.pc) (hr : Pc.render p = Pc.render c.pc)
    (he : ∀ e, Pc.epoch p = some e → Pc.epoch c.pc = some e) (hfl : c.pc ≠ .flushing) (hpull : ∀ e, p ≠ .pulling e)
    (hc : ∀ i s e, p = .converting i s e ∨ p = .committing i s e → c.pc = .converting i s e ∨ c.pc = .committing i s e) :
    Inv { c with pc := p } where
  threaded := h.threaded
  inputs := h.inputs.frame rfl rfl hd rfl
  epochs := h.epochs.frame (fun _ => id) rfl rfl he (fun _ => hfl) rfl
  outputs := h.outputs.frame rfl rfl rfl rfl hr hc
  room := by
    have hpend : pendingCurrent { c with pc := p } = c.pendingCurrent := by
      dsimp only [pendingCurrent]
      rw [hd]
    refine h.room.frame rfl rfl rfl ?_ (Int.le_of_eq hpend) (fun e hpc => absurd hpc (hpull e))
      (fun xs _ _ _ _ hj => ⟨xs, hj⟩) fun i hi => ⟨hd ▸ hi, rfl⟩
    rw [hpend]
    exact Int.le_rfl
  counted := h.counted.frame rfl (fun _ => rfl) hr
  committed := h.committed

/-- A conversion is over. -/
theorem Inv.finishRender (h : Inv c) (hpc : c.pc = .converted i s) : Inv (c.finishRender i s) := by
  have hren : (c.out i).rendering = true := (h.outputs.rendering i).2 (by simp [hpc, Pc.render])
  have hw : i ∉ renders c.jobs := by
    intro hmem
    have := (h.outputs.waits i hmem).2
    simp [hren] at this
  have hh : c.held i = false := by
    by_contra hh
    have := (h.outputs.held i (by simpa using hh)).2.1
    simp [hren] at this
  have hone : ∀ j, j ≠ i → (c.out j).rendering = false := by
    intro j hji
    by_contra hj
    have := (h.outputs.rendering j).1 (by simpa using hj)
    simp [hpc, Pc.render, Ne.symm hji] at this
  have hcount := freeCount_setOut (c := c) (i := i) { c.out i with rendering := false, busy := false, ready := false }
  rw [if_neg (by simp [free, h.outputs.busy i hren]), if_pos (by simp [free])] at hcount
  refine ⟨h.threaded, h.inputs.frame rfl rfl (by rw [hpc]; rfl) rfl,
    h.epochs.frame (fun _ => id) rfl rfl (by rintro _ ⟨⟩) (fun _ => by simp [hpc]) rfl,
    ⟨fun j hj => ?_, fun j hj => ?_, fun j hj => ?_, h.outputs.nodup, fun j => ?_, fun j hj => ?_, fun j hj => ?_,
      by rintro _ _ _ (h | h) <;> cases h⟩, ?_, fun t => ?_, h.committed⟩
  · change ((c.setOut i _).out j).ready = true at hj
    change ((c.setOut i _).out j).busy = false
    rw [setOut_out] at hj ⊢
    split_ifs at hj ⊢
    exact h.outputs.ready j hj
  · have hne : j ≠ i := by
      rintro rfl
      exact absurd (show c.held j = true from hj) (by simp [hh])
    change ((c.setOut i _).out j).busy = true ∧ ((c.setOut i _).out j).rendering = false ∧ j ∉ renders c.jobs
    rw [setOut_out, if_neg hne]
    exact h.outputs.held j hj
  · have hne : j ≠ i := by
      rintro rfl
      exact hw hj
    change ((c.setOut i _).out j).busy = true ∧ ((c.setOut i _).out j).rendering = false
    rw [setOut_out, if_neg hne]
    exact h.outputs.waits j hj
  · change ((c.setOut i _).out j).rendering = true ↔ (Pc.render .idle).any _ = true
    rw [setOut_out]
    split_ifs with hji
    · simp [Pc.render]
    · simp [Pc.render, hone j hji]
  · change ((c.setOut i _).out j).rendering = true at hj
    rw [setOut_out] at hj
    split_ifs at hj with hji
    simp [hone j hji] at hj
  · change ((c.setOut i _).out j).ready = true ∨ ((c.setOut i _).out j).busy = true ∧
      ((c.setOut i _).out j).rendering = false at hj
    change ∀ p, ((c.setOut i _).out j).picture = some p → p.origin = c.epoch
    rw [setOut_out] at hj ⊢
    split_ifs at hj ⊢
    · simp at hj
    · exact h.outputs.origin j hj
  · have hpend : pendingCurrent (c.finishRender i s) = c.pendingCurrent :=
      Eq.trans (pendingCurrent_none rfl) (pendingCurrent_none (by rw [hpc]; rfl)).symm
    refine h.room.frame rfl rfl rfl ?_ (Int.le_of_eq hpend) (by rintro _ ⟨⟩) (fun xs _ _ _ _ hj => ⟨xs, hj⟩)
      (by rintro _ ⟨⟩)
    rw [hpend]
    change c.leases + _ + _ ≤ c.leases + _ + (c.setOut i _).freeCount
    omega
  · have hc := h.counted t
    rw [Codec.finishRender, sinkRef_refs]
    change c.refs t + _ = (sinkCount c.jobs t : Int) + if (Pc.render .idle).any _ then 1 else 0
    rw [hc, hpc]
    simp only [Pc.render, any_none, any_some, Bool.false_eq_true, ↓reduceIte, Option.some.injEq, decide_eq_true_eq]
    split_ifs <;> omega

theorem Inv.threadStep (h : Inv c) {o : Outside} (ht : c.threadStep o = some c') : Inv c' := by
  unfold Codec.threadStep at ht
  split at ht
  · rename_i hpc
    cases ht
    refine ⟨h.threaded, h.inputs.frame rfl rfl (by rw [hpc]; rfl) rfl, ⟨h.epochs.jobs, nofun, fun _ _ => nofun⟩,
      h.outputs.frame rfl rfl rfl rfl (by rw [hpc]; rfl) (by rintro _ _ _ (h | h) <;> cases h), ?_,
      h.counted.frame rfl (fun _ => rfl) (by rw [hpc]; rfl), h.committed⟩
    have hpend : pendingCurrent { c with fed := [], pc := .idle } = c.pendingCurrent := by
      rw [pendingCurrent_none rfl, pendingCurrent_none (by rw [hpc]; rfl)]
    refine h.room.frame rfl rfl rfl ?_ (Int.le_of_eq hpend) nofun (fun xs _ _ _ _ hj => ⟨xs, hj⟩) nofun
    rw [hpend]
    exact Int.le_rfl
  · rename_i epoch got keepable hpc
    split at ht
    · rename_i hgot
      cases ht
      refine h.finishPull hpc fun p hp => ?_
      subst hp
      simpa using hgot
    · cases ht
  · rename_i hpc
    cases ht
    exact h.advance (by rw [hpc]; rfl) (by rw [hpc]; rfl) (by rw [hpc]; exact fun _ => id) (by simp [hpc]) nofun
      (by rintro _ _ _ (h | h) <;> cases h)
  · rename_i idx eos epoch current got keepable hpc
    split at ht
    · rename_i hgot
      cases ht
      refine h.finishDecode hpc fun p hp => ?_
      subst hp
      simpa using hgot.2
    · cases ht
  · rename_i idx sink epoch hpc
    cases ht
    split
    · exact h.advance (by rw [hpc]; rfl) (by rw [hpc]; rfl) (by rw [hpc]; exact fun _ => id) (by simp [hpc]) nofun
        (by rintro _ _ _ (h | h) <;> cases h; exact .inl hpc)
    · exact h.advance (by rw [hpc]; rfl)
        (by rw [hpc]; rfl) nofun (by simp [hpc]) nofun (by rintro _ _ _ (h | h) <;> cases h)
  · rename_i idx sink epoch hpc
    cases ht
    exact h.advance (by rw [hpc]; rfl) (by rw [hpc]; rfl) nofun (by simp [hpc]) nofun (by rintro _ _ _ (h | h) <;> cases h)
  · rename_i idx sink epoch hpc
    cases ht
    have hadv : Inv { c with pc := .converted idx sink } :=
      h.advance (by rw [hpc]; rfl) (by rw [hpc]; rfl) nofun (by simp [hpc]) nofun (by rintro _ _ _ (h | h) <;> cases h)
    refine ⟨hadv.threaded, hadv.inputs.frame rfl rfl rfl rfl, hadv.epochs.frame (fun _ => id) rfl rfl (fun _ => id) id rfl,
      hadv.outputs.frame rfl rfl rfl rfl rfl fun _ _ _ => id,
      ⟨hadv.room.room, hadv.room.drain, hadv.room.drained, hadv.room.pulling, hadv.room.eosLast, hadv.room.eosRuns⟩,
      hadv.counted.frame rfl (fun _ => rfl) rfl, fun m hm => ?_⟩
    rcases mem_append.1 hm with hm | hm
    · exact h.committed m hm
    · rw [mem_singleton.1 hm]
      obtain ⟨q, hq, ho⟩ := h.outputs.converts idx sink epoch (.inr hpc)
      refine ⟨h.epochs.le (by rw [hpc]; rfl), fun p hp => ?_⟩
      cases hq.symm.trans hp
      exact ho
  · rename_i hpc
    cases ht
    exact h.advance (by rw [hpc]; rfl) (by rw [hpc]; rfl) nofun (by simp [hpc]) nofun (by rintro _ _ _ (h | h) <;> cases h)
  · rename_i hpc
    cases ht
    exact h.advance (by rw [hpc]; rfl) (by rw [hpc]; rfl) (by rw [hpc]; exact fun _ => id) (by simp [hpc]) nofun
      (by rintro _ _ _ (h | h) <;> cases h; exact .inr hpc)
  · rename_i hpc
    cases ht
    exact h.finishRender hpc
  · cases ht

end Thread

end Lunaria.Media.Codec
