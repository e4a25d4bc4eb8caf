import Lunaria.Media.JobSteps

/-! What a caller that keeps to the rules can rely on: no picture is lost for want of a slot, no buffer has two owners, and
    a flush leaves nothing behind but a conversion that was past its check. -/

namespace Lunaria.Media.Codec

section
variable {c c' : Codec} {a : Act} {i : Buf}

theorem Inv.new : Inv (Codec.new true) where
  threaded := rfl
  inputs := ⟨fun i => by simp [Codec.new, Pc.decode], nofun, nofun, List.nodup_nil, rfl⟩
  epochs := ⟨nofun, nofun, nofun⟩
  outputs := ⟨nofun, nofun, nofun, List.nodup_nil, fun i => by simp [Codec.new, Pc.render], nofun,
    fun i _ p hp => (by cases hp), by rintro i s e (h | h) <;> cases h⟩
  room := ⟨fun _ => by decide, nofun, nofun, nofun, fun xs i n e ys h => by simp [Codec.new] at h, nofun⟩
  counted s := by simp [Codec.new, sinkCount, Pc.render]
  committed := nofun

theorem Inv.step (h : Inv c) (hl : Legal c a) (hs : c.step a = some c') : Inv c' := by
  cases a with
  | start =>
    cases hs
    exact h.frame rfl rfl rfl rfl rfl rfl rfl rfl rfl rfl rfl rfl rfl rfl rfl
  | csd got =>
    rw [Codec.step.eq_def] at hs
    dsimp only at hs
    rw [if_pos h.threaded] at hs
    cases hs
  | stop =>
    cases hs
    have hstop : Inv { c with started := false } := h.frame rfl rfl rfl rfl rfl rfl rfl rfl rfl rfl rfl rfl rfl rfl rfl
    exact hstop.flush hl
  | flush =>
    cases hs
    exact h.flush hl
  | dequeueInput =>
    cases hs
    exact h.dequeueInput
  | queueInput idx offset size eos created got =>
    cases hs
    exact h.queueInput hl.1 hl.2.1 hl.2.2
  | dequeueOutput =>
    cases hs
    exact h.dequeueOutput
  | releaseOutput idx sink images created =>
    cases hs
    exact h.releaseOutput hl
  | take =>
    rw [Codec.step, if_pos h.threaded] at hs
    exact h.threadTake hs
  | outside o =>
    rw [Codec.step, if_pos h.threaded] at hs
    exact h.threadStep hs

theorem Inv.run (h : Run Legal true c) : Inv c := by
  induction h with
  | new => exact .new
  | step a _ hl hs ih => exact ih.step hl hs

theorem Inv.keeps_free (h : Inv c) (hk : c.keeps a = true) : c.freeOutbuf.isSome = true := by
  refine freeOutbuf_isSome.2 ?_
  have hl : 0 ≤ c.leases := by
    rw [leases]
    omega
  unfold keeps at hk
  split at hk
  · simp [h.threaded] at hk
  · simp [h.threaded] at hk
  · split at hk
    · rename_i epoch hpc
      have hcur : epoch = c.epoch := by simp_all
      exact (h.room.pulling epoch hpc hcur).2.2
    · rename_i i eos epoch current hpc
      have hcur : epoch = c.epoch := by simp_all
      have hpend := pendingCurrent_current (c := c) (by rw [hpc]; rfl : Pc.decode c.pc = some (i, eos, epoch)) hcur
      have hdr : c.draining = false := by
        by_contra hdr
        have := (h.room.drain (by simpa using hdr)).2
        omega
      have := h.room.room hdr
      omega
    · cases hk
  · cases hk

/-- A slot in use is not written. -/
theorem keepPicture_out (hb : (c.out i).busy = true) (p : Picture) : (c.keepPicture p).out i = c.out i := by
  rw [keepPicture]
  split
  · rfl
  · rename_i j hj
    have hne : i ≠ j := by
      rintro rfl
      simp [(freeOutbuf_free hj).1] at hb
    exact (setOut_out _ i).trans (if_neg hne)

theorem dequeueOutput_out (hb : (c.out i).busy = true) : c.dequeueOutput.out i = c.out i := by
  have hkeep : ∀ {j : Buf} {b : OutBuf}, (c.out j).busy = false → (c.setOut j b).out i = c.out i := by
    intro j b hj
    have hne : i ≠ j := by
      rintro rfl
      simp [hj] at hb
    exact (setOut_out _ i).trans (if_neg hne)
  rw [Codec.dequeueOutput]
  split
  · rfl
  split
  · rfl
  split
  · rename_i j hfind
    have hj := List.find?_some hfind
    exact hkeep (by simp_all)
  · split
    · rfl
    split
    · split
      · rename_i j hfind
        exact hkeep (by simpa using List.find?_some hfind)
      · rfl
    · rfl

theorem dequeueInput_inp (hq : (c.inp i).queued = true) : c.dequeueInput.inp i = c.inp i := by
  have hlease : c.leaseInput.inp i = c.inp i := by
    rw [leaseInput]
    split
    · rfl
    · rename_i j hfind
      have hj : (c.inp j).queued = false := by simpa using List.find?_some hfind
      have hne : i ≠ j := by
        rintro rfl
        simp [hj] at hq
      exact (setIn_inp _ i).trans (if_neg hne)
  rw [Codec.dequeueInput]
  split_ifs <;> first | rfl | exact hlease

theorem Inv.release (h : Inv c) (hpc : c.pc = .idle) (s : Sink) : c.release.refs s = 0 := by
  have hs := foldl_sinkRef_refs (s := s) c.jobs c
  have hc := h.counted s
  rw [hpc] at hc
  change (c.jobs.foldl _ c).refs s = 0
  rw [hs, hc]
  simp [Pc.render]

/-! ### After a flush -/

inductive Steps (P : Codec → Act → Prop) (c : Codec) : Codec → Prop
  | refl : Steps P c c
  | step {d d' : Codec} (a : Act) : Steps P c d → P d a → d.step a = some d' → Steps P c d'

/-- A step moves the thread's conversion: it keeps it, begins one of the codec's epoch, sends it back or commits. -/
structure Moves (c c' : Codec) : Prop where
  epoch : c.epoch ≤ c'.epoch
  pc : ∀ i s e, c'.pc = .committing i s e → c.pc = .committing i s e ∨ e = c.epoch
  commits : c'.commits = c.commits ∨ ∃ i s e, c.pc = .committing i s e ∧
    c'.commits = c.commits ++ [⟨s, (c.out i).picture, e, c.epoch⟩]

theorem Moves.of_pc (he : c'.epoch = c.epoch) (hp : ∀ i s e, c'.pc ≠ .committing i s e) (hc : c'.commits = c.commits) :
    Moves c c' :=
  ⟨Nat.le_of_eq he.symm, fun i s e h => absurd h (hp i s e), .inl hc⟩

/-- A call leaves the thread where it is. -/
structure Apart (c c' : Codec) : Prop where
  epoch : c.epoch ≤ c'.epoch
  pc : c'.pc = c.pc
  commits : c'.commits = c.commits

theorem Apart.refl : Apart c c := ⟨le_rfl, rfl, rfl⟩

theorem Apart.trans {d : Codec} (h : Apart c c') (h' : Apart c' d) : Apart c d :=
  ⟨Nat.le_trans h.epoch h'.epoch, h'.pc.trans h.pc, h'.commits.trans h.commits⟩

theorem Apart.moves (h : Apart c c') : Moves c c' := ⟨h.epoch, fun _ _ _ hpc => .inl (h.pc ▸ hpc), .inl h.commits⟩

theorem apart_sinkRef (o : Option Sink) (n : Int) : Apart c (c.sinkRef o n) := by
  obtain ⟨r, hr⟩ := sinkRef_eq (c := c) o n
  rw [hr]
  exact ⟨le_rfl, rfl, rfl⟩

theorem apart_jobPush {j : Job} (h : c.jobPush j = some c') : Apart c c' := by
  rw [jobPush] at h
  split at h
  · cases h
  · cases h
    have hjobs : Apart c { c with jobs := c.jobs ++ [j] } := ⟨le_rfl, rfl, rfl⟩
    exact hjobs.trans (apart_sinkRef _ _)

theorem apart_threadEnsure {created b : Bool} (h : c.threadEnsure created = (b, c')) : Apart c c' := by
  rw [threadEnsure] at h
  split at h <;> obtain ⟨-, rfl⟩ := Prod.mk.inj h <;> exact ⟨le_rfl, rfl, rfl⟩

theorem apart_flush (ht : c.threaded = true) (hepoch : c.epoch + 1 < 2 ^ 32) : Apart c c.flush := by
  obtain ⟨refs, -, heq⟩ := flush_eq ht
  rw [heq, Nat.mod_eq_of_lt hepoch]
  exact ⟨Nat.le_succ _, rfl, rfl⟩

theorem apart_dequeueInput : Apart c c.dequeueInput := by
  have hlease : Apart c c.leaseInput := by
    rw [leaseInput]
    split <;> exact ⟨le_rfl, rfl, rfl⟩
  rw [Codec.dequeueInput]
  split_ifs <;> first | exact .refl | exact hlease

theorem apart_queueInput (ht : c.threaded = true) (idx : Buf) (offset size : Nat) (eos created : Bool)
    (got : Option Picture) : Apart c (c.queueInput idx offset size eos created got) := by
  have hin : ∀ (d : Codec) (b : InBuf), Apart d (d.setIn idx b) := fun _ _ => ⟨le_rfl, rfl, rfl⟩
  have hset : Apart c { c.setIn idx { c.inp idx with submitted := true } with gotEos := c.gotEos || eos } :=
    ⟨le_rfl, rfl, rfl⟩
  unfold Codec.queueInput
  split
  · exact .refl
  dsimp only
  split
  · split
    · rename_i d hensure
      exact (hset.trans (apart_threadEnsure hensure)).trans (hin d _)
    · rename_i d hensure
      have hd := hset.trans (apart_threadEnsure hensure)
      split
      · exact hd.trans (hin d _)
      · rename_i d' hpush
        have hcount : Apart d' { d' with pendingDecodes := d'.pendingDecodes + 1 } := ⟨le_rfl, rfl, rfl⟩
        exact (hd.trans (apart_jobPush hpush)).trans hcount
  · exact hset.trans (hin _ _)

theorem apart_dequeueOutput : Apart c c.dequeueOutput := by
  rw [Codec.dequeueOutput]
  split
  · exact .refl
  split
  · exact ⟨le_rfl, rfl, rfl⟩
  split
  · exact ⟨le_rfl, rfl, rfl⟩
  · split
    · exact .refl
    split
    · split <;> exact ⟨le_rfl, rfl, rfl⟩
    · exact .refl

theorem apart_releaseOutput (ht : c.threaded = true) (idx : Buf) (sink : Option Sink) (images created : Bool) :
    Apart c (c.releaseOutput idx sink images created) := by
  have hheld : Apart c { c with held := Function.update c.held idx false } := ⟨le_rfl, rfl, rfl⟩
  have hfree : ∀ d : Codec, Apart d (d.freeSlot idx) := fun _ => ⟨le_rfl, rfl, rfl⟩
  unfold Codec.releaseOutput
  refine hheld.trans ?_
  dsimp only
  rw [if_pos ht]
  split
  · exact .refl
  cases sink with
  | none => exact hfree _
  | some s =>
    dsimp only
    split
    · rename_i d hensure
      exact (apart_threadEnsure hensure).trans (hfree d)
    · rename_i d hensure
      refine (apart_threadEnsure hensure).trans ?_
      cases hpush : d.jobPush (.render idx s d.epoch) with
      | none => exact hfree d
      | some d' => exact apart_jobPush hpush

theorem moves_threadTake (h : c.threadTake = some c') : Moves c c' := by
  rw [Codec.threadTake] at h
  split at h
  · cases h
  rename_i hbusy
  have hidle : c.pc = .idle := by
    by_contra hpc
    exact hbusy (.inl hpc)
  split at h
  · cases h
    exact .of_pc rfl (by simp) rfl
  split at h
  · split at h
    · cases h
      exact .of_pc rfl (by simp) rfl
    · cases h
  · cases h
    exact .of_pc rfl (by simp) rfl
  · rename_i rest hj
    dsimp only at h
    split at h
    · cases h
      exact .of_pc rfl (by simp) rfl
    · cases h
      exact .of_pc rfl (by simp [sinkRef, freeSlot, setOut, hidle]) rfl

theorem moves_threadStep {o : Outside} (h : c.threadStep o = some c') : Moves c c' := by
  unfold Codec.threadStep at h
  split at h
  · cases h
    exact .of_pc rfl (by simp) rfl
  · rename_i epoch got keepable hpc
    split at h
    · cases h
      rw [finishPull]
      dsimp only
      split
      · exact .of_pc rfl (by simp) rfl
      split
      · obtain ⟨out, known, stored, heq⟩ := keepFrame_eq (c := { c with pc := .idle }) epoch got keepable
        rw [heq]
        exact .of_pc rfl (by simp) rfl
      · exact .of_pc rfl (by simp) rfl
    · cases h
  · cases h
    exact .of_pc rfl (by simp) rfl
  · rename_i idx eos epoch current got keepable hpc
    split at h
    · cases h
      rw [finishDecode]
      dsimp only
      generalize hd : ({ c.setIn idx { c.inp idx with decoding := false, queued := false } with
        fed := c.fedWith epoch current, pc := .idle
        pendingDecodes := if 0 < c.pendingDecodes then c.pendingDecodes - 1 else c.pendingDecodes } : Codec) = d
      obtain ⟨out, known, stored, heq⟩ := keepFrame_eq (c := d) epoch got keepable
      rw [heq]
      subst hd
      exact .of_pc rfl (by simp) rfl
    · cases h
  · cases h
    split
    · rename_i hcur
      refine ⟨le_rfl, fun i s e hpc => .inr ?_, .inl rfl⟩
      cases hpc
      exact hcur
    · exact .of_pc rfl (by simp) rfl
  · cases h
    exact .of_pc rfl (by simp) rfl
  · rename_i idx sink epoch hpc
    cases h
    exact ⟨le_rfl, (by simp), .inr ⟨idx, sink, epoch, hpc, rfl⟩⟩
  iterate 3
    · cases h
      exact .of_pc rfl (by rintro _ _ _ ⟨⟩) rfl
  · cases h

theorem moves_step (ht : c.threaded = true) (hl : Legal c a) (hs : c.step a = some c') : Moves c c' := by
  cases a with
  | start =>
    cases hs
    exact Apart.moves ⟨le_rfl, rfl, rfl⟩
  | csd got =>
    rw [Codec.step.eq_def] at hs
    dsimp only at hs
    rw [if_pos ht] at hs
    cases hs
  | stop =>
    cases hs
    have hstop : Apart c { c with started := false } := ⟨le_rfl, rfl, rfl⟩
    exact (hstop.trans (apart_flush ht hl)).moves
  | flush =>
    cases hs
    exact (apart_flush ht hl).moves
  | dequeueInput =>
    cases hs
    exact apart_dequeueInput.moves
  | queueInput idx offset size eos created got =>
    cases hs
    exact (apart_queueInput ht ..).moves
  | dequeueOutput =>
    cases hs
    exact apart_dequeueOutput.moves
  | releaseOutput idx sink images created =>
    cases hs
    exact (apart_releaseOutput ht ..).moves
  | take =>
    rw [Codec.step, if_pos ht] at hs
    exact moves_threadTake hs
  | outside o =>
    rw [Codec.step, if_pos ht] at hs
    exact moves_threadStep hs

/-- After a flush, what waits or was returned is newer than it, and so is what is committed unless its conversion was past
    its check. -/
theorem Inv.after_flush (h : Inv c) (hepoch : c.epoch + 1 < 2 ^ 32) {d : Codec} (hd : Steps Legal c.flush d) :
    Inv d ∧ c.epoch < d.epoch ∧ (∀ i s e, d.pc = .committing i s e → c.pc = .committing i s e ∨ c.epoch < e) ∧
    ∀ m ∈ d.commits, m ∈ c.commits ∨ (∀ p, m.picture = some p → c.epoch < p.origin) ∨
      ∃ i, c.pc = .committing i m.sink m.epoch := by
  induction hd with
  | refl =>
    have hflush := apart_flush h.threaded hepoch
    refine ⟨h.flush hepoch, ?_, fun i s e hpc => .inl (hflush.pc ▸ hpc), fun m hm => .inl (hflush.commits ▸ hm)⟩
    obtain ⟨refs, -, heq⟩ := flush_eq h.threaded
    rw [heq, Nat.mod_eq_of_lt hepoch]
    exact Nat.lt_succ_self _
  | @step d d' a _ hl hs ih =>
    obtain ⟨hinv, hlt, hpc, hcommits⟩ := ih
    have hmoves := moves_step hinv.threaded hl hs
    refine ⟨hinv.step hl hs, Nat.lt_of_lt_of_le hlt hmoves.epoch, fun i s e hc => ?_, fun m hm => ?_⟩
    · rcases hmoves.pc i s e hc with hc | rfl
      · exact hpc i s e hc
      · exact .inr hlt
    · rcases hmoves.commits with hsame | ⟨i, s, e, hc, happ⟩
      · exact hcommits m (hsame ▸ hm)
      · rw [happ] at hm
        rcases List.mem_append.1 hm with hm | hm
        · exact hcommits m hm
        · rw [List.mem_singleton.1 hm]
          rcases hpc i s e hc with hpast | hnew
          · exact .inr (.inr ⟨i, hpast⟩)
          · obtain ⟨q, hq, ho⟩ := hinv.outputs.converts i s e (.inr hc)
            refine .inr (.inl fun p hp => ?_)
            cases hq.symm.trans hp
            rw [ho]
            exact hnew

/-- Until the stream is drained, the leases and the pending decodes have their slots, as long as the epochs do not come
    round. -/
theorem pictures_kept (h : Run Legal true c) :
    (c.pendingDecodes = (decodes c.jobs).length + if (Pc.decode c.pc).isSome then 1 else 0) ∧
    (c.draining = false → c.leases + c.pendingCurrent ≤ c.freeCount) ∧
    (∀ a, c.keeps a = true → c.freeOutbuf.isSome = true) ∧
    (∀ i, i ∈ decodes c.jobs ∨ (∃ eos e, Pc.decode c.pc = some (i, eos, e)) →
      (c.inp i).queued = true ∧ c.dequeueInput.inp i = c.inp i) ∧
    (∀ i, c.held i = true ∨ (∃ s, Pc.render c.pc = some (i, s)) →
      (∀ p, (c.keepPicture p).out i = c.out i) ∧ c.dequeueOutput.out i = c.out i) ∧
    (c.epoch + 1 < 2 ^ 32 → ∀ d, Steps Legal c.flush d →
      (∀ i p, (d.out i).ready = true ∨ d.held i = true → (d.out i).picture = some p → c.epoch < p.origin) ∧
      ∀ m ∈ d.commits, m ∈ c.commits ∨ (∀ p, m.picture = some p → c.epoch < p.origin) ∨
        ∃ i, c.pc = .committing i m.sink m.epoch) ∧
    (∀ s, c.refs s = sinkCount c.jobs s + if (Pc.render c.pc).any (fun r => r.2 = s) then 1 else 0) ∧
    (c.pc = .idle → ∀ s, c.release.refs s = 0) := by
  have hinv := Inv.run h
  refine ⟨hinv.inputs.pending, hinv.room.room, fun a => hinv.keeps_free, fun i hi => ?_, fun i hi => ?_,
    fun hepoch d hd => ?_, hinv.counted, hinv.release⟩
  · have hq : (c.inp i).queued = true := by
      rcases hi with hi | ⟨eos, e, hi⟩
      · exact (hinv.inputs.waits i hi).1
      · exact (hinv.inputs.reads i ((hinv.inputs.decoding i).2 (by simp [hi]))).1
    exact ⟨hq, dequeueInput_inp hq⟩
  · have hb : (c.out i).busy = true := by
      rcases hi with hi | ⟨s, hi⟩
      · exact (hinv.outputs.held i hi).1
      · exact hinv.outputs.busy i ((hinv.outputs.rendering i).2 (by simp [hi]))
    exact ⟨keepPicture_out hb, dequeueOutput_out hb⟩
  · obtain ⟨hd', hlt, -, hcommits⟩ := hinv.after_flush hepoch hd
    refine ⟨fun i p hi hp => ?_, hcommits⟩
    have ho : p.origin = d.epoch := by
      rcases hi with hi | hi
      · exact hd'.outputs.origin i (.inl hi) p hp
      · obtain ⟨hb, hr, -⟩ := hd'.outputs.held i hi
        exact hd'.outputs.origin i (.inr ⟨hb, hr⟩) p hp
    rw [ho]
    exact hlt

end

instance (c : Codec) (a : Act) : Decidable (Legal c a) :=
  match a with
  | .queueInput idx _ _ _ _ _ =>
    inferInstanceAs (Decidable ((c.inp idx).queued = true ∧ (c.inp idx).submitted = false ∧ c.gotEos = false))
  | .releaseOutput idx _ _ _ => inferInstanceAs (Decidable (c.held idx = true))
  | .stop | .flush => inferInstanceAs (Decidable (c.epoch + 1 < 2 ^ 32))
  | .start | .csd _ | .dequeueInput | .dequeueOutput | .take | .outside _ => isTrue trivial

/-- A packet is decoded to a picture, and the picture is taken and given to a sink. -/
def shown : List Act := [.start, .dequeueInput, .queueInput ⟨0, by decide⟩ 0 1 false true none, .take, .outside .nothing,
  .outside (.decoded (some ⟨0⟩) true), .dequeueOutput, .dequeueOutput, .releaseOutput ⟨0, by decide⟩ (some 7) false true, .take]

theorem pictures_kept_shown : ∃ c, Run Legal true c ∧ c.pc = .converting 0 7 0 ∧ c.refs 7 = 1 ∧
    c.leases + c.pendingCurrent ≤ c.freeCount := by
  obtain ⟨c, hc⟩ : ∃ c, (Codec.new true).runIf Legal shown = some c := Option.isSome_iff_exists.1 (by decide)
  have hfacts :
      ((Codec.new true).runIf Legal shown).map (fun c => (c.pc, c.refs 7, c.draining)) =
        some (.converting 0 7 0, 1, false) := by
    decide
  rw [hc, Option.map_some, Option.some.injEq, Prod.mk.injEq, Prod.mk.injEq] at hfacts
  obtain ⟨hpc, hrefs, hdr⟩ := hfacts
  have hrun := run_runIf .new hc
  exact ⟨c, hrun, hpc, hrefs, (pictures_kept hrun).2.1 hdr⟩

/-- The decoder holds a picture back to the end of the stream, and the caller leases all buffers before it is pulled. -/
def heldBack : List Act := [.start, .dequeueInput, .queueInput ⟨0, by decide⟩ 0 1 true true none, .take, .outside .nothing,
  .outside (.decoded none true), .dequeueInput, .dequeueInput, .dequeueInput, .dequeueInput, .dequeueInput,
    .dequeueInput, .take,
  .outside (.decoded (some ⟨0⟩) true)]

theorem leases_exceed_slots : ∃ c, Run Legal true c ∧ ¬ c.leases + c.pendingCurrent ≤ c.freeCount := by
  obtain ⟨c, hc⟩ : ∃ c, (Codec.new true).runIf Legal heldBack = some c := Option.isSome_iff_exists.1 (by decide)
  have hfacts :
      ((Codec.new true).runIf Legal heldBack).map (fun c => (c.leases, c.pendingCurrent, c.freeCount)) =
        some (6, 0, 5) := by
    decide
  rw [hc, Option.map_some, Option.some.injEq, Prod.mk.injEq, Prod.mk.injEq] at hfacts
  obtain ⟨hl, hp, hf⟩ := hfacts
  refine ⟨c, run_runIf .new hc, ?_⟩
  rw [hl, hp, hf]
  decide

end Lunaria.Media.Codec
