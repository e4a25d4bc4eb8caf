import Lunaria.Media.Order
import Lunaria.Lib.Tally

/-! The codec thread and a caller that keeps to the rules: it queues only input buffers that it leased, releases only output
    buffers that it was given, and queues nothing after the end of the stream until a flush. -/

namespace Lunaria.Media.Codec
open List Function

/-! ### What is under way -/

/-- The input buffers of the decode jobs. -/
def decodes : List Job → List Buf
  | [] => []
  | .decode i _ _ _ :: js => i :: decodes js
  | .render .. :: js => decodes js

/-- The output buffers of the render jobs. -/
def renders : List Job → List Buf
  | [] => []
  | .decode .. :: js => renders js
  | .render i _ _ :: js => i :: renders js

def Job.epoch : Job → Nat
  | .decode _ _ _ e => e
  | .render _ _ e => e

/-- The decode job that the thread has: its buffer, whether it ends the stream, and its epoch. -/
def Pc.decode : Pc → Option (Buf × Bool × Nat)
  | .taken i _ eos e => some (i, eos, e)
  | .decoding i eos e _ => some (i, eos, e)
  | _ => none

/-- The render job that the thread has. -/
def Pc.render : Pc → Option (Buf × Sink)
  | .converting i s _ => some (i, s)
  | .committing i s _ => some (i, s)
  | .converted i s => some (i, s)
  | _ => none

/-- The epoch of the work that the thread has begun. -/
def Pc.epoch : Pc → Option Nat
  | .pulling e => some e
  | .taken _ _ _ e => some e
  | .decoding _ _ e _ => some e
  | .converting _ _ e => some e
  | .committing _ _ e => some e
  | _ => none

/-- The decode jobs of the codec's epoch: those queued and the one that the thread has. -/
def pendingCurrent (c : Codec) : Int :=
  (decodes c.jobs).length + if (Pc.decode c.pc).any (fun d => d.2.2 = c.epoch) then 1 else 0

/-- How many references the jobs have on a sink. -/
def sinkCount (js : List Job) (s : Sink) : Nat := js.countP fun j => Job.sink j = some s

/-- What a caller may do. The epoch counter does not come round. -/
def Legal (c : Codec) : Act → Prop
  | .queueInput idx _ _ _ _ _ => (c.inp idx).queued = true ∧ (c.inp idx).submitted = false ∧ c.gotEos = false
  | .releaseOutput idx _ _ _ => c.held idx = true
  | .stop | .flush => c.epoch + 1 < 2 ^ 32
  | _ => True

/-! ### The parts of the invariant -/

/-- A buffer that the thread reads, or that waits for it, is queued and submitted, and in one place only. -/
structure Inputs (c : Codec) : Prop where
  decoding : ∀ i, (c.inp i).decoding = true ↔ (Pc.decode c.pc).any (fun d => d.1 = i) = true
  reads : ∀ i, (c.inp i).decoding = true → (c.inp i).queued = true ∧ (c.inp i).submitted = true
  waits : ∀ i ∈ decodes c.jobs, (c.inp i).queued = true ∧ (c.inp i).submitted = true ∧ (c.inp i).decoding = false
  nodup : (decodes c.jobs).Nodup
  pending : c.pendingDecodes = (decodes c.jobs).length + if (Pc.decode c.pc).isSome then 1 else 0

/-- Jobs are of the codec's epoch, and what the thread has begun is unless the decoder is to be flushed. -/
structure Epochs (c : Codec) : Prop where
  jobs : ∀ j ∈ c.jobs, Job.epoch j = c.epoch
  pc : ∀ e, Pc.epoch c.pc = some e → e = c.epoch ∧ c.flushDecoder = false ∨ e < c.epoch ∧ c.flushDecoder = true
  fed : c.flushDecoder = false → c.pc ≠ .flushing → ∀ o ∈ c.fed, o = c.epoch

/-- A slot is free, ready, held by the caller, waiting for its conversion or converted. -/
structure Outputs (c : Codec) : Prop where
  ready : ∀ i, (c.out i).ready = true → (c.out i).busy = false
  held : ∀ i, c.held i = true → (c.out i).busy = true ∧ (c.out i).rendering = false ∧ i ∉ renders c.jobs
  waits : ∀ i ∈ renders c.jobs, (c.out i).busy = true ∧ (c.out i).rendering = false
  nodup : (renders c.jobs).Nodup
  rendering : ∀ i, (c.out i).rendering = true ↔ (Pc.render c.pc).any (fun r => r.1 = i) = true
  busy : ∀ i, (c.out i).rendering = true → (c.out i).busy = true
  origin : ∀ i, (c.out i).ready = true ∨ (c.out i).busy = true ∧ (c.out i).rendering = false →
    ∀ p, (c.out i).picture = some p → p.origin = c.epoch
  converts : ∀ i s e, c.pc = .converting i s e ∨ c.pc = .committing i s e → ∃ p, (c.out i).picture = some p ∧ p.origin = e

/-- Until the stream is drained there is a free slot for every lease and every decode; afterwards there is no decode. -/
structure Room (c : Codec) : Prop where
  room : c.draining = false → c.leases + c.pendingCurrent ≤ c.freeCount
  drain : c.draining = true → c.gotEos = true ∧ c.pendingCurrent = 0
  drained : c.drained = true → c.draining = true
  pulling : ∀ e, c.pc = .pulling e → e = c.epoch → c.draining = true ∧ c.drained = false ∧ 0 < c.freeCount
  eosLast : ∀ xs i n e ys, c.jobs = xs ++ .decode i n true e :: ys → c.gotEos = true ∧ decodes ys = []
  eosRuns : ∀ i, Pc.decode c.pc = some (i, true, c.epoch) → c.gotEos = true ∧ decodes c.jobs = []

/-- Each job has one reference on its sink. -/
def Counted (c : Codec) : Prop :=
  ∀ s, c.refs s = sinkCount c.jobs s + if (Pc.render c.pc).any (fun r => r.2 = s) then 1 else 0

/-- What is committed belongs to the epoch of its job, and that is not after the codec's. -/
def Committed (c : Codec) : Prop := ∀ m ∈ c.commits, m.epoch ≤ m.now ∧ ∀ p, m.picture = some p → p.origin = m.epoch

structure Inv (c : Codec) : Prop where
  threaded : c.threaded = true
  inputs : Inputs c
  epochs : Epochs c
  outputs : Outputs c
  room : Room c
  counted : Counted c
  committed : Committed c

/-! ### Jobs -/

section Jobs
variable {js : List Job} {j : Job} {s : Sink}

@[simp] theorem decodes_append (js js' : List Job) : decodes (js ++ js') = decodes js ++ decodes js' := by
  induction js with
  | nil => rfl
  | cons j js ih => cases j <;> simp [decodes, ih]

@[simp] theorem renders_append (js js' : List Job) : renders (js ++ js') = renders js ++ renders js' := by
  induction js with
  | nil => rfl
  | cons j js ih => cases j <;> simp [renders, ih]

theorem sinkRef_refs (c : Codec) (o : Option Sink) (n : Int) :
    (c.sinkRef o n).refs s = c.refs s + if o = some s then n else 0 := by
  cases o with
  | none => simp [sinkRef]
  | some t =>
    rw [sinkRef]
    dsimp only
    by_cases hs : s = t
    · subst hs
      simp
    · rw [update_of_ne hs, if_neg (by simpa using Ne.symm hs), Int.add_zero]

theorem sinkCount_render (i : Buf) (t : Sink) (e : Nat) :
    (sinkCount (.render i t e :: js) s : Int) = sinkCount js s + if t = s then 1 else 0 := by
  rw [sinkCount, sinkCount, countP_cons]
  by_cases h : t = s <;> simp [Job.sink, h]

/-- All jobs give their references back. -/
theorem foldl_sinkRef_refs (js : List Job) :
    ∀ c : Codec, (js.foldl (fun c j => c.sinkRef (Job.sink j) (-1)) c).refs s = c.refs s - sinkCount js s := by
  induction js with
  | nil =>
    intro c
    simp [sinkCount]
  | cons j js ih =>
    intro c
    rw [foldl_cons, ih, sinkRef_refs, sinkCount, sinkCount, countP_cons]
    by_cases hj : Job.sink j = some s
    · simp [hj]
      omega
    · simp [hj]

end Jobs

/-! ### Counts -/

section Counts
variable {c : Codec} {i : Buf}

theorem freeCount_setOut (b : OutBuf) : (c.setOut i b).freeCount + (if free (c.out i) then 1 else 0) =
    c.freeCount + if free b then 1 else 0 := by
  have h := Tally.countP_update (nodup_finRange 6) (mem_finRange i) c.out b free
  dsimp only [freeCount, setOut]
  generalize (finRange 6).countP _ = n at h ⊢
  generalize (finRange 6).countP _ = m at h ⊢
  split_ifs at h ⊢ <;> omega

def lease (b : InBuf) : Bool := b.queued && !b.submitted

theorem leases_setIn (b : InBuf) : (c.setIn i b).leases + (if lease (c.inp i) then 1 else 0) =
    c.leases + if lease b then 1 else 0 := by
  have h := Tally.countP_update (nodup_finRange 6) (mem_finRange i) c.inp b lease
  dsimp only [leases, setIn]
  change (List.countP (fun j => lease (update c.inp i b j)) (finRange 6) : Int) + _ =
    (List.countP (fun j => lease (c.inp j)) (finRange 6) : Int) + _
  generalize (finRange 6).countP _ = n at h ⊢
  generalize (finRange 6).countP _ = m at h ⊢
  split_ifs at h ⊢ <;> omega

theorem freeOutbuf_isSome : c.freeOutbuf.isSome = true ↔ 0 < c.freeCount := by
  rw [freeOutbuf, freeCount, find?_isSome]
  constructor
  · rintro ⟨i, hi, hfree⟩
    have hpos : 0 < (finRange 6).countP fun i => free (c.out i) := countP_pos_iff.2 ⟨i, hi, hfree⟩
    exact Int.natCast_pos.2 hpos
  · intro hpos
    exact countP_pos_iff.1 (Int.natCast_pos.1 hpos)

theorem pendingCurrent_none (h : Pc.decode c.pc = none) : c.pendingCurrent = (decodes c.jobs).length := by
  rw [pendingCurrent, h]
  simp

theorem pendingCurrent_current {eos : Bool} {e : Nat} (h : Pc.decode c.pc = some (i, eos, e)) (he : e = c.epoch) :
    c.pendingCurrent = (decodes c.jobs).length + 1 := by
  rw [pendingCurrent, h]
  simp [he]

theorem pendingCurrent_nonneg : 0 ≤ c.pendingCurrent := by
  rw [pendingCurrent]
  split_ifs <;> omega

theorem pendingCurrent_le (h : Inputs c) : c.pendingCurrent ≤ c.pendingDecodes := by
  rw [h.pending, pendingCurrent]
  cases hd : Pc.decode c.pc with
  | none => simp
  | some d =>
    simp only [Option.isSome_some, ↓reduceIte]
    split_ifs <;> omega

end Counts

/-! ### Frames -/

section Frames
variable {c c' : Codec}

theorem Inputs.frame (h : Inputs c) (hi : c'.inp = c.inp) (hj : decodes c'.jobs = decodes c.jobs)
    (hp : Pc.decode c'.pc = Pc.decode c.pc) (hn : c'.pendingDecodes = c.pendingDecodes) : Inputs c' where
  decoding i := by
    rw [hi, hp]
    exact h.decoding i
  reads i := by
    rw [hi]
    exact h.reads i
  waits i hmem := by
    rw [hi]
    exact h.waits i (hj ▸ hmem)
  nodup := hj ▸ h.nodup
  pending := by rw [hn, hj, hp, h.pending]

theorem Epochs.frame (h : Epochs c) (hj : ∀ j ∈ c'.jobs, j ∈ c.jobs) (he : c'.epoch = c.epoch)
    (hf : c'.flushDecoder = c.flushDecoder)
    (hp : ∀ e, Pc.epoch c'.pc = some e → Pc.epoch c.pc = some e) (hpc : c'.pc ≠ .flushing → c.pc ≠ .flushing)
    (hfed : c'.fed = c.fed) : Epochs c' where
  jobs j hmem := by
    rw [he]
    exact h.jobs j (hj j hmem)
  pc e hpe := by
    rw [he, hf]
    exact h.pc e (hp e hpe)
  fed hfl hne := by
    rw [hfed, he]
    exact h.fed (hf ▸ hfl) (hpc hne)

theorem Outputs.frame (h : Outputs c) (ho : c'.out = c.out) (hheld : c'.held = c.held)
    (hj : renders c'.jobs = renders c.jobs) (he : c'.epoch = c.epoch) (hp : Pc.render c'.pc = Pc.render c.pc)
    (hc : ∀ i s e, c'.pc = .converting i s e ∨ c'.pc = .committing i s e → c.pc = .converting i s e ∨
      c.pc = .committing i s e) :
    Outputs c' where
  ready := ho ▸ h.ready
  held := by
    rw [ho, hheld, hj]
    exact h.held
  waits := by
    rw [ho, hj]
    exact h.waits
  nodup := hj ▸ h.nodup
  rendering := by
    rw [ho, hp]
    exact h.rendering
  busy := ho ▸ h.busy
  origin := by
    rw [ho, he]
    exact h.origin
  converts i s e hpc := by
    rw [ho]
    exact h.converts i s e (hc i s e hpc)

theorem Counted.frame (h : Counted c) (hr : c'.refs = c.refs) (hj : ∀ s, sinkCount c'.jobs s = sinkCount c.jobs s)
    (hp : Pc.render c'.pc = Pc.render c.pc) : Counted c' := by
  intro s
  rw [hr, hj, hp]
  exact h s

/-- Nothing that the invariant reads has changed. -/
theorem Inv.frame (h : Inv c) (ht : c'.threaded = c.threaded) (hi : c'.inp = c.inp) (ho : c'.out = c.out)
    (hj : c'.jobs = c.jobs)
    (he : c'.epoch = c.epoch) (hf : c'.flushDecoder = c.flushDecoder) (hdr : c'.draining = c.draining)
    (hdd : c'.drained = c.drained) (hn : c'.pendingDecodes = c.pendingDecodes) (hg : c'.gotEos = c.gotEos)
    (hp : c'.pc = c.pc)
    (hfed : c'.fed = c.fed) (hheld : c'.held = c.held) (hr : c'.refs = c.refs) (hc : c'.commits = c.commits) : Inv c' where
  threaded := ht.trans h.threaded
  inputs := h.inputs.frame hi (by rw [hj]) (by rw [hp]) hn
  epochs := h.epochs.frame (fun j => hj ▸ id) he hf (fun e => hp ▸ id) (fun hne => hp ▸ hne) hfed
  outputs := h.outputs.frame ho hheld (by rw [hj]) he (by rw [hp]) fun i s e => hp ▸ id
  room := by
    have hl : c'.leases = c.leases := by rw [leases, leases, hi]
    have hpend : c'.pendingCurrent = c.pendingCurrent := by rw [pendingCurrent, pendingCurrent, hj, hp, he]
    have hfree : c'.freeCount = c.freeCount := by rw [freeCount, freeCount, ho]
    refine ⟨?_, ?_, ?_, ?_, ?_, ?_⟩
    · rw [hl, hpend, hfree, hdr]
      exact h.room.room
    · rw [hpend, hdr, hg]
      exact h.room.drain
    · rw [hdr, hdd]
      exact h.room.drained
    · rw [hp, he, hdr, hdd, hfree]
      exact h.room.pulling
    · rw [hj, hg]
      exact h.room.eosLast
    · rw [hp, he, hg, hj]
      exact h.room.eosRuns
  counted := h.counted.frame hr (fun s => by rw [hj]) (by rw [hp])
  committed := by
    rw [Committed, hc]
    exact h.committed

theorem Room.frame (h : Room c) (hdr : c'.draining = c.draining) (hdd : c'.drained = c.drained) (hg : c'.gotEos = c.gotEos)
    (hroom : c'.leases + c'.pendingCurrent + c.freeCount ≤ c.leases + c.pendingCurrent + c'.freeCount)
    (hpend : c'.pendingCurrent ≤ c.pendingCurrent)
    (hpull : ∀ e, c'.pc = .pulling e → c.pc = .pulling e ∧ c'.epoch = c.epoch ∧ c.freeCount ≤ c'.freeCount)
    (hlast : ∀ xs i n e ys, c'.jobs = xs ++ .decode i n true e :: ys → ∃ xs', c.jobs = xs' ++ .decode i n true e :: ys)
    (hruns : ∀ i, Pc.decode c'.pc = some (i, true, c'.epoch) →
      Pc.decode c.pc = some (i, true, c.epoch) ∧ decodes c'.jobs = decodes c.jobs) : Room c' where
  room hno := by
    have := h.room (hdr ▸ hno)
    omega
  drain hd := by
    obtain ⟨heos, hzero⟩ := h.drain (hdr ▸ hd)
    exact ⟨hg ▸ heos, Int.le_antisymm (hzero ▸ hpend) pendingCurrent_nonneg⟩
  drained hd := by
    rw [hdr]
    exact h.drained (hdd ▸ hd)
  pulling e hpc he := by
    obtain ⟨hpc', hep, hle⟩ := hpull e hpc
    obtain ⟨h1, h2, h3⟩ := h.pulling e hpc' (hep ▸ he)
    exact ⟨hdr ▸ h1, hdd ▸ h2, by omega⟩
  eosLast xs i n e ys hj := by
    obtain ⟨xs', hj'⟩ := hlast xs i n e ys hj
    rw [hg]
    exact h.eosLast xs' i n e ys hj'
  eosRuns i hd := by
    obtain ⟨hd', hdec⟩ := hruns i hd
    rw [hg, hdec]
    exact h.eosRuns i hd'

end Frames

/-! ### The slots -/

section Slots
variable {c : Codec} {i : Buf}

theorem setOut_out (b : OutBuf) (j : Buf) : (c.setOut i b).out j = if j = i then b else c.out j :=
  update_apply c.out i b j

theorem setIn_inp (b : InBuf) (j : Buf) : (c.setIn i b).inp j = if j = i then b else c.inp j :=
  update_apply c.inp i b j

section
variable (h : Outputs c) (hb : (c.out i).busy = false)
include h hb

theorem Outputs.not_waits : i ∉ renders c.jobs := by
  intro hi
  have := (h.waits i hi).1
  simp [hb] at this

theorem Outputs.not_rendering : (c.out i).rendering = false := by
  by_contra hr
  have := h.busy i (by simpa using hr)
  simp [hb] at this

theorem Outputs.not_held : c.held i = false := by
  by_contra hh
  have := (h.held i (by simpa using hh)).1
  simp [hb] at this

end

/-- A slot that no job refers to is set, and with it whether it is held. -/
theorem Outputs.put (h : Outputs c) {b : OutBuf} {held : Buf → Bool} (hw : i ∉ renders c.jobs)
    (hr : (c.out i).rendering = false)
    (hother : ∀ j, j ≠ i → held j = c.held j) (hh : held i = true → b.busy = true) (hb : b.ready = true → b.busy = false)
    (hbr : b.rendering = false) (ho : b.ready = true ∨ b.busy = true → ∀ p, b.picture = some p → p.origin = c.epoch) :
    Outputs { c.setOut i b with held := held } where
  ready j hj := by
    change ((c.setOut i b).out j).ready = true at hj
    change ((c.setOut i b).out j).busy = false
    rw [setOut_out] at hj ⊢
    split_ifs at hj ⊢
    · exact hb hj
    · exact h.ready j hj
  held j hj := by
    change ((c.setOut i b).out j).busy = true ∧ ((c.setOut i b).out j).rendering = false ∧ j ∉ renders c.jobs
    rw [setOut_out]
    split_ifs with hji
    · subst hji
      exact ⟨hh hj, hbr, hw⟩
    · exact h.held j ((hother j hji).symm.trans hj)
  waits j hj := by
    have hne : j ≠ i := by
      rintro rfl
      exact hw hj
    change ((c.setOut i b).out j).busy = true ∧ ((c.setOut i b).out j).rendering = false
    rw [setOut_out, if_neg hne]
    exact h.waits j hj
  nodup := h.nodup
  rendering j := by
    change ((c.setOut i b).out j).rendering = true ↔ _
    rw [setOut_out]
    split_ifs with hj
    · subst hj
      rw [hbr, ← hr]
      exact h.rendering j
    · exact h.rendering j
  busy j hj := by
    change ((c.setOut i b).out j).rendering = true at hj
    change ((c.setOut i b).out j).busy = true
    rw [setOut_out] at hj ⊢
    split_ifs at hj ⊢
    · simp [hbr] at hj
    · exact h.busy j hj
  origin j hj := by
    change ((c.setOut i b).out j).ready = true ∨ ((c.setOut i b).out j).busy = true ∧
      ((c.setOut i b).out j).rendering = false at hj
    change ∀ p, ((c.setOut i b).out j).picture = some p → p.origin = c.epoch
    rw [setOut_out] at hj ⊢
    split_ifs at hj ⊢
    · exact ho (hj.imp_right And.left)
    · exact h.origin j hj
  converts j s e hpc := by
    have hren : (c.out j).rendering = true := by
      refine (h.rendering j).2 ?_
      rcases hpc with hpc | hpc <;> simp [show c.pc = _ from hpc, Pc.render]
    have hne : j ≠ i := by
      rintro rfl
      simp [hr] at hren
    change ∃ p, ((c.setOut i b).out j).picture = some p ∧ p.origin = e
    rw [setOut_out, if_neg hne]
    exact h.converts j s e hpc

theorem Outputs.setOut (h : Outputs c) {b : OutBuf} (hw : i ∉ renders c.jobs) (hr : (c.out i).rendering = false)
    (hh : c.held i = false) (hb : b.busy = false) (hbr : b.rendering = false)
    (ho : b.ready = true → ∀ p, b.picture = some p → p.origin = c.epoch) : Outputs (c.setOut i b) :=
  h.put hw hr (fun _ _ => rfl) (fun hj => absurd hj (by simp [hh])) (fun _ => hb) hbr
    fun hj => ho (hj.resolve_right (by simp [hb]))

theorem Outputs.freeSlot (h : Outputs c) (hw : i ∉ renders c.jobs) (hr : (c.out i).rendering = false)
    (hh : c.held i = false) : Outputs (c.freeSlot i) := h.setOut hw hr hh rfl hr nofun

theorem keepPicture_kept (h : Outputs c) (hf : 0 < c.freeCount) {p : Picture} (hp : p.origin = c.epoch) :
    ∃ i, c.keepPicture p =
      { c.setOut i { c.out i with picture := some p, eos := false, ready := true, serial := c.stored } with
        known := true, stored := c.stored + 1 } ∧
    Outputs (c.keepPicture p) ∧ (c.keepPicture p).freeCount = c.freeCount - 1 := by
  obtain ⟨i, hi⟩ := Option.isSome_iff_exists.1 (freeOutbuf_isSome.2 hf)
  obtain ⟨hbusy, hready⟩ := freeOutbuf_free hi
  have heq : c.keepPicture p =
      { c.setOut i { c.out i with picture := some p, eos := false, ready := true, serial := c.stored } with
        known := true, stored := c.stored + 1 } := by rw [keepPicture, hi]
  refine ⟨i, heq, ?_, ?_⟩
  · have hset := h.setOut (b := { c.out i with picture := some p, eos := false, ready := true, serial := c.stored })
      (h.not_waits hbusy) (h.not_rendering hbusy) (h.not_held hbusy) hbusy (h.not_rendering hbusy) (by
        intro _ q hq
        cases hq
        exact hp)
    rw [heq]
    exact hset.frame rfl rfl rfl rfl rfl fun _ _ _ => id
  · have hcount := freeCount_setOut (c := c) (i := i)
      { c.out i with picture := some p, eos := false, ready := true, serial := c.stored }
    rw [if_pos (by simp [free, hbusy, hready]), if_neg (by simp [free])] at hcount
    rw [heq]
    change (c.setOut i _).freeCount = _
    omega

end Slots

end Lunaria.Media.Codec
