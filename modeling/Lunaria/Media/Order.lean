import Lunaria.Media.Codec

/-! The order in which pictures are returned. A picture is stored in the first free slot and the slots are searched from the
    first on, so that the order of the slots has to be the order of the pictures: it is, as long as every picture is stored
    behind those that wait. -/

namespace Lunaria.Media.Codec
open List Function

/-- The step calls `keep_picture`. -/
def keeps (c : Codec) : Act → Bool
  | .csd got => !c.threaded && got.isSome
  | .queueInput idx offset size _ _ got =>
    !c.threaded && (c.inp idx).p && decide (offset + size ≤ inCap) && decide (0 < size) && got.isSome
  | .outside (.decoded got keepable) =>
    match c.pc with
    | .pulling epoch => epoch = c.epoch && got.isSome && keepable
    | .decoding _ _ epoch _ => epoch = c.epoch && got.isSome && keepable
    | _ => false
  | _ => false

/-- The first free slot is behind all slots with a picture that waits, and the end of the stream was not returned. -/
def Behind (c : Codec) : Prop := ∀ i, c.freeOutbuf = some i → (∀ j, (c.out j).ready = true → j < i) ∧ c.sentEos = false

/-- The pictures wait in the order of the slots, behind those that were returned, and there are none after the end of the
    stream. -/
structure Ordered (c : Codec) : Prop where
  ready : ∀ i, (c.out i).ready = true → (c.out i).busy = false ∧ (c.out i).serial < c.stored ∧ ∀ n ∈ c.returned,
    n < (c.out i).serial
  slots : ∀ i j, (c.out i).ready = true → (c.out j).ready = true → i < j → (c.out i).serial < (c.out j).serial
  below : ∀ n ∈ c.returned, n < c.stored
  returned : c.returned.Pairwise (· < ·)
  eos : c.sentEos = true → ∀ i, (c.out i).ready = false

section
variable {c c' : Codec}

/-- Nothing was stored or returned, and no picture waits that did not wait before. -/
structure Fewer (c c' : Codec) : Prop where
  out : ∀ i, (c'.out i).ready = true → (c.out i).ready = true ∧ (c'.out i).busy = (c.out i).busy ∧
    (c'.out i).serial = (c.out i).serial
  stored : c'.stored = c.stored
  returned : c'.returned = c.returned
  eos : c'.sentEos = true → c.sentEos = true

theorem Fewer.of_same (ho : c'.out = c.out) (hs : c'.stored = c.stored) (hr : c'.returned = c.returned)
    (he : c'.sentEos = c.sentEos) : Fewer c c' :=
  ⟨fun i hi => ⟨ho ▸ hi, by rw [ho], by rw [ho]⟩, hs, hr, fun h => he ▸ h⟩

theorem Fewer.refl : Fewer c c := .of_same rfl rfl rfl rfl

theorem Fewer.trans {c'' : Codec} (h : Fewer c c') (h' : Fewer c' c'') : Fewer c c'' where
  out i hi := by
    obtain ⟨h1, h2, h3⟩ := h'.out i hi
    obtain ⟨h4, h5, h6⟩ := h.out i h1
    exact ⟨h4, h2.trans h5, h3.trans h6⟩
  stored := h'.stored.trans h.stored
  returned := h'.returned.trans h.returned
  eos he := h.eos (h'.eos he)

theorem Ordered.fewer (h : Ordered c) (hf : Fewer c c') : Ordered c' where
  ready i hi := by
    obtain ⟨hr, hb, hs⟩ := hf.out i hi
    obtain ⟨h1, h2, h3⟩ := h.ready i hr
    rw [hb, hs, hf.stored, hf.returned]
    exact ⟨h1, h2, h3⟩
  slots i j hi hj hij := by
    obtain ⟨hri, -, hsi⟩ := hf.out i hi
    obtain ⟨hrj, -, hsj⟩ := hf.out j hj
    rw [hsi, hsj]
    exact h.slots i j hri hrj hij
  below n hn := by
    rw [hf.stored]
    exact h.below n (hf.returned ▸ hn)
  returned := hf.returned ▸ h.returned
  eos he i := by
    have hno := h.eos (hf.eos he) i
    by_contra hr
    exact absurd (hf.out i (by simpa using hr)).1 (by simp [hno])

/-! ### What the steps do to the slots -/

theorem sinkRef_eq (s : Option Sink) (n : Int) : ∃ refs, c.sinkRef s n = { c with refs := refs } := by
  cases s with
  | none => exact ⟨c.refs, rfl⟩
  | some s => exact ⟨_, rfl⟩

theorem foldl_sinkRef_eq (js : List Job) :
    ∀ c : Codec, ∃ refs, js.foldl (fun c j => c.sinkRef (Job.sink j) (-1)) c = { c with refs := refs } := by
  induction js with
  | nil => exact fun c => ⟨c.refs, rfl⟩
  | cons j js ih =>
    intro c
    obtain ⟨r, hr⟩ := sinkRef_eq (c := c) (Job.sink j) (-1)
    obtain ⟨r', hr'⟩ := ih (c.sinkRef (Job.sink j) (-1))
    exact ⟨r', by rw [foldl_cons, hr', hr]⟩

theorem fewer_sinkRef (s : Option Sink) (n : Int) : Fewer c (c.sinkRef s n) := by
  obtain ⟨r, hr⟩ := sinkRef_eq (c := c) s n
  rw [hr]
  exact .of_same rfl rfl rfl rfl

theorem fewer_setOut {i : Buf} {b : OutBuf} (h : b.ready = true → (c.out i).ready = true ∧ b.busy = (c.out i).busy ∧
    b.serial = (c.out i).serial) : Fewer c (c.setOut i b) where
  out j hj := by
    by_cases hji : j = i
    · subst hji
      rw [setOut] at hj ⊢
      dsimp only at hj ⊢
      rw [update_self] at hj ⊢
      exact h hj
    · rw [setOut] at hj ⊢
      dsimp only at hj ⊢
      rw [update_of_ne hji] at hj ⊢
      exact ⟨hj, rfl, rfl⟩
  stored := rfl
  returned := rfl
  eos := id

theorem fewer_freeSlot (i : Buf) : Fewer c (c.freeSlot i) := fewer_setOut nofun

theorem fewer_jobPush {j : Job} (h : c.jobPush j = some c') : Fewer c c' := by
  rw [jobPush] at h
  split at h
  · cases h
  · cases h
    have hjobs : Fewer c { c with jobs := c.jobs ++ [j] } := .of_same rfl rfl rfl rfl
    exact hjobs.trans (fewer_sinkRef _ _)

theorem fewer_threadEnsure {created b : Bool} (h : c.threadEnsure created = (b, c')) : Fewer c c' := by
  rw [threadEnsure] at h
  split at h <;> obtain ⟨-, rfl⟩ := Prod.mk.inj h <;> exact .of_same rfl rfl rfl rfl

/-- A flush first takes back every buffer that the thread does not use. -/
def cleared (c : Codec) : Codec := { c with
  inp := fun i => if (c.inp i).decoding then c.inp i else { c.inp i with queued := false }
  out := fun i => if (c.out i).rendering then c.out i else { c.out i with busy := false, ready := false }
  gotEos := false
  sentEos := false
  held := fun _ => false }

theorem flush_eq (ht : c.threaded = true) : ∃ refs, c.jobs.foldl (fun c j => c.sinkRef (Job.sink j) (-1)) c.cleared =
    { c.cleared with refs := refs } ∧ c.flush = { c.cleared with
      refs := refs
      pendingDecodes := (finRange 6).countP fun i => (c.inp i).decoding
      epoch := (c.epoch + 1) % 2 ^ 32
      jobs := []
      flushDecoder := true
      draining := false
      drained := false } := by
  obtain ⟨refs, hrefs⟩ := foldl_sinkRef_eq c.jobs c.cleared
  refine ⟨refs, hrefs, ?_⟩
  unfold cleared at hrefs ⊢
  rw [flush]
  dsimp only
  rw [if_pos ht, hrefs]

theorem fewer_flush : Fewer c c.flush := by
  have hslots : Fewer c c.cleared := by
    refine ⟨fun i hi => ?_, rfl, rfl, nofun⟩
    dsimp only [cleared] at hi ⊢
    split at hi
    · rename_i hr
      rw [if_pos hr]
      exact ⟨hi, rfl, rfl⟩
    · cases hi
  cases ht : c.threaded with
  | true =>
    obtain ⟨refs, -, heq⟩ := flush_eq ht
    rw [heq]
    exact hslots.trans (.of_same rfl rfl rfl rfl)
  | false =>
    rw [flush]
    dsimp only
    rw [if_neg (by simp [ht])]
    exact hslots

theorem fewer_dequeueInput : Fewer c c.dequeueInput := by
  have hlease : Fewer c c.leaseInput := by
    rw [leaseInput]
    split
    · exact .refl
    · exact .of_same rfl rfl rfl rfl
  rw [dequeueInput]
  split_ifs <;> first | exact .refl | exact hlease

theorem fewer_releaseOutput (idx : Buf) (sink : Option Sink) (images created : Bool) :
    Fewer c (c.releaseOutput idx sink images created) := by
  have hheld : Fewer c { c with held := Function.update c.held idx false } := .of_same rfl rfl rfl rfl
  unfold releaseOutput
  refine hheld.trans ?_
  dsimp only
  split
  · split
    · exact .refl
    · cases sink with
      | none => exact fewer_freeSlot _
      | some s =>
        dsimp only
        split
        · rename_i hensure
          exact (fewer_threadEnsure hensure).trans (fewer_freeSlot _)
        · rename_i d hensure
          refine (fewer_threadEnsure hensure).trans ?_
          cases hpush : d.jobPush (.render idx s d.epoch) with
          | none => exact fewer_freeSlot _
          | some d' => exact fewer_jobPush hpush
  · split_ifs
    · exact fewer_freeSlot _
    · exact .refl
    · exact fewer_freeSlot _

theorem fewer_threadTake (h : c.threadTake = some c') : Fewer c c' := by
  rw [threadTake] at h
  split at h
  · cases h
  · split at h
    · cases h
      exact .of_same rfl rfl rfl rfl
    · split at h
      · split at h
        · cases h
          exact .of_same rfl rfl rfl rfl
        · cases h
      · cases h
        exact .of_same rfl rfl rfl rfl
      · rename_i idx sink epoch rest hjobs
        dsimp only at h
        split at h
        · cases h
          have hset : Fewer c (c.setOut idx { c.out idx with rendering := true }) := fewer_setOut fun hr => ⟨hr, rfl, rfl⟩
          exact hset.trans (.of_same rfl rfl rfl rfl)
        · cases h
          have hrest : Fewer c { c with jobs := rest } := .of_same rfl rfl rfl rfl
          exact (hrest.trans (fewer_freeSlot idx)).trans (fewer_sinkRef _ _)

theorem freeOutbuf_free {i : Buf} (h : c.freeOutbuf = some i) : (c.out i).busy = false ∧ (c.out i).ready = false := by
  rw [freeOutbuf] at h
  have hfree := find?_some h
  simpa [free] using hfree

section
variable (h : Ordered c)
include h

theorem Ordered.keepPicture (hb : Behind c) (p : Picture) : Ordered (c.keepPicture p) := by
  rw [Codec.keepPicture]
  cases hfree : c.freeOutbuf with
  | none => exact h
  | some i =>
    obtain ⟨hbusy, -⟩ := freeOutbuf_free hfree
    obtain ⟨hbehind, heos⟩ := hb i hfree
    dsimp only [setOut]
    refine ⟨?_, ?_, fun n hn => Nat.lt_succ_of_lt (h.below n hn), h.returned, fun he => absurd he (by simp [heos])⟩
    · intro j hj
      by_cases hji : j = i
      · subst hji
        dsimp only
        rw [update_self]
        exact ⟨hbusy, Nat.lt_succ_self _, h.below⟩
      · dsimp only at hj ⊢
        rw [update_of_ne hji] at hj ⊢
        obtain ⟨h1, h2, h3⟩ := h.ready j hj
        exact ⟨h1, Nat.lt_succ_of_lt h2, h3⟩
    · intro j k hj hk hjk
      by_cases hki : k = i
      · subst hki
        have hne : j ≠ k := ne_of_lt hjk
        dsimp only at hj ⊢
        rw [update_of_ne hne] at hj ⊢
        rw [update_self]
        exact (h.ready j hj).2.1
      · dsimp only at hj hk ⊢
        rw [update_of_ne hki] at hk ⊢
        by_cases hji : j = i
        · subst hji
          exact absurd hjk (not_lt_of_gt (hbehind k hk))
        · rw [update_of_ne hji] at hj ⊢
          exact h.slots j k hj hk hjk

/-- The first slot with a picture has the oldest. -/
theorem Ordered.dequeueOutput : Ordered c.dequeueOutput := by
  rw [Codec.dequeueOutput]
  split
  · exact h
  split
  · exact h.fewer (.of_same rfl rfl rfl rfl)
  cases hfind : (finRange 6).find? fun i => (c.out i).ready && !(c.out i).busy with
  | some i =>
    have hready : (c.out i).ready = true := by
      have hi := find?_some hfind
      simp at hi
      exact hi.1
    have hfirst : ∀ j, (c.out j).ready = true → j ≠ i → (c.out i).serial < (c.out j).serial := by
      intro j hj hne
      refine h.slots i j hready hj ?_
      rcases lt_trichotomy i j with hlt | heq | hlt
      · exact hlt
      · exact absurd heq.symm hne
      · obtain ⟨-, k, hk, hki, hbefore⟩ := find?_eq_some_iff_getElem.1 hfind
        rw [getElem_finRange] at hki
        have hjk : j.1 < k := by
          rw [← hki] at hlt
          exact Fin.lt_def.1 hlt
        have hnot := hbefore j.1 hjk
        simp [hj, (h.ready j hj).1] at hnot
    dsimp only [setOut]
    obtain ⟨-, hstored, hbelow⟩ := h.ready i hready
    refine ⟨?_, ?_, ?_, ?_, ?_⟩
    · intro j hj
      dsimp only at hj ⊢
      have hne : j ≠ i := by
        rintro rfl
        simp at hj
      rw [update_of_ne hne] at hj ⊢
      obtain ⟨h1, h2, h3⟩ := h.ready j hj
      refine ⟨h1, h2, fun n hn => ?_⟩
      rcases mem_append.1 hn with hn | hn
      · exact h3 n hn
      · rw [mem_singleton.1 hn]
        exact hfirst j hj hne
    · intro j k hj hk hjk
      dsimp only at hj hk ⊢
      have hji : j ≠ i := by
        rintro rfl
        simp at hj
      have hki : k ≠ i := by
        rintro rfl
        simp at hk
      rw [update_of_ne hji] at hj ⊢
      rw [update_of_ne hki] at hk ⊢
      exact h.slots j k hj hk hjk
    · intro n hn
      rcases mem_append.1 hn with hn | hn
      · exact h.below n hn
      · rw [mem_singleton.1 hn]
        exact hstored
    · refine pairwise_append.2 ⟨h.returned, pairwise_singleton _ _, fun a ha b hb => ?_⟩
      rw [mem_singleton.1 hb]
      exact hbelow a ha
    · intro he j
      exact absurd hready (by simp [h.eos he i])
  | none =>
    have hnone : ∀ i, (c.out i).ready = false := by
      intro i
      by_contra hr
      have hri : (c.out i).ready = true := by simpa using hr
      have hno := find?_eq_none.1 hfind i (mem_finRange i)
      simp [hri, (h.ready i hri).1] at hno
    dsimp only
    split
    · exact h
    split
    · split
      · rename_i i _
        have hnot :
            ∀ j, ¬ ((c.setOut i { c.out i with busy := true, picture := none, eos := true }).out j).ready = true := by
          intro j hj
          rw [setOut] at hj
          dsimp only at hj
          by_cases hji : j = i
          · subst hji
            simp [hnone] at hj
          · rw [update_of_ne hji] at hj
            simp [hnone] at hj
        refine ⟨?_, ?_, h.below, h.returned, ?_⟩
        · exact fun j hj => absurd hj (hnot j)
        · exact fun j _ hj => absurd hj (hnot j)
        · exact fun _ j => by simpa using hnot j
      · exact h
    · exact h

/-! ### Steps and runs -/

theorem Ordered.queueInput {idx : Buf} {offset size : Nat} {eos created : Bool} {got : Option Picture}
    (hb : c.keeps (.queueInput idx offset size eos created got) = true → Behind c) :
    Ordered (c.queueInput idx offset size eos created got) := by
  unfold Codec.queueInput
  split
  · exact h
  rename_i hfits
  obtain ⟨hp, hcap⟩ := not_or.1 hfits
  split
  · rename_i ht
    dsimp only
    have hset : Fewer c { c.setIn idx { c.inp idx with submitted := true } with gotEos := c.gotEos || eos } :=
      .of_same rfl rfl rfl rfl
    have hin : ∀ (d : Codec) (b : InBuf), Fewer d (d.setIn idx b) := fun d b => .of_same rfl rfl rfl rfl
    split
    · split
      · rename_i d hensure
        exact h.fewer ((hset.trans (fewer_threadEnsure hensure)).trans (hin d _))
      · rename_i d hensure
        have hd := hset.trans (fewer_threadEnsure hensure)
        split
        · exact h.fewer (hd.trans (hin d _))
        · rename_i d' hpush
          exact h.fewer ((hd.trans (fewer_jobPush hpush)).trans (.of_same rfl rfl rfl rfl))
    · exact h.fewer (hset.trans (hin _ _))
  · rename_i ht
    dsimp only
    have hset : Fewer c { c.setIn idx { c.inp idx with queued := false } with gotEos := c.gotEos || eos } :=
      .of_same rfl rfl rfl rfl
    cases got with
    | none => exact h.fewer hset
    | some p =>
      dsimp only
      split
      · rename_i hsize
        have hbehind := hb (by simp [keeps, ht, hsize, Nat.le_of_not_lt hcap, (by simpa using hp : (c.inp idx).p = true)])
        exact (h.fewer hset).keepPicture hbehind p
      · exact h.fewer hset

theorem Ordered.keepFrame {epoch : Nat} {got : Option Picture} {keepable : Bool}
    (hb : epoch = c.epoch → got.isSome = true → keepable = true → Behind c) : Ordered (c.keepFrame epoch got keepable) := by
  cases got with
  | none => exact h
  | some p =>
    rw [Codec.keepFrame]
    split
    · rename_i hkeep
      exact h.keepPicture (hb hkeep.1 rfl hkeep.2) p
    · exact h

theorem Ordered.threadStep {o : Outside} (hb : c.keeps (.outside o) = true → Behind c)
    (hstep : c.threadStep o = some c') : Ordered c' := by
  unfold Codec.threadStep at hstep
  split at hstep
  · cases hstep
    exact h.fewer (.of_same rfl rfl rfl rfl)
  · rename_i epoch got keepable hpc
    split at hstep
    · cases hstep
      have hidle : Fewer c { c with pc := .idle } := .of_same rfl rfl rfl rfl
      rw [finishPull]
      dsimp only
      split
      · exact h.fewer hidle
      split
      · exact (h.fewer hidle).keepFrame fun he hg hk => hb (by simp [keeps, hpc, he, hg, hk])
      · exact h.fewer (.of_same rfl rfl rfl rfl)
    · cases hstep
  · cases hstep
    exact h.fewer (.of_same rfl rfl rfl rfl)
  · rename_i idx eos epoch current got keepable hpc
    split at hstep
    · cases hstep
      have hset : ∀ f n, Fewer c { c.setIn idx { c.inp idx with decoding := false, queued := false } with
          fed := f, pc := .idle, pendingDecodes := n } := fun _ _ => .of_same rfl rfl rfl rfl
      have hback : epoch = c.epoch → got.isSome = true → keepable = true → Behind c := fun he hg hk =>
        hb (by simp [keeps, hpc, he, hg, hk])
      exact ((h.fewer (hset (c.fedWith epoch current) _)).keepFrame hback).fewer (.of_same rfl rfl rfl rfl)
    · cases hstep
  iterate 5
    · cases hstep
      exact h.fewer (.of_same rfl rfl rfl rfl)
  · rename_i idx sink hpc
    cases hstep
    have hset : Fewer c (c.setOut idx { c.out idx with rendering := false, busy := false, ready := false }) :=
      fewer_setOut nofun
    have hidle : Fewer c { c.setOut idx { c.out idx with rendering := false, busy := false, ready := false } with
        pc := .idle } :=
      hset.trans (.of_same rfl rfl rfl rfl)
    exact h.fewer (hidle.trans (fewer_sinkRef (some sink) (-1)))
  · cases hstep

theorem Ordered.step {a : Act} (hb : c.keeps a = true → Behind c) (hstep : c.step a = some c') : Ordered c' := by
  cases a with
  | start =>
    cases hstep
    exact h.fewer (.of_same rfl rfl rfl rfl)
  | csd got =>
    dsimp only [Codec.step] at hstep
    split at hstep
    · cases hstep
    · rename_i ht
      cases got with
      | none =>
        cases hstep
        exact h
      | some p =>
        cases hstep
        exact h.keepPicture (hb (by simp [keeps, ht])) p
  | stop =>
    cases hstep
    have hstop : Fewer c { c with started := false } := .of_same rfl rfl rfl rfl
    exact h.fewer (hstop.trans fewer_flush)
  | flush =>
    cases hstep
    exact h.fewer fewer_flush
  | dequeueInput =>
    cases hstep
    exact h.fewer fewer_dequeueInput
  | queueInput idx offset size eos created got =>
    cases hstep
    exact h.queueInput hb
  | dequeueOutput =>
    cases hstep
    exact h.dequeueOutput
  | releaseOutput idx sink images created =>
    cases hstep
    exact h.fewer (fewer_releaseOutput idx sink images created)
  | take =>
    rw [Codec.step] at hstep
    split at hstep
    · exact h.fewer (fewer_threadTake hstep)
    · cases hstep
  | outside o =>
    rw [Codec.step] at hstep
    split at hstep
    · exact h.threadStep hb hstep
    · cases hstep

end

end

/-- A run from a new codec, with the condition that each of its steps meets. -/
inductive Run (P : Codec → Act → Prop) (threaded : Bool) : Codec → Prop
  | new : Run P threaded (Codec.new threaded)
  | step {c c' : Codec} (a : Act) : Run P threaded c → P c a → c.step a = some c' → Run P threaded c'

/-- If every picture is stored behind those that wait, and none after the end of the stream was returned: pictures are
    returned in the order in which they were stored, each at most once, and the end of the stream only when none waits. -/
theorem pictures_in_order {threaded : Bool} {c : Codec} (h : Run (fun c a => c.keeps a = true → Behind c) threaded c) :
    c.returned.Pairwise (· < ·) ∧ (∀ n ∈ c.returned, n < c.stored) ∧ (c.sentEos = true → ∀ i, (c.out i).ready = false) := by
  have hinv : Ordered c := by
    induction h with
    | new =>
      refine ⟨fun i hi => ?_, fun i _ hi => ?_, ?_, List.Pairwise.nil, fun _ _ => rfl⟩
      · cases hi
      · cases hi
      · intro n hn
        cases hn
    | step a _ hb hstep ih => exact ih.step hb hstep
  exact ⟨hinv.returned, hinv.below, hinv.eos⟩

/-- Some steps, one after the other. -/
def run (c : Codec) (l : List Act) : Option Codec := l.foldlM step c

def packet (i : Buf) : List Act := [.dequeueInput, .queueInput i 0 1 false true (some ⟨0⟩)]

/-- Some steps, as long as each meets the condition. -/
def runIf (P : Codec → Act → Prop) [∀ c a, Decidable (P c a)] (c : Codec) (l : List Act) : Option Codec :=
  l.foldlM (fun c a => if P c a then c.step a else none) c

theorem run_runIf {P : Codec → Act → Prop} [∀ c a, Decidable (P c a)] {threaded : Bool} {l : List Act} :
    ∀ {c c' : Codec}, Run P threaded c → c.runIf P l = some c' → Run P threaded c' := by
  induction l with
  | nil =>
    intro c c' h hl
    cases hl
    exact h
  | cons a l ih =>
    intro c c' h hl
    rw [runIf, List.foldlM_cons] at hl
    obtain ⟨d, hd, hrest⟩ := Option.bind_eq_some_iff.1 hl
    split_ifs at hd with hmeets
    exact ih (.step a h hmeets hd) hrest

instance (c : Codec) : Decidable (Behind c) :=
  inferInstanceAs (Decidable (∀ i, c.freeOutbuf = some i → (∀ j, (c.out j).ready = true → j < i) ∧ c.sentEos = false))

/-- Three pictures wait; when they were taken and the first was released, a fourth gets its slot. -/
def inOrder : List Act := [.start] ++ packet 0 ++ packet 0 ++ packet 0 ++
  [.dequeueOutput, .dequeueOutput, .dequeueOutput, .dequeueOutput, .releaseOutput 0 none false true] ++ packet 0 ++
    [.dequeueOutput]

theorem pictures_in_order_four : ∃ c, Run (fun c a => c.keeps a = true → Behind c) false c ∧ c.returned = [0, 1, 2, 3] ∧
    (c.returned.Pairwise (· < ·) ∧ (∀ n ∈ c.returned, n < c.stored) ∧
    (c.sentEos = true → ∀ i, (c.out i).ready = false)) := by
  obtain ⟨c, hc⟩ : ∃ c, (Codec.new false).runIf (fun c a => c.keeps a = true → Behind c) inOrder = some c :=
    Option.isSome_iff_exists.1 (by decide)
  have hreturned :
      ((Codec.new false).runIf (fun c a => c.keeps a = true → Behind c) inOrder).map returned = some [0, 1, 2, 3] := by
    decide
  rw [hc, Option.map_some, Option.some.injEq] at hreturned
  have hrun := run_runIf .new hc
  exact ⟨c, hrun, hreturned, pictures_in_order hrun⟩

/-- Two pictures wait; the first is taken and released, and the third gets its slot: it is returned before the second. -/
theorem pictures_out_of_order : ((Codec.new false).run ([.start] ++ packet 0 ++ packet 0 ++ [.dequeueOutput, .dequeueOutput,
    .releaseOutput 0 none false true] ++ packet 0 ++ [.dequeueOutput, .dequeueOutput])).map returned = some [0, 2, 1] := by
  decide

end Lunaria.Media.Codec
