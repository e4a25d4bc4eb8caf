import Lunaria.Os.RunQueue

/-! The passes of `schedule_threads`. A pass takes the run queue as a batch and gives each of its threads a turn; between
    two turns threads are marked ready and taken away, and a pass inside a callback first puts the rest of the batch back.
    What is taken away stays in its queue and is passed over there. -/

namespace Lunaria.Os
open Function List

/-- A queue that `drain` works on, and how many turns it still has. -/
structure Batch where
  queue : RunQueue
  budget : Nat

/-- The condition of the loop in `drain`. -/
def Batch.running (b : Batch) : Prop := b.budget ≠ 0 ∧ b.queue.count ≠ 0

instance (b : Batch) : Decidable b.running := inferInstanceAs (Decidable (_ ∧ _))

/-- `g_ready_queue`, `g_in_ready`, and the batches of the passes, by host thread and depth. -/
structure Sched where
  ready : RunQueue
  inReady : UInt8 → Bool
  batches : Nat → Batch

def Sched.start : Sched := ⟨lunaRunQueueClear, fun _ => false, fun _ => ⟨lunaRunQueueClear, 0⟩⟩

/-- The loop that puts a batch back, `n` times. -/
def publish (inReady : UInt8 → Bool) : Nat → RunQueue → RunQueue → RunQueue × RunQueue
  | 0, batch, ready => (batch, ready)
  | n + 1, batch, ready =>
    let tid := (lunaRunQueuePop batch).1
    publish inReady n (lunaRunQueuePop batch).2 (if inReady tid then lunaRunQueuePush ready tid false else ready)

/-- What is done under the lock at a time. -/
inductive SchedAct where
  /-- `thread_mark_ready_ex` -/
  | mark (tid : UInt8) (urgent : Bool)
  /-- A thread is blocked, forgotten, or run by somebody else. -/
  | drop (tid : UInt8)
  /-- A pass takes the queue. -/
  | snapshot (pass : Nat)
  /-- One turn of `drain`. -/
  | turn (pass : Nat)
  /-- A pass inside a callback begins. -/
  | nested (pass : Nat)

def Sched.step (s : Sched) : SchedAct → Sched
  | .mark tid urgent =>
    if tid = 0 ∨ s.inReady tid then s
    else { s with ready := lunaRunQueuePush s.ready tid urgent, inReady := update s.inReady tid true }
  | .drop tid => { s with inReady := update s.inReady tid false }
  | .snapshot i =>
    if (s.batches i).running then s
    else { s with ready := lunaRunQueueClear, batches := update s.batches i ⟨s.ready, s.ready.count⟩ }
  | .turn i =>
    let b := s.batches i
    if b.running then
      let (tid, queue) := lunaRunQueuePop b.queue
      { s with inReady := update s.inReady tid false, batches := update s.batches i ⟨queue, b.budget - 1⟩ }
    else s
  | .nested i =>
    let b := s.batches i
    let (batch, ready) := publish s.inReady b.queue.count b.queue s.ready
    { s with ready := ready, batches := update s.batches i ⟨batch, b.budget⟩ }

/-! ### No thread is lost -/

section
variable {q r : RunQueue} {l : List UInt8} {tid : UInt8} {f : UInt8 → Bool}

theorem push_holds (urgent : Bool) (h : Holds q l) (htid : tid ≠ 0) : (∃ l, Holds (lunaRunQueuePush q tid urgent) l) ∧
    ∀ t, q.present t ≠ 0 ∨ t = tid → (lunaRunQueuePush q tid urgent).present t ≠ 0 := by
  have hpush := apply_holds h (.push tid urgent)
  refine ⟨⟨_, hpush⟩, fun t ht => (hpush.present t).2 ?_⟩
  rw [RunOp.act, if_neg htid]
  by_cases hne : t = tid
  · cases urgent <;> simp [hne]
  · have hmem : t ∈ l.erase tid := (mem_erase_of_ne hne).2 ((h.present t).1 (ht.resolve_right hne))
    cases urgent <;> simp [hmem]

theorem pop_holds (h : Holds q l) : Holds (lunaRunQueuePop q).2 l.tail ∧
    ∀ t, q.present t ≠ 0 → t = (lunaRunQueuePop q).1 ∨ (lunaRunQueuePop q).2.present t ≠ 0 := by
  have hpop := apply_holds h .pop
  refine ⟨hpop, fun t ht => ?_⟩
  have hmem := (h.present t).1 ht
  have hfirst : (lunaRunQueuePop q).1 = DoublyLinked.first 0 l := h.head
  cases l with
  | nil => cases hmem
  | cons a l => exact (mem_cons.1 hmem).imp (·.trans hfirst.symm) (hpop.present t).2

theorem Holds.empty (h : Holds q l) (hq : q.count = 0) (t : UInt8) : q.present t = 0 := by
  have hnil : l = [] := eq_nil_of_length_eq_zero (h.count.symm.trans hq)
  exact not_not.1 fun ht => not_mem_nil (hnil ▸ (h.present t).1 ht)

/-- What is put back is all that is still marked ready. -/
theorem publish_holds {n : Nat} (hq : Holds q l) (hr : ∃ l, Holds r l) (hn : q.count = n) :
    ((∃ l, Holds (publish f n q r).1 l) ∧ (publish f n q r).1.count = 0) ∧ (∃ l, Holds (publish f n q r).2 l) ∧
      ∀ t, r.present t ≠ 0 ∨ q.present t ≠ 0 ∧ f t = true → (publish f n q r).2.present t ≠ 0 := by
  induction n generalizing q r l with
  | zero => exact ⟨⟨⟨l, hq⟩, hn⟩, hr, fun t ht => ht.resolve_right fun ht => ht.1 (hq.empty hn t)⟩
  | succ n ih =>
    obtain ⟨hpop, hkept⟩ := pop_holds hq
    rw [publish]
    generalize hr' : (if f (lunaRunQueuePop q).1 then lunaRunQueuePush r (lunaRunQueuePop q).1 false else r) = r'
    have hput : (∃ l, Holds r' l) ∧ ∀ t, r.present t ≠ 0 ∨ t = (lunaRunQueuePop q).1 ∧ f t = true → r'.present t ≠ 0 := by
      obtain ⟨m, hm⟩ := hr
      rw [← hr']
      split
      · refine (push_holds false hm ?_).imp_right fun hall t ht => hall t (ht.imp_right And.left)
        cases l with
        | nil => exact absurd (hn.symm.trans hq.count) n.succ_ne_zero
        | cons a l => exact fun ha => hq.nonzero (mem_cons.2 (.inl (ha.symm.trans hq.head)))
      · exact ⟨⟨m, hm⟩, fun t ht => ht.resolve_right fun ⟨hh, hf⟩ => absurd (hh ▸ hf) ‹_›⟩
    have hcount : (lunaRunQueuePop q).2.count = n := by
      rw [hpop.count, length_tail, ← hq.count, hn, Nat.add_sub_cancel]
    refine (ih hpop hput.1 hcount).imp_right (.imp_right fun hall t ht => hall t ?_)
    rcases ht with ht | ⟨ht, hf⟩
    · exact .inl (hput.2 t (.inl ht))
    · exact (hkept t ht).imp (fun hh => hput.2 t (.inr ⟨hh, hf⟩)) fun ht => ⟨ht, hf⟩

end

def Batch.Ok (b : Batch) : Prop := (∃ l, Holds b.queue l) ∧ b.queue.count ≤ b.budget

structure Sched.Inv (s : Sched) : Prop where
  ready : ∃ l, Holds s.ready l
  batch : ∀ i, (s.batches i).Ok
  queued : ∀ t, s.inReady t = true → s.ready.present t ≠ 0 ∨ ∃ i, (s.batches i).queue.present t ≠ 0

/-- A change of one batch and of the ready queue. -/
theorem Sched.Inv.of {s : Sched} (h : s.Inv) {ready : RunQueue} {f : UInt8 → Bool} {i : Nat} {b : Batch}
    (hready : ∃ l, Holds ready l) (hb : b.Ok)
    (hf : ∀ t, f t = true → s.inReady t = true ∧ (s.ready.present t ≠ 0 ∨ (s.batches i).queue.present t ≠ 0 →
      ready.present t ≠ 0 ∨ b.queue.present t ≠ 0)) : Sched.Inv ⟨ready, f, update s.batches i b⟩ := by
  refine ⟨hready, (forall_update_iff s.batches fun _ b => b.Ok).2 ⟨hb, fun j _ => h.batch j⟩, fun t ht => ?_⟩
  obtain ⟨hin, hmove⟩ := hf t ht
  show _ ∨ ∃ j, (update s.batches i b j).queue.present t ≠ 0
  rw [exists_update_iff s.batches fun _ b => b.queue.present t ≠ 0, ← or_assoc]
  rcases h.queued t hin with hr | ⟨j, hj⟩
  · exact .inl (hmove (.inl hr))
  · by_cases hji : j = i
    · exact .inl (hmove (.inr (hji ▸ hj)))
    · exact .inr ⟨j, hji, hj⟩

theorem Sched.Inv.step {s : Sched} (h : s.Inv) (act : SchedAct) : (s.step act).Inv := by
  cases act with
  | mark tid urgent =>
    rw [Sched.step]
    split
    · exact h
    · rename_i hno
      obtain ⟨l, hl⟩ := h.ready
      obtain ⟨hpush, hall⟩ := push_holds urgent hl fun h0 => hno (.inl h0)
      refine ⟨hpush, h.batch, fun t ht => ?_⟩
      by_cases hne : t = tid
      · exact .inl (hall t (.inr hne))
      · exact (h.queued t ((update_of_ne hne ..).symm.trans ht)).imp_left fun hr => hall t (.inl hr)
  | drop tid =>
    refine ⟨h.ready, h.batch, fun t ht => h.queued t ?_⟩
    by_cases hne : t = tid
    · simp [Sched.step, hne] at ht
    · simpa [Sched.step, hne] using ht
  | snapshot i =>
    rw [Sched.step]
    split
    · exact h
    · rename_i hno
      obtain ⟨⟨l, hl⟩, hle⟩ := h.batch i
      have hempty := hl.empty (by unfold Batch.running at hno; omega)
      exact h.of ⟨[], holds_clear⟩ ⟨h.ready, Nat.le_refl _⟩ fun t ht =>
        ⟨ht, fun hor => .inr (hor.resolve_right fun hb => hb (hempty t))⟩
  | turn i =>
    rw [Sched.step]
    dsimp only
    split
    · obtain ⟨⟨l, hl⟩, hle⟩ := h.batch i
      obtain ⟨hpop, hkept⟩ := pop_holds hl
      have hcount : (lunaRunQueuePop (s.batches i).queue).2.count ≤ (s.batches i).budget - 1 := by
        rw [hpop.count, length_tail, ← hl.count]
        exact Nat.sub_le_sub_right hle 1
      refine h.of h.ready ⟨⟨_, hpop⟩, hcount⟩ fun t ht => ?_
      by_cases hne : t = (s.batches i).queue.head
      · simp [hne, lunaRunQueuePop] at ht
      · exact ⟨(update_of_ne hne ..).symm.trans ht, Or.imp_right fun hb => (hkept t hb).resolve_left hne⟩
    · exact h
  | nested i =>
    obtain ⟨⟨l, hl⟩, -⟩ := h.batch i
    obtain ⟨⟨hb, hc⟩, hr, hall⟩ := publish_holds (f := s.inReady) hl h.ready rfl
    exact h.of hr ⟨hb, hc ▸ Nat.zero_le _⟩ fun t ht => ⟨ht, fun hor => .inl (hall t (hor.imp_right (⟨·, ht⟩)))⟩

/-- Whatever passes there are, and whatever happens between two turns, a thread that is marked ready is in the queue or in
    a batch that is still drained. -/
theorem sched_loses_no_thread (acts : List SchedAct) (t : UInt8) :
    let s := acts.foldl Sched.step .start
    s.inReady t = false ∨ s.ready.present t ≠ 0 ∨ ∃ i, (s.batches i).running ∧ (s.batches i).queue.present t ≠ 0 := by
  have hrun : (acts.foldl Sched.step .start).Inv := by
    induction acts using List.reverseRecOn with
    | nil => exact ⟨⟨[], holds_clear⟩, fun _ => ⟨⟨[], holds_clear⟩, Nat.le_refl _⟩, nofun⟩
    | append_singleton acts act ih => exact foldl_append ▸ ih.step act
  refine (Bool.eq_false_or_eq_true _).symm.imp_right fun ht => (hrun.queued t ht).imp_right fun ⟨i, hi⟩ => ⟨i, ?_, hi⟩
  obtain ⟨⟨l, hl⟩, hle⟩ := hrun.batch i
  have hcount : ((acts.foldl Sched.step .start).batches i).queue.count ≠ 0 := fun h0 => hi (hl.empty h0 t)
  exact ⟨by omega, hcount⟩

end Lunaria.Os
