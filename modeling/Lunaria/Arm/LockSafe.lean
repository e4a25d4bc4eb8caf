import Lunaria.Arm.Lock

/-! The ARM execution lock is exclusive and first come, first served. What a step can do to the lock is one of four things;
    the invariant is kept by each of them, and the lock of the library is what the state looks like from outside. -/

namespace Lunaria.Arm
open Handover List Function Option

/-! ### Threads -/

/-- In the wait of `arm_lock_acquire`. -/
def Thread.waits (th : Thread) : Bool :=
  match th.pc with
  | .spinning _ | .parked _ _ => true
  | _ => false

/-- Handed the lock, and not yet returned. -/
def Thread.handed (th : Thread) : Bool := th.go && th.waits

/-- Waiting to be handed the lock. -/
def Thread.queued (th : Thread) : Bool := th.waits && !th.go

def Thread.Owns (th : Thread) : Prop := th.depth ≠ 0 ∨ th.handed = true

/-- The depth that the call a thread is in returns with. -/
def Pc.target : Pc → Option UInt32
  | .idle => none
  | .spinning d | .parked d _ | .relocking d => some d

structure Thread.Ok (th : Thread) : Prop where
  busy : th.pc ≠ .idle → th.depth = 0
  target : ∀ d, th.pc.target = some d → d ≠ 0
  parked : ∀ d b, th.pc = .parked d b → th.sleeping = true ∧ (th.go = true → b = true)

variable {th : Thread}

theorem Thread.Ok.idle (h : th.pc = .idle) : th.Ok where
  busy hne := absurd h hne
  target d hd := by rw [h] at hd; cases hd
  parked d b hb := by rw [h] at hb; cases hb

theorem Thread.waits_hand (th : Thread) : th.hand.waits = th.waits := by
  unfold Thread.hand Thread.waits Pc.signal
  cases th.pc <;> cases th.sleeping <;> rfl

theorem Thread.target_hand (th : Thread) : th.hand.pc.target = th.pc.target := by
  unfold Thread.hand Pc.signal
  cases th.pc <;> cases th.sleeping <;> rfl

theorem Thread.Ok.hand (h : th.Ok) : th.hand.Ok where
  busy hne := by
    apply h.busy
    intro hidle
    apply hne
    simp [Thread.hand, hidle, Pc.signal]
  target d hd := h.target d (th.target_hand ▸ hd)
  parked d b hb := by
    cases hpc : th.pc with
    | parked d' b' =>
      have hs := (h.parked d' b' hpc).1
      simp only [Thread.hand, hs, hpc, if_true, Pc.signal, Pc.parked.injEq] at hb
      exact ⟨hs, fun _ => hb.2.symm⟩
    | idle | spinning _ | relocking _ => cases hs : th.sleeping <;> simp [Thread.hand, hs, hpc, Pc.signal] at hb

section
variable {T : Type} [DecidableEq T]

def State.lock (s : State T) : Lock T :=
  ⟨s.locked, s.queue, fun t => (s.thread t).handed, s.holder, s.arrived, s.served⟩

theorem State.put_same (s : State T) (t : T) (th : Thread) : (s.put t th).thread t = th := update_self ..

theorem State.put_ne (s : State T) {t u : T} (th : Thread) (h : u ≠ t) : (s.put t th).thread u = s.thread u :=
  update_of_ne h ..

/-- What holds of a thread that is put, and of the others as they are, holds of all. -/
theorem State.put_forall (s : State T) {t : T} {th : Thread} {P : T → Thread → Prop} (hself : P t th)
    (hothers : ∀ u, u ≠ t → P u (s.thread u)) (u : T) : P u ((s.put t th).thread u) := by
  by_cases hu : u = t
  · subst hu
    rw [s.put_same]
    exact hself
  · rw [s.put_ne th hu]
    exact hothers u hu

theorem State.go_put (s : State T) (t : T) (th : Thread) :
    (s.put t th).lock.go = update s.lock.go t th.handed := by
  funext u
  by_cases hu : u = t
  · subst hu
    rw [update_self]
    exact congrArg Thread.handed (s.put_same u th)
  · rw [update_of_ne hu]
    exact congrArg Thread.handed (s.put_ne th hu)

theorem State.lock_put (s : State T) (t : T) (th : Thread) :
    (s.put t th).lock = { s.lock with go := update s.lock.go t th.handed } := by
  rw [← State.go_put]
  rfl

variable {s : State T} {th : Thread}

/-- A thread that is not the first waiter may be changed after the hand-over instead of before. -/
theorem State.put_handOver {t : T} (ht : t ∉ s.queue) (th th' : Thread) :
    ((s.put t th).handOver).put t th' = (s.put t th').handOver := by
  unfold State.handOver
  have hq (th : Thread) : (s.put t th).queue = s.queue := rfl
  rw [hq, hq]
  cases hqueue : s.queue with
  | nil => simp [State.put]
  | cons w q =>
    have hne : w ≠ t := fun h => ht (by rw [hqueue, h]; exact mem_cons_self)
    simp only [State.put, update_of_ne hne]
    rw [update_comm hne, update_idem]

theorem State.handOver_thread_ne {t : T} (ht : t ∉ s.queue) : s.handOver.thread t = s.thread t := by
  unfold State.handOver
  cases hqueue : s.queue with
  | nil => rfl
  | cons w q =>
    have hne : t ≠ w := fun h => ht (by rw [hqueue, h]; exact mem_cons_self)
    exact s.put_ne _ hne

/-! ### What a step can do -/

/-- A thread changes its own data; takes the free lock; queues; or hands the lock over. -/
inductive Outcome (s : State T) : State T → Prop
  | own (t : T) (th : Thread) (hok : th.Ok) (howns : th.Owns ↔ (s.thread t).Owns)
      (hqueued : th.queued = (s.thread t).queued) (hhanded : th.handed = false ∨ th.handed = (s.thread t).handed) :
      Outcome s (s.put t th)
  | take (t : T) (th : Thread) (hfree : s.locked = false) (hempty : s.queue = []) (hok : th.Ok) (howns : th.Owns)
      (hhanded : th.handed = false) (hqueued : th.queued = false) :
      Outcome s { s.put t th with locked := true, holder := some t }
  | enqueue (t : T) (th : Thread) (hold : ¬(s.thread t).Owns) (hout : (s.thread t).queued = false) (hok : th.Ok)
      (howns : ¬th.Owns) (hqueued : th.queued = true) :
      Outcome s { s.put t th with queue := s.queue ++ [t], arrived := s.arrived ++ [t] }
  | handOver (t : T) (th : Thread) (hold : (s.thread t).depth ≠ 0) (hok : th.Ok) (howns : ¬th.Owns)
      (hqueued : th.queued = false) : Outcome s (s.put t th).handOver

structure Inv (s : State T) : Prop where
  ok : s.lock.Ok
  threads : ∀ t, (s.thread t).Ok
  owner : ∀ t, s.holder = some t ↔ (s.thread t).Owns
  locked : s.locked = true ↔ ∃ t, s.holder = some t
  queued : ∀ t, t ∈ s.queue ↔ (s.thread t).queued = true

theorem Thread.handed_of_not_owns (h : ¬th.Owns) : th.handed = false :=
  Bool.eq_false_iff.2 fun hh => h (.inr hh)

theorem Thread.queued_of_handed (h : th.handed = true) : th.queued = false := by
  obtain ⟨hgo, hwaits⟩ := Bool.and_eq_true_iff.1 h
  rw [Thread.queued, hgo, hwaits]
  rfl

theorem Thread.queued_of_owns (hok : th.Ok) (h : th.Owns) : th.queued = false := by
  rcases h with hd | hh
  · have hidle : th.pc = .idle := by
      by_contra hne
      exact hd (hok.busy hne)
    simp [Thread.queued, Thread.waits, hidle]
  · exact Thread.queued_of_handed hh

namespace Inv
variable {s : State T}

variable {t : T} {th : Thread}

omit [DecidableEq T] in
theorem not_mem_queue (h : Inv s) (hq : (s.thread t).queued = false) : t ∉ s.queue := by
  rw [h.queued, hq]
  exact Bool.false_ne_true

omit [DecidableEq T] in
theorem init : Inv (.init : State T) where
  ok := by
    have h := Lock.Ok.init (T := T)
    exact ⟨h.free, h.fifo, h.nodup, fun t ht => h.go t ht, fun t ht => h.apart t ht⟩
  threads t := .idle rfl
  owner t := by
    constructor
    · intro h
      cases h
    · rintro (h | h)
      · exact absurd rfl h
      · cases h
  locked := by
    constructor
    · intro h
      cases h
    · rintro ⟨t, h⟩
      cases h
  queued t := by
    constructor
    · intro h
      cases h
    · intro h
      cases h

theorem own (h : Inv s) (hok : th.Ok) (howns : th.Owns ↔ (s.thread t).Owns)
    (hqueued : th.queued = (s.thread t).queued) (hhanded : th.handed = false ∨ th.handed = (s.thread t).handed) :
    Inv (s.put t th) where
  ok := by
    rw [State.lock_put]
    rcases hhanded with hf | hf
    · rw [hf]
      exact h.ok.resume
    · rw [hf, show (s.thread t).handed = s.lock.go t from rfl, update_eq_self]
      exact h.ok
  threads := s.put_forall (P := fun _ th => th.Ok) hok fun u _ => h.threads u
  owner := s.put_forall (P := fun u th => s.holder = some u ↔ th.Owns) ((h.owner t).trans howns.symm) fun u _ => h.owner u
  locked := h.locked
  queued := s.put_forall (P := fun u th => u ∈ s.queue ↔ th.queued = true) (hqueued ▸ h.queued t) fun u _ => h.queued u

theorem take (h : Inv s) (hfree : s.locked = false) (hempty : s.queue = []) (hok : th.Ok)
    (howns : th.Owns) (hhanded : th.handed = false) (hqueued : th.queued = false) :
    Inv { s.put t th with locked := true, holder := some t } where
  ok := by
    have htake : s.lock.tryTake t = some { s.lock with locked := true, holder := some t } := by
      have hl : s.lock.locked = false := hfree
      have hq : s.lock.queue = [] := hempty
      simp [Lock.tryTake, hl, hq]
    have hresume := Lock.Ok.resume (t := t) (h.ok.tryTake htake)
    have hlock : (State.lock { s.put t th with locked := true, holder := some t }) =
        Lock.resume { s.lock with locked := true, holder := some t } t := by
      have hgo := s.go_put t th
      rw [hhanded] at hgo
      exact congrArg (fun go => Lock.mk true s.queue go (some t) s.arrived s.served) hgo
    rw [hlock]
    exact hresume
  threads := s.put_forall (P := fun _ th => th.Ok) hok fun u _ => h.threads u
  owner := by
    have hnobody : ∀ u, ¬(s.thread u).Owns := by
      intro u
      have hnone : s.holder = none := h.ok.free hfree
      rw [← h.owner u, hnone]
      exact fun hc => by cases hc
    exact s.put_forall (P := fun u th => some t = some u ↔ th.Owns) (iff_of_true rfl howns)
      fun u hu => iff_of_false (fun hc => hu (some.inj hc).symm) (hnobody u)
  locked := iff_of_true rfl ⟨t, rfl⟩
  queued := by
    refine s.put_forall (P := fun u th => u ∈ s.queue ↔ th.queued = true) ?_ fun u _ => h.queued u
    rw [hqueued, hempty]
    exact iff_of_false not_mem_nil Bool.false_ne_true

theorem enqueue (h : Inv s) (hold : ¬(s.thread t).Owns) (hout : (s.thread t).queued = false)
    (hok : th.Ok) (howns : ¬th.Owns) (hqueued : th.queued = true) :
    Inv { s.put t th with queue := s.queue ++ [t], arrived := s.arrived ++ [t] } where
  ok := by
    have hlock : (State.lock { s.put t th with queue := s.queue ++ [t], arrived := s.arrived ++ [t] }) =
        s.lock.enqueue t := by
      have hgo := s.go_put t th
      rw [Thread.handed_of_not_owns howns] at hgo
      exact congrArg (fun go => Lock.mk s.locked (s.queue ++ [t]) go s.holder (s.arrived ++ [t]) s.served) hgo
    rw [hlock]
    exact h.ok.enqueue (h.not_mem_queue hout)
  threads := s.put_forall (P := fun _ th => th.Ok) hok fun u _ => h.threads u
  owner := s.put_forall (P := fun u th => s.holder = some u ↔ th.Owns)
    (iff_of_false (fun hc => hold ((h.owner t).1 hc)) howns) fun u _ => h.owner u
  locked := h.locked
  queued := by
    refine s.put_forall (P := fun u th => u ∈ s.queue ++ [t] ↔ th.queued = true) (iff_of_true (by simp) hqueued)
      fun u hu => ?_
    rw [mem_append, mem_singleton, or_iff_left hu]
    exact h.queued u

/-- After the holder has given up its depth, the section of the release passes the lock on. -/
theorem handOver (h : Inv s) (hold : (s.thread t).depth ≠ 0) (hok : th.Ok) (howns : ¬th.Owns)
    (hqueued : th.queued = false) : Inv (s.put t th).handOver := by
  have hholder : s.holder = some t := (h.owner t).2 (.inl hold)
  have hhanded : (s.thread t).handed = false := by
    have hidle : (s.thread t).pc = .idle := by
      by_contra hne
      exact hold ((h.threads t).busy hne)
    simp [Thread.handed, Thread.waits, hidle]
  have hlock : (s.put t th).lock = s.lock := by
    rw [State.lock_put, Thread.handed_of_not_owns howns, ← hhanded,
      show (s.thread t).handed = s.lock.go t from rfl, update_eq_self]
  have hok' : (s.put t th).lock.handOver.Ok := hlock ▸ h.ok.handOver hholder hhanded
  -- nobody else owned the lock
  have hothers : ∀ u, u ≠ t → ¬(s.thread u).Owns := by
    intro u hu ho
    have := (h.owner u).2 ho
    rw [hholder] at this
    exact hu (some.inj this).symm
  have hthreads : ∀ u, ((s.put t th).thread u).Ok := s.put_forall (P := fun _ th => th.Ok) hok fun u _ => h.threads u
  have hnone := s.put_forall (P := fun _ th => ¬ th.Owns) howns hothers
  have hqueue : ∀ u, u ∈ s.queue ↔ ((s.put t th).thread u).queued = true := by
    refine s.put_forall (P := fun u th => u ∈ s.queue ↔ th.queued = true) ?_ fun u _ => h.queued u
    rw [hqueued]
    exact iff_of_false (h.not_mem_queue (Thread.queued_of_owns (h.threads t) (.inl hold))) Bool.false_ne_true
  have hl : s.locked = true := h.locked.2 ⟨t, hholder⟩
  have hnodup := h.ok.nodup
  generalize hs' : s.put t th = s' at hok' hthreads hnone hqueue ⊢
  have hq' : s'.queue = s.queue := hs' ▸ rfl
  have hl' : s'.locked = true := hs' ▸ hl
  rw [← hq'] at hqueue
  have hnodup' : s'.queue.Nodup := hq' ▸ hnodup
  clear hs'
  unfold State.handOver
  unfold Lock.handOver at hok'
  rw [show s'.lock.queue = s'.queue from rfl] at hok'
  cases hcase : s'.queue with
  | nil =>
    rw [hcase] at hok'
    refine ⟨hok', hthreads, ?_, ?_, ?_⟩
    · intro u
      exact iff_of_false (fun hc => by cases hc) (hnone u)
    · refine iff_of_false Bool.false_ne_true ?_
      rintro ⟨u, hu⟩
      cases hu
    · intro u
      rw [← hqueue u, hcase]
  | cons w q =>
    rw [hcase] at hok' hnodup'
    have hw : (s'.thread w).queued = true := (hqueue w).1 (hcase ▸ mem_cons_self)
    obtain ⟨hwaits, hgo⟩ := Bool.and_eq_true_iff.1 hw
    have hhand : (s'.thread w).hand.handed = true := Bool.and_eq_true_iff.2 ⟨rfl, (Thread.waits_hand _).trans hwaits⟩
    refine ⟨?_, ?_, ?_, ?_, ?_⟩
    · have hgo' := s'.go_put w (s'.thread w).hand
      rw [hhand] at hgo'
      have heq : (State.lock { s'.put w (s'.thread w).hand with
          queue := q, holder := some w, served := s'.served ++ [w] }) =
          { s'.lock with queue := q, go := update s'.lock.go w true, holder := some w,
                         served := s'.lock.served ++ [w] } :=
        congrArg (fun go => Lock.mk s'.locked q go (some w) s'.arrived (s'.served ++ [w])) hgo'
      rw [heq]
      exact hok'
    · exact s'.put_forall (P := fun _ th => th.Ok) (hthreads w).hand fun u _ => hthreads u
    · exact s'.put_forall (P := fun u th => some w = some u ↔ th.Owns) (iff_of_true rfl (.inr hhand))
        fun u hu => iff_of_false (fun hc => hu (some.inj hc).symm) (hnone u)
    · exact iff_of_true hl' ⟨w, rfl⟩
    · refine s'.put_forall (P := fun u th => u ∈ q ↔ th.queued = true) ?_ fun u hu => ?_
      · rw [Thread.queued_of_handed hhand]
        exact iff_of_false (nodup_cons.1 hnodup').1 Bool.false_ne_true
      · rw [← hqueue u, hcase, mem_cons, or_iff_right hu]

theorem outcome {s' : State T} (h : Inv s) (ho : Outcome s s') : Inv s' := by
  cases ho with
  | own t th hok howns hqueued hhanded => exact h.own hok howns hqueued hhanded
  | take t th hfree hempty hok howns hhanded hqueued => exact h.take hfree hempty hok howns hhanded hqueued
  | enqueue t th hold hout hok howns hqueued => exact h.enqueue hold hout hok howns hqueued
  | handOver t th hold hok howns hqueued => exact h.handOver hold hok howns hqueued

end Inv

/-! ### The calls -/

section
variable {s : State T} {t : T}

theorem outcome_self (h : Inv s) (t : T) : Outcome s s := by
  have hput : s.put t (s.thread t) = s := by rw [State.put, update_eq_self]
  have := Outcome.own t (s.thread t) (h.threads t) Iff.rfl rfl (.inr rfl)
  rwa [hput] at this

variable {th : Thread} {d : UInt32}

/-- Changes of a thread that is outside of any call, before and after. -/
theorem outcome_idle (hpc : (s.thread t).pc = .idle) (hth : th.pc = .idle)
    (hdepth : th.depth ≠ 0 ↔ (s.thread t).depth ≠ 0) : Outcome s (s.put t th) := by
  have hwaits : th.waits = false := by rw [Thread.waits, hth]
  have hwaits' : (s.thread t).waits = false := by rw [Thread.waits, hpc]
  have hhanded : th.handed = false := by rw [Thread.handed, hwaits, Bool.and_false]
  have hhanded' : (s.thread t).handed = false := by rw [Thread.handed, hwaits', Bool.and_false]
  refine .own t th (.idle hth) ?_ ?_ (.inl hhanded)
  · rw [Thread.Owns, Thread.Owns, hhanded, hhanded', hdepth]
  · rw [Thread.queued, Thread.queued, hwaits, hwaits', Bool.false_and, Bool.false_and]

theorem take_outcome (hwaits : (s.thread t).waits = false) (hdepth : (s.thread t).depth = 0) (hd : d ≠ 0) :
    Outcome s (s.take t d) := by
  unfold State.take
  by_cases hfree : (!s.locked && s.queue.isEmpty) = true
  · rw [if_pos hfree]
    simp only [Bool.and_eq_true, Bool.not_eq_true', List.isEmpty_iff] at hfree
    exact .take t _ hfree.1 hfree.2 (.idle rfl) (.inl hd) (Bool.and_false _) rfl
  · rw [if_neg hfree]
    refine .enqueue t _ ?_ ?_ ⟨fun _ => hdepth, ?_, fun d' b hb => (by cases hb)⟩ ?_ rfl
    · rintro (h | h)
      · exact h hdepth
      · rw [Thread.handed, hwaits, Bool.and_false] at h
        cases h
    · rw [Thread.queued, hwaits]
      rfl
    · intro d' hd'
      cases hd'
      exact hd
    · rintro (h | h)
      · exact h hdepth
      · cases h

theorem release_outcome (h : Inv s) (hpc : (s.thread t).pc = .idle) : Outcome s (s.release t) := by
  unfold State.release
  by_cases hzero : (s.thread t).depth = 0
  · simp only [hzero, if_true]
    exact outcome_self h t
  · simp only [hzero, if_false]
    by_cases hone : (s.thread t).depth - 1 = 0
    · simp only [hone, ne_eq, not_true_eq_false, if_false]
      refine .handOver t _ hzero (.idle hpc) ?_ ?_
      · rintro (ho | ho)
        · exact ho rfl
        · simp [Thread.handed, Thread.waits, hpc] at ho
      · simp [Thread.queued, Thread.waits, hpc]
    · simp only [ne_eq, hone, not_false_eq_true, if_true]
      exact outcome_idle hpc hpc (iff_of_true hone hzero)

/-- `arm_lock_unlock_all` and what the thread does with its result: nothing if it did not have the lock. -/
theorem unlockAll_eq (h : Inv s) (hdepth : (s.thread t).depth ≠ 0) (th : Thread) :
    (s.unlockAll t).put t th = (s.put t th).handOver ∧
      (s.unlockAll t).thread t = { s.thread t with depth := 0 } := by
  have hout : t ∉ s.queue := h.not_mem_queue (Thread.queued_of_owns (h.threads t) (.inl hdepth))
  have hrelease : s.unlockAll t = (s.put t { s.thread t with depth := 0 }).handOver := by
    simp [State.unlockAll, hdepth, State.release, State.put]
  constructor
  · rw [hrelease, State.put_handOver hout]
  · rw [hrelease, State.handOver_thread_ne (s := s.put t { s.thread t with depth := 0 }) hout, s.put_same]

theorem relock_outcome (h : Inv s) (hwaits : (s.thread t).waits = false)
    (hpc : (s.thread t).pc = .idle ∨ d ≠ 0) : Outcome s (s.relock t d) := by
  unfold State.relock
  by_cases hd : d = 0
  · rw [if_pos hd]
    have hidle := hpc.resolve_right (fun hne => hne hd)
    exact outcome_idle hidle rfl Iff.rfl
  · rw [if_neg hd]
    by_cases hdepth : (s.thread t).depth = 0
    · rw [if_neg (fun hne => hne hdepth)]
      exact take_outcome hwaits hdepth hd
    · rw [if_pos hdepth]
      have hidle : (s.thread t).pc = .idle := by
        by_contra hne
        exact hdepth ((h.threads t).busy hne)
      exact outcome_idle hidle rfl (iff_of_true hd hdepth)

theorem yield_outcome (h : Inv s) (t : T) (waiters : Bool) : Outcome s (s.yield t waiters) := by
  unfold State.yield
  cases waiters with
  | false => exact outcome_self h t
  | true =>
    by_cases hdepth : (s.thread t).depth = 0
    · have hsame : s.unlockAll t = s := by simp [State.unlockAll, hdepth]
      simp only [Bool.not_true, Bool.false_eq_true, if_false, hdepth, if_true, hsame]
      exact outcome_self h t
    · simp only [Bool.not_true, Bool.false_eq_true, if_false, hdepth]
      obtain ⟨hput, hth⟩ := unlockAll_eq h hdepth
        { (s.unlockAll t).thread t with pc := .relocking (s.thread t).depth }
      rw [hput, hth]
      refine .handOver t _ hdepth ⟨fun _ => rfl, ?_, fun d b hb => (by cases hb)⟩ ?_ rfl
      · intro d hd
        cases hd
        exact hdepth
      · rintro (ho | ho)
        · exact ho rfl
        · rw [Thread.handed] at ho
          exact Bool.false_ne_true (Bool.and_eq_true_iff.1 ho).2

theorem return_outcome (hhanded : (s.thread t).handed = true) (hpc : th.pc = .idle) (hd : th.depth ≠ 0) :
    Outcome s (s.put t th) := by
  have hwaits : th.waits = false := by rw [Thread.waits, hpc]
  refine .own t th (.idle hpc) (iff_of_true (.inl hd) (.inr hhanded)) ?_ (.inl ?_)
  · rw [Thread.queued_of_handed hhanded, Thread.queued, hwaits, Bool.false_and]
  · rw [Thread.handed, hwaits, Bool.and_false]

theorem await_outcome (h : Inv s) (hwaits : (s.thread t).waits = true)
    (htarget : (s.thread t).pc.target = some d) : Outcome s (s.put t ((s.thread t).await d)) := by
  have hd := (h.threads t).target d htarget
  have hdepth : (s.thread t).depth = 0 := by
    apply (h.threads t).busy
    intro hidle
    rw [hidle] at htarget
    cases htarget
  unfold Thread.await
  cases hgo : (s.thread t).go with
  | true =>
    have hhanded : (s.thread t).handed = true := by rw [Thread.handed, hgo, hwaits]; rfl
    exact return_outcome hhanded rfl hd
  | false =>
    have hnot : ¬(s.thread t).Owns := by
      rintro (ho | ho)
      · exact ho hdepth
      · rw [Thread.handed, hgo] at ho
        cases ho
    simp only [Bool.false_eq_true, if_false]
    refine .own t _ ⟨fun _ => hdepth, ?_, ?_⟩ (iff_of_false ?_ hnot) ?_ (.inl rfl)
    · intro d' hd'
      cases hd'
      exact hd
    · intro d' b hb
      exact ⟨rfl, fun hc => by cases hc⟩
    · rintro (ho | ho)
      · exact ho hdepth
      · cases ho
    · rw [Thread.queued, Thread.queued, hwaits, hgo]
      rfl

end

theorem succ_ne_zero {d : UInt32} (h : d ≠ 0xffffffff) : d + 1 ≠ 0 := by
  intro hzero
  exact h (eq_neg_of_add_eq_zero_left hzero)

theorem step_outcome {s s' : State T} {a : Act T} (h : Inv s) (hfits : a.Fits s) (hstep : s.step a = some s') :
    Outcome s s' := by
  cases a with
  | acquire t =>
    obtain ⟨hpc, hs'⟩ := Option.ite_none_right_eq_some.1 hstep
    cases hs'
    unfold State.acquire
    by_cases hdepth : (s.thread t).depth = 0
    · simp only [hdepth, ne_eq, not_true_eq_false, if_false]
      exact take_outcome (by rw [Thread.waits, hpc]) hdepth (by decide)
    · simp only [ne_eq, hdepth, not_false_eq_true, if_true]
      exact outcome_idle hpc hpc (iff_of_true (succ_ne_zero hfits) hdepth)
  | release t =>
    obtain ⟨hpc, hs'⟩ := Option.ite_none_right_eq_some.1 hstep
    cases hs'
    exact release_outcome h hpc
  | unlockAll t =>
    obtain ⟨hpc, hs'⟩ := Option.ite_none_right_eq_some.1 hstep
    cases hs'
    by_cases hdepth : (s.thread t).depth = 0
    · have hsame : s.unlockAll t = s := by simp [State.unlockAll, hdepth]
      dsimp only
      rw [hsame]
      exact outcome_idle hpc hpc Iff.rfl
    · obtain ⟨hput, hth⟩ := unlockAll_eq h hdepth { (s.unlockAll t).thread t with ret := (s.thread t).depth }
      dsimp only
      rw [hput, hth]
      refine .handOver t _ hdepth (.idle hpc) ?_ ?_
      · rintro (ho | ho)
        · exact ho rfl
        · simp [Thread.handed, Thread.waits, hpc] at ho
      · simp [Thread.queued, Thread.waits, hpc]
  | relock t d =>
    obtain ⟨hpc, hs'⟩ := Option.ite_none_right_eq_some.1 hstep
    cases hs'
    exact relock_outcome h (by rw [Thread.waits, hpc]) (.inl hpc)
  | yield t waiters =>
    obtain ⟨hpc, hs'⟩ := Option.ite_none_right_eq_some.1 hstep
    cases hs'
    exact yield_outcome h t waiters
  | look t =>
    rw [State.step] at hstep
    cases hpc : (s.thread t).pc with
    | spinning d =>
      rw [hpc] at hstep
      cases hgo : (s.thread t).go with
      | true =>
        rw [hgo] at hstep
        cases hstep
        have hhanded : (s.thread t).handed = true := by rw [Thread.handed, Thread.waits, hgo, hpc]; rfl
        exact return_outcome hhanded rfl ((h.threads t).target d (by rw [hpc]; rfl))
      | false =>
        rw [hgo] at hstep
        cases hstep
        exact outcome_self h t
    | idle | parked _ _ | relocking _ =>
      rw [hpc] at hstep
      cases hstep
  | park t =>
    rw [State.step] at hstep
    cases hpc : (s.thread t).pc with
    | spinning d =>
      rw [hpc] at hstep
      cases hstep
      exact await_outcome h (by rw [Thread.waits, hpc]) (by rw [hpc]; rfl)
    | idle | parked _ _ | relocking _ =>
      rw [hpc] at hstep
      cases hstep
  | wake t =>
    rw [State.step] at hstep
    cases hpc : (s.thread t).pc with
    | parked d b =>
      rw [hpc] at hstep
      cases hstep
      exact await_outcome h (by rw [Thread.waits, hpc]) (by rw [hpc]; rfl)
    | idle | spinning _ | relocking _ =>
      rw [hpc] at hstep
      cases hstep
  | goOn t =>
    rw [State.step] at hstep
    cases hpc : (s.thread t).pc with
    | relocking d =>
      rw [hpc] at hstep
      cases hstep
      exact relock_outcome h (by rw [Thread.waits, hpc]) (.inr ((h.threads t).target d (by rw [hpc]; rfl)))
    | idle | spinning _ | parked _ _ =>
      rw [hpc] at hstep
      cases hstep

theorem ReachFits.inv (h : ReachFits s) : Inv s := by
  induction h with
  | init => exact Inv.init
  | step _ hfits hstep ih => exact ih.outcome (step_outcome ih hfits hstep)

/-! ### Who gets the lock -/

/-- A thread gets the lock as the first of the queue, or finds it free with nobody in the queue. -/
theorem Outcome.passes {s s' : State T} (ho : Outcome s s') {u : T} (hold : ¬(s.thread u).Owns)
    (hnew : (s'.thread u).Owns) : s.queue.head? = some u ∨ (s.locked = false ∧ s.queue = []) := by
  cases ho with
  | own t th hok howns hqueued hhanded =>
    by_cases hu : u = t
    · subst hu
      rw [s.put_same] at hnew
      exact absurd (howns.1 hnew) hold
    · rw [s.put_ne th hu] at hnew
      exact absurd hnew hold
  | take t th hfree hempty hok howns hhanded hqueued => exact .inr ⟨hfree, hempty⟩
  | enqueue t th _ hout hok howns hqueued =>
    by_cases hu : u = t
    · subst hu
      exact absurd ((s.put_same u th) ▸ hnew) howns
    · exact absurd ((s.put_ne th hu) ▸ hnew) hold
  | handOver t th hdepth hok howns hqueued =>
    have hnone : ¬((s.put t th).thread u).Owns := by
      by_cases hu : u = t
      · subst hu
        exact (s.put_same u th).symm ▸ howns
      · exact (s.put_ne th hu).symm ▸ hold
    by_cases hhead : s.queue.head? = some u
    · exact .inl hhead
    · unfold State.handOver at hnew
      rw [show (s.put t th).queue = s.queue from rfl] at hnew
      cases hq : s.queue with
      | nil =>
        rw [hq] at hnew
        exact absurd hnew hnone
      | cons w q =>
        rw [hq] at hnew hhead
        have hne : u ≠ w := by
          rintro rfl
          exact hhead rfl
        exact absurd ((State.put_ne (s.put t th) _ hne) ▸ hnew) hnone

end

end Lunaria.Arm
