import Lunaria.Arm.LockSafe

/-! What a thread finds when its call returns: `arm_lock_relock` and `arm_lock_yield` give it back the depth it had. With
    the invariant this is the contract of the lock, for runs without a recursive acquire at the greatest depth; such an
    acquire wraps the depth to 0 and leaves the lock to nobody. -/

namespace Lunaria.Arm
open Option Function

section
variable {T : Type} [DecidableEq T] {th : Thread}

/-! ### The depth a call returns with -/

/-- The thread is outside of any call at depth `d`, or in one that returns with `d`. -/
def Thread.Heads (th : Thread) (d : UInt32) : Prop :=
  (th.pc = .idle ∧ th.depth = d) ∨ (th.pc.target = some d ∧ th.depth = 0)

theorem Thread.Heads.hand {d : UInt32} (h : th.Heads d) : th.hand.Heads d := by
  rcases h with ⟨hpc, hd⟩ | ⟨htarget, hd⟩
  · exact .inl ⟨by simp [Thread.hand, hpc, Pc.signal], hd⟩
  · exact .inr ⟨th.target_hand.trans htarget, hd⟩

/-- Whether the step is a call that `t` makes. -/
def Act.CallOf (t : T) : Act T → Prop
  | .acquire u | .release u | .unlockAll u | .relock u _ | .yield u _ => u = t
  | _ => False

/-- Steps during which `t` makes no call; it may go on with one. -/
inductive Quiet (t : T) : State T → State T → Prop
  | refl (s : State T) : Quiet t s s
  | step {s s' s'' : State T} {a : Act T} : Quiet t s s' → ¬a.CallOf t → s'.step a = some s'' → Quiet t s s''

/-- What others do to a thread: nothing, or they hand it the lock. -/
def Calm (t : T) (s s' : State T) : Prop := s'.thread t = s.thread t ∨ s'.thread t = (s.thread t).hand

section
variable {s s' : State T} {t u : T} {d r : UInt32}

theorem calm_put (hne : t ≠ u) (h : Calm t s s') : Calm t s (s'.put u th) := by
  rw [Calm, s'.put_ne th hne]
  exact h

theorem calm_take (hne : t ≠ u) : Calm t s (s.take u d) := by
  unfold State.take
  split <;> exact .inl (s.put_ne _ hne)

theorem calm_handOver (t : T) (s : State T) : Calm t s s.handOver := by
  unfold State.handOver
  cases hq : s.queue with
  | nil => exact .inl rfl
  | cons w q =>
    by_cases hw : t = w
    · subst hw
      exact .inr (s.put_same t _)
    · exact .inl (s.put_ne _ hw)

theorem calm_release (hne : t ≠ u) : Calm t s (s.release u) := by
  unfold State.release
  by_cases hzero : (s.thread u).depth = 0
  · simp only [hzero, if_true]
    exact .inl rfl
  · simp only [hzero, if_false]
    split
    · exact .inl (s.put_ne _ hne)
    · have h := calm_handOver t (s.put u { s.thread u with depth := (s.thread u).depth - 1 })
      rw [Calm, s.put_ne _ hne] at h
      exact h

theorem calm_unlockAll (hne : t ≠ u) : Calm t s (s.unlockAll u) := by
  unfold State.unlockAll
  dsimp only
  split
  · have h := calm_release (s := s.put u { s.thread u with depth := 1 }) hne
    rw [Calm, s.put_ne _ hne] at h
    exact h
  · exact .inl rfl

theorem calm_relock (hne : t ≠ u) : Calm t s (s.relock u d) := by
  unfold State.relock
  dsimp only
  split
  · exact .inl (s.put_ne _ hne)
  · split
    · exact .inl (s.put_ne _ hne)
    · exact calm_take hne

theorem calm_yield (hne : t ≠ u) (waiters : Bool) : Calm t s (s.yield u waiters) := by
  unfold State.yield
  dsimp only
  split
  · exact .inl rfl
  · split
    · exact calm_unlockAll hne
    · exact calm_put hne (calm_unlockAll hne)

/-- What a thread keeps while it makes no call. -/
def Keeps (t : T) (d r : UInt32) (s : State T) : Prop := (s.thread t).Heads d ∧ (s.thread t).ret = r

omit [DecidableEq T] in
theorem Keeps.calm (h : Keeps t d r s) (hcalm : Calm t s s') : Keeps t d r s' := by
  rcases hcalm with heq | heq
  · exact ⟨heq ▸ h.1, heq ▸ h.2⟩
  · exact ⟨heq ▸ h.1.hand, heq ▸ h.2⟩

theorem Keeps.put (hth : th.Heads d) (hr : th.ret = r) : Keeps t d r (s.put t th) :=
  ⟨(s.put_same t th).symm ▸ hth, (s.put_same t th).symm ▸ hr⟩

theorem Keeps.take (hdepth : (s.thread t).depth = 0) (hr : (s.thread t).ret = r) : Keeps t d r (s.take t d) := by
  unfold State.take
  split
  · exact Keeps.put (s := s) (.inl ⟨rfl, rfl⟩) hr
  · exact Keeps.put (s := s) (.inr ⟨rfl, hdepth⟩) hr

theorem Keeps.relock (hdepth : (s.thread t).depth = 0) (hr : (s.thread t).ret = r) : Keeps t d r (s.relock t d) := by
  unfold State.relock
  by_cases hd : d = 0
  · rw [if_pos hd]
    exact Keeps.put (.inl ⟨rfl, hdepth.trans hd.symm⟩) hr
  · rw [if_neg hd, if_neg (fun hne => hne hdepth)]
    exact Keeps.take hdepth hr

theorem Keeps.await {e : UInt32} (h : Keeps t d r s) (htarget : (s.thread t).pc.target = some e) :
    Keeps t d r (s.put t ((s.thread t).await e)) := by
  rcases h.1 with ⟨hpc, -⟩ | ⟨ht, hdepth⟩
  · rw [hpc] at htarget
    cases htarget
  · rw [ht] at htarget
    cases htarget
    unfold Thread.await
    split
    · exact Keeps.put (.inl ⟨rfl, rfl⟩) h.2
    · exact Keeps.put (.inr ⟨rfl, hdepth⟩) h.2

theorem Keeps.step {a : Act T} (h : Keeps t d r s) (hquiet : ¬a.CallOf t) (hstep : s.step a = some s') :
    Keeps t d r s' := by
  cases a with
  | acquire u =>
    obtain ⟨-, hs'⟩ := ite_none_right_eq_some.1 hstep
    cases hs'
    have hne : t ≠ u := fun he => hquiet he.symm
    refine h.calm ?_
    unfold State.acquire
    dsimp only
    split
    · exact .inl (s.put_ne _ hne)
    · exact calm_take hne
  | release u =>
    obtain ⟨-, hs'⟩ := ite_none_right_eq_some.1 hstep
    cases hs'
    exact h.calm (calm_release fun he => hquiet he.symm)
  | unlockAll u =>
    obtain ⟨-, hs'⟩ := ite_none_right_eq_some.1 hstep
    cases hs'
    have hne : t ≠ u := fun he => hquiet he.symm
    exact h.calm (calm_put hne (calm_unlockAll hne))
  | relock u e =>
    obtain ⟨-, hs'⟩ := ite_none_right_eq_some.1 hstep
    cases hs'
    exact h.calm (calm_relock fun he => hquiet he.symm)
  | yield u waiters =>
    obtain ⟨-, hs'⟩ := ite_none_right_eq_some.1 hstep
    cases hs'
    exact h.calm (calm_yield (fun he => hquiet he.symm) waiters)
  | look u =>
    rw [State.step] at hstep
    cases hpc : (s.thread u).pc with
    | spinning e =>
      rw [hpc] at hstep
      dsimp only at hstep
      split at hstep
      · cases hstep
        by_cases hu : t = u
        · subst hu
          rcases h.1 with ⟨hidle, -⟩ | ⟨ht, -⟩
          · rw [hidle] at hpc
            cases hpc
          · rw [hpc] at ht
            cases ht
            exact Keeps.put (.inl ⟨rfl, rfl⟩) h.2
        · exact h.calm (.inl (s.put_ne _ hu))
      · cases hstep
        exact h
    | idle | parked _ _ | relocking _ =>
      rw [hpc] at hstep
      cases hstep
  | park u =>
    rw [State.step] at hstep
    cases hpc : (s.thread u).pc with
    | spinning e =>
      rw [hpc] at hstep
      cases hstep
      by_cases hu : t = u
      · subst hu
        exact h.await (by rw [hpc]; rfl)
      · exact h.calm (.inl (s.put_ne _ hu))
    | idle | parked _ _ | relocking _ =>
      rw [hpc] at hstep
      cases hstep
  | wake u =>
    rw [State.step] at hstep
    cases hpc : (s.thread u).pc with
    | parked e b =>
      rw [hpc] at hstep
      cases hstep
      by_cases hu : t = u
      · subst hu
        exact h.await (by rw [hpc]; rfl)
      · exact h.calm (.inl (s.put_ne _ hu))
    | idle | spinning _ | relocking _ =>
      rw [hpc] at hstep
      cases hstep
  | goOn u =>
    rw [State.step] at hstep
    cases hpc : (s.thread u).pc with
    | relocking e =>
      rw [hpc] at hstep
      cases hstep
      by_cases hu : t = u
      · subst hu
        rcases h.1 with ⟨hidle, -⟩ | ⟨ht, hdepth⟩
        · rw [hidle] at hpc
          cases hpc
        · rw [hpc] at ht
          cases ht
          exact Keeps.relock hdepth h.2
      · exact h.calm (calm_relock hu)
    | idle | spinning _ | parked _ _ =>
      rw [hpc] at hstep
      cases hstep

theorem Keeps.quiet (h : Keeps t d r s) (hquiet : Quiet t s s') : Keeps t d r s' := by
  induction hquiet with
  | refl => exact h
  | step _ hcall hstep ih => exact ih.step hcall hstep

omit [DecidableEq T] in
theorem Keeps.depth (h : Keeps t d r s) (hpc : (s.thread t).pc = .idle) : (s.thread t).depth = d := by
  rcases h.1 with ⟨-, hd⟩ | ⟨ht, -⟩
  · exact hd
  · rw [hpc] at ht
    cases ht

end

/-! ### The contract -/

/-- The lock is exclusive and first come, first served, and gives back the depth it took. -/
structure Fair (s : State T) : Prop where
  exclusive : ∀ t u, (s.thread t).Owns → (s.thread u).Owns → t = u
  locked : s.locked = true ↔ ∃ t, (s.thread t).Owns
  /-- The queue has each waiting thread once, in the order in which they queued. -/
  once : s.queue.Nodup
  waiting : ∀ t, t ∈ s.queue ↔ (s.thread t).waits = true ∧ (s.thread t).go = false
  order : s.arrived = s.served ++ s.queue
  /-- A thread becomes the owner as the head of the queue, or finds a free lock and an empty queue. -/
  passes : ∀ a s', a.Fits s → s.step a = some s' → ∀ u, ¬(s.thread u).Owns → (s'.thread u).Owns →
    s.queue.head? = some u ∨ (s.locked = false ∧ s.queue = [])
  /-- Nobody sleeps through the hand-over. -/
  signalled : ∀ t d b, (s.thread t).pc = .parked d b → (s.thread t).go = true → b = true
  /-- `arm_lock_unlock_all`, and later `arm_lock_relock` with what it returned. -/
  relocked : ∀ t s₁ s₂ s₃ s₄, s.step (.unlockAll t) = some s₁ → Quiet t s₁ s₂ →
    s₂.step (.relock t (s₂.thread t).ret) = some s₃ → Quiet t s₃ s₄ → (s₄.thread t).pc = .idle →
    (s₄.thread t).depth = (s.thread t).depth
  yielded : ∀ t waiters s₁ s₂, s.step (.yield t waiters) = some s₁ → Quiet t s₁ s₂ → (s₂.thread t).pc = .idle →
    (s₂.thread t).depth = (s.thread t).depth

section
variable {s s₁ : State T} {t : T}

theorem unlockAll_keeps (h : Inv s) (hstep : s.step (.unlockAll t) = some s₁) : Keeps t 0 (s.thread t).depth s₁ := by
  obtain ⟨hpc, ⟨⟩⟩ := ite_none_right_eq_some.1 hstep
  refine Keeps.put (.inl ?_) rfl
  by_cases hdepth : (s.thread t).depth = 0
  · have hsame : s.unlockAll t = s := by simp [State.unlockAll, hdepth]
    rw [hsame]
    exact ⟨hpc, hdepth⟩
  · rw [(unlockAll_eq h hdepth (s.thread t)).2]
    exact ⟨hpc, rfl⟩

theorem relock_keeps {s₂ s₃ : State T} {d : UInt32} (h : Keeps t 0 d s₂) (hstep : s₂.step (.relock t d) = some s₃) :
    Keeps t d d s₃ := by
  obtain ⟨hpc, ⟨⟩⟩ := ite_none_right_eq_some.1 hstep
  exact Keeps.relock (h.depth hpc) h.2

theorem yield_keeps (h : Inv s) {waiters : Bool} (hstep : s.step (.yield t waiters) = some s₁) :
    Keeps t (s.thread t).depth (s.thread t).ret s₁ := by
  obtain ⟨hpc, ⟨⟩⟩ := ite_none_right_eq_some.1 hstep
  have hself : Keeps t (s.thread t).depth (s.thread t).ret s := ⟨.inl ⟨hpc, rfl⟩, rfl⟩
  unfold State.yield
  cases waiters with
  | false => exact hself
  | true =>
    by_cases hdepth : (s.thread t).depth = 0
    · have hsame : s.unlockAll t = s := by simp [State.unlockAll, hdepth]
      simp only [Bool.not_true, Bool.false_eq_true, if_false, hdepth, if_true, hsame]
      exact hdepth ▸ hself
    · simp only [Bool.not_true, Bool.false_eq_true, if_false, hdepth]
      have hth := (unlockAll_eq h hdepth (s.thread t)).2
      refine Keeps.put (.inr ⟨rfl, ?_⟩) ?_
      · rw [hth]
      · rw [hth]

end

theorem arm_lock_fair {s : State T} (h : ReachFits s) : Fair s where
  exclusive t u ht hu := by
    have hinv := h.inv
    exact some.inj (((hinv.owner t).2 ht).symm.trans ((hinv.owner u).2 hu))
  locked := by
    have hinv := h.inv
    rw [hinv.locked]
    exact exists_congr hinv.owner
  once := h.inv.ok.nodup
  waiting t := by
    rw [h.inv.queued t, Thread.queued, Bool.and_eq_true_iff, Bool.not_eq_true']
  order := h.inv.ok.fifo
  passes a s' hfits hstep u hold hnew := (step_outcome h.inv hfits hstep).passes hold hnew
  signalled t d b hpc hgo := ((h.inv.threads t).parked d b hpc).2 hgo
  relocked t s₁ s₂ s₃ s₄ hunlock hquiet hrelock hquiet' hpc := by
    have hkeeps := (unlockAll_keeps h.inv hunlock).quiet hquiet
    rw [hkeeps.2] at hrelock
    exact ((relock_keeps hkeeps hrelock).quiet hquiet').depth hpc
  yielded t waiters s₁ s₂ hyield hquiet hpc := ((yield_keeps h.inv hyield).quiet hquiet).depth hpc

end

/-- Thread 0 takes the lock twice, thread 1 queues and sleeps, thread 0 yields to it. -/
theorem arm_lock_fair_contended : ∃ s : State Nat, ReachFits s ∧ Fair s ∧ (s.thread 1).Owns ∧ s.queue = [] ∧
    (s.thread 1).pc = .parked 1 true ∧ (s.thread 0).pc = .relocking 2 := by
  have h₀ : ReachFits (.init : State Nat) := .init
  have h₁ := h₀.step (a := .acquire 0) (show (0 : UInt32) ≠ 0xffffffff by decide) rfl
  have h₂ := h₁.step (a := .acquire 0) (show (1 : UInt32) ≠ 0xffffffff by decide) rfl
  have h₃ := h₂.step (a := .acquire 1) (show (0 : UInt32) ≠ 0xffffffff by decide) rfl
  have h₄ := h₃.step (a := .park 1) trivial rfl
  have h₅ := h₄.step (a := .yield 0 true) trivial rfl
  exact ⟨_, h₅, arm_lock_fair h₅, .inr rfl, rfl, rfl, rfl⟩

/-! ### The depth wraps -/

/-- One thread that has acquired the lock `n` times. -/
def nested (n : Nat) : State Unit :=
  ⟨true, [], fun _ => ⟨UInt32.ofNat n, false, false, .idle, 0⟩, some (), [], []⟩

theorem nested_acquire {n : Nat} (hpos : 0 < n) (hlt : n < 2 ^ 32) :
    (nested n).step (.acquire ()) = some (nested (n + 1)) := by
  have hne : UInt32.ofNat n ≠ 0 := by
    intro hzero
    have := congrArg UInt32.toNat hzero
    rw [UInt32.toNat_ofNat_of_lt' hlt] at this
    exact absurd this (Nat.pos_iff_ne_zero.1 hpos)
  have hacquire : (nested n).acquire () = nested (n + 1) := by
    unfold State.acquire
    rw [if_pos (show ((nested n).thread ()).depth ≠ 0 from hne)]
    have hput : update (nested n).thread () { (nested n).thread () with depth := UInt32.ofNat n + 1 } =
        (nested (n + 1)).thread := by
      funext u
      simp only [nested, UInt32.ofNat_add, update_self]
      rfl
    exact congrArg (fun thread => State.mk true [] thread (some ()) [] []) hput
  have hidle : ((nested n).thread ()).pc = .idle := rfl
  rw [State.step, if_pos hidle, hacquire]

theorem reach_nested {n : Nat} (hpos : 0 < n) (hle : n ≤ 2 ^ 32) : Reach (nested n) := by
  induction n with
  | zero => exact absurd hpos (Nat.lt_irrefl 0)
  | succ n ih =>
    rcases Nat.eq_zero_or_pos n with rfl | hn
    · refine Reach.step (a := .acquire ()) .init ?_
      show some (State.acquire .init ()) = some (nested 1)
      simp [State.acquire, State.take, State.init, State.put, nested]
      rfl
    · exact (ih hn (Nat.le_of_succ_le hle)).step (nested_acquire hn hle)

/-- After 2^32 acquires the lock is taken and no thread owns it. -/
theorem acquire_wraps : ∃ s : State Unit, Reach s ∧ s.locked = true ∧ ∀ t, ¬(s.thread t).Owns := by
  refine ⟨nested (2 ^ 32), reach_nested (Nat.two_pow_pos 32) le_rfl, rfl, ?_⟩
  rintro t (h | h)
  · exact h rfl
  · cases h

end Lunaria.Arm
