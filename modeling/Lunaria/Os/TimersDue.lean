import Lunaria.Os.TimersWorld

/-! The expirations of a timer, from where it is armed on. -/

namespace Lunaria.Os
open Periodic

/-- The instants of a timer that have passed. -/
noncomputable def expirations (due interval now : Nat) : Nat :=
  if interval = 0 then if due ≤ now then 1 else 0 else {k | due + k * interval ≤ now}.ncard

theorem expirations_eq (due interval now : Nat) : expirations due interval now = passed due interval now := by
  unfold expirations
  split_ifs with hzero hdue
  · rw [hzero, passed_zero, if_pos hdue]
  · rw [hzero, passed_zero, if_neg hdue]
  · exact ncard_passed (Nat.pos_of_ne_zero hzero)

section Track
variable {s s' : PosixTimers} {t t' t₀ : PosixTimer} {e : TimerEvent} {i taken last now : Nat}

/-- What else changes of a timer has nothing to do with its expirations. -/
def PosixTimer.Same (t t' : PosixTimer) : Prop :=
  t' = { t with
    targetTid := t'.targetTid, notifiedTid := t'.notifiedTid, value := t'.value, published := t'.published
    overrun := t'.overrun }

/-- An item is changed, and another is not. -/
theorem at_other {f : PosixTimer → Checked PosixTimer} {j : Nat} (hs : s.at j f = .ok s') (hj : j ≠ i) :
    s'.items[i]? = s.items[i]? := by
  unfold PosixTimers.at at hs
  cases ht : s.items[j]? with
  | none =>
    simp only [ht, Checked.ok.injEq] at hs
    rw [hs]
  | some t =>
    simp only [ht] at hs
    cases hf : f t with
    | ok t' =>
      simp only [hf, Checked.bind_ok] at hs
      cases hs
      exact List.getElem?_set_ne hj
    | fail =>
      rw [hf] at hs
      cases hs
    | fault =>
      rw [hf] at hs
      cases hs

theorem at_self {f : PosixTimer → Checked PosixTimer} (ht : s.items[i]? = some t) (hf : f t = .ok t')
    (hs : s.at i f = .ok s') : s'.items[i]? = some t' := by
  unfold PosixTimers.at at hs
  simp only [ht, hf, Checked.bind_ok] at hs
  cases hs
  exact List.getElem?_set_self (List.getElem?_eq_some_iff.1 ht).1

theorem step_inv (h : TimersInv s) (hs : s.step e = .ok s') : TimersInv s' := by
  by_cases hcreate : ∃ owner clock notify signo value callback tid grown,
    e = .create owner clock notify signo value callback tid grown
  · obtain ⟨owner, clock, notify, signo, value, callback, tid, grown, rfl⟩ := hcreate
    obtain ⟨status, id, s₁, heq, hfail, hok⟩ := timerCreate_eq h owner clock notify signo value callback tid grown
    simp only [PosixTimers.step, heq, Checked.bind_ok] at hs
    cases hs
    by_cases hstatus : status = .ok
    · obtain ⟨j, t, -, -, -, hc⟩ := hok hstatus
      exact hc.inv
    · rwa [hfail hstatus]
  · obtain ⟨s₁, heq, hc⟩ := step_changed h fun owner clock notify signo value callback tid grown he =>
      hcreate ⟨owner, clock, notify, signo, value, callback, tid, grown, he⟩
    cases heq.symm.trans hs
    exact hc.inv h

theorem step_leaves (h : TimersInv s) (ht : s.items[i]? = some t) (hid : t.id ≠ 0) (hlive : t.deleted = false)
    (hl : e.Leaves s i) (hs : s.step e = .ok s') : ∃ t', s'.items[i]? = some t' ∧ t.Same t' := by
  cases e with
  | create owner clock notify signo value callback tid grown =>
    obtain ⟨status, id, s₁, heq, hfail, hok⟩ := timerCreate_eq h owner clock notify signo value callback tid grown
    simp only [PosixTimers.step, heq, Checked.bind_ok] at hs
    cases hs
    refine ⟨t, ?_, rfl⟩
    by_cases hstatus : status = .ok
    · obtain ⟨j, u, -, -, -, hc⟩ := hok hstatus
      have hne : i ≠ j := fun hij => hid (hc.free t (hij ▸ ht))
      rw [hc.items, if_neg hne, ht]
    · rwa [hfail hstatus]
  | delete owner id =>
    refine ⟨t, ?_, rfl⟩
    cases hs
    cases hfind : timerFind s owner id with
    | none => simpa only [timerDelete, hfind] using ht
    | some j =>
      obtain ⟨u, -, -, heq⟩ := timerDelete_eq hfind
      have hne : j ≠ i := fun hij => hl (hfind.trans (congrArg some hij))
      rw [heq, List.getElem?_set_ne hne, ht]
  | set owner id flags spec old clock =>
    refine ⟨t, ?_, rfl⟩
    cases hfind : timerFind s owner id with
    | none =>
      simp only [PosixTimers.step, timerSet, hfind] at hs
      cases hs
      exact ht
    | some j =>
      have hne : j ≠ i := fun hij => hl (hfind.trans (congrArg some hij))
      have hset := timerSet_eq hfind flags spec old clock
      split_ifs at hset with hflags
      · simp only [PosixTimers.step, hset] at hs
        cases hs
        exact ht
      · obtain ⟨u, u', before, -, -, heq⟩ := hset
        simp only [PosixTimers.step, heq] at hs
        cases hs
        exact (List.getElem?_set_ne hne).trans ht
  | poll clock => exact hl.elim
  | take j => exact ⟨t, (at_other hs hl).trans ht, rfl⟩
  | mark j targetTid notifiedTid value published =>
    by_cases hj : j = i
    · subst hj
      exact ⟨_, at_self (f := fun t => .ok { t with targetTid, notifiedTid, value, published }) ht rfl hs, rfl⟩
    · exact ⟨t, (at_other hs hj).trans ht, rfl⟩
  | forget j =>
    by_cases hj : j = i
    · subst hj
      exact ⟨t, at_self ht (by rw [hlive]; rfl) hs, rfl⟩
    · exact ⟨t, (at_other hs hj).trans ht, rfl⟩

/-- What a timer is after it was armed as `t₀`, some was taken of it, and the last poll was at some time. -/
structure Tracks (t₀ t : PosixTimer) (taken last : Nat) : Prop where
  id : t.id = t₀.id
  deleted : t.deleted = false
  clock : t.armedClock = t₀.armedClock ∧ t.clockTid = t₀.clockTid
  notify : t.notify = t₀.notify
  interval : t.interval = t₀.interval
  due : t.due = min (t₀.due + passed t₀.due t₀.interval last * t₀.interval) int64Max
  armed : t.armed = (passed t₀.due t₀.interval last = 0 || t₀.interval ≠ 0)
  pending : t₀.notify ≠ 1 → t₀.pending + passed t₀.due t₀.interval last ≤ uint64Max →
    taken + t.pending = t₀.pending + passed t₀.due t₀.interval last

theorem Tracks.same (h : Tracks t₀ t taken last) (hs : t.Same t') : Tracks t₀ t' taken last := by
  rw [hs]
  exact ⟨h.id, h.deleted, h.clock, h.notify, h.interval, h.due, h.armed, h.pending⟩

theorem Tracks.expired (h : Tracks t₀ t taken last) (hid : t₀.id ≠ 0) (hdue : t₀.due ≤ int64Max) (hnow : last ≤ now)
    (hlimit : t₀.interval = 0 ∨ now < int64Max) :
    passed t₀.due t₀.interval last + t.expired now = passed t₀.due t₀.interval now := by
  have hmono := passed_mono (d := t₀.due) (p := t₀.interval) hnow
  unfold PosixTimer.expired
  rw [h.id, h.interval, h.due, h.armed]
  rcases Nat.eq_zero_or_pos t₀.interval with hzero | hpos
  · rw [hzero, Nat.mul_zero, Nat.add_zero, Nat.min_eq_left hdue, passed_zero, passed_zero] at *
    by_cases hlast : t₀.due ≤ last
    · rw [if_pos hlast, if_pos (hlast.trans hnow)]
      simp
    · rw [if_neg hlast]
      simp [hid]
  · rw [if_neg (by simp [hid, hpos.ne'])]
    rcases Nat.le_total (t₀.due + passed t₀.due t₀.interval last * t₀.interval) int64Max with hle | hge
    · rw [Nat.min_eq_left hle]
      exact passed_add hpos hmono
    · have hlt : now < int64Max := hlimit.resolve_left hpos.ne'
      have hsum := passed_add hpos hmono
      rw [passed_of_lt (hlt.trans_le hge)] at hsum
      rw [Nat.min_eq_right hge, passed_of_lt hlt]
      exact hsum

theorem Tracks.poll (h : Tracks t₀ t taken last) (hid : t₀.id ≠ 0) (hdue : t₀.due ≤ int64Max) (hnow : last ≤ now)
    (hlimit : t₀.interval = 0 ∨ now < int64Max) : Tracks t₀ (t.polled (t.expired now)) taken now := by
  have hsum := h.expired hid hdue hnow hlimit
  refine ⟨h.id, h.deleted, h.clock, h.notify, h.interval, ?_, ?_, fun hnotify hroom => ?_⟩
  · unfold PosixTimer.polled
    dsimp only
    rw [h.due, h.interval, ← hsum, Nat.add_mul]
    omega
  · unfold PosixTimer.polled
    dsimp only
    rw [h.armed, h.interval, ← hsum]
    by_cases h1 : passed t₀.due t₀.interval last = 0 <;> by_cases h2 : t₀.interval = 0 <;> simp [h1, h2]
  · have hpending := h.pending hnotify (by omega)
    unfold PosixTimer.polled
    dsimp only
    rw [h.notify, if_neg hnotify]
    omega

theorem TimerSince.tracks (hsince : TimerSince i s s' taken last) (h : TimersInv s) (ht : s.items[i]? = some t₀)
    (hid : t₀.id ≠ 0)
    (hlive : t₀.deleted = false) (harmed : t₀.armed = true) (hpos : 0 < t₀.due)
    (hlimit : t₀.interval = 0 ∨ last < int64Max) :
    TimersInv s' ∧ ∃ t, s'.items[i]? = some t ∧ Tracks t₀ t taken last := by
  have hdue := (h.ok t₀ (List.mem_of_getElem? ht)).due
  induction hsince with
  | refl =>
    have hzero : passed t₀.due t₀.interval 0 = 0 := passed_of_lt hpos
    refine ⟨h, t₀, ht, rfl, hlive, ⟨rfl, rfl⟩, rfl, rfl, ?_, ?_, fun _ _ => ?_⟩ <;> rw [hzero]
    · rw [Nat.zero_mul, Nat.add_zero, Nat.min_eq_left hdue]
    · simpa using harmed
    · omega
  | @poll s₁ s₂ t taken last clock _ hi hle hs ih =>
    obtain ⟨hinv, t₁, ht₁, htrack⟩ := ih (hlimit.imp_right (Nat.lt_of_le_of_lt hle))
    cases hi.symm.trans ht₁
    obtain ⟨items, heq, -, hget⟩ := pollItems_eq clock hinv.ok
    refine ⟨step_inv hinv hs, _, ?_, htrack.poll hid hdue hle hlimit⟩
    simp only [PosixTimers.step, timerPoll, heq, Checked.bind_ok] at hs
    cases hs
    exact hget i t hi
  | @take s₁ s₂ t taken last _ hi hs ih =>
    obtain ⟨hinv, t₁, ht₁, htrack⟩ := ih hlimit
    cases hi.symm.trans ht₁
    obtain ⟨b, t', heq, -, hsame⟩ := take_eq t
    refine ⟨step_inv hinv hs, t', at_self hi (by rw [heq]; rfl) hs, ?_⟩
    rw [hsame]
    refine ⟨htrack.id, htrack.deleted, htrack.clock, htrack.notify, htrack.interval, htrack.due, htrack.armed,
      fun hnotify hroom => ?_⟩
    exact htrack.pending hnotify hroom
  | @other s₁ s₂ taken last e _ hl hs ih =>
    obtain ⟨hinv, t₁, ht₁, htrack⟩ := ih hlimit
    obtain ⟨t₂, ht₂, hsame⟩ := step_leaves hinv ht₁ (htrack.id ▸ hid) htrack.deleted hl hs
    exact ⟨step_inv hinv hs, t₂, ht₂, htrack.same hsame⟩

end Track

/-- Nothing wraps; the time to the next deadline is no longer than the time to any; ids are handed out once, and are of no
    use to others or when they are deleted; and what has expired of a timer does not depend on when one polls, while the
    clock is below the limit of a deadline. -/
theorem timer_expirations {w : TimerWorld} (h : TimerReach w) :
    (∀ e, ∃ w', w.step e = .ok w') ∧ (∀ owner id clock, ∃ r, timerGet w.timers owner id clock = .ok r) ∧
    (∀ clock, ∃ next, timerNext w.timers clock = .ok next ∧ ∀ (i : Nat) (t : PosixTimer), w.timers.items[i]? = some t →
      t.id ≠ 0 → t.armed = true → next ≤ t.due - (clock i t.armedClock t.clockTid).toNat) ∧
    (w.made.map Prod.fst).Nodup ∧
    (∀ owner id, (id, owner) ∉ w.made ∨ id ∈ w.gone → ∀ flags spec old clock,
      timerDelete w.timers owner id = (.einval, w.timers) ∧
      timerSet w.timers owner id flags spec old clock = .ok (.einval, (0, 0), w.timers) ∧
      timerGet w.timers owner id clock = .ok (.einval, 0, 0)) ∧
    ∀ owner id flags spec old clock before s, timerSet w.timers owner id flags spec old clock = .ok (.ok, before, s) →
      spec.value ≠ 0 → ∃ i t, timerFind w.timers owner id = some i ∧ s.items[i]? = some t ∧ t.armed = true ∧
        t.interval = min spec.interval.toNat int64Max ∧
        t.due = min (if flags &&& 1 ≠ 0 then spec.value.toNat
          else (clock t.armedClock t.clockTid).toNat + spec.value.toNat) int64Max ∧
        ∀ s' taken last, TimerSince i s s' taken last → (t.interval = 0 ∨ last < int64Max) → ∃ t', s'.items[i]? = some t' ∧
          (t'.armedClock = t.armedClock ∧ t'.clockTid = t.clockTid) ∧
          (t.notify ≠ 1 → t.pending + expirations t.due t.interval last ≤ uint64Max →
            taken + t'.pending = t.pending + expirations t.due t.interval last) ∧
          (t.interval = 0 → (t'.armed = true ↔ expirations t.due t.interval last = 0)) ∧
          (t.interval ≠ 0 → ∃ x, IsLeast {x | last < x ∧ ∃ k, x = t.due + k * t.interval} x ∧ t'.due = min x int64Max) := by
  have hinv := h.inv
  refine ⟨fun e => ?_, fun owner id clock => ?_, fun clock => ?_, hinv.once, fun owner id hno flags spec old clock => ?_, ?_⟩
  · obtain ⟨w', hw, -⟩ := hinv.step e
    exact ⟨w', hw⟩
  · unfold timerGet
    split
    · exact ⟨_, rfl⟩
    · rw [left_eq]
      exact ⟨_, rfl⟩
  · obtain ⟨next, hnext, -, hall⟩ := nextItems_eq w.timers.items clock uint64Max
    exact ⟨next, hnext, hall⟩
  · have hfind : timerFind w.timers owner id = none := by
      refine timerFind_none fun hid i t ht heq hlive howner => ?_
      obtain ⟨hmade, hgone⟩ := hinv.live i t ht (heq ▸ hid)
      rcases hno with hno | hno
      · exact hno (heq ▸ howner ▸ hmade)
      · exact hgone hlive (heq ▸ hno)
    simp only [timerDelete, timerSet, timerGet, hfind, Option.bind_none, and_self]
  · intro owner id flags spec old clock before s hs hvalue
    cases hfind : timerFind w.timers owner id with
    | none =>
      simp only [timerSet, hfind] at hs
      cases hs
    | some i =>
      have hset := timerSet_eq hfind flags spec old clock
      split_ifs at hset with hflags
      · cases hset.symm.trans hs
      obtain ⟨t₀, t, before', ht₀, harmed, heq⟩ := hset
      obtain ⟨hid, u, hu, huid, hlive, -⟩ := timerFind_some hfind
      cases ht₀.symm.trans hu
      obtain rfl : s = { w.timers with items := w.timers.items.set i t } := by
        have := Checked.ok.inj (hs.symm.trans heq)
        exact congrArg (fun r => r.2.2) this
      have hget : (w.timers.items.set i t)[i]? = some t := List.getElem?_set_self (List.getElem?_eq_some_iff.1 ht₀).1
      have hfollows : t₀.Follows t := by
        refine ⟨.inr ?_, harmed.ok⟩
        rw [harmed.same]
        exact ⟨rfl, rfl, fun hd => hd⟩
      have hinv' := (Changed.set ht₀ hfollows).inv hinv.timers
      have hfields : t.id = t₀.id ∧ t.deleted = t₀.deleted ∧ t.clockTid = t₀.clockTid ∧ t.armed = true := by
        rw [harmed.same]
        exact ⟨rfl, rfl, rfl, decide_eq_true hvalue⟩
      have hpos : 0 < t.due := by
        have hv : 0 < spec.value.toNat := Nat.pos_of_ne_zero fun hzero => hvalue (UInt64.toNat_inj.1 hzero)
        have hlimit : 0 < int64Max := by decide
        rw [harmed.due]
        split_ifs <;> omega
      refine ⟨i, t, rfl, hget, hfields.2.2.2, harmed.interval, hfields.2.2.1 ▸ harmed.due,
        fun s' taken last hsince hlimit => ?_⟩
      obtain ⟨-, t', ht', htrack⟩ := hsince.tracks hinv' hget (by rw [hfields.1, huid]; exact hid) (hfields.2.1.trans hlive)
        hfields.2.2.2 hpos hlimit
      refine ⟨t', ht', htrack.clock, ?_, fun hzero => ?_, fun hne => ?_⟩
      · rw [expirations_eq]
        exact htrack.pending
      · rw [expirations_eq, htrack.armed]
        simp [hzero]
      · exact ⟨_, isLeast_next (Nat.pos_of_ne_zero hne), htrack.due⟩

/-- Two owners have a timer each. That of the owner 7 is armed for 5 and every 3 after it, polled at 6 and 12, taken, and
    polled at 20: three expirations were taken and three are pending. The owner 8 cannot delete it. -/
theorem timer_expirations_periodic : ∃ (w : TimerWorld) (before : Nat × Nat) (s s' : PosixTimers) (t t' : PosixTimer),
    w.made = [(1, 7), (2, 8)] ∧ timerDelete w.timers 8 1 = (.einval, w.timers) ∧
    timerSet w.timers 7 1 1 ⟨3, 5⟩ false (fun _ _ => 0) = .ok (.ok, before, s) ∧ TimerSince 0 s s' 3 20 ∧
    s.items[0]? = some t ∧ s'.items[0]? = some t' ∧ t'.pending = 3 ∧
      3 + t'.pending = t.pending + expirations t.due t.interval 20 := by
  have h₁ : TimerReach _ := TimerReach.start.step (e := .create 7 1 0 14 0 0 0 true) rfl
  have h₂ := h₁.step (e := .create 8 1 0 10 0 0 0 true) rfl
  let t : PosixTimer :=
    { PosixTimer.zero with
      id := 1, owner := 7, clock := 1, armedClock := 1, signo := 14, due := 5, interval := 3, armed := true }
  let other : PosixTimer := { PosixTimer.zero with id := 2, owner := 8, clock := 1, armedClock := 1, signo := 10 }
  have hset :
      timerSet ⟨[{ t with due := 0, interval := 0, armed := false }, other], 8, 2⟩ 7 1 1 ⟨3, 5⟩ false (fun _ _ => 0) =
      .ok (.ok, (0, 0), ⟨[t, other], 8, 2⟩) := rfl
  have hs₁ : TimerSince 0 ⟨[t, other], 8, 2⟩ ⟨[{ t with due := 8, pending := 1 }, other], 8, 2⟩ 0 6 :=
    TimerSince.refl.poll (fun _ _ _ => 6) rfl (Nat.zero_le _) (by decide)
  have hs₂ : TimerSince 0 ⟨[t, other], 8, 2⟩ ⟨[{ t with due := 14, pending := 3 }, other], 8, 2⟩ 0 12 :=
    hs₁.poll (fun _ _ _ => 12) rfl (by decide) (by decide)
  have hs₃ : TimerSince 0 ⟨[t, other], 8, 2⟩ ⟨[{ t with due := 14, overrun := 2 }, other], 8, 2⟩ 3 12 := hs₂.take rfl rfl
  have hs₄ : TimerSince 0 ⟨[t, other], 8, 2⟩ ⟨[{ t with due := 23, overrun := 2, pending := 3 }, other], 8, 2⟩ 3 20 :=
    hs₃.poll (fun _ _ _ => 20) rfl (by decide) (by decide)
  have hall := timer_expirations h₂
  refine ⟨_, _, _, _, t, _, rfl, (hall.2.2.2.2.1 8 1 (.inl (by decide)) 0 ⟨0, 0⟩ false fun _ _ => 0).1, hset, hs₄, rfl,
    rfl, rfl, ?_⟩
  obtain ⟨i, u, hfind, hu, -, -, -, hsince⟩ := hall.2.2.2.2.2 7 1 1 ⟨3, 5⟩ false _ _ _ hset (by decide)
  cases hfind
  cases hu
  obtain ⟨t', ht', -, hcount, -⟩ := hsince _ 3 20 hs₄ (.inr (by decide))
  cases ht'
  exact hcount (by decide) (by rw [expirations_eq]; decide)

/-- Nothing is counted where nobody is notified; what was pending before stays when a timer is armed again; and a deadline
    at its limit is found again by each poll. -/
theorem timer_expirations_differ :
    (∃ (w : TimerWorld) (s s' : PosixTimers) (before : Nat × Nat) (t t' : PosixTimer), TimerReach w ∧
      timerSet w.timers 7 1 1 ⟨0, 1⟩ false (fun _ _ => 0) = .ok (.ok, before, s) ∧
      TimerSince 0 s s' 0 1 ∧ s.items[0]? = some t ∧ s'.items[0]? = some t' ∧ t'.pending ≠ expirations t.due t.interval 1) ∧
    (∃ (w : TimerWorld) (s s' : PosixTimers) (before : Nat × Nat) (t t' : PosixTimer), TimerReach w ∧
      timerSet w.timers 7 1 1 ⟨0, 1⟩ false (fun _ _ => 0) = .ok (.ok, before, s) ∧
      TimerSince 0 s s' 0 1 ∧ s.items[0]? = some t ∧ t.notify ≠ 1 ∧ s'.items[0]? = some t' ∧
      t'.pending ≠ expirations t.due t.interval 1) ∧
    ∃ (w : TimerWorld) (s s' : PosixTimers) (before : Nat × Nat) (t t' : PosixTimer), TimerReach w ∧
      timerSet w.timers 7 1 1 ⟨UInt64.ofNat int64Max, 1⟩ false (fun _ _ => 0) = .ok (.ok, before, s) ∧
      TimerSince 0 s s' 0 int64Max ∧ s.items[0]? = some t ∧ t.notify ≠ 1 ∧ t.pending = 0 ∧ s'.items[0]? = some t' ∧
      t'.pending ≠ expirations t.due t.interval int64Max ∧ ∀ k, t.due + k * t.interval ≤ int64Max →
        t.due + k * t.interval < int64Max := by
  refine ⟨?_, ?_, ?_⟩
  · have h : TimerReach _ := TimerReach.start.step (e := .create 7 1 1 0 0 0 0 true) rfl
    let t : PosixTimer :=
      { PosixTimer.zero with id := 1, owner := 7, clock := 1, armedClock := 1, notify := 1, due := 1, armed := true }
    have hs : TimerSince 0 ⟨[t], 8, 1⟩ ⟨[t.polled 1], 8, 1⟩ 0 1 :=
      TimerSince.refl.poll (fun _ _ _ => 1) rfl (Nat.zero_le _) rfl
    refine ⟨_, _, _, _, _, _, h, rfl, hs, rfl, rfl, ?_⟩
    rw [expirations_eq]
    decide
  · have h₁ : TimerReach _ := TimerReach.start.step (e := .create 7 1 0 14 0 0 0 true) rfl
    have h₂ := h₁.step (e := .set 7 1 1 ⟨0, 1⟩ false fun _ _ => 0) rfl
    have h₃ := h₂.step (e := .poll fun _ _ _ => 1) rfl
    let t : PosixTimer :=
      { PosixTimer.zero with
        id := 1, owner := 7, clock := 1, armedClock := 1, signo := 14, due := 1, armed := true, pending := 1 }
    have hs : TimerSince 0 ⟨[t], 8, 1⟩ ⟨[t.polled 1], 8, 1⟩ 0 1 :=
      TimerSince.refl.poll (fun _ _ _ => 1) rfl (Nat.zero_le _) rfl
    refine ⟨_, _, _, _, _, _, h₃, rfl, hs, rfl, by decide, rfl, ?_⟩
    rw [expirations_eq]
    decide
  · have h : TimerReach _ := TimerReach.start.step (e := .create 7 1 0 14 0 0 0 true) rfl
    let t : PosixTimer :=
      { PosixTimer.zero with
        id := 1, owner := 7, clock := 1, armedClock := 1, signo := 14, due := 1, interval := int64Max, armed := true }
    have hs₁ : TimerSince 0 ⟨[t], 8, 1⟩ ⟨[t.polled 1], 8, 1⟩ 0 1 :=
      TimerSince.refl.poll (fun _ _ _ => 1) rfl (Nat.zero_le _) (by decide)
    have hs₂ : TimerSince 0 ⟨[t], 8, 1⟩ ⟨[(t.polled 1).polled 1], 8, 1⟩ 0 int64Max :=
      hs₁.poll (fun _ _ _ => UInt64.ofNat int64Max) rfl (by decide) (by decide)
    refine ⟨_, _, _, _, _, _, h, rfl, hs₂, rfl, by decide, rfl, rfl, ?_, fun k hk => ?_⟩
    · rw [expirations_eq]
      decide
    · have hk' : 1 + k * int64Max ≤ int64Max := hk
      show 1 + k * int64Max < int64Max
      have hlimit : int64Max = 2 ^ 63 - 1 := rfl
      rcases Nat.eq_zero_or_pos k with rfl | hpos
      · omega
      · have := Nat.le_mul_of_pos_left int64Max hpos
        omega

end Lunaria.Os
