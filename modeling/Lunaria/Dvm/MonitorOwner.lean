import Lunaria.Dvm.MonitorStep

/-! Monitors exclude and nest: the depth of an owned monitor is the number of times its owner has entered it and not
    left it, unless it entered `2 ^ 32` times, where the count is zero again. -/

namespace Lunaria.Dvm.Monitor
open Word Option Function

/-- The enters of a thread minus its exits. A wait is neither, and one that comes back without the monitor starts
    the count anew. -/
def nesting (t : Tid) (ref : Ref) : List Event → Int
  | [] => 0
  | .entered u r :: l => if u = t ∧ r = ref then nesting t ref l + 1 else nesting t ref l
  | .exited u r :: l => if u = t ∧ r = ref then nesting t ref l - 1 else nesting t ref l
  | .waitFalse u r e :: l =>
    if u = t ∧ r = ref ∧ e ≠ some .waitInterrupted then 0 else nesting t ref l
  | _ :: l => nesting t ref l

/-- The wait a thread called last, and the depth it had then. -/
def lastWait (t : Tid) : List Event → Option (Ref × Nat)
  | [] => none
  | .waitCalled u r d :: l => if u = t then some (r, d) else lastWait t l
  | _ :: l => lastWait t l

/-- A thread enters no monitor that it owns `2 ^ 32 - 1` times. -/
def NoWrap (s : State) (a : Act) : Prop :=
  ∀ ref ∈ a.enters, ∀ o ∈ s.objs ref, a.caller = some o.owner → o.depth + 1 < 2 ^ 32

instance (s : State) (a : Act) : Decidable (NoWrap s a) :=
  @Option.decidableForallMem _ _ (fun ref => @Option.decidableForallMem _ _ (fun _ => inferInstance) (s.objs ref))
    a.enters

section Owner
variable {s s' s₁ : State} {a : Act} {t u : Tid} {ref r : Ref}

/-- What the thread has of the monitor: its depth, also while it waits. -/
def State.held (s : State) (t : Tid) (ref : Ref) : Nat :=
  match s.hold ref with
  | none => 0
  | some (u, d) =>
    if u = t then d
    else
      match (s.phase t).waitOn with
      | none => 0
      | some (r, saved) => if r = ref then saved else 0

/-- The invariant. The last part is about a wait that has just returned with the monitor. -/
structure Owned (s : State) : Prop where
  zero : ∀ ref u d, s.hold ref = some (u, d) → (u = 0 ↔ d = 0) ∧ d < 2 ^ 32
  away : ∀ t ref, (s.phase t).monitorOn = some ref → t ≠ 0 ∧ ∃ u d, s.hold ref = some (u, d) ∧ u ≠ t
  nest : ∀ t ref, t ≠ 0 → nesting t ref s.log = s.held t ref
  call : ∀ t ref saved, (s.phase t).waitOn = some (ref, saved) →
    lastWait t s.log = some (ref, saved) ∧ saved ≠ 0 ∧ saved < 2 ^ 32
  back : ∀ e l t ref, s.log = e :: l → e.Regained t ref → ∃ d, s.hold ref = some (t, d) ∧ lastWait t l = some (ref, d)

theorem Owned.init : Owned .init where
  zero := fun _ _ _ h => absurd h nofun
  away := fun _ _ h => absurd h nofun
  nest := fun _ _ _ => rfl
  call := fun _ _ _ h => absurd h nofun
  back := fun _ _ _ _ h => absurd h nofun

theorem Owned.unowned (h : Owned s) : s.Unowned := fun ref d hd => (h.zero ref 0 d hd).1.mp rfl

variable {p : Phase} {saved : Nat} {d : Nat} {e : Event} {l : List Event}

theorem Phase.monitorOn_of_waitOn (h : p.waitOn = some (ref, saved)) :
    p.monitorOn = some ref := by
  unfold Phase.waitOn at h
  split at h
  · exact congrArg some (Prod.mk.inj (some.inj h)).1
  · exact congrArg some (Prod.mk.inj (some.inj h)).1
  · cases h

theorem held_congr (hhold : s'.hold ref = s.hold ref) (hwait : (s'.phase t).waitOn = (s.phase t).waitOn) :
    s'.held t ref = s.held t ref := by
  unfold State.held
  rw [hhold, hwait]

theorem held_owner (h : s.hold ref = some (t, d)) : s.held t ref = d := by
  simp [State.held, h]

theorem held_other (h : s.hold ref = some (u, d)) (hut : u ≠ t) (hwait : (s.phase t).waitOn = none) :
    s.held t ref = 0 := by
  simp [State.held, h, hut, hwait]

theorem held_waiting {d saved : Nat} (h : s.hold ref = some (u, d)) (hut : u ≠ t)
    (hwait : (s.phase t).waitOn = some (ref, saved)) : s.held t ref = saved := by
  simp [State.held, h, hut, hwait]

/-- The share of a thread that neither owned the monitor nor owns it now. -/
theorem held_hand {v : Tid} {d d' : Nat} (h : s.hold ref = some (u, d)) (h' : s'.hold ref = some (v, d')) (hu : u ≠ t)
    (hv : v ≠ t) (hwait : (s'.phase t).waitOn = (s.phase t).waitOn) : s'.held t ref = s.held t ref := by
  simp only [State.held, h, h', if_neg hu, if_neg hv, hwait]

theorem update_phase (hphase : s'.phase = update s.phase t p) (u : Tid) :
    (u = t ∧ s'.phase u = p) ∨ (u ≠ t ∧ s'.phase u = s.phase u) := by
  by_cases hu : u = t
  · exact .inl ⟨hu, by rw [hphase, hu, update_self]⟩
  · exact .inr ⟨hu, by rw [hphase, update_of_ne hu]⟩

/-- The monitors after a change of one. -/
theorem update_hold {x : Option (Tid × Nat)} (hhold : s'.hold = update s.hold ref x) (r : Ref) :
    (r = ref ∧ s'.hold r = x) ∨ (r ≠ ref ∧ s'.hold r = s.hold r) := by
  by_cases hr : r = ref
  · exact .inl ⟨hr, by rw [hhold, hr, update_self]⟩
  · exact .inr ⟨hr, by rw [hhold, update_of_ne hr]⟩

/-- A step that leaves the monitors alone, after which its thread is in no wait and was in none. -/
theorem Owned.same (h : Owned s) (hfrom : (s.phase t).waitOn = none) (hp : p.waitOn = none)
    (haway : ∀ ref, p.monitorOn = some ref → t ≠ 0 ∧ ∃ u d, s.hold ref = some (u, d) ∧ u ≠ t)
    (hhold : s'.hold = s.hold) (hphase : s'.phase = update s.phase t p)
    (hnest : ∀ u r, nesting u r s'.log = nesting u r s.log)
    (hcall : ∀ u ≠ t, lastWait u s'.log = lastWait u s.log)
    (hback : ∀ e l u r, s'.log = e :: l → e.Regained u r → ∃ d, s'.hold r = some (u, d) ∧ lastWait u l = some (r, d)) :
    Owned s' where
  zero := hhold ▸ h.zero
  away := by
    intro u r hon
    rw [hhold]
    rcases update_phase hphase u with ⟨rfl, hu⟩ | ⟨-, hu⟩ <;> rw [hu] at hon
    · exact haway r hon
    · exact h.away u r hon
  nest := by
    intro u r hu0
    rw [hnest, h.nest u r hu0]
    congr 1
    refine (held_congr (by rw [hhold]) ?_).symm
    rcases update_phase hphase u with ⟨rfl, hu⟩ | ⟨-, hu⟩ <;> rw [hu]
    rw [hp, hfrom]
  call := by
    intro u r saved hwait
    rcases update_phase hphase u with ⟨rfl, hu⟩ | ⟨hne, hu⟩ <;> rw [hu] at hwait
    · rw [hp] at hwait
      cases hwait
    · rw [hcall u hne]
      exact h.call u r saved hwait
  back := hback

theorem Event.Quiet.nesting (he : e.Quiet) (l : List Event) : nesting t ref (e :: l) = nesting t ref l := by
  cases e <;> first | rfl | exact he.elim

theorem Event.Quiet.lastWait (he : e.Quiet) (l : List Event) : lastWait t (e :: l) = lastWait t l := by
  cases e <;> first | rfl | exact he.elim

theorem Event.Quiet.not_regained (he : e.Quiet) : ¬ e.Regained t ref := by
  rintro (_ | _) <;> exact he

theorem Event.Regained.unique (h : e.Regained t ref) (h' : e.Regained u r) : u = t ∧ r = ref := by
  cases h <;> cases h' <;> exact ⟨rfl, rfl⟩

/-- A step that gives the monitor of `ref` to `v`, which is its thread or nobody, from its thread or nobody. -/
theorem Owned.hand {v w : Tid} {d d' : Nat} (h : Owned s) (hbefore : s.hold ref = some (v, d))
    (hv : v = 0 ∨ v = t) (hw : w = 0 ∨ w = t) (hdepth : (w = 0 ↔ d' = 0) ∧ d' < 2 ^ 32)
    (hhold : s'.hold = update s.hold ref (some (w, d'))) (hphase : s'.phase = update s.phase t p)
    (haway : ∀ r, p.monitorOn = some r → t ≠ 0 ∧ ∃ u d, s'.hold r = some (u, d) ∧ u ≠ t)
    (hnest : t ≠ 0 → ∀ r, nesting t r s'.log = s'.held t r)
    (hnest' : ∀ u r, u ≠ t → nesting u r s'.log = nesting u r s.log)
    (hcall : ∀ r saved, p.waitOn = some (r, saved) → lastWait t s'.log = some (r, saved) ∧ saved ≠ 0 ∧ saved < 2 ^ 32)
    (hcall' : ∀ u ≠ t, lastWait u s'.log = lastWait u s.log)
    (hback : ∀ e l u r, s'.log = e :: l → e.Regained u r → ∃ d, s'.hold r = some (u, d) ∧ lastWait u l = some (r, d)) :
    Owned s' where
  zero := by
    intro r u n hr
    rcases update_hold hhold r with ⟨rfl, heq⟩ | ⟨-, heq⟩ <;> rw [heq] at hr
    · cases hr
      exact hdepth
    · exact h.zero r u n hr
  away := by
    intro u r hon
    rcases update_phase hphase u with ⟨rfl, hu⟩ | ⟨hne, hu⟩ <;> rw [hu] at hon
    · exact haway r hon
    · obtain ⟨hu0, x, n, hx, hxu⟩ := h.away u r hon
      refine ⟨hu0, ?_⟩
      rcases update_hold hhold r with ⟨rfl, heq⟩ | ⟨-, heq⟩ <;> rw [heq]
      · refine ⟨w, d', rfl, ?_⟩
        rcases hw with rfl | rfl
        · exact hu0.symm
        · exact hne.symm
      · exact ⟨x, n, hx, hxu⟩
  nest := by
    intro u r hu0
    rcases update_phase hphase u with ⟨rfl, -⟩ | ⟨hne, hu⟩
    · exact hnest hu0 r
    · rw [hnest' u r hne, h.nest u r hu0]
      congr 1
      rcases update_hold hhold r with ⟨rfl, heq⟩ | ⟨-, heq⟩
      · refine (held_hand hbefore heq ?_ ?_ (by rw [hu])).symm
        · rcases hv with rfl | rfl
          · exact hu0.symm
          · exact hne.symm
        · rcases hw with rfl | rfl
          · exact hu0.symm
          · exact hne.symm
      · exact (held_congr heq (by rw [hu])).symm
  call := by
    intro u r saved hwait
    rcases update_phase hphase u with ⟨rfl, hu⟩ | ⟨hne, hu⟩ <;> rw [hu] at hwait
    · exact hcall r saved hwait
    · rw [hcall' u hne]
      exact h.call u r saved hwait
  back := hback

theorem nesting_entered_ne (h : ¬ (u = t ∧ r = ref)) :
    nesting t ref (.entered u r :: l) = nesting t ref l := if_neg h

theorem nesting_exited_ne (h : ¬ (u = t ∧ r = ref)) :
    nesting t ref (.exited u r :: l) = nesting t ref l := if_neg h

theorem nesting_waitFalse_ne {e : Option Thrown} (h : ¬ (u = t ∧ r = ref)) :
    nesting t ref (.waitFalse u r e :: l) = nesting t ref l := if_neg fun hall => h ⟨hall.1, hall.2.1⟩

theorem Event.Regained.nesting (he : e.Regained u r) (l : List Event) :
    nesting t ref (e :: l) = nesting t ref l := by
  cases he with
  | true => rfl
  | interrupted => exact if_neg fun h => h.2.2 rfl

theorem Event.Regained.lastWait (he : e.Regained u r) (l : List Event) :
    lastWait t (e :: l) = lastWait t l := by
  cases he <;> rfl

section
variable (h : Owned s) (hfrom : (s.phase t).waitOn = none)
include h hfrom

theorem Owned.entered (hbefore : s.hold ref = some (u, d))
    (hfree : u = 0 ∨ u = t) (hne : t ≠ 0) (hwrap : u = t → d + 1 < 2 ^ 32)
    (hhold : s'.hold = update s.hold ref (some (t, add 32 d 1)))
    (hphase : s'.phase = update s.phase t .running) (hlog : s'.log = .entered t ref :: s.log) : Owned s' := by
  have hzero := h.zero ref u d hbefore
  have hlt : d + 1 < 2 ^ 32 := by
    rcases hfree with hu | hu
    · have hd : d = 0 := hzero.1.mp hu
      omega
    · exact hwrap hu
  rw [add_of_lt hlt] at hhold
  have hshare : (s.held t ref : Int) = d := by
    rcases hfree with hu | rfl
    · rw [held_other hbefore (fun h => hne (h.symm.trans hu)) hfrom, hzero.1.mp hu]
    · rw [held_owner hbefore]
  refine h.hand hbefore hfree (.inr rfl) ⟨⟨fun h => absurd h hne, by omega⟩, hlt⟩ hhold hphase nofun
    (fun _ r => ?_) (fun u r hu => ?_) nofun (fun u _ => ?_) (fun e l u r heq hreg => ?_)
  · rw [hlog]
    rcases update_hold hhold r with ⟨rfl, heq⟩ | ⟨hr, heq⟩
    · rw [held_owner heq, nesting, if_pos ⟨rfl, rfl⟩, h.nest t r hne, hshare]
      rfl
    · rw [nesting_entered_ne fun hall => hr hall.2.symm, h.nest t r hne]
      congr 1
      refine (held_congr heq ?_).symm
      rw [hphase, update_self, hfrom]
      rfl
  · rw [hlog, nesting_entered_ne fun hall => hu hall.1.symm]
  · rw [hlog]
    rfl
  · cases hlog.symm.trans heq
    cases hreg

theorem Owned.exited (hbefore : s.hold ref = some (t, d + 1))
    (hhold : s'.hold = update s.hold ref (some (if d = 0 then (0, 0) else (t, d))))
    (hphase : s'.phase = update s.phase t .running) (hlog : s'.log = .exited t ref :: s.log) : Owned s' := by
  have hzero := h.zero ref t (d + 1) hbefore
  have hne : t ≠ 0 := fun ht => absurd (hzero.1.mp ht) (Nat.succ_ne_zero d)
  obtain ⟨v, d', hpair, hv, hdepth⟩ : ∃ v d', (if d = 0 then ((0 : Tid), 0) else (t, d)) = (v, d') ∧ (v = 0 ∨ v = t) ∧
      (v = 0 ↔ d' = 0) ∧ d' < 2 ^ 32 ∧ d' = d ∧ (v ≠ t → d = 0) := by
    by_cases hd : d = 0
    · exact ⟨0, 0, if_pos hd, .inl rfl, by simp, by omega, hd.symm, fun _ => hd⟩
    · exact ⟨t, d, if_neg hd, .inr rfl, by simp [hne, hd], by omega, rfl, fun h => absurd rfl h⟩
  obtain ⟨hiff, hlt, rfl, hgone⟩ := hdepth
  rw [hpair] at hhold
  refine h.hand hbefore (.inr rfl) hv ⟨hiff, hlt⟩ hhold hphase nofun
    (fun _ r => ?_) (fun u r hu => ?_) nofun (fun u _ => ?_) (fun e l u r heq hreg => ?_)
  · have hrun : (s'.phase t).waitOn = none := by rw [hphase, update_self]; rfl
    rw [hlog]
    rcases update_hold hhold r with ⟨rfl, heq⟩ | ⟨hr, heq⟩
    · rw [nesting, if_pos ⟨rfl, rfl⟩, h.nest t r hne, held_owner hbefore]
      by_cases hvt : v = t
      · rw [held_owner (hvt ▸ heq)]
        omega
      · rw [held_other heq hvt hrun]
        have := hgone hvt
        omega
    · rw [nesting_exited_ne fun hall => hr hall.2.symm, h.nest t r hne]
      congr 1
      exact (held_congr heq (hrun.trans hfrom.symm)).symm
  · rw [hlog, nesting_exited_ne fun hall => hu hall.1.symm]
  · rw [hlog]
    rfl
  · cases hlog.symm.trans heq
    cases hreg

/-- The monitor is given up and its depth kept, as if the thread stood in its wait already. -/
theorem Owned.released (hbefore : s.hold ref = some (t, d))
    (hd : d ≠ 0) (hhold : s'.hold = update s.hold ref (some (0, 0)))
    (hphase : s'.phase = update s.phase t (.waiting ref d 0 0))
    (hlog : s'.log = .waitCalled t ref d :: s.log) : Owned s' := by
  have hzero := h.zero ref t d hbefore
  have hne : t ≠ 0 := fun ht => hd (hzero.1.mp ht)
  have hwait : (s'.phase t).waitOn = some (ref, d) := by rw [hphase, update_self]; rfl
  have hgone : s'.hold ref = some (0, 0) := by rw [hhold, update_self]
  refine h.hand hbefore (.inr rfl) (.inl rfl) ⟨by simp, by omega⟩ hhold hphase (fun r hr => ?_)
    (fun _ r => ?_) (fun u r hu => ?_) (fun r saved hr => ?_) (fun u hu => ?_) (fun e l u r heq hreg => ?_)
  · cases hr
    exact ⟨hne, 0, 0, hgone, hne.symm⟩
  · rw [hlog]
    change nesting t r s.log = _
    rw [h.nest t r hne]
    rcases update_hold hhold r with ⟨rfl, -⟩ | ⟨hr, heq⟩
    · rw [held_owner hbefore, held_waiting hgone hne.symm hwait]
    · congr 1
      unfold State.held
      rw [heq, hwait, hfrom]
      simp only [if_neg (Ne.symm hr)]
  · rw [hlog]
    rfl
  · cases hr
    rw [hlog]
    exact ⟨if_pos rfl, hd, hzero.2⟩
  · rw [hlog]
    exact if_neg (Ne.symm hu)
  · cases hlog.symm.trans heq
    cases hreg

end

theorem Owned.regains (h : Owned s) (hfrom : (s.phase t).waitOn = some (ref, saved))
    (hregains : Regains s t ref saved s') : Owned s' := by
  obtain ⟨hne, u, d, hbefore, hut⟩ := h.away t ref (Phase.monitorOn_of_waitOn hfrom)
  obtain ⟨hlast, hsaved, hlt⟩ := h.call t ref saved hfrom
  -- What the thread has of another object does not come from the wait.
  have hothers : (s'.phase t).waitOn = none → ∀ r ≠ ref, s'.hold r = s.hold r → s'.held t r = s.held t r := by
    intro hrun r hr heq
    unfold State.held
    rw [heq, hrun, hfrom]
    simp only [if_neg (Ne.symm hr)]
  cases hregains with
  | lost e he hhold hphase hlog =>
    have hrun : (s'.phase t).waitOn = none := by rw [hphase, update_self]; rfl
    refine ⟨hhold ▸ h.zero, fun u r hon => ?_, fun u r hu0 => ?_, fun u r n hwait => ?_, fun e' l u r heq hreg => ?_⟩
    · rw [hhold]
      rcases update_phase hphase u with ⟨rfl, hu⟩ | ⟨-, hu⟩ <;> rw [hu] at hon
      · cases hon
      · exact h.away u r hon
    · rw [hlog]
      rcases update_phase hphase u with ⟨rfl, -⟩ | ⟨hu, hu'⟩
      · by_cases hr : r = ref
        · subst hr
          rw [nesting, if_pos ⟨rfl, rfl, he⟩, held_other (hhold ▸ hbefore) hut hrun]
          rfl
        · rw [nesting_waitFalse_ne fun hall => hr hall.2.symm, h.nest u r hu0, hothers hrun r hr (by rw [hhold])]
      · rw [nesting_waitFalse_ne fun hall => hu hall.1.symm, h.nest u r hu0]
        congr 1
        exact (held_congr (by rw [hhold]) (by rw [hu'])).symm
    · rw [hlog]
      rcases update_phase hphase u with ⟨rfl, hu⟩ | ⟨-, hu⟩ <;> rw [hu] at hwait
      · cases hwait
      · exact h.call u r n hwait
    · cases hlog.symm.trans heq
      cases hreg
      exact absurd rfl he
  | parked p hp hon hhold hphase hlog =>
    refine ⟨hhold ▸ h.zero, fun u r hon' => ?_, fun u r hu0 => ?_, fun u r n hwait => ?_, fun e l u r heq hreg => ?_⟩
    · rw [hhold]
      rcases update_phase hphase u with ⟨rfl, hu⟩ | ⟨-, hu⟩ <;> rw [hu] at hon'
      · cases hon.symm.trans hon'
        exact h.away u ref (Phase.monitorOn_of_waitOn hfrom)
      · exact h.away u r hon'
    · rw [hlog, h.nest u r hu0]
      congr 1
      refine (held_congr (by rw [hhold]) ?_).symm
      rcases update_phase hphase u with ⟨rfl, hu⟩ | ⟨-, hu⟩ <;> rw [hu]
      rw [hp, hfrom]
    · rw [hlog]
      rcases update_phase hphase u with ⟨rfl, hu⟩ | ⟨-, hu⟩ <;> rw [hu] at hwait
      · cases hp.symm.trans hwait
        exact ⟨hlast, hsaved, hlt⟩
      · exact h.call u r n hwait
    · rw [hhold]
      exact h.back e l u r (hlog ▸ heq) hreg
  | regained v d e hv hfree _ hhold hphase he hlog =>
    have hrun : (s'.phase t).waitOn = none := by rw [hphase, update_self]; rfl
    have howned : s'.hold ref = some (t, saved) := by rw [hhold, update_self]
    refine h.hand hv hfree (.inr rfl) ⟨⟨fun h => absurd h hne, fun h => absurd h hsaved⟩, hlt⟩ hhold hphase nofun
      (fun _ r => ?_) (fun u r _ => ?_) nofun (fun u _ => ?_) (fun e' l u r heq hreg => ?_)
    · rw [hlog, he.nesting, h.nest t r hne]
      rcases update_hold hhold r with ⟨rfl, -⟩ | ⟨hr, heq⟩
      · rw [held_owner howned, held_waiting hbefore hut hfrom]
      · rw [hothers hrun r hr heq]
    · rw [hlog, he.nesting]
    · rw [hlog, he.lastWait]
    · cases hlog.symm.trans heq
      obtain ⟨rfl, rfl⟩ := he.unique hreg
      exact ⟨saved, howned, hlast⟩

theorem Regains.of_parked (h : Regains s t ref saved s') (hhold : s₁.hold = s.hold)
    (hphase : s₁.phase = update s.phase t p) (hlog : s₁.log = s.log) : Regains s₁ t ref saved s' :=
  h.congr hhold.symm (fun _ => by rw [hphase, update_idem]) hlog.symm

theorem Owned.aside (h : Owned s) (haside : Aside s s') : Owned s' := by
  cases haside with
  | alloc ref _ hnew hhold hphase hlog =>
    have hold_ne : ∀ r, s.hold r ≠ none → s'.hold r = s.hold r := by
      intro r hr
      rw [hhold, update_of_ne]
      rintro rfl
      exact hr hnew
    refine ⟨fun r u d hr => ?_, fun t r hon => ?_, fun t r ht => ?_, fun t r saved hwait => ?_, fun e l t r heq hreg => ?_⟩
    · rcases update_hold hhold r with ⟨rfl, heq⟩ | ⟨-, heq⟩ <;> rw [heq] at hr
      · cases hr
        exact ⟨by simp, by omega⟩
      · exact h.zero r u d hr
    · rw [hphase] at hon
      obtain ⟨ht, u, d, hr, hu⟩ := h.away t r hon
      exact ⟨ht, u, d, (hold_ne r (by simp [hr])).trans hr, hu⟩
    · rw [hlog, h.nest t r ht]
      congr 1
      rcases update_hold hhold r with ⟨rfl, heq⟩ | ⟨-, heq⟩
      · have hwait : ∀ saved, (s.phase t).waitOn ≠ some (r, saved) := by
          intro saved hwait
          obtain ⟨-, u, d, hr, -⟩ := h.away t r (Phase.monitorOn_of_waitOn hwait)
          rw [hnew] at hr
          cases hr
        unfold State.held
        rw [hnew, heq, hphase]
        cases hp : (s.phase t).waitOn with
        | none => simp
        | some x =>
          have hx : x.1 ≠ r := fun hx => hwait x.2 (by rw [hp, ← hx])
          simp [hx]
      · exact (held_congr heq (by rw [hphase])).symm
    · rw [hlog]
      exact h.call t r saved (hphase ▸ hwait)
    · obtain ⟨d, hr, hlast⟩ := h.back e l t r (hlog ▸ heq) hreg
      exact ⟨d, (hold_ne r (by simp [hr])).trans hr, hlast⟩
  | other hhold hlog hphase =>
    refine ⟨hhold ▸ h.zero, fun t r hon => ?_, fun t r ht => ?_, fun t r saved hwait => ?_, ?_⟩
    · rw [hhold]
      exact h.away t r ((hphase t).2 ▸ hon)
    · rw [hlog, h.nest t r ht]
      congr 1
      exact (held_congr (by rw [hhold]) (hphase t).1).symm
    · rw [hlog]
      exact h.call t r saved ((hphase t).1 ▸ hwait)
    · rw [hlog, hhold]
      exact h.back

theorem Owned.step (h : Owned s) (hwrap : NoWrap s a) (hstep : s.step a = some s') : Owned s' := by
  rcases step_outcome h.unowned hstep with ⟨t, hcaller, hout⟩ | ⟨-, haside⟩
  · cases hout with
    | quiet e he hfrom hhold hphase hlog =>
      refine h.same (p := .running) hfrom rfl nofun hhold hphase (fun u r => ?_) (fun u _ => ?_)
        (fun e' l u r heq hreg => ?_)
      · rw [hlog, he.nesting]
      · rw [hlog, he.lastWait]
      · cases hlog.symm.trans heq
        exact absurd hreg he.not_regained
    | blocked ref u d hfrom hbefore _ hut hne hhold hphase hlog =>
      refine h.same hfrom rfl (fun r hr => ?_) hhold hphase (fun _ _ => by rw [hlog]) (fun _ _ => by rw [hlog]) ?_
      · cases hr
        exact ⟨hne, u, d, hbefore, hut⟩
      · rw [hlog, hhold]
        exact h.back
    | entered ref u d hfrom hbefore hcalled hfree hne hhold hphase hlog =>
      refine h.entered hfrom hbefore hfree hne (fun hu => ?_) hhold hphase hlog
      rcases hcalled with hcalled | hentering
      · obtain ⟨o, ho, ⟨⟩⟩ := map_eq_some_iff.mp hbefore
        exact hwrap ref hcalled o ho (hcaller.trans (congrArg some hu.symm))
      · obtain ⟨-, v, n, hv, hvt⟩ := h.away t ref (by rw [hentering]; rfl)
        cases hbefore.symm.trans hv
        exact absurd hu hvt
    | exited ref d hfrom hbefore hhold hphase hlog => exact h.exited hfrom hbefore hhold hphase hlog
    | refused ref d hfrom hbefore hhold hphase hlog =>
      refine h.same (p := .running) hfrom rfl nofun hhold hphase (fun u r => ?_) (fun u hu => ?_)
        (fun e l u r heq hreg => ?_)
      · rw [hlog, Event.Regained.interrupted.nesting]
        rfl
      · rw [hlog]
        exact if_neg (Ne.symm hu)
      · cases hlog.symm.trans heq
        cases hreg
        exact ⟨d, hhold ▸ hbefore, if_pos rfl⟩
    | waits ref d s₁ hfrom hbefore hd hhold hphase hlog hregains =>
      have hreleased : Owned { s₁ with phase := update s.phase t (.waiting ref d 0 0) } :=
        h.released hfrom hbefore hd hhold rfl hlog
      refine hreleased.regains (by simp only [update_self]; rfl)
        (hregains.of_parked (p := .waiting ref d 0 0) rfl ?_ rfl)
      simp only [hphase]
    | resumes ref saved hfrom hregains => exact h.regains hfrom hregains
    | woke hfrom hhold hphase hlog =>
      refine h.same (p := .running) hfrom rfl nofun hhold hphase (fun _ _ => by rw [hlog]) (fun _ _ => by rw [hlog]) ?_
      rw [hlog, hhold]
      exact h.back
  · exact h.aside haside

theorem Run.owned (hrun : Run NoWrap .init s) : Owned s := by
  generalize hinit : State.init = s₀ at hrun
  induction hrun with
  | refl => exact hinit ▸ .init
  | step _ hmeets hstep ih => exact ih.step hmeets hstep

/-- What monitors promise. The event at the head of the log is that of the last call that came to something. -/
structure Excludes (s : State) : Prop where
  free : ∀ ref o, s.objs ref = some o → (o.owner = 0 ↔ o.depth = 0)
  nested : ∀ ref o, s.objs ref = some o → o.owner ≠ 0 → (o.depth : Int) = nesting o.owner ref s.log
  others : ∀ a s' ref o, s.step a = some s' → s.objs ref = some o → o.owner ≠ 0 → a.caller ≠ some o.owner →
    ∃ o', s'.objs ref = some o' ∧ o'.owner = o.owner ∧ o'.depth = o.depth
  busy : ∀ t ref ident pending o, s.objs ref = some o → o.owner ≠ 0 → o.owner ≠ t →
    (s.enter t ref ident pending = s.park t (.entering ref none) (monitorChannel ref .entry) ∨
      ∃ e, s.enter t ref ident pending = s.finish t (.refused t ref e)) ∧
    ∃ e, s.tryEnterCall t ref ident = s.finish t (.refused t ref e)
  throws : ∀ t ref ident, (∀ o, s.objs ref = some o → o.owner ≠ t) →
    s.exit t ref ident = s.finish t (.threw t ref .exitNotOwner) ∧
    (∀ timeout called now pending,
      s.wait t ref timeout called now ident pending = s.finish t (.threw t ref .waitNotOwner)) ∧
    ∀ all, s.notify t ref all ident = s.finish t (.threw t ref .notifyNotOwner)
  waited : ∀ e l t ref, s.log = e :: l → e.Regained t ref →
    ∃ o, s.objs ref = some o ∧ o.owner = t ∧ lastWait t l = some (ref, o.depth)

theorem objs_of_hold (h : s.hold ref = some (u, d)) : ∃ o, s.objs ref = some o ∧ o.owner = u ∧ o.depth = d := by
  obtain ⟨o, ho, ⟨⟩⟩ := map_eq_some_iff.mp h
  exact ⟨o, ho, rfl, rfl⟩

theorem Regains.others {saved d : Nat} (h : Regains s t ref saved s') (hu : u ≠ 0) (hut : u ≠ t)
    (hr : s.hold r = some (u, d)) : s'.hold r = some (u, d) := by
  cases h with
  | lost _ _ hhold => rw [hhold, hr]
  | parked _ _ _ hhold => rw [hhold, hr]
  | regained v n _ hbefore hfree _ hhold =>
    rw [hhold, update_of_ne, hr]
    rintro rfl
    cases hr.symm.trans hbefore
    exact hfree.elim hu hut

theorem Outcome.others {N : Ref → Prop} (h : Outcome s t N s') (hu : u ≠ 0) (hut : u ≠ t)
    (hr : s.hold r = some (u, d)) : s'.hold r = some (u, d) := by
  have hne : ∀ {ref v n}, s.hold ref = some (v, n) → v = 0 ∨ v = t → r ≠ ref := by
    rintro ref v n hbefore hfree rfl
    cases hr.symm.trans hbefore
    exact hfree.elim hu hut
  cases h with
  | quiet _ _ _ hhold => rw [hhold, hr]
  | blocked _ _ _ _ _ _ _ _ hhold => rw [hhold, hr]
  | entered _ _ _ _ hbefore _ hfree _ hhold => rw [hhold, update_of_ne (hne hbefore hfree), hr]
  | exited _ _ _ hbefore hhold => rw [hhold, update_of_ne (hne hbefore (.inr rfl)), hr]
  | refused _ _ _ _ hhold => rw [hhold, hr]
  | waits _ _ s₁ _ hbefore _ hhold _ _ hregains =>
    refine hregains.others hu hut ?_
    rw [hhold, update_of_ne (hne hbefore (.inr rfl)), hr]
  | resumes _ _ _ hregains => exact hregains.others hu hut hr
  | woke _ hhold => rw [hhold, hr]

theorem Aside.others {x : Tid × Nat} (h : Aside s s') (hr : s.hold r = some x) : s'.hold r = some x := by
  cases h with
  | alloc ref _ hnew hhold =>
    rw [hhold, update_of_ne, hr]
    rintro rfl
    rw [hnew] at hr
    cases hr
  | other hhold => rw [hhold, hr]

theorem enter_of_other {o : Obj} (ident pending : Bool) (ho : s.objs ref = some o) (hzero : o.owner ≠ 0)
    (hother : o.owner ≠ t) :
    s.enter t ref ident pending = s.park t (.entering ref none) (monitorChannel ref .entry) ∨
      ∃ e, s.enter t ref ident pending = s.finish t (.refused t ref e) := by
  unfold State.enter
  split
  · next o' ho' =>
    obtain ⟨x, hx, hfree, -⟩ := enterTurn_entered ho'
    cases ho.symm.trans hx
    exact hfree.elim (absurd · hzero) (absurd · hother)
  · exact .inr ⟨_, rfl⟩
  · exact .inl rfl

theorem tryEnterCall_of_other {o : Obj} (ident : Bool) (ho : s.objs ref = some o) (hzero : o.owner ≠ 0)
    (hother : o.owner ≠ t) : ∃ e, s.tryEnterCall t ref ident = s.finish t (.refused t ref e) := by
  unfold State.tryEnterCall
  split
  · next o' ho' =>
    obtain ⟨x, hx, hfree, -⟩ := tryEnter_entered ho'
    cases ho.symm.trans hx
    exact hfree.elim (absurd · hzero) (absurd · hother)
  · exact ⟨_, rfl⟩
  · exact ⟨_, rfl⟩

theorem owned_of_other {ident : Bool} (hzero : s.Unowned) (h : ∀ o, s.objs ref = some o → o.owner ≠ t) :
    s.owned t ref ident = none := by
  cases howned : s.owned t ref ident with
  | none => rfl
  | some o =>
    obtain ⟨ho, howner, -⟩ := owned_some hzero howned
    exact absurd howner (h o ho)

/-- In every run in which no thread enters a monitor once more than its depth can count, monitors exclude and
    nest. -/
theorem monitor_excludes_and_nests (hrun : Run NoWrap .init s) : Excludes s := by
  have h := hrun.owned
  refine ⟨fun ref o ho => ?_, fun ref o ho hne => ?_, fun a s' ref o hstep ho hne hcaller => ?_,
    fun t ref ident pending o ho hzero hother => ?_, fun t ref ident hother => ?_, fun e l t ref hlog hreg => ?_⟩
  · exact (h.zero ref o.owner o.depth (hold_of_objs ho)).1
  · rw [h.nest o.owner ref hne, held_owner (hold_of_objs ho)]
  · apply objs_of_hold
    rcases step_outcome h.unowned hstep with ⟨t, ht, hout⟩ | ⟨-, haside⟩
    · exact hout.others hne (fun heq => hcaller (ht.trans (congrArg some heq.symm))) (hold_of_objs ho)
    · exact haside.others (hold_of_objs ho)
  · exact ⟨enter_of_other ident pending ho hzero hother, tryEnterCall_of_other ident ho hzero hother⟩
  · unfold State.exit State.wait State.notify
    rw [owned_of_other h.unowned hother]
    exact ⟨rfl, fun _ _ _ _ => rfl, fun _ => rfl⟩
  · obtain ⟨d, hhold, hlast⟩ := h.back e l t ref hlog hreg
    obtain ⟨o, ho, howner, rfl⟩ := objs_of_hold hhold
    exact ⟨o, ho, howner, hlast⟩

/-- Thread 1 waits in a monitor it has entered twice, thread 2 notifies it. -/
def waitAndNotify : List Act :=
  [.alloc 5, .enter 1 5 true false, .enter 1 5 true false, .wait 1 5 0 0 0 true false, .enter 2 5 true false,
    .notify 2 5 false true, .exit 2 5 true, .wake 1 false, .resume 1 0 true false]

theorem monitor_excludes_and_nests_wait : ∃ s, State.init.run NoWrap waitAndNotify = some s ∧
    s.log.head? = some (.waitTrue 1 5 true) ∧ s.hold 5 = some (1, 2) ∧ Excludes s := by
  obtain ⟨s, hs⟩ := isSome_iff_exists.mp
    (show (State.init.run NoWrap waitAndNotify).isSome = true by decide +kernel)
  have hend : (State.init.run NoWrap waitAndNotify).map (fun s => (s.log.head?, s.hold 5)) =
      some (some (.waitTrue 1 5 true), some (1, 2)) := by decide +kernel
  rw [hs] at hend
  obtain ⟨hlog, hhold⟩ := Prod.mk.inj (some.inj hend)
  exact ⟨s, hs, hlog, hhold, monitor_excludes_and_nests (Run.of_run hs)⟩

theorem enter_repeated {q : Nat} (ref : Ref) (ht : t ≠ 0) (n : Nat) :
    ∀ {s : State} {d : Nat}, s.stopping = false → s.phase t = .running → s.objs ref = some ⟨t, d % 2 ^ 32, q⟩ →
      ∃ s', s.run (fun _ _ => True) (List.replicate n (.enter t ref true false)) = some s' ∧
        s'.objs ref = some ⟨t, (d + n) % 2 ^ 32, q⟩ := by
  induction n with
  | zero => exact fun _ _ hobj => ⟨_, rfl, hobj⟩
  | succ n ih =>
    intro s d hstop hphase hobj
    have henter : s.enter t ref true false =
        (s.setObj ref ⟨t, (d + 1) % 2 ^ 32, q⟩).finish t (.entered t ref) := by
      simp [State.enter, State.enterTurn, State.tryEnter, hstop, hobj, threadToken, ht, add]
    obtain ⟨s', hrun, hend⟩ := ih (s := s.enter t ref true false) (d := d + 1) (by rw [henter]; exact hstop)
      (by rw [henter]; simp [State.finish]) (by rw [henter]; simp [State.finish, State.setObj])
    refine ⟨s', ?_, by rw [hend, Nat.add_assoc, Nat.add_comm 1 n]⟩
    rw [List.replicate_succ]
    simp only [State.run, State.step, if_pos (show s.idle t from ⟨ht, hphase⟩), if_true, bind_some]
    exact hrun

/-- After `2 ^ 32` enters the depth of an owned monitor is zero. -/
theorem enter_wraps : ∃ s o, State.init.run (fun _ _ => True)
      (.alloc 5 :: .enter 1 5 true false :: List.replicate (2 ^ 32 - 1) (.enter 1 5 true false)) = some s ∧
    s.objs 5 = some o ∧ o.owner = 1 ∧ o.depth = 0 := by
  let s₁ : State := ((State.init.setObj 5 ⟨0, 0, 0⟩).setObj 5 ⟨1, 1, 0⟩).finish 1 (.entered 1 5)
  obtain ⟨s', hrun, hend⟩ := enter_repeated (s := s₁) (t := 1) (d := 1) (q := 0) 5 (by decide) (2 ^ 32 - 1) rfl
    (by simp [s₁, State.finish]) (by simp [s₁, State.finish, State.setObj])
  refine ⟨s', _, ?_, hend, rfl, by decide⟩
  have halloc : State.init.step (.alloc 5) = some (State.init.setObj 5 ⟨0, 0, 0⟩) := rfl
  have henter : (State.init.setObj 5 ⟨0, 0, 0⟩).step (.enter 1 5 true false) = some s₁ := rfl
  rw [State.run, if_pos trivial, halloc, bind_some, State.run, if_pos trivial, henter, bind_some]
  exact hrun

end Owner

end Lunaria.Dvm.Monitor
