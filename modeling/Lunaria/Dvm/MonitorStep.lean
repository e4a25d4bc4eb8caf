import Lunaria.Dvm.Monitor

/-! What a step does to the owners and depths of the monitors, to the phases and to the log: the outcomes of a
    call, one by one. -/

namespace Lunaria.Dvm.Monitor
open Word Waiters Function

def State.hold (s : State) (ref : Ref) : Option (Tid × Nat) := (s.objs ref).map fun o => (o.owner, o.depth)

/-- The wait a thread is in: its object, and the depth it gave up. -/
def Phase.waitOn : Phase → Option (Ref × Nat)
  | .entering ref (some w) => some (ref, w.saved)
  | .waiting ref saved _ _ => some (ref, saved)
  | _ => none

/-- The object at whose monitor the thread stands. -/
def Phase.monitorOn : Phase → Option Ref
  | .entering ref _ => some ref
  | .waiting ref _ _ _ => some ref
  | _ => none

/-- Whether an event is one of those that leave the caller as it was. -/
def Event.Quiet : Event → Prop
  | .refused _ _ _ | .notified _ _ _ | .threw _ _ _ => True
  | _ => False

inductive Event.Regained (t : Tid) (ref : Ref) : Event → Prop
  | true (notified : Bool) : Regained t ref (.waitTrue t ref notified)
  | interrupted : Regained t ref (.waitFalse t ref (some .waitInterrupted))

section Outcome
variable {s s' s₁ : State} {a : Act} {t : Tid} {ref : Ref}

@[simp]
theorem hold_eq_none : s.hold ref = none ↔ s.objs ref = none := by simp [State.hold]

theorem hold_of_objs {o : Obj} (h : s.objs ref = some o) : s.hold ref = some (o.owner, o.depth) := by simp [State.hold, h]

@[simp]
theorem setObj_hold (o : Obj) : (s.setObj ref o).hold = update s.hold ref (some (o.owner, o.depth)) := by
  funext r
  by_cases hr : r = ref
  · subst hr
    simp [State.hold, State.setObj]
  · simp [State.hold, State.setObj, hr]

@[simp]
theorem finish_hold (e : Event) : (s.finish t e).hold = s.hold := rfl

theorem notifyFor_eq (s : State) (c : Nat) : ∃ l, s.notifyFor c = { s with waiters := l } := by
  unfold State.notifyFor
  split
  · exact ⟨s.waiters, rfl⟩
  · exact ⟨_, rfl⟩

theorem notifyOneFor_eq (s : State) (c : Nat) : ∃ l, s.notifyOneFor c = { s with waiters := l } := by
  unfold State.notifyOneFor
  split
  · exact ⟨s.waiters, rfl⟩
  · exact ⟨_, rfl⟩

theorem hold_setObj_same {o o' : Obj} (h : s.objs ref = some o) (howner : o'.owner = o.owner)
    (hdepth : o'.depth = o.depth) : (s.setObj ref o').hold = s.hold := by
  rw [setObj_hold, howner, hdepth, ← hold_of_objs h, update_eq_self]

/-- How a wait goes on once it has given the monitor up: it returns without the monitor, it waits again or for
    the monitor, or it returns with the monitor as it had it. -/
inductive Regains (s : State) (t : Tid) (ref : Ref) (saved : Nat) (s' : State) : Prop
  | lost (e : Option Thrown) (he : e ≠ some .waitInterrupted) (hhold : s'.hold = s.hold)
      (hphase : s'.phase = update s.phase t .running) (hlog : s'.log = .waitFalse t ref e :: s.log)
  | parked (p : Phase) (hp : p.waitOn = some (ref, saved)) (hon : p.monitorOn = some ref) (hhold : s'.hold = s.hold)
      (hphase : s'.phase = update s.phase t p) (hlog : s'.log = s.log)
  | regained (u : Tid) (d : Nat) (e : Event) (hbefore : s.hold ref = some (u, d)) (hfree : u = 0 ∨ u = t) (hne : t ≠ 0)
      (hhold : s'.hold = update s.hold ref (some (t, saved)))
      (hphase : s'.phase = update s.phase t .running) (he : e.Regained t ref) (hlog : s'.log = e :: s.log)

/-- What a call of a thread, or the rest of one, comes to; `N` are the objects the call is to enter. -/
inductive Outcome (s : State) (t : Tid) (N : Ref → Prop) (s' : State) : Prop
  | quiet (e : Event) (he : e.Quiet) (hfrom : (s.phase t).waitOn = none) (hhold : s'.hold = s.hold)
      (hphase : s'.phase = update s.phase t .running) (hlog : s'.log = e :: s.log)
  | blocked (ref : Ref) (u : Tid) (d : Nat) (hfrom : (s.phase t).waitOn = none) (hbefore : s.hold ref = some (u, d))
      (hu : u ≠ 0) (hut : u ≠ t) (hne : t ≠ 0) (hhold : s'.hold = s.hold)
      (hphase : s'.phase = update s.phase t (.entering ref none)) (hlog : s'.log = s.log)
  | entered (ref : Ref) (u : Tid) (d : Nat) (hfrom : (s.phase t).waitOn = none) (hbefore : s.hold ref = some (u, d))
      (hcalled : N ref) (hfree : u = 0 ∨ u = t) (hne : t ≠ 0)
      (hhold : s'.hold = update s.hold ref (some (t, add 32 d 1)))
      (hphase : s'.phase = update s.phase t .running) (hlog : s'.log = .entered t ref :: s.log)
  | exited (ref : Ref) (d : Nat) (hfrom : (s.phase t).waitOn = none) (hbefore : s.hold ref = some (t, d + 1))
      (hhold : s'.hold = update s.hold ref (some (if d = 0 then (0, 0) else (t, d))))
      (hphase : s'.phase = update s.phase t .running) (hlog : s'.log = .exited t ref :: s.log)
  | refused (ref : Ref) (d : Nat) (hfrom : (s.phase t).waitOn = none) (hbefore : s.hold ref = some (t, d))
      (hhold : s'.hold = s.hold) (hphase : s'.phase = update s.phase t .running)
      (hlog : s'.log = .waitFalse t ref (some .waitInterrupted) :: .waitCalled t ref d :: s.log)
  | waits (ref : Ref) (d : Nat) (s₁ : State) (hfrom : (s.phase t).waitOn = none) (hbefore : s.hold ref = some (t, d))
      (hd : d ≠ 0) (hhold : s₁.hold = update s.hold ref (some (0, 0))) (hphase : s₁.phase = s.phase)
      (hlog : s₁.log = .waitCalled t ref d :: s.log) (hregains : Regains s₁ t ref d s')
  | resumes (ref : Ref) (saved : Nat) (hfrom : (s.phase t).waitOn = some (ref, saved)) (hregains : Regains s t ref saved s')
  | woke (hfrom : (s.phase t).waitOn = none) (hhold : s'.hold = s.hold)
      (hphase : s'.phase = update s.phase t .running) (hlog : s'.log = s.log)

variable {N : Ref → Prop} {ident pending : Bool} {saved seen deadline now : Nat}

theorem Outcome.finish {e : Event} (he : e.Quiet) (hfrom : (s.phase t).waitOn = none) (hhold : s₁.hold = s.hold)
    (hphase : s₁.phase = s.phase) (hlog : s₁.log = s.log) : Outcome s t N (s₁.finish t e) :=
  .quiet e he hfrom hhold (hphase ▸ rfl) (hlog ▸ rfl)

theorem threadToken_ne_zero {ident : Bool} (h : threadToken t ident ≠ 0) : threadToken t ident = t := by
  cases ident with
  | true => rfl
  | false => exact absurd rfl h

theorem tryEnter_entered {ident : Bool} {o' : Obj} (h : s.tryEnter t ref ident = .entered o') :
    ∃ o, s.objs ref = some o ∧ (o.owner = 0 ∨ o.owner = t) ∧ t ≠ 0 ∧
      o' = { o with owner := t, depth := add 32 o.depth 1 } := by
  unfold State.tryEnter at h
  split at h
  · cases h
  next o ho =>
    split at h
    · cases h
    next htoken =>
      rw [threadToken_ne_zero htoken] at h htoken
      split at h
      · cases h
      next hbusy =>
        refine ⟨o, ho, ?_, htoken, (Attempt.entered.inj h).symm⟩
        by_contra hother
        push Not at hother
        exact hbusy hother

theorem tryEnter_busy {ident : Bool} (h : s.tryEnter t ref ident = .busy) :
    ∃ o, s.objs ref = some o ∧ o.owner ≠ 0 ∧ o.owner ≠ t ∧ t ≠ 0 := by
  unfold State.tryEnter at h
  split at h
  · cases h
  next o ho =>
    split at h
    · cases h
    next htoken =>
      rw [threadToken_ne_zero htoken] at h htoken
      split at h
      · next hbusy => exact ⟨o, ho, hbusy.1, hbusy.2, htoken⟩
      · cases h

theorem tryEnter_threw {ident : Bool} {e : Thrown} (h : s.tryEnter t ref ident = .threw e) : e ≠ .waitInterrupted := by
  unfold State.tryEnter at h
  split at h
  · exact Attempt.threw.inj h ▸ nofun
  · split at h
    · exact Attempt.threw.inj h ▸ nofun
    · split at h <;> cases h

theorem enterTurn_entered {o' : Obj} (h : s.enterTurn t ref ident pending = .entered o') :
    ∃ o, s.objs ref = some o ∧ (o.owner = 0 ∨ o.owner = t) ∧ t ≠ 0 ∧
      o' = { o with owner := t, depth := add 32 o.depth 1 } := by
  unfold State.enterTurn at h
  split at h
  · cases h
  · split at h
    · next o ho =>
      obtain rfl := Turn.entered.inj h
      exact tryEnter_entered ho
    · cases h
    · split at h <;> cases h

theorem enterTurn_blocked (h : s.enterTurn t ref ident pending = .blocked) :
    ∃ o, s.objs ref = some o ∧ o.owner ≠ 0 ∧ o.owner ≠ t ∧ t ≠ 0 := by
  unfold State.enterTurn at h
  split at h
  · cases h
  · split at h
    · cases h
    · cases h
    · next hbusy => exact tryEnter_busy hbusy

theorem enterTurn_failed {e : Option Thrown} (h : s.enterTurn t ref ident pending = .failed e) :
    e ≠ some .waitInterrupted := by
  unfold State.enterTurn at h
  split at h
  · exact Turn.failed.inj h ▸ nofun
  · split at h
    · cases h
    · next e' he' => exact fun heq => tryEnter_threw he' (Option.some.inj ((Turn.failed.inj h).trans heq))
    · split at h
      · exact Turn.failed.inj h ▸ nofun
      · cases h

theorem regain_regains (w : Waited) (ident pending : Bool) : Regains s t ref w.saved (s.regain t ref w ident pending) := by
  unfold State.regain
  split
  · next o' ho' =>
    obtain ⟨o, ho, hfree, hne, rfl⟩ := enterTurn_entered ho'
    refine .regained o.owner o.depth _ (hold_of_objs ho) hfree hne (by simp) rfl ?_ rfl
    split
    · exact .interrupted
    · exact .true w.signalled
  · next e he => exact .lost e (enterTurn_failed he) rfl rfl rfl
  · exact .parked (.entering ref (some w)) rfl rfl rfl rfl rfl

theorem waitTurn_regains :
    Regains s t ref saved (s.waitTurn t ref saved seen deadline now ident pending) := by
  unfold State.waitTurn
  split
  · exact .lost none nofun rfl rfl rfl
  split
  · exact regain_regains ⟨saved, false, false⟩ _ _
  · exact .parked (.waiting ref saved seen deadline) rfl rfl rfl rfl rfl

/-- A wait goes on the same way from any state that has the same monitors, log and phases of the others. -/
theorem Regains.congr {saved : Nat} (h : Regains s₁ t ref saved s') (hhold : s₁.hold = s.hold)
    (hphase : ∀ p, update s₁.phase t p = update s.phase t p) (hlog : s₁.log = s.log) : Regains s t ref saved s' := by
  cases h with
  | lost e he h₁ h₂ h₃ => exact .lost e he (hhold ▸ h₁) (hphase _ ▸ h₂) (hlog ▸ h₃)
  | parked p hp hon h₁ h₂ h₃ => exact .parked p hp hon (hhold ▸ h₁) (hphase _ ▸ h₂) (hlog ▸ h₃)
  | regained u d e hb hf hne h₁ h₂ he h₃ =>
    exact .regained u d e (hhold ▸ hb) hf hne (hhold ▸ h₁) (hphase _ ▸ h₂) he (hlog ▸ h₃)

theorem waitAwake_regains :
    Regains s t ref saved (s.waitAwake t ref saved seen deadline now ident pending) := by
  unfold State.waitAwake
  split
  · exact .lost (some .waitedFreed) nofun rfl rfl rfl
  split
  · exact regain_regains ⟨saved, true, false⟩ _ _
  split
  · exact (regain_regains ⟨saved, false, true⟩ _ _).congr rfl (fun _ => rfl) rfl
  · exact waitTurn_regains

theorem enter_outcome (hfrom : (s.phase t).waitOn = none) (hN : N ref) :
    Outcome s t N (s.enter t ref ident pending) := by
  unfold State.enter
  split
  · next o' ho' =>
    obtain ⟨o, ho, hfree, hne, rfl⟩ := enterTurn_entered ho'
    exact .entered ref o.owner o.depth hfrom (hold_of_objs ho) hN hfree hne (by simp) rfl rfl
  · exact .finish trivial hfrom rfl rfl rfl
  · next hblocked =>
    obtain ⟨o, ho, hzero, hother, hne⟩ := enterTurn_blocked hblocked
    exact .blocked ref o.owner o.depth hfrom (hold_of_objs ho) hzero hother hne rfl rfl rfl

theorem tryEnterCall_outcome {ident : Bool} (hfrom : (s.phase t).waitOn = none) (hN : N ref) :
    Outcome s t N (s.tryEnterCall t ref ident) := by
  unfold State.tryEnterCall
  split
  · next o' ho' =>
    obtain ⟨o, ho, hfree, hne, rfl⟩ := tryEnter_entered ho'
    exact .entered ref o.owner o.depth hfrom (hold_of_objs ho) hN hfree hne (by simp) rfl rfl
  · exact .finish trivial hfrom rfl rfl rfl
  · exact .finish trivial hfrom rfl rfl rfl

/-- An unowned monitor has depth zero. -/
def State.Unowned (s : State) : Prop := ∀ ref d, s.hold ref = some (0, d) → d = 0

theorem owned_some {ident : Bool} {o : Obj} (hzero : s.Unowned) (h : s.owned t ref ident = some o) :
    s.objs ref = some o ∧ o.owner = t ∧ o.depth ≠ 0 := by
  unfold State.owned at h
  split at h
  · cases h
  next o' ho' =>
    split at h
    · cases h
    next hcheck =>
      obtain rfl := Option.some.inj h
      push Not at hcheck
      refine ⟨ho', ?_, hcheck.2⟩
      cases ident with
      | true => exact hcheck.1
      | false =>
        have howner : o'.owner = 0 := hcheck.1
        exact absurd (hzero ref o'.depth (howner ▸ hold_of_objs ho')) hcheck.2

section
variable (hzero : s.Unowned) (hfrom : (s.phase t).waitOn = none)
include hzero hfrom

theorem exit_outcome {ident : Bool} :
    Outcome s t N (s.exit t ref ident) := by
  unfold State.exit
  split
  · exact .finish trivial hfrom rfl rfl rfl
  next o ho =>
    obtain ⟨hobj, howner, hdepth⟩ := owned_some hzero ho
    have hbefore : s.hold ref = some (t, o.depth - 1 + 1) := by
      rw [hold_of_objs hobj, howner, Nat.sub_add_cancel (by omega)]
    split
    · next hne =>
      refine .exited ref (o.depth - 1) hfrom hbefore ?_ rfl rfl
      rw [finish_hold, setObj_hold, howner, if_neg hne]
    · next heq =>
      obtain ⟨l, hl⟩ := notifyOneFor_eq (s.setObj ref { o with owner := 0, depth := 0 }) (monitorChannel ref .entry)
      rw [hl]
      refine .exited ref (o.depth - 1) hfrom hbefore ?_ rfl rfl
      rw [if_pos (by omega)]
      exact setObj_hold _

theorem notify_outcome {all ident : Bool} :
    Outcome s t N (s.notify t ref all ident) := by
  unfold State.notify
  split
  · exact .finish trivial hfrom rfl rfl rfl
  next o ho =>
    obtain ⟨hobj, -, -⟩ := owned_some hzero ho
    have hsame : (s.setObj ref { o with seq := add 64 o.seq 1 }).hold = s.hold := hold_setObj_same hobj rfl rfl
    dsimp only
    split
    · obtain ⟨l, hl⟩ := notifyFor_eq (s.setObj ref { o with seq := add 64 o.seq 1 }) (monitorChannel ref .wait)
      rw [hl]
      exact .finish trivial hfrom hsame rfl rfl
    · obtain ⟨l, hl⟩ := notifyOneFor_eq (s.setObj ref { o with seq := add 64 o.seq 1 }) (monitorChannel ref .wait)
      rw [hl]
      exact .finish trivial hfrom hsame rfl rfl

theorem wait_outcome {timeout called now : Nat}
    : Outcome s t N (s.wait t ref timeout called now ident pending) := by
  unfold State.wait
  split
  · exact .finish trivial hfrom rfl rfl rfl
  next o ho =>
    obtain ⟨hobj, howner, hdepth⟩ := owned_some hzero ho
    have hbefore : s.hold ref = some (t, o.depth) := by rw [hold_of_objs hobj, howner]
    dsimp only
    split
    · exact .refused ref o.depth hfrom hbefore rfl rfl rfl
    · refine .waits ref o.depth _ hfrom hbefore hdepth ?_ ?_ ?_ waitTurn_regains
      all_goals
        obtain ⟨l, hl⟩ := notifyOneFor_eq (State.setObj { s with log := .waitCalled t ref o.depth :: s.log } ref
          { o with owner := 0, depth := 0 }) (monitorChannel ref .entry)
        rw [hl]
      · exact setObj_hold _
      · rfl
      · rfl

end

theorem resume_outcome {now : Nat}
    (hN : ∀ ref, s.phase t = .entering ref none → N ref) (h : s.resume t now ident pending = some s') :
    Outcome s t N s' := by
  unfold State.resume at h
  split at h
  · cases h
  · next hphase =>
    cases h
    exact enter_outcome (by rw [hphase]; rfl) (hN _ hphase)
  · next ref w hphase =>
    cases h
    exact .resumes ref w.saved (by rw [hphase]; rfl) (regain_regains w _ _)
  · next ref saved seen deadline hphase =>
    cases h
    exact .resumes ref saved (by rw [hphase]; rfl) (waitAwake_regains.congr rfl (fun _ => rfl) rfl)
  · next hphase =>
    cases h
    exact .woke (by rw [hphase]; rfl) rfl rfl rfl

/-- A step of no call: an object is made, or the monitors stay as they are and no thread comes to one or leaves
    one. -/
inductive Aside (s : State) (s' : State) : Prop
  | alloc (ref : Ref) (hne : ref ≠ 0) (hnew : s.hold ref = none) (hhold : s'.hold = update s.hold ref (some (0, 0)))
      (hphase : s'.phase = s.phase) (hlog : s'.log = s.log)
  | other (hhold : s'.hold = s.hold) (hlog : s'.log = s.log)
      (hphase : ∀ u, (s'.phase u).waitOn = (s.phase u).waitOn ∧ (s'.phase u).monitorOn = (s.phase u).monitorOn)

theorem Aside.of_waiters {l : List (Waiter Tid Nat)} (h : s' = { s with waiters := l }) : Aside s s' :=
  h ▸ .other rfl rfl fun _ => ⟨rfl, rfl⟩

theorem idle_waitOn (h : s.idle t) : (s.phase t).waitOn = none := by
  rw [h.2]
  rfl

/-- The object a call enters. -/
def Act.enters : Act → Option Ref
  | .tryEnter _ ref _ | .enter _ ref _ _ => some ref
  | _ => none

theorem step_outcome (hzero : s.Unowned) (h : s.step a = some s') :
    (∃ t, a.caller = some t ∧ Outcome s t (fun ref => a.enters = some ref ∨ s.phase t = .entering ref none) s') ∨
    (a.caller = none ∧ Aside s s') := by
  cases a with
  | alloc ref =>
    obtain ⟨hnew, ⟨⟩⟩ := Option.ite_none_right_eq_some.1 h
    exact .inr ⟨rfl, .alloc ref hnew.1 (hold_eq_none.mpr hnew.2) (setObj_hold _) rfl rfl⟩
  | tryEnter t ref ident =>
    obtain ⟨hidle, ⟨⟩⟩ := Option.ite_none_right_eq_some.1 h
    exact .inl ⟨t, rfl, tryEnterCall_outcome (idle_waitOn hidle) (.inl rfl)⟩
  | enter t ref ident pending =>
    obtain ⟨hidle, ⟨⟩⟩ := Option.ite_none_right_eq_some.1 h
    exact .inl ⟨t, rfl, enter_outcome (idle_waitOn hidle) (.inl rfl)⟩
  | exit t ref ident =>
    obtain ⟨hidle, ⟨⟩⟩ := Option.ite_none_right_eq_some.1 h
    exact .inl ⟨t, rfl, exit_outcome hzero (idle_waitOn hidle)⟩
  | wait t ref timeout called now ident pending =>
    obtain ⟨hidle, ⟨⟩⟩ := Option.ite_none_right_eq_some.1 h
    exact .inl ⟨t, rfl, wait_outcome hzero (idle_waitOn hidle)⟩
  | notify t ref all ident =>
    obtain ⟨hidle, ⟨⟩⟩ := Option.ite_none_right_eq_some.1 h
    exact .inl ⟨t, rfl, notify_outcome hzero (idle_waitOn hidle)⟩
  | waitFor t channel recorded =>
    obtain ⟨hidle, ⟨⟩⟩ := Option.ite_none_right_eq_some.1 h
    refine .inr ⟨rfl, .other (by cases recorded <;> rfl) (by cases recorded <;> rfl) fun u => ?_⟩
    have hphase : (State.park (if recorded = true then s.setWait t channel else s) t (.waitingFor channel) channel).phase =
        update s.phase t (.waitingFor channel) := by cases recorded <;> rfl
    rw [hphase]
    by_cases hu : u = t
    · subst hu
      rw [update_self, hidle.1.2]
      exact ⟨rfl, rfl⟩
    · rw [update_of_ne hu]
      exact ⟨rfl, rfl⟩
  | notifyFor channel =>
    cases h
    obtain ⟨l, hl⟩ := notifyFor_eq s channel
    exact .inr ⟨rfl, .of_waiters hl⟩
  | interrupt t self =>
    cases h
    refine .inr ⟨rfl, ?_⟩
    simp only [State.interrupt]
    obtain ⟨l, hl⟩ := notifyFor_eq { s with interrupted := update s.interrupted t true } (s.waitChannel t)
    rw [hl]
    obtain ⟨l', hl'⟩ := notifyFor_eq { s with interrupted := update s.interrupted t true, waiters := l } self.toNat
    rw [hl']
    exact .other rfl rfl fun _ => ⟨rfl, rfl⟩
  | requestStop =>
    cases h
    exact .inr ⟨rfl, .other rfl rfl fun _ => ⟨rfl, rfl⟩⟩
  | wake t timedOut =>
    simp only [State.step] at h
    split at h
    · cases h
    · split at h
      · cases h
        exact .inr ⟨rfl, .of_waiters rfl⟩
      · cases h
  | resume t now ident pending =>
    simp only [State.step] at h
    split at h
    · cases h
    · exact .inl ⟨t, rfl, resume_outcome (fun _ => .inr) h⟩

/-- Nobody owns null, and an unowned monitor has depth zero. -/
structure Sound (s : State) : Prop where
  null : s.hold 0 = none
  unowned : s.Unowned

theorem Sound.init : Sound .init := ⟨rfl, fun _ _ h => absurd h nofun⟩

/-- The monitor of one object changes hands. -/
theorem Sound.update (h : Sound s) {x : Tid × Nat} (hne : s.hold ref ≠ none ∨ ref ≠ 0) (hx : x.1 = 0 → x.2 = 0)
    (hhold : s'.hold = update s.hold ref (some x)) : Sound s' := by
  have hnull : ref ≠ 0 := by
    rintro rfl
    exact hne.elim (fun hlive => hlive h.null) fun h0 => h0 rfl
  refine ⟨by rw [hhold, update_of_ne (Ne.symm hnull), h.null], fun r d hr => ?_⟩
  by_cases heq : r = ref
  · subst heq
    rw [hhold, update_self] at hr
    cases hr
    exact hx rfl
  · rw [hhold, update_of_ne heq] at hr
    exact h.unowned r d hr

theorem Sound.of_eq (h : Sound s) (hhold : s'.hold = s.hold) : Sound s' :=
  ⟨hhold ▸ h.null, fun r d hr => h.unowned r d (hhold ▸ hr)⟩

theorem Sound.regains (h : Sound s) {saved : Nat} (hregains : Regains s t ref saved s') : Sound s' := by
  cases hregains with
  | lost _ _ hhold => exact h.of_eq hhold
  | parked _ _ _ hhold => exact h.of_eq hhold
  | regained _ _ _ hbefore _ hne hhold => exact h.update (.inl (by simp [hbefore])) (fun h0 => absurd h0 hne) hhold

theorem Sound.step (h : Sound s) (hstep : s.step a = some s') : Sound s' := by
  rcases step_outcome h.unowned hstep with ⟨t, -, hout⟩ | ⟨-, haside⟩
  · cases hout with
    | quiet _ _ _ hhold => exact h.of_eq hhold
    | blocked _ _ _ _ _ _ _ _ hhold => exact h.of_eq hhold
    | entered ref _ _ _ hbefore _ _ hne hhold => exact h.update (.inl (by simp [hbefore])) (fun h0 => absurd h0 hne) hhold
    | exited ref d _ hbefore hhold =>
      refine h.update (.inl (by simp [hbefore])) (fun h0 => ?_) hhold
      by_cases hd : d = 0
      · rw [if_pos hd]
      · rw [if_neg hd] at h0
        exact absurd (h.unowned ref (d + 1) (h0 ▸ hbefore)) (Nat.succ_ne_zero d)
    | refused _ _ _ _ hhold => exact h.of_eq hhold
    | waits ref _ s₁ _ hbefore _ hhold _ _ hregains =>
      exact (h.update (.inl (by simp [hbefore])) (fun _ => rfl) hhold).regains hregains
    | resumes _ _ _ hregains => exact h.regains hregains
    | woke _ hhold => exact h.of_eq hhold
  · cases haside with
    | alloc ref hne _ hhold => exact h.update (.inr hne) (fun _ => rfl) hhold
    | other hhold => exact h.of_eq hhold

end Outcome

end Lunaria.Dvm.Monitor
