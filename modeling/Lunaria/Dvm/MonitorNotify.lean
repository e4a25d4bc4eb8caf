import Lunaria.Dvm.MonitorStep

/-! Whom the notifications of a monitor reach. A notification for one waiter goes to the first one that is listed on
    its channel, also when that one was notified before and has not woken up yet; and the channels of monitors are
    numbers among which the references and pointers that other waits use as their channels lie. -/

namespace Lunaria.Dvm.Monitor
open Word Waiters List Function Option

section Channels

theorem monitorChannel_eq (ref : Ref) (kind : Kind) : monitorChannel ref kind = 4 * ref.toNat + kind.code := by
  unfold monitorChannel
  rw [← Nat.shiftLeft_add_eq_or_of_lt (by cases kind <;> decide), Nat.shiftLeft_eq]
  omega

theorem monitorChannel_ne_zero (ref : Ref) (kind : Kind) : monitorChannel ref kind ≠ 0 := by
  rw [monitorChannel_eq]
  cases kind <;> simp [Kind.code]

theorem monitorChannel_inj {ref ref' : Ref} {kind kind' : Kind}
    (h : monitorChannel ref kind = monitorChannel ref' kind') : ref = ref' ∧ kind = kind' := by
  rw [monitorChannel_eq, monitorChannel_eq] at h
  cases kind <;> cases kind' <;> simp only [Kind.code] at h
  · exact ⟨UInt32.toNat_inj.mp (by omega), rfl⟩
  · omega
  · omega
  · exact ⟨UInt32.toNat_inj.mp (by omega), rfl⟩

/-- A target whose channel no other one has: the monitor of an object, or a number that is not `4 * ref + 1` or
    `4 * ref + 2` for a reference `ref` other than null. -/
def Target.Apart : Target → Prop
  | .monitor ref _ => ref ≠ 0
  | .bare channel => channel % 4 = 0 ∨ channel % 4 = 3 ∨ channel < 4 ∨ 2 ^ 34 ≤ channel

instance : (g : Target) → Decidable g.Apart
  | .monitor ref _ => inferInstanceAs (Decidable (ref ≠ 0))
  | .bare _ => inferInstanceAs (Decidable (_ ∨ _))

theorem Target.Apart.ne_monitorChannel {c : Nat} (h : (Target.bare c).Apart) {ref : Ref} (hne : ref ≠ 0) (kind : Kind) :
    c ≠ monitorChannel ref kind := by
  have hpos : ref.toNat ≠ 0 := fun h0 => hne (UInt32.toNat_inj.mp h0)
  have hlt : ref.toNat < 2 ^ 32 := ref.toNat_lt
  rw [monitorChannel_eq]
  unfold Target.Apart at h
  cases kind <;> simp only [Kind.code] <;> omega

theorem Target.channel_inj {g g' : Target} (hg : g.Apart) (hg' : g'.Apart) (h : g.channel = g'.channel) : g = g' := by
  cases g with
  | monitor ref kind =>
    cases g' with
    | monitor ref' kind' =>
      obtain ⟨rfl, rfl⟩ := monitorChannel_inj h
      rfl
    | bare channel => exact absurd h.symm (hg'.ne_monitorChannel hg kind)
  | bare channel =>
    cases g' with
    | monitor ref' kind' => exact absurd h (hg.ne_monitorChannel hg' kind')
    | bare channel' => exact congrArg Target.bare h

end Channels

section Step
variable {s s' s₁ : State} {a : Act} {t : Tid} {ref : Ref} {c : Nat}

/-- How the rest of a call ends: it returns, or its thread is listed for a monitor of an object. -/
inductive Ends (s : State) (t : Tid) (s' : State) : Prop
  | back (hwaiters : s'.waiters = s.waiters) (hphase : s'.phase = update s.phase t .running)
  | parked (p : Phase) (ref : Ref) (kind : Kind) (hlive : s.objs ref ≠ none)
      (htarget : p.target = some (.monitor ref kind))
      (hwaiters : s'.waiters = ⟨t, monitorChannel ref kind, false⟩ :: s.waiters)
      (hphase : s'.phase = update s.phase t p)

variable {ident pending : Bool} {saved seen deadline now : Nat} {l : List (Waiter Tid Nat)}

theorem enterTurn_blocked_live (h : s.enterTurn t ref ident pending = .blocked) :
    s.objs ref ≠ none := by
  obtain ⟨o, ho, -⟩ := enterTurn_blocked h
  simp [ho]

theorem enter_ends (ident pending : Bool) : Ends s t (s.enter t ref ident pending) := by
  unfold State.enter
  split
  · exact .back rfl rfl
  · exact .back rfl rfl
  · exact .parked _ ref .entry (enterTurn_blocked_live (by assumption)) rfl rfl rfl

theorem regain_ends {r : Ref} (w : Waited) (ident pending : Bool) : Ends s t (s.regain t r w ident pending) := by
  unfold State.regain
  split
  · exact .back rfl rfl
  · exact .back rfl rfl
  · exact .parked _ r .entry (enterTurn_blocked_live (by assumption)) rfl rfl rfl

theorem waitTurn_ends (hlive : s.objs ref ≠ none) :
    Ends s t (s.waitTurn t ref saved seen deadline now ident pending) := by
  unfold State.waitTurn
  split
  · exact .back rfl rfl
  split
  · exact regain_ends _ _ _
  · exact .parked _ ref .wait hlive rfl rfl rfl

theorem waitAwake_ends :
    Ends s t (s.waitAwake t ref saved seen deadline now ident pending) := by
  unfold State.waitAwake
  split
  · exact .back rfl rfl
  next o ho =>
    split
    · exact regain_ends _ _ _
    split
    · obtain ⟨hw, hp⟩ | ⟨p, r, kind, hlive, htarget, hw, hp⟩ :=
        regain_ends (s := { s with interrupted := update s.interrupted t false }) (t := t) (r := ref)
          ⟨saved, false, true⟩ ident pending
      · exact .back hw hp
      · exact .parked p r kind hlive htarget hw hp
    · exact waitTurn_ends (by simp [ho])

/-- How a step changes the list: it notifies, then its thread returns or is listed, or a thread wakes up. -/
inductive Lists (s : State) (a : Act) (s' : State) : Prop
  | marks (hmark : Marked (fun _ => True) s.waiters s'.waiters) (hphase : s'.phase = s.phase)
  | ends (t : Tid) (s₁ : State) (hmark : Marked (fun _ => True) s.waiters s₁.waiters) (hphase : s₁.phase = s.phase)
      (hobjs : ∀ ref, s₁.objs ref ≠ none → s.objs ref ≠ none)
      (hfree : s.phase t = .running ∨ ∀ w ∈ s.waiters, w.thread ≠ t) (hends : Ends s₁ t s')
  | waits (t : Tid) (channel : Nat) (recorded : Bool) (hact : a = .waitFor t channel recorded)
      (hfree : s.phase t = .running) (hwaiters : s'.waiters = ⟨t, channel, false⟩ :: s.waiters)
      (hphase : s'.phase = update s.phase t (.waitingFor channel))
  | wakes (t : Tid) (timedOut : Bool) (hact : a = .wake t timedOut)
      (hwaiters : s'.waiters = s.waiters.filter fun w => w.thread ≠ t) (hphase : s'.phase = s.phase)

theorem notifyFor_marked (s : State) (c : Nat) : Marked (fun w => w.channel = c) s.waiters (s.notifyFor c).waiters := by
  unfold State.notifyFor
  split
  · exact Marked.refl _ _
  · exact markAll_marked _ _

theorem notifyOneFor_marked (s : State) (c : Nat) :
    Marked (fun w => w.channel = c) s.waiters (s.notifyOneFor c).waiters := by
  unfold State.notifyOneFor
  split
  · exact Marked.refl _ _
  · exact markFirst_marked _ _

@[simp]
theorem notifyFor_phase (s : State) (c : Nat) : (s.notifyFor c).phase = s.phase := by
  unfold State.notifyFor
  split <;> rfl

@[simp]
theorem notifyOneFor_phase (s : State) (c : Nat) : (s.notifyOneFor c).phase = s.phase := by
  unfold State.notifyOneFor
  split <;> rfl

@[simp]
theorem notifyOneFor_objs (s : State) (c : Nat) : (s.notifyOneFor c).objs = s.objs := by
  unfold State.notifyOneFor
  split <;> rfl

@[simp]
theorem notifyFor_objs (s : State) (c : Nat) : (s.notifyFor c).objs = s.objs := by
  unfold State.notifyFor
  split <;> rfl

theorem Marked.of_notifyFor (h : s₁.waiters = s.waiters) (c : Nat) :
    Marked (fun _ => True) s.waiters (s₁.notifyFor c).waiters :=
  h ▸ (notifyFor_marked s₁ c).mono fun _ _ => trivial

theorem Marked.of_notifyOneFor (h : s₁.waiters = s.waiters) (c : Nat) :
    Marked (fun _ => True) s.waiters (s₁.notifyOneFor c).waiters :=
  h ▸ (notifyOneFor_marked s₁ c).mono fun _ _ => trivial

theorem owned_objs {ident : Bool} {o : Obj} (h : s.owned t ref ident = some o) : s.objs ref = some o := by
  unfold State.owned at h
  split at h
  · cases h
  · split at h
    · cases h
    · exact some.inj h ▸ by assumption

theorem setObj_objs_ne_none {o o' : Obj} (ho : s.objs ref = some o) {r : Ref} (h : (s.setObj ref o').objs r ≠ none) :
    s.objs r ≠ none := by
  by_cases hr : r = ref
  · subst hr
    simp [ho]
  · simpa [State.setObj, update_apply, hr] using h

section
variable (hfree : s.phase t = .running)
include hfree

/-- A call that only returns. -/
theorem Lists.finish {e : Event} (hmark : Marked (fun _ => True) s.waiters s₁.waiters)
    (hphase : s₁.phase = s.phase) (hobjs : ∀ r, s₁.objs r ≠ none → s.objs r ≠ none) :
    Lists s a (s₁.finish t e) :=
  .ends t s₁ hmark hphase hobjs (.inl hfree) (.back rfl rfl)

theorem exit_lists {ident : Bool} : Lists s a (s.exit t ref ident) := by
  unfold State.exit
  split
  · exact .finish hfree (Marked.refl _ _) rfl fun _ => id
  next o ho =>
    have hobj := owned_objs ho
    split
    · exact .finish hfree (Marked.refl _ _) rfl fun _ => setObj_objs_ne_none hobj
    · refine .finish hfree (Marked.of_notifyOneFor ?_ _) (notifyOneFor_phase _ _) fun r hr => ?_
      · rfl
      · rw [notifyOneFor_objs] at hr
        exact setObj_objs_ne_none hobj hr

theorem notify_lists {all ident : Bool} : Lists s a (s.notify t ref all ident) := by
  unfold State.notify
  split
  · exact .finish hfree (Marked.refl _ _) rfl fun _ => id
  next o ho =>
    have hobj := owned_objs ho
    dsimp only
    cases all with
    | true =>
      rw [if_pos rfl]
      refine .finish hfree (Marked.of_notifyFor ?_ _) (notifyFor_phase _ _) fun r hr => ?_
      · rfl
      · rw [notifyFor_objs] at hr
        exact setObj_objs_ne_none hobj hr
    | false =>
      rw [if_neg (by decide)]
      refine .finish hfree (Marked.of_notifyOneFor ?_ _) (notifyOneFor_phase _ _) fun r hr => ?_
      · rfl
      · rw [notifyOneFor_objs] at hr
        exact setObj_objs_ne_none hobj hr

theorem wait_lists {timeout called now : Nat} :
    Lists s a (s.wait t ref timeout called now ident pending) := by
  unfold State.wait
  split
  · exact .finish hfree (Marked.refl _ _) rfl fun _ => id
  next o ho =>
    have hobj := owned_objs ho
    dsimp only
    split
    · exact .finish hfree (Marked.refl _ _) rfl fun _ => id
    · refine .ends t _ ?_ ?_ (fun r hr => ?_) (.inl hfree) (waitTurn_ends ?_)
      · refine Marked.of_notifyOneFor ?_ _
        rfl
      · rw [notifyOneFor_phase, State.setObj]
      · rw [notifyOneFor_objs] at hr
        exact setObj_objs_ne_none (s := { s with log := .waitCalled t ref o.depth :: s.log }) hobj hr
      · simp [notifyOneFor_objs, State.setObj]

theorem tryEnterCall_lists {ident : Bool} :
    Lists s a (s.tryEnterCall t ref ident) := by
  unfold State.tryEnterCall
  split
  · next o ho =>
    refine .finish hfree (Marked.refl _ _) rfl fun _ hr => ?_
    cases hobj : s.objs ref with
    | none => simp [State.tryEnter, hobj] at ho
    | some o => exact setObj_objs_ne_none hobj hr
  · exact .finish hfree (Marked.refl _ _) rfl fun _ => id
  · exact .finish hfree (Marked.refl _ _) rfl fun _ => id

end

theorem resume_lists {now : Nat} (hfree : ∀ w ∈ s.waiters, w.thread ≠ t)
    (h : s.resume t now ident pending = some s') : Lists s a s' := by
  unfold State.resume at h
  split at h
  · cases h
  · cases h
    exact .ends t s (Marked.refl _ _) rfl (fun _ => id) (.inr hfree) (enter_ends _ _)
  · cases h
    exact .ends t s (Marked.refl _ _) rfl (fun _ => id) (.inr hfree) (regain_ends _ _ _)
  · cases h
    exact .ends t (s.setWait t 0) (Marked.refl _ _) rfl (fun _ => id) (.inr hfree) waitAwake_ends
  · cases h
    exact .ends t s (Marked.refl _ _) rfl (fun _ => id) (.inr hfree) (.back rfl rfl)

theorem step_lists (h : s.step a = some s') : Lists s a s' := by
  cases a with
  | alloc ref =>
    obtain ⟨-, ⟨⟩⟩ := ite_none_right_eq_some.1 h
    exact .marks (Marked.refl _ _) rfl
  | tryEnter t ref ident =>
    obtain ⟨hidle, ⟨⟩⟩ := ite_none_right_eq_some.1 h
    exact tryEnterCall_lists hidle.2
  | enter t ref ident pending =>
    obtain ⟨hidle, ⟨⟩⟩ := ite_none_right_eq_some.1 h
    exact .ends t s (Marked.refl _ _) rfl (fun _ => id) (.inl hidle.2) (enter_ends _ _)
  | exit t ref ident =>
    obtain ⟨hidle, ⟨⟩⟩ := ite_none_right_eq_some.1 h
    exact exit_lists hidle.2
  | wait t ref timeout called now ident pending =>
    obtain ⟨hidle, ⟨⟩⟩ := ite_none_right_eq_some.1 h
    exact wait_lists hidle.2
  | notify t ref all ident =>
    obtain ⟨hidle, ⟨⟩⟩ := ite_none_right_eq_some.1 h
    exact notify_lists hidle.2
  | waitFor t channel recorded =>
    obtain ⟨hidle, ⟨⟩⟩ := ite_none_right_eq_some.1 h
    cases recorded <;> exact .waits t channel _ rfl hidle.1.2 rfl rfl
  | notifyFor channel =>
    cases h
    exact .marks ((notifyFor_marked _ _).mono fun _ _ => trivial) (notifyFor_phase _ _)
  | interrupt t self =>
    cases h
    refine .marks (Marked.trans (Marked.of_notifyFor ?_ _) (Marked.of_notifyFor rfl _)) ?_
    · rfl
    · exact (notifyFor_phase _ _).trans (notifyFor_phase _ _)
  | requestStop =>
    cases h
    exact .marks (map_ready_marked _) rfl
  | wake t timedOut =>
    simp only [State.step] at h
    split at h
    · cases h
    · split at h
      · cases h
        exact .wakes t timedOut rfl rfl rfl
      · cases h
  | resume t now ident pending =>
    simp only [State.step] at h
    split at h
    · cases h
    · next hlisted => exact resume_lists (by simpa using hlisted) h

/-- The first waiter listed on the channel has not been notified. -/
def State.FirstUnready (s : State) (channel : Nat) : Prop :=
  ∀ w ∈ s.waiters.find? (fun w => w.channel = channel), w.ready = false

/-- A call that notifies one waiter does so while the first listed one has not been notified, and the other waits
    and notifications use no number that is the channel of an object's monitor. -/
def Meets (s : State) : Act → Prop
  | .notify _ ref false _ => s.FirstUnready (monitorChannel ref .wait)
  | .waitFor _ channel _ => (Target.bare channel).Apart
  | .notifyFor channel => (Target.bare channel).Apart
  | _ => True

instance (s : State) : (a : Act) → Decidable (Meets s a)
  | .notify _ _ false _ => inferInstanceAs (Decidable (∀ _ ∈ _, _))
  | .waitFor _ channel _ | .notifyFor channel => inferInstanceAs (Decidable (Target.bare channel).Apart)
  | .notify _ _ true _ | .alloc _ | .tryEnter _ _ _ | .enter _ _ _ _ | .exit _ _ _ | .wait _ _ _ _ _ _ _
  | .interrupt _ _ | .requestStop | .wake _ _ | .resume _ _ _ _ => isTrue trivial

/-- A listed thread waits for what its phase says, on that channel; no thread is listed twice; and no two things
    that are waited for share a channel. -/
structure Listed (s : State) : Prop where
  nodup : (s.waiters.map (·.thread)).Nodup
  target : ∀ w ∈ s.waiters, ∃ g, (s.phase w.thread).target = some g ∧ g.channel = w.channel
  apart : ∀ t g, (s.phase t).target = some g → g.Apart

theorem Listed.init : Listed .init where
  nodup := nodup_nil
  target := fun _ hw => absurd hw not_mem_nil
  apart := fun _ _ hg => absurd hg nofun

theorem Listed.unlisted (h : Listed s) (hfree : s.phase t = .running ∨ ∀ w ∈ s.waiters, w.thread ≠ t) :
    ∀ w ∈ s.waiters, w.thread ≠ t := by
  rcases hfree with hrun | hfree
  · rintro w hw rfl
    obtain ⟨g, hg, -⟩ := h.target w hw
    rw [hrun] at hg
    cases hg
  · exact hfree

theorem Listed.marks (h : Listed s) (hmark : Marked (fun _ => True) s.waiters l) :
    (l.map (·.thread)).Nodup ∧ ∀ w ∈ l, ∃ g, (s.phase w.thread).target = some g ∧ g.channel = w.channel := by
  refine ⟨hmark.threads ▸ h.nodup, fun w hw => ?_⟩
  obtain ⟨v, hv, hthread, hchannel, -⟩ := hmark.mem hw
  rw [← hthread, ← hchannel]
  exact h.target v hv

theorem Listed.update {p : Phase} (h : Listed s)
    (hmark : Marked (fun _ => True) s.waiters l) (hfree : ∀ w ∈ s.waiters, w.thread ≠ t)
    (hphase : s'.phase = update s.phase t p) (happart : ∀ g, p.target = some g → g.Apart)
    (hwaiters : s'.waiters = l ∨ ∃ g, p.target = some g ∧ s'.waiters = ⟨t, g.channel, false⟩ :: l) : Listed s' := by
  obtain ⟨hnodup, htarget⟩ := h.marks hmark
  have hfree' : ∀ w ∈ l, w.thread ≠ t := by
    intro w hw heq
    obtain ⟨v, hv, hthread, -⟩ := hmark.mem hw
    exact hfree v hv (hthread.trans heq)
  have hother : ∀ w ∈ l, ∃ g, (s'.phase w.thread).target = some g ∧ g.channel = w.channel := by
    intro w hw
    rw [hphase, update_of_ne (hfree' w hw)]
    exact htarget w hw
  refine ⟨?_, ?_, fun u g hg => ?_⟩
  · rcases hwaiters with hw | ⟨g, -, hw⟩
    · rw [hw]
      exact hnodup
    · rw [hw, map_cons, nodup_cons]
      refine ⟨fun hmem => ?_, hnodup⟩
      obtain ⟨w, hw, heq⟩ := List.mem_map.mp hmem
      exact hfree' w hw heq
  · rcases hwaiters with hw | ⟨g, hg, hw⟩
    · rw [hw]
      exact hother
    · rw [hw]
      intro w hmem
      rcases mem_cons.mp hmem with rfl | htail
      · exact ⟨g, by rw [hphase, update_self, hg], rfl⟩
      · exact hother w htail
  · by_cases hu : u = t
    · subst hu
      rw [hphase, update_self] at hg
      exact happart g hg
    · rw [hphase, update_of_ne hu] at hg
      exact h.apart u g hg

theorem Listed.step (h : Listed s) (hsound : Sound s) (hmeets : Meets s a) (hstep : s.step a = some s') : Listed s' := by
  have hlive : ∀ {r : Ref}, s.objs r ≠ none → r ≠ 0 := by
    rintro r hr rfl
    exact hr (hold_eq_none.mp hsound.null)
  cases step_lists hstep with
  | marks hmark hphase =>
    obtain ⟨hnodup, htarget⟩ := h.marks hmark
    exact ⟨hnodup, hphase ▸ htarget, hphase ▸ h.apart⟩
  | ends t s₁ hmark hphase hobjs hfree hends =>
    have hunlisted := h.unlisted hfree
    cases hends with
    | back hwaiters hback => exact h.update (p := .running) hmark hunlisted (hphase ▸ hback) nofun (.inl hwaiters)
    | parked p r kind hr htarget hwaiters hpark =>
      refine h.update hmark hunlisted (hphase ▸ hpark) (fun g hg => ?_) (.inr ⟨_, htarget, hwaiters⟩)
      cases htarget.symm.trans hg
      exact hlive (hobjs r hr)
  | waits t channel recorded hact hfree hwaiters hphase =>
    subst hact
    refine h.update (Marked.refl _ _) (h.unlisted (.inl hfree)) hphase (fun g hg => ?_) (.inr ⟨_, rfl, hwaiters⟩)
    cases hg
    exact hmeets
  | wakes t timedOut hact hwaiters hphase =>
    refine ⟨?_, fun w hw => ?_, hphase ▸ h.apart⟩
    · rw [hwaiters]
      exact h.nodup.sublist (List.Sublist.map _ filter_sublist)
    · rw [hwaiters] at hw
      rw [hphase]
      exact h.target w (mem_filter.mp hw).1

def Wakes (c : Nat) (s : State) (a : Act) : Prop :=
  ∃ t timedOut, a = .wake t timedOut ∧ ∃ w ∈ s.waiters, w.thread = t ∧ w.channel = c

theorem step_keeps (hstep : s.step a = some s') (hstay : ¬ Wakes c s a) :
    readyOn c s.waiters ≤ readyOn c s'.waiters ∧
      ((∃ w ∈ s.waiters, w.channel = c) → ∃ w ∈ s'.waiters, w.channel = c) := by
  -- A waiter more, in front, takes nothing away.
  have hfront : ∀ {l : List (Waiter Tid Nat)} {v : Waiter Tid Nat}, Marked (fun _ => True) s.waiters l →
      readyOn c s.waiters ≤ readyOn c (v :: l) ∧
        ((∃ w ∈ s.waiters, w.channel = c) → ∃ w ∈ v :: l, w.channel = c) := by
    intro l v hmark
    refine ⟨le_trans hmark.readyOn_le ?_, fun ⟨w, hw, hc⟩ => ?_⟩
    · unfold readyOn
      rw [countP_cons]
      exact Nat.le_add_right _ _
    · obtain ⟨w', hw', -, hchannel⟩ := hmark.mem_of_mem hw
      exact ⟨w', mem_cons_of_mem _ hw', hchannel.trans hc⟩
  have hsame : ∀ {l : List (Waiter Tid Nat)}, Marked (fun _ => True) s.waiters l →
      readyOn c s.waiters ≤ readyOn c l ∧ ((∃ w ∈ s.waiters, w.channel = c) → ∃ w ∈ l, w.channel = c) := by
    intro l hmark
    refine ⟨hmark.readyOn_le, fun ⟨w, hw, hc⟩ => ?_⟩
    obtain ⟨w', hw', -, hchannel⟩ := hmark.mem_of_mem hw
    exact ⟨w', hw', hchannel.trans hc⟩
  cases step_lists hstep with
  | marks hmark _ => exact hsame hmark
  | ends t s₁ hmark _ _ _ hends =>
    cases hends with
    | back hwaiters _ => exact hwaiters ▸ hsame hmark
    | parked p r kind _ _ hwaiters _ => exact hwaiters ▸ hfront hmark
  | waits t channel recorded _ _ hwaiters _ => exact hwaiters ▸ hfront (Marked.refl _ _)
  | wakes t timedOut hact hwaiters _ =>
    have hkeep : ∀ w ∈ s.waiters, w.channel = c → decide (w.thread ≠ t) = true := by
      intro w hw hc
      refine decide_eq_true fun heq => hstay ⟨t, timedOut, hact, w, hw, heq, hc⟩
    rw [hwaiters]
    refine ⟨le_of_eq (readyOn_filter hkeep).symm, fun ⟨w, hw, hc⟩ => ⟨w, mem_filter.mpr ⟨hw, hkeep w hw hc⟩, hc⟩⟩

/-- The calls so far that notified one waiter of an object. -/
def notifyCalls (ref : Ref) (log : List Event) : Nat :=
  log.countP fun
    | .notified _ r false => r = ref
    | _ => false

section Calls
variable {r : Ref} {ident pending : Bool}

@[simp]
theorem notifyOneFor_log (s : State) (c : Nat) : (s.notifyOneFor c).log = s.log := by
  unfold State.notifyOneFor
  split <;> rfl

theorem enter_calls : notifyCalls ref (s.enter t r ident pending).log = notifyCalls ref s.log := by
  unfold State.enter
  split <;> rfl

theorem regain_calls (w : Waited) : notifyCalls ref (s.regain t r w ident pending).log = notifyCalls ref s.log := by
  unfold State.regain
  split
  · split <;> rfl
  · rfl
  · rfl

variable {saved seen deadline now : Nat}

theorem waitTurn_calls :
    notifyCalls ref (s.waitTurn t r saved seen deadline now ident pending).log = notifyCalls ref s.log := by
  unfold State.waitTurn
  split
  · rfl
  split
  · exact regain_calls _
  · rfl

theorem waitAwake_calls :
    notifyCalls ref (s.waitAwake t r saved seen deadline now ident pending).log = notifyCalls ref s.log := by
  unfold State.waitAwake
  split
  · rfl
  split
  · exact regain_calls _
  split
  · exact regain_calls _
  · exact waitTurn_calls

theorem exit_calls : notifyCalls ref (s.exit t r ident).log = notifyCalls ref s.log := by
  unfold State.exit
  split
  · rfl
  split
  · rfl
  · simp only [State.finish, notifyOneFor_log]
    rfl

theorem wait_calls {timeout called now : Nat} :
    notifyCalls ref (s.wait t r timeout called now ident pending).log = notifyCalls ref s.log := by
  unfold State.wait
  split
  · rfl
  dsimp only
  split
  · rfl
  · rw [waitTurn_calls, notifyOneFor_log]
    rfl

theorem resume_calls {now : Nat} (h : s.resume t now ident pending = some s') :
    notifyCalls ref s'.log = notifyCalls ref s.log := by
  unfold State.resume at h
  split at h
  · cases h
  · cases h
    exact enter_calls
  · cases h
    exact regain_calls _
  · cases h
    exact waitAwake_calls
  · cases h
    rfl

theorem notify_calls (ref : Ref) {all : Bool} : notifyCalls ref (s.notify t r all ident).log = notifyCalls ref s.log ∨
    (all = false ∧ r = ref ∧ (s.notify t r all ident).waiters = markFirst (monitorChannel ref .wait) s.waiters ∧
      notifyCalls ref (s.notify t r all ident).log = notifyCalls ref s.log + 1) := by
  unfold State.notify
  split
  · exact .inl rfl
  next o _ =>
    cases all with
    | true =>
      obtain ⟨l, hl⟩ := notifyFor_eq (s.setObj r { o with seq := add 64 o.seq 1 }) (monitorChannel r .wait)
      dsimp only
      rw [if_pos rfl, hl]
      exact .inl rfl
    | false =>
      have heq : (s.setObj r { o with seq := add 64 o.seq 1 }).notifyOneFor (monitorChannel r .wait) =
          { s.setObj r { o with seq := add 64 o.seq 1 } with waiters := markFirst (monitorChannel r .wait) s.waiters } :=
        if_neg (monitorChannel_ne_zero r .wait)
      dsimp only
      rw [if_neg (by decide), heq]
      by_cases hr : r = ref
      · subst hr
        refine .inr ⟨rfl, rfl, rfl, ?_⟩
        simp [State.finish, State.setObj, notifyCalls]
      · refine .inl ?_
        simp [State.finish, State.setObj, notifyCalls, hr]

end Calls

theorem step_calls (ref : Ref) (hstep : s.step a = some s') : notifyCalls ref s'.log = notifyCalls ref s.log ∨
    ∃ t ident, a = .notify t ref false ident ∧ s'.waiters = markFirst (monitorChannel ref .wait) s.waiters ∧
      notifyCalls ref s'.log = notifyCalls ref s.log + 1 := by
  cases a with
  | alloc r =>
    obtain ⟨-, ⟨⟩⟩ := ite_none_right_eq_some.1 hstep
    exact .inl rfl
  | tryEnter t r ident =>
    obtain ⟨-, ⟨⟩⟩ := ite_none_right_eq_some.1 hstep
    refine .inl ?_
    unfold State.tryEnterCall
    split <;> rfl
  | enter t r ident pending =>
    obtain ⟨-, ⟨⟩⟩ := ite_none_right_eq_some.1 hstep
    exact .inl enter_calls
  | exit t r ident =>
    obtain ⟨-, ⟨⟩⟩ := ite_none_right_eq_some.1 hstep
    exact .inl exit_calls
  | wait t r timeout called now ident pending =>
    obtain ⟨-, ⟨⟩⟩ := ite_none_right_eq_some.1 hstep
    exact .inl wait_calls
  | notify t r all ident =>
    obtain ⟨-, ⟨⟩⟩ := ite_none_right_eq_some.1 hstep
    have hcalls : notifyCalls ref (s.notify t r all ident).log = _ ∨ _ := notify_calls ref
    rcases hcalls with h | ⟨rfl, rfl, h⟩
    · exact .inl h
    · exact .inr ⟨t, ident, rfl, h⟩
  | waitFor t channel recorded =>
    obtain ⟨-, ⟨⟩⟩ := ite_none_right_eq_some.1 hstep
    cases recorded <;> exact .inl rfl
  | notifyFor channel =>
    cases hstep
    obtain ⟨l, hl⟩ := notifyFor_eq s channel
    exact .inl (hl ▸ rfl)
  | interrupt t self =>
    cases hstep
    unfold State.interrupt
    obtain ⟨l, hl⟩ := notifyFor_eq { s with interrupted := update s.interrupted t true } (s.waitChannel t)
    obtain ⟨l', hl'⟩ := notifyFor_eq { s with interrupted := update s.interrupted t true, waiters := l } self.toNat
    dsimp only
    rw [hl, hl']
    exact .inl rfl
  | requestStop => exact .inl (some.inj hstep ▸ rfl)
  | wake t timedOut =>
    simp only [State.step] at hstep
    split at hstep
    · cases hstep
    · split at hstep
      · exact .inl (some.inj hstep ▸ rfl)
      · cases hstep
  | resume t now ident pending =>
    simp only [State.step] at hstep
    split at hstep
    · cases hstep
    · exact .inl (resume_calls hstep)

/-- Whom a step is to notify. -/
def Act.notifies : Act → Option Target
  | .exit _ ref _ | .wait _ ref _ _ _ _ _ => some (.monitor ref .entry)
  | .notify _ ref _ _ => some (.monitor ref .wait)
  | .notifyFor channel => some (.bare channel)
  | _ => none

/-- The list after a step that notifies `g`: only waiters of that channel were notified, and only if there is such
    an object; the thread may be listed itself. -/
inductive Notified (s : State) (g : Target) (l : List (Waiter Tid Nat)) : Prop
  | none (h : l = s.waiters)
  | some (hlive : ∀ ref kind, g = .monitor ref kind → s.objs ref ≠ none)
      (h : Marked (fun w => w.channel = g.channel) s.waiters l)

theorem Notified.of_monitor {kind : Kind} (hlive : s.objs ref ≠ Option.none)
    (h : Marked (fun w => w.channel = monitorChannel ref kind) s.waiters l) : Notified s (.monitor ref kind) l :=
  .some (fun _ _ heq => (Target.monitor.inj heq).1 ▸ hlive) h

theorem exit_notified {ident : Bool} : Notified s (.monitor ref .entry) (s.exit t ref ident).waiters := by
  unfold State.exit
  split
  · exact .none rfl
  next o ho =>
    split
    · exact .none rfl
    · exact .of_monitor (by simp [owned_objs ho])
        (notifyOneFor_marked (s.setObj ref { o with owner := 0, depth := 0 }) (monitorChannel ref .entry))

theorem notify_notified {all ident : Bool} : Notified s (.monitor ref .wait) (s.notify t ref all ident).waiters := by
  unfold State.notify
  split
  · exact .none rfl
  next o ho =>
    refine .of_monitor (by simp [owned_objs ho]) ?_
    cases all with
    | true => exact notifyFor_marked (s.setObj ref { o with seq := add 64 o.seq 1 }) (monitorChannel ref .wait)
    | false => exact notifyOneFor_marked (s.setObj ref { o with seq := add 64 o.seq 1 }) (monitorChannel ref .wait)

theorem wait_notified {timeout called now : Nat} :
    ∃ l, Notified s (.monitor ref .entry) l ∧ ((s.wait t ref timeout called now ident pending).waiters = l ∨
      ∃ v : Waiter Tid Nat, v.ready = false ∧ (s.wait t ref timeout called now ident pending).waiters = v :: l) := by
  unfold State.wait
  split
  · exact ⟨_, .none rfl, .inl rfl⟩
  next o ho =>
    dsimp only
    split
    · exact ⟨_, .none rfl, .inl rfl⟩
    · refine ⟨_, .of_monitor (by simp [owned_objs ho]) (notifyOneFor_marked
        (State.setObj { s with log := .waitCalled t ref o.depth :: s.log } ref { o with owner := 0, depth := 0 }) _), ?_⟩
      have hlive : ((State.setObj { s with log := .waitCalled t ref o.depth :: s.log } ref
          { o with owner := 0, depth := 0 }).notifyOneFor (monitorChannel ref .entry)).objs ref ≠ none := by
        simp [State.setObj]
      have hends :
        Ends _ t (State.waitTurn _ t ref o.depth o.seq (if timeout = 0 then 0 else add 64 called timeout) now ident
        pending) := waitTurn_ends hlive
      cases hends with
      | back hwaiters _ => exact .inl hwaiters
      | parked p r kind _ _ hwaiters _ => exact .inr ⟨_, rfl, hwaiters⟩

theorem step_notified {g : Target} (hstep : s.step a = some s') (hg : a.notifies = some g) :
    ∃ l, Notified s g l ∧ (s'.waiters = l ∨ ∃ v : Waiter Tid Nat, v.ready = false ∧ s'.waiters = v :: l) := by
  cases a with
  | exit t ref ident =>
    cases hg
    obtain ⟨-, ⟨⟩⟩ := ite_none_right_eq_some.1 hstep
    exact ⟨_, exit_notified, .inl rfl⟩
  | wait t ref timeout called now ident pending =>
    cases hg
    obtain ⟨-, ⟨⟩⟩ := ite_none_right_eq_some.1 hstep
    exact wait_notified
  | notify t ref all ident =>
    cases hg
    obtain ⟨-, ⟨⟩⟩ := ite_none_right_eq_some.1 hstep
    exact ⟨_, notify_notified, .inl rfl⟩
  | notifyFor channel =>
    cases hg
    refine ⟨_, .some (fun ref kind h => ?_) (notifyFor_marked s channel), .inl (some.inj hstep ▸ rfl)⟩
    cases h
  | _ => cases hg

/-- What the notifications of monitors promise. Two threads are listed on one channel only if they wait for the same
    thing; who is notified waits for what the notification is about; and calls that notify one waiter each, while
    none of the listed ones wakes up, make as many threads ready. -/
structure Notifies (s : State) : Prop where
  distinct : ∀ w ∈ s.waiters, ∀ w' ∈ s.waiters, w.channel = w'.channel →
    (s.phase w.thread).target = (s.phase w'.thread).target
  own : ∀ a s' g, Meets s a → s.step a = some s' → a.notifies = some g → ∀ w ∈ s.waiters, w.ready = false →
    ∀ w' ∈ s'.waiters, w'.thread = w.thread → w'.ready = true → (s.phase w.thread).target = some g
  each : ∀ ref s' k, Run (fun s a => Meets s a ∧ ¬ Wakes (monitorChannel ref .wait) s a) s s' →
    notifyCalls ref s'.log = notifyCalls ref s.log + k →
    k ≤ (s.waiters.filter fun w => w.channel = monitorChannel ref .wait ∧ w.ready = false).length →
    ∃ ts : List Tid, ts.Nodup ∧ k ≤ ts.length ∧
      ∀ t ∈ ts, ∃ w ∈ s'.waiters, w.thread = t ∧ w.channel = monitorChannel ref .wait ∧ w.ready = true

theorem Run.listed (hrun : Run Meets s s') (h : Listed s) (hsound : Sound s) : Listed s' ∧ Sound s' := by
  induction hrun with
  | refl => exact ⟨h, hsound⟩
  | step _ hmeets hstep ih => exact ⟨ih.1.step ih.2 hmeets hstep, ih.2.step hstep⟩

theorem Run.weaken {P Q : State → Act → Prop} (hPQ : ∀ s a, P s a → Q s a) (hrun : Run P s s') : Run Q s s' := by
  induction hrun with
  | refl => exact .refl _
  | step _ hmeets hstep ih => exact .step ih (hPQ _ _ hmeets) hstep

theorem Run.readyOn (hrun : Run (fun s a => Meets s a ∧ ¬ Wakes (monitorChannel ref .wait) s a) s s')
    (hlisted : ∃ w ∈ s.waiters, w.channel = monitorChannel ref .wait) :
    (∃ w ∈ s'.waiters, w.channel = monitorChannel ref .wait) ∧
      readyOn (monitorChannel ref .wait) s.waiters + notifyCalls ref s'.log ≤
        readyOn (monitorChannel ref .wait) s'.waiters + notifyCalls ref s.log := by
  induction hrun with
  | refl => exact ⟨hlisted, le_refl _⟩
  | @step s₁ s' a _ hmeets hstep ih =>
    obtain ⟨⟨w, hw, hc⟩, hle⟩ := ih
    obtain ⟨hready, hstill⟩ := step_keeps hstep hmeets.2
    refine ⟨hstill ⟨w, hw, hc⟩, ?_⟩
    rcases step_calls ref hstep with hcalls | ⟨t, ident, rfl, hwaiters, hcalls⟩
    · omega
    · obtain ⟨v, hv⟩ := Option.isSome_iff_exists.mp
        (find?_isSome.mpr ⟨w, hw, decide_eq_true hc⟩ : (s₁.waiters.find?
          fun w => w.channel = monitorChannel ref .wait).isSome)
      have hadd := readyOn_markFirst hv (hmeets.1 v hv)
      rw [← hwaiters] at hadd
      omega

/-- In every run whose notifications of one waiter meet a first waiter that is not ready, and whose other waits and
    notifications stay off the channels of monitors, each notification reaches its own waiter. -/
theorem notify_reaches_own_waiter (hrun : Run Meets .init s) : Notifies s := by
  obtain ⟨h, hsound⟩ := hrun.listed .init .init
  refine ⟨fun w hw w' hw' heq => ?_, fun a s' g hmeets hstep hg w hw hready w' hw' hthread hready' => ?_,
    fun ref s' k hrun' hcalls hk => ?_⟩
  · obtain ⟨g, hg, hchannel⟩ := h.target w hw
    obtain ⟨g', hg', hchannel'⟩ := h.target w' hw'
    rw [hg, hg', Target.channel_inj (h.apart _ g hg) (h.apart _ g' hg') (by rw [hchannel, hchannel', heq])]
  · obtain ⟨l, hl, hfront⟩ := step_notified hstep hg
    -- The waiter is an old one, so that it was notified.
    have hmem : w' ∈ l := by
      rcases hfront with heq | ⟨v, hv, heq⟩ <;> rw [heq] at hw'
      · exact hw'
      · rcases mem_cons.mp hw' with rfl | hmem
        · rw [hv] at hready'
          cases hready'
        · exact hmem
    have hunique : ∀ {v : Waiter Tid Nat}, v ∈ s.waiters → v.thread = w'.thread → v = w := by
      intro v hv heq
      exact inj_on_of_nodup_map h.nodup hv hw (heq.trans hthread)
    obtain ⟨g', hg', hchannel⟩ := h.target w hw
    cases hl with
    | none heq =>
      obtain rfl := hunique (heq ▸ hmem) rfl
      rw [hready] at hready'
      cases hready'
    | some hlive hmark =>
      obtain ⟨v, hv, hvt, -, hsame⟩ := hmark.mem hmem
      obtain rfl := hunique hv hvt
      rcases hsame with rfl | hnotified
      · rw [hready] at hready'
        cases hready'
      · have hapart : g.Apart := by
          cases g with
          | monitor ref kind =>
            rintro rfl
            exact hlive 0 kind rfl (hold_eq_none.mp hsound.null)
          | bare channel =>
            cases a <;> cases hg
            exact hmeets
        rw [hg', Target.channel_inj (h.apart _ g' hg') hapart (hchannel.trans hnotified)]
  · have hend := (Run.weaken (fun _ _ hmeets => hmeets.1) hrun').listed h hsound
    obtain ⟨ts, hnodup, hlength, hts⟩ := readyOn_threads (c := monitorChannel ref .wait) hend.1.nodup
    refine ⟨ts, hnodup, ?_, hts⟩
    rcases Nat.eq_zero_or_pos k with rfl | hpos
    · exact Nat.zero_le _
    · obtain ⟨w, hw⟩ := exists_mem_of_length_pos (lt_of_lt_of_le hpos hk)
      obtain ⟨hmem, hkeep⟩ := mem_filter.mp hw
      have hc : w.channel = monitorChannel ref .wait := by simpa using (of_decide_eq_true hkeep).1
      obtain ⟨-, hle⟩ := hrun'.readyOn ⟨w, hmem, hc⟩
      omega

/-- Threads 1 and 2 wait for a notification of object 5, thread 3 holds its monitor. -/
def twoWaiters : List Act :=
  [.alloc 5, .enter 1 5 true false, .wait 1 5 0 0 0 true false, .enter 2 5 true false, .wait 2 5 0 0 0 true false,
    .enter 3 5 true false]

theorem notify_reaches_own_waiter_two : ∃ s, State.init.run Meets twoWaiters = some s ∧
    s.waiters = [⟨2, 22, false⟩, ⟨1, 22, false⟩] ∧ Notifies s := by
  obtain ⟨s, hs⟩ := Option.isSome_iff_exists.mp (show (State.init.run Meets twoWaiters).isSome = true by decide +kernel)
  have hend : (State.init.run Meets twoWaiters).map (·.waiters) = some [⟨2, 22, false⟩, ⟨1, 22, false⟩] := by
    decide +kernel
  rw [hs] at hend
  exact ⟨s, hs, some.inj hend, notify_reaches_own_waiter (Run.of_run hs)⟩

/-- Both calls notify thread 2. And thread 2, which waits for the thread whose object is number 6 to end, is notified
    by a call for object 1. -/
theorem notify_marks_one_twice :
    (∃ s s', State.init.run (fun _ _ => True) twoWaiters = some s ∧
      s.run (fun _ _ => True) [.notify 3 5 false true, .notify 3 5 false true] = some s' ∧
      (s.waiters.filter fun w => w.channel = monitorChannel 5 .wait ∧ w.ready = false).length = 2 ∧
      notifyCalls 5 s'.log = notifyCalls 5 s.log + 2 ∧ s'.waiters = [⟨2, 22, true⟩, ⟨1, 22, false⟩]) ∧
    ∃ s s', State.init.run (fun _ _ => True) [.alloc 1, .waitFor 2 6 true, .enter 3 1 true false] = some s ∧
      s.step (.notify 3 1 false true) = some s' ∧ (s.phase 2).target = some (.bare 6) ∧
      s.waiters = [⟨2, 6, false⟩] ∧ s'.waiters = [⟨2, 6, true⟩] := by
  exact ⟨⟨_, _, rfl, rfl, by decide, by decide, by decide⟩, ⟨_, _, rfl, rfl, by decide, by decide, by decide⟩⟩

end Step

end Lunaria.Dvm.Monitor
