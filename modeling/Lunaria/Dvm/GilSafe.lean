import Mathlib
import Lunaria.Dvm.Gil

/-! Hand-over keeps threads apart. At any time the thread that was given the lock is in one of three phases: it
    does not have the lock, it has taken it but not installed its state yet, or it is ready to interpret. What a
    thread has left to do of its call fits its phase (`Fits`), and that is what every step preserves. -/

namespace Lunaria.Dvm.Gil
open Word Handover Function Option

/-! ### The copied state -/

theorem TState.view_copy (dst src : TState) : (dst.copy src).view = src.view := by
  unfold TState.view TState.copy
  congr 1
  funext i
  show (if (i : Nat) < src.live then (if (i : Nat) < src.live then src.callstack i else dst.callstack i) else 0) = _
  split <;> rfl

theorem TState.view_zero : TState.zero.view = TState.zero := by
  unfold TState.view TState.zero
  simp

/-! ### Phases -/

inductive Phase where
  | out
  | taken
  | ready
deriving DecidableEq

def Fits : Phase → List Instr → Prop
  | p, [] => p ≠ .taken
  | p, .gilAcquire :: rest | p, .acquireTry :: rest | p, .acquireSlow :: rest | p, .enterFromGuest :: rest
  | p, .guestTry :: rest | p, .guestSlow :: rest => p ≠ .taken ∧ Fits .ready rest
  | _, .gilLock :: rest | _, .gilWait :: rest => Fits .taken rest
  | p, .setDepth _ :: rest => p ≠ .out ∧ Fits p rest
  | p, .install :: rest => p ≠ .out ∧ Fits .ready rest
  | p, .save :: rest => p = .ready ∧ Fits p rest
  | p, .gilHandOver :: rest => p = .ready ∧ Fits .out rest
  | p, .leaveToGuest _ :: rest | p, .gilRelease :: rest | p, .gilUnlockAll :: rest | p, .gilRelock _ :: rest
  | p, .gilYield :: rest => p ≠ .taken ∧ Fits .ready rest ∧ Fits .out rest
  | p, .armAcquire :: rest | p, .armLock :: rest | p, .armWait :: rest | p, .armSetDepth _ :: rest | p, .armRelease :: rest
  | p, .armHandOver :: rest | p, .armUnlockAll :: rest | p, .armRelock _ :: rest => Fits p rest

/-- The thread is on its way into the queue, or in it. -/
def queuing : List Instr → Bool
  | .gilLock :: _ | .gilWait :: _ | .armHandOver :: .gilLock :: _ => true
  | _ => false

/-- The thread is on its way out of the lock. -/
def leaving : List Instr → Bool
  | .save :: .gilHandOver :: _ | .gilHandOver :: _ => true
  | _ => false

/-- The thread is on neither way. -/
def Plain (code : List Instr) : Prop := leaving code = false ∧ queuing code = false

/-- The ways in and out are taken from their start: what follows another instruction is plain. -/
def Shape : List Instr → Prop
  | [] => True
  | .save :: rest => (∃ r, rest = .gilHandOver :: r) ∧ Shape rest
  | .armHandOver :: rest => (Plain rest ∨ ∃ r, rest = .gilLock :: r) ∧ Shape rest
  | _ :: rest => Plain rest ∧ Shape rest

section Invariant
variable {T : Type} [DecidableEq T]

def phase (s : State T) (t : T) : Phase :=
  if s.gil.holder = some t then (if s.installed = some t then .ready else .taken) else .out

/-- What holds of each thread. -/
structure ThreadOk (s : State T) (t : T) : Prop where
  depth : (s.thread t).gilDepth ≠ 0 → s.gil.holder = some t
  fits : Fits (phase s t) (s.thread t).code
  shape : Shape (s.thread t).code
  leaves : leaving (s.thread t).code = true → (s.thread t).gilDepth = 0
  order : queuing (s.thread t).code = true → (s.thread t).armDepth = 0
  queued : t ∈ s.gil.queue → ∃ rest, (s.thread t).code = .gilWait :: rest
  handed : s.gil.go t = true → phase s t = .taken ∧ ∃ rest, (s.thread t).code = .gilWait :: rest
  fresh : (s.thread t).tstateValid = false → s.last t = none
  saved : (∀ rest, (s.thread t).code ≠ .gilHandOver :: rest) → (s.thread t).tstateValid = true →
    (s.thread t).tstate.view = (s.last t).getD .zero
  saving : ∀ rest, (s.thread t).code = .gilHandOver :: rest →
    (s.thread t).tstateValid = true ∧ (s.thread t).tstate.view = s.vm.view

structure Inv (s : State T) : Prop where
  lock : s.gil.Ok
  installed : ∀ t, s.installed = some t → s.gil.holder = some t
  clean : s.clean = true → ∀ t, s.installed = some t → s.vm.view = (s.last t).getD .zero
  thread : ∀ t, ThreadOk s t

/-! ### What a step of one thread leaves alone -/

/-- Another thread is not concerned by a step that keeps its phase and, if it has the lock, the VM. -/
theorem ThreadOk.frame {s s' : State T} {u : T} (h : ThreadOk s u) (hthread : s'.thread u = s.thread u)
    (hlast : s'.last u = s.last u) (hphase : phase s' u = phase s u)
    (hqueue : u ∈ s'.gil.queue → u ∈ s.gil.queue) (hgo : s'.gil.go u = s.gil.go u)
    (hvm : phase s u ≠ .out → s'.vm = s.vm) : ThreadOk s' u := by
  have hholder : s.gil.holder = some u → s'.gil.holder = some u := by
    intro hold
    by_contra hnew
    unfold phase at hphase
    rw [if_neg hnew, if_pos hold] at hphase
    split at hphase <;> simp at hphase
  refine ⟨?_, ?_, ?_, ?_, ?_, ?_, ?_, ?_, ?_, ?_⟩ <;> rw [hthread]
  · exact fun hd => hholder (h.depth hd)
  · rw [hphase]
    exact h.fits
  · exact h.shape
  · exact h.leaves
  · exact h.order
  · exact fun hu => h.queued (hqueue hu)
  · rw [hgo, hphase]
    exact h.handed
  · rw [hlast]
    exact h.fresh
  · rw [hlast]
    exact h.saved
  · intro rest hcode
    have hfits := h.fits
    rw [hcode] at hfits
    rw [hvm (by rw [hfits.1]; decide)]
    exact h.saving rest hcode

variable {s : State T} {th : Thread}

@[simp] theorem put_thread_self {t : T} : (s.put t th).thread t = th := update_self ..

theorem put_thread_of_ne {t u : T} (h : u ≠ t) : (s.put t th).thread u = s.thread u :=
  update_of_ne h ..

theorem Inv.local {t : T} (h : Inv s) (hself : ThreadOk (s.put t th) t) : Inv (s.put t th) := by
  refine ⟨h.lock, h.installed, h.clean, fun u => ?_⟩
  by_cases hu : u = t
  · rw [hu]
    exact hself
  · exact (h.thread u).frame (put_thread_of_ne hu) rfl rfl id rfl fun _ => rfl

/-! ### One step -/

section Step
variable {s s' : State T} {t : T} {rest : List Instr}

/-- A thread at an instruction that does not wait is neither queued nor given the lock. -/
theorem ThreadOk.awake (h : ThreadOk s t) (hcode : ∀ r, (s.thread t).code ≠ .gilWait :: r) :
    t ∉ s.gil.queue ∧ s.gil.go t = false := by
  constructor
  · intro hq
    obtain ⟨r, hr⟩ := h.queued hq
    exact hcode r hr
  · by_contra hgo
    obtain ⟨-, r, hr⟩ := h.handed (by simpa using hgo)
    exact hcode r hr

variable {th : Thread} {code : List Instr} {vm : TState} {i : Instr}

theorem ThreadOk.at (h : ThreadOk s t) (hcode : (s.thread t).code = code) : Fits (phase s t) code ∧ Shape code :=
  hcode ▸ ⟨h.fits, h.shape⟩

/-- What a thread's own variables have to satisfy when the lock and the VM stay as they are. -/
theorem ThreadOk.move (h : ThreadOk s t) (hwait : ∀ r, (s.thread t).code ≠ .gilWait :: r)
    (hover : ∀ r, (s.thread t).code ≠ .gilHandOver :: r) (htstate : th.tstate = (s.thread t).tstate)
    (hvalid : th.tstateValid = (s.thread t).tstateValid) (hdepth : th.gilDepth ≠ 0 → s.gil.holder = some t)
    (hfits : Fits (phase s t) th.code) (hshape : Shape th.code) (hleaves : leaving th.code = true → th.gilDepth = 0)
    (horder : queuing th.code = true → th.armDepth = 0) (hnot : ∀ r, th.code ≠ .gilHandOver :: r) :
    ThreadOk (s.put t th) t := by
  obtain ⟨hqueue, hgo⟩ := h.awake hwait
  refine ⟨?_, ?_, ?_, ?_, ?_, fun hq => absurd hq hqueue, fun hg => ?_, ?_, ?_, ?_⟩ <;> rw [put_thread_self]
  · exact hdepth
  · exact hfits
  · exact hshape
  · exact hleaves
  · exact horder
  · rw [show (s.put t th).gil.go t = s.gil.go t from rfl, hgo] at hg
    simp at hg
  · rw [hvalid]
    exact h.fresh
  · intro _ hv
    rw [hvalid] at hv
    rw [htstate]
    exact h.saved hover hv
  · exact fun r hr => absurd hr (hnot r)

theorem Plain.not_handOver (h : Plain rest) : ∀ r, rest ≠ .gilHandOver :: r := by
  rintro r rfl
  simp [Plain, leaving] at h

theorem ThreadOk.plain (hth : s.thread t = th) (hqueue : t ∉ s.gil.queue) (hgo : s.gil.go t = false)
    (hdepth : th.gilDepth ≠ 0 → s.gil.holder = some t) (hfits : Fits (phase s t) th.code) (hplain : Plain th.code)
    (hshape : Shape th.code) (hfresh : th.tstateValid = false → s.last t = none)
    (hsaved : th.tstateValid = true → th.tstate.view = (s.last t).getD .zero) : ThreadOk s t := by
  subst hth
  exact ⟨hdepth, hfits, hshape, fun hl => by simp [hplain.1] at hl, fun hq => by simp [hplain.2] at hq,
    fun hq => absurd hq hqueue, fun hg => by simp [hgo] at hg, hfresh, fun _ => hsaved,
    fun r hr => absurd hr (hplain.not_handOver r)⟩

theorem Inv.pop (h : Inv s) (hwait : ∀ r, (s.thread t).code ≠ .gilWait :: r)
    (hover : ∀ r, (s.thread t).code ≠ .gilHandOver :: r) (htstate : th.tstate = (s.thread t).tstate)
    (hvalid : th.tstateValid = (s.thread t).tstateValid) (hdepth : th.gilDepth ≠ 0 → s.gil.holder = some t)
    (hfits : Fits (phase s t) th.code) (hplain : Plain th.code) (hshape : Shape th.code) : Inv (s.put t th) :=
  h.local ((h.thread t).move hwait hover htstate hvalid hdepth hfits hshape (fun hl => by simp [hplain.1] at hl)
    (fun hq => by simp [hplain.2] at hq) hplain.not_handOver)

omit [DecidableEq T] in
theorem phase_out [DecidableEq T] (h : s.gil.holder ≠ some t) : phase s t = .out := if_neg h

theorem holder_of_phase (h : phase s t ≠ .out) : s.gil.holder = some t := by
  by_contra hne
  exact h (phase_out hne)

theorem Inv.take {gil : Lock T} (h : Inv s) (htake : s.gil.tryTake t = some gil)
    (hwait : ∀ r, (s.thread t).code ≠ .gilWait :: r) (hover : ∀ r, (s.thread t).code ≠ .gilHandOver :: r)
    (hfits : Fits .taken code) (hplain : Plain code) (hshape : Shape code) : Inv ({ s with gil }.goto t code) := by
  have hlock := h.lock.tryTake htake
  obtain ⟨hfree, hqueue, rfl⟩ := Lock.tryTake_eq_some htake
  have hnone := h.lock.free hfree
  have hinst : ∀ u, s.installed ≠ some u := fun u hu => by
    have := h.installed u hu
    rw [hnone] at this
    simp at this
  have hself := h.thread t
  obtain ⟨-, hgo⟩ := hself.awake hwait
  refine ⟨hlock, fun u hu => absurd hu (hinst u), fun _ u hu => absurd hu (hinst u), fun u => ?_⟩
  by_cases hu : u = t
  · subst hu
    have hphase : phase (State.put { s with gil := { s.gil with locked := true, holder := some u } } u
        { s.thread u with code }) u = .taken := by
      unfold phase State.put
      rw [if_pos rfl, if_neg (hinst u)]
    refine .plain put_thread_self (fun hq => ?_) hgo (fun _ => rfl)
      (hphase ▸ hfits) hplain hshape hself.fresh (hself.saved hover)
    exact absurd (show u ∈ s.gil.queue from hq) (by simp [hqueue])
  · refine (h.thread u).frame (put_thread_of_ne hu) rfl ?_ id rfl fun _ => rfl
    rw [phase_out (s := s) (by rw [hnone]; simp), phase_out]
    show some t ≠ some u
    exact fun heq => hu (some.inj heq).symm

theorem Inv.wait (h : Inv s) (hcode : (s.thread t).code = .gilLock :: rest) :
    Inv ({ s with gil := s.gil.enqueue t, waiters := add 32 s.waiters 1 }.goto t (.gilWait :: rest)) := by
  have hself := h.thread t
  obtain ⟨hqueue, hgo⟩ := hself.awake (by simp [hcode])
  obtain ⟨hfits, hshape⟩ := hself.at hcode
  have horder := hself.order
  rw [hcode] at horder
  refine ⟨h.lock.enqueue hqueue, h.installed, h.clean, fun u => ?_⟩
  by_cases hu : u = t
  · subst hu
    refine ⟨?_, ?_, ?_, ?_, ?_, fun _ => ?_, fun hg => ?_, ?_, ?_, ?_⟩ <;> simp only [State.goto, put_thread_self]
    · exact hself.depth
    · exact hfits
    · exact hshape
    · exact fun hl => by simp [leaving] at hl
    · exact fun _ => horder rfl
    · exact ⟨rest, rfl⟩
    · exact absurd (show update s.gil.go u false u = true from hg) (by simp)
    · exact hself.fresh
    · exact fun _ => hself.saved (by simp [hcode])
    · exact fun r hr => by simp at hr
  · refine (h.thread u).frame (put_thread_of_ne hu) rfl rfl (fun hq => ?_) (update_of_ne hu ..) fun _ => rfl
    simpa [State.goto, State.put, Lock.enqueue, hu] using hq

theorem Inv.resume (h : Inv s) (hcode : (s.thread t).code = .gilWait :: rest) (hgo : s.gil.go t = true) :
    Inv ({ s with gil := s.gil.resume t, waiters := sub 32 s.waiters 1 }.goto t rest) := by
  have hself := h.thread t
  obtain ⟨hfits, hshape⟩ := hself.at hcode
  have hphase := (hself.handed hgo).1
  have hqueue : t ∉ s.gil.queue := fun hq => by simp [h.lock.apart t hq] at hgo
  refine ⟨h.lock.resume, h.installed, h.clean, fun u => ?_⟩
  by_cases hu : u = t
  · subst hu
    exact .plain put_thread_self hqueue (update_self ..) hself.depth (hphase ▸ hfits) hshape.1 hshape.2 hself.fresh
      (hself.saved (by simp [hcode]))
  · exact (h.thread u).frame (put_thread_of_ne hu) rfl rfl id (update_of_ne hu ..) fun _ => rfl

theorem Inv.install (h : Inv s) (hcode : (s.thread t).code = .install :: rest) (hexec : s.exec t rest .install = some s') :
    Inv s' := by
  have hself := h.thread t
  obtain ⟨hfits, hshape⟩ := hself.at hcode
  have hholder := holder_of_phase hfits.1
  obtain ⟨hqueue, hgo⟩ := hself.awake (by simp [hcode])
  -- Both ways the thread has a valid state, and it is what the thread left.
  obtain ⟨th, hth, hcode', hdepth, harm, hvalid, hview⟩ : ∃ th : Thread,
      (if (s.thread t).tstateValid then s.thread t else { s.thread t with tstate := .zero, tstateValid := true }) = th ∧
      th.code = (s.thread t).code ∧ th.gilDepth = (s.thread t).gilDepth ∧ th.armDepth = (s.thread t).armDepth ∧
      th.tstateValid = true ∧ th.tstate.view = (s.last t).getD .zero := by
    refine ⟨_, rfl, ?_⟩
    split
    · rename_i hv
      exact ⟨rfl, rfl, rfl, hv, hself.saved (by simp [hcode]) hv⟩
    · rename_i hv
      refine ⟨rfl, rfl, rfl, rfl, ?_⟩
      rw [hself.fresh (by simpa using hv)]
      exact TState.view_zero
  cases hexec
  rw [hth]
  refine ⟨h.lock, fun u hu => ?_, fun _ u hu => ?_, fun u => ?_⟩
  · obtain rfl := some.inj (show some t = some u from hu)
    exact hholder
  · obtain rfl := some.inj (show some t = some u from hu)
    exact (TState.view_copy ..).trans hview
  · by_cases hu : u = t
    · subst hu
      have hphase : phase (State.put { s with vm := s.vm.copy th.tstate, installed := some u, clean := true } u
          { th with code := rest }) u = .ready := by
        unfold phase State.put
        rw [if_pos hholder, if_pos rfl]
      exact .plain put_thread_self hqueue hgo (fun _ => hholder) (hphase ▸ hfits.2) hshape.1 hshape.2
        (fun hf => by simp [hvalid] at hf) fun _ => hview
    · have hout : s.gil.holder ≠ some u := fun heq => hu (some.inj (hholder.symm.trans heq)).symm
      refine (h.thread u).frame (put_thread_of_ne hu) rfl ?_ id rfl fun hp => absurd (phase_out hout) hp
      rw [phase_out hout, phase_out (by exact hout)]

theorem Inv.save (h : Inv s) (hcode : (s.thread t).code = .save :: rest) :
    Inv (s.put t { s.thread t with tstate := (s.thread t).tstate.copy s.vm, tstateValid := true, code := rest }) := by
  have hself := h.thread t
  obtain ⟨hfits, hshape⟩ := hself.at hcode
  have hleaves := hself.leaves
  rw [hcode] at hleaves
  obtain ⟨r, rfl⟩ := hshape.1
  obtain ⟨hqueue, hgo⟩ := hself.awake (by simp [hcode])
  refine h.local ⟨?_, ?_, ?_, ?_, ?_, fun hq => absurd hq hqueue, fun hg => ?_, ?_, ?_, ?_⟩ <;> simp only [put_thread_self]
  · exact hself.depth
  · exact hfits.1 ▸ hfits.2
  · exact hshape.2
  · exact fun _ => hleaves rfl
  · exact fun hq => by simp [queuing] at hq
  · exact absurd (show s.gil.go t = true from hg) (by simp [hgo])
  · exact fun hf => by simp at hf
  · exact fun hne => absurd rfl (hne r)
  · exact fun _ _ => ⟨trivial, TState.view_copy ..⟩

/-- The lock goes to the thread that has waited longest, or becomes free. -/
theorem Inv.handOver (h : Inv s) (hcode : (s.thread t).code = .gilHandOver :: rest) : Inv ((s.handOver t).goto t rest) := by
  have hself := h.thread t
  obtain ⟨hfits, hshape⟩ := hself.at hcode
  have hleaves := hself.leaves
  rw [hcode] at hleaves
  have hholder := holder_of_phase (by rw [hfits.1]; decide)
  obtain ⟨hqueue, hgo⟩ := hself.awake (by simp [hcode])
  obtain ⟨hvalid, hview⟩ := hself.saving rest hcode
  have hlock := h.lock.handOver hholder hgo
  -- The next holder is the first waiter.
  have hnext : s.gil.handOver.holder = s.gil.queue.head? ∧ (∀ u, u ∈ s.gil.handOver.queue → u ∈ s.gil.queue) ∧
      ∀ u, s.gil.handOver.go u = if s.gil.queue.head? = some u then true else s.gil.go u := by
    unfold Lock.handOver
    cases s.gil.queue with
    | nil => simp
    | cons w q =>
      refine ⟨rfl, fun u hu => List.mem_cons_of_mem _ hu, fun u => ?_⟩
      by_cases heq : u = w
      · simp [heq]
      · simp [update_of_ne heq, Ne.symm heq]
  refine ⟨hlock, fun u hu => absurd hu nofun, fun hc => absurd hc nofun, fun u => ?_⟩
  by_cases hu : u = t
  · subst hu
    have hhead : s.gil.queue.head? ≠ some u := fun heq => hqueue (List.mem_of_head? heq)
    have hgo' : s.gil.handOver.go u = false := by rw [hnext.2.2 u, if_neg hhead, hgo]
    refine .plain put_thread_self (fun hq => hqueue (hnext.2.1 u hq)) hgo' (fun hd => absurd (hleaves rfl) hd) ?_ hshape.1
      hshape.2 (fun hf => nomatch hvalid.symm.trans hf) fun _ => ?_
    · rw [phase_out (by show s.gil.handOver.holder ≠ some u; rw [hnext.1]; exact hhead)]
      exact hfits.2
    · show _ = (update s.last u (some s.vm.view) u).getD .zero
      rw [update_self]
      exact hview
  · have hold : s.gil.holder ≠ some u := fun heq => hu (some.inj (hholder.symm.trans heq)).symm
    have hother := h.thread u
    by_cases hw : s.gil.queue.head? = some u
    · obtain ⟨r, hr⟩ := hother.queued (List.mem_of_head? hw)
      have hphase : phase ((s.handOver t).goto t rest) u = .taken := by
        unfold phase
        rw [if_pos (by show s.gil.handOver.holder = some u; rw [hnext.1, hw])]
        rfl
      have hfits' := hother.fits
      rw [hr] at hfits'
      have hlast : update s.last t (some s.vm.view) u = s.last u := update_of_ne hu ..
      refine ⟨?_, ?_, ?_, ?_, ?_, fun hq => ?_, fun hg => ?_, ?_, ?_, ?_⟩ <;>
        rw [show ((s.handOver t).goto t rest).thread u = s.thread u from put_thread_of_ne hu]
      · exact fun hd => absurd (hother.depth hd) hold
      · rw [hphase, hr]
        exact hfits'
      · exact hother.shape
      · exact hother.leaves
      · exact hother.order
      · exact ⟨r, hr⟩
      · exact ⟨hphase, r, hr⟩
      · exact fun hf => hlast.trans (hother.fresh hf)
      · intro hne hv
        refine (hother.saved hne hv).trans ?_
        show _ = (update s.last t (some s.vm.view) u).getD .zero
        rw [hlast]
      · intro r' hr'
        rw [hr] at hr'
        simp at hr'
    · refine hother.frame (put_thread_of_ne hu) (update_of_ne hu ..) ?_ (hnext.2.1 u) ?_ fun hp =>
        absurd (phase_out hold) hp
      · rw [phase_out hold, phase_out]
        show s.gil.handOver.holder ≠ some u
        rw [hnext.1]
        exact hw
      · show s.gil.handOver.go u = s.gil.go u
        rw [hnext.2.2 u, if_neg hw]

theorem Inv.interpret (h : Inv s) (hcode : (s.thread t).code = []) (hdepth : (s.thread t).gilDepth ≠ 0) :
    Inv { s with vm, clean := false } := by
  have hholder := (h.thread t).depth hdepth
  refine ⟨h.lock, h.installed, fun hc => absurd hc nofun, fun u => ?_⟩
  by_cases hu : u = t
  · subst hu
    have hself := h.thread u
    exact ⟨hself.depth, hself.fits, hself.shape, hself.leaves, hself.order, hself.queued, hself.handed, hself.fresh,
      hself.saved, fun r hr => absurd (hcode.symm.trans hr) nofun⟩
  · have hout : s.gil.holder ≠ some u := fun heq => hu (some.inj (hholder.symm.trans heq)).symm
    exact (h.thread u).frame rfl rfl rfl id rfl fun hp => absurd (phase_out hout) hp

/-- A thread that has the lock and is past its installation is ready. -/
theorem phase_ready (hholder : s.gil.holder = some t) (hp : phase s t ≠ .taken) : phase s t = .ready := by
  unfold phase at *
  rw [if_pos hholder] at *
  split at hp
  · rename_i hinst
    exact if_pos hinst
  · exact absurd rfl hp

theorem Fits.of_both {p : Phase} (hp : p ≠ .taken) (hready : Fits .ready code) (hout : Fits .out code) :
    Fits p code := by
  cases p with
  | out => exact hout
  | taken => exact absurd rfl hp
  | ready => exact hready

theorem ne_of_code {j : Instr} (hcode : code = i :: rest) (hi : i ≠ j) (r : List Instr) : code ≠ j :: r := by
  rintro rfl
  cases hcode
  exact hi rfl

theorem Inv.goOn (h : Inv s) (hcode : (s.thread t).code = i :: rest) (hwait : i ≠ .gilWait)
    (hover : i ≠ .gilHandOver) (hfits : Fits (phase s t) code) (hplain : Plain code) (hshape : Shape code) :
    Inv (s.goto t code) :=
  h.pop (ne_of_code hcode hwait) (ne_of_code hcode hover) rfl rfl (h.thread t).depth hfits hplain hshape

theorem Inv.goOnDepth {d a : Nat} (h : Inv s) (hcode : (s.thread t).code = i :: rest)
    (hwait : i ≠ .gilWait) (hover : i ≠ .gilHandOver) (hdepth : d ≠ 0 → s.gil.holder = some t)
    (hfits : Fits (phase s t) code)
    (hplain : Plain code) (hshape : Shape code) : Inv (s.put t { s.thread t with gilDepth := d, armDepth := a, code }) :=
  h.pop (ne_of_code hcode hwait) (ne_of_code hcode hover) rfl rfl hdepth hfits hplain hshape

theorem Inv.acquireSlow (h : Inv s) (hcode : (s.thread t).code = .acquireSlow :: rest)
    (hexec : s.exec t rest .acquireSlow = some s') : Inv s' := by
  have hself := h.thread t
  obtain ⟨hfits, hshape⟩ := hself.at hcode
  cases hexec
  have hfits' : Fits .taken (.setDepth 1 :: .install :: .armRelock (s.thread t).armDepth :: rest) :=
    ⟨by decide, by decide, hfits.2⟩
  have hshape' : Shape (.gilLock :: .setDepth 1 :: .install :: .armRelock (s.thread t).armDepth :: rest) :=
    ⟨⟨rfl, rfl⟩, ⟨rfl, rfl⟩, ⟨rfl, rfl⟩, hshape⟩
  refine h.local (hself.move (by simp [hcode]) (by simp [hcode]) rfl rfl hself.depth ?_ ?_ ?_ (fun _ => rfl) ?_)
  all_goals
    unfold dropArm
    dsimp only
    split
  · exact hfits'
  · exact hfits'
  · exact hshape'
  · exact ⟨.inr ⟨_, rfl⟩, hshape'⟩
  · exact fun hl => by simp [leaving] at hl
  · exact fun hl => by simp [leaving] at hl
  · exact fun r hr => by simp at hr
  · exact fun r hr => by simp at hr

/-- A critical section that takes the lock if it can. -/
theorem Inv.tryTake (taken slow : List Instr) (h : Inv s) (hcode : (s.thread t).code = i :: rest)
    (hwait : i ≠ .gilWait) (hover : i ≠ .gilHandOver) (hfits : Fits .taken taken) (hplain : Plain taken)
    (hshape : Shape taken)
    (hslow : s.gil.tryTake t = none → Inv (s.goto t slow)) (hexec : (match s.gil.tryTake t with
      | some gil => some ({ s with gil }.goto t taken)
      | none => some (s.goto t slow)) = some s') : Inv s' := by
  cases htake : s.gil.tryTake t with
  | some gil =>
    rw [htake] at hexec
    cases hexec
    exact h.take htake (ne_of_code hcode hwait) (ne_of_code hcode hover) hfits hplain hshape
  | none =>
    rw [htake] at hexec
    cases hexec
    exact hslow htake

theorem Inv.setArm {arm : Lock T} (h : Inv s) : Inv { s with arm } :=
  ⟨h.lock, h.installed, h.clean, fun u => (h.thread u).frame rfl rfl rfl id rfl fun _ => rfl⟩

section
variable (h : Inv s) (hcode : (s.thread t).code = i :: rest) (hexec : s.exec t rest i = some s')
include h hcode hexec

/-- Acquisition of the interpreter lock, instruction by instruction. -/
theorem Inv.exec_acquire
    (hi : i ∈ [Instr.gilAcquire, .acquireTry, .acquireSlow, .gilLock, .gilWait, .install, .enterFromGuest, .guestTry,
      .guestSlow] ∨ ∃ d, i = .setDepth d ∨ i = .gilRelock d) : Inv s' := by
  have hself := h.thread t
  obtain ⟨hfits, hshape⟩ := hself.at hcode
  cases i with
  | gilAcquire =>
    simp only [State.exec] at hexec
    split at hexec
    · rename_i hdepth
      cases hexec
      have hholder := hself.depth hdepth
      exact h.goOnDepth hcode nofun nofun (fun _ => hholder) (phase_ready hholder hfits.1 ▸ hfits.2) hshape.1 hshape.2
    · cases hexec
      exact h.goOn hcode nofun nofun hfits ⟨rfl, rfl⟩ hshape
  | acquireTry =>
    exact h.tryTake (.setDepth 1 :: .install :: rest) (.acquireSlow :: rest) hcode nofun nofun
      ⟨by decide, by decide, hfits.2⟩ ⟨rfl, rfl⟩ ⟨⟨rfl, rfl⟩, hshape⟩ (fun _ =>
        h.goOn hcode nofun nofun hfits ⟨rfl, rfl⟩ hshape) hexec
  | acquireSlow => exact h.acquireSlow hcode hexec
  | gilLock =>
    simp only [State.exec] at hexec
    split at hexec
    · rename_i gil htake
      cases hexec
      exact h.take htake (by simp [hcode]) (by simp [hcode]) hfits hshape.1 hshape.2
    · cases hexec
      exact h.wait hcode
  | gilWait =>
    simp only [State.exec] at hexec
    split at hexec
    · rename_i hgo
      cases hexec
      exact h.resume hcode hgo
    · simp at hexec
  | setDepth d =>
    cases hexec
    exact h.goOnDepth hcode nofun nofun (fun _ => holder_of_phase hfits.1) hfits.2 hshape.1 hshape.2
  | install => exact h.install hcode hexec
  | enterFromGuest =>
    simp only [State.exec] at hexec
    split at hexec
    · rename_i hdepth
      cases hexec
      exact h.goOn hcode nofun nofun (phase_ready (hself.depth hdepth) hfits.1 ▸ hfits.2) hshape.1 hshape.2
    · cases hexec
      exact h.goOn hcode nofun nofun hfits ⟨rfl, rfl⟩ hshape
  | guestTry =>
    exact h.tryTake (.setDepth 1 :: .install :: rest) (.guestSlow :: rest) hcode nofun nofun
      ⟨by decide, by decide, hfits.2⟩ ⟨rfl, rfl⟩ ⟨⟨rfl, rfl⟩, hshape⟩ (fun _ =>
        h.goOn hcode nofun nofun hfits ⟨rfl, rfl⟩ hshape) hexec
  | guestSlow =>
    cases hexec
    unfold dropArm
    dsimp only
    split
    · exact h.goOnDepth hcode nofun nofun hself.depth ⟨hfits.1, hfits.2⟩ ⟨rfl, rfl⟩ ⟨⟨rfl, rfl⟩, hshape⟩
    · exact h.goOnDepth hcode nofun nofun hself.depth ⟨hfits.1, hfits.2⟩ ⟨rfl, rfl⟩ ⟨.inl ⟨rfl, rfl⟩, ⟨rfl, rfl⟩, hshape⟩
  | gilRelock d =>
    simp only [State.exec] at hexec
    split at hexec
    · cases hexec
      exact h.goOn hcode nofun nofun (.of_both hfits.1 hfits.2.1 hfits.2.2) hshape.1 hshape.2
    · cases hexec
      exact h.goOn hcode nofun nofun ⟨hfits.1, by decide, hfits.2.1⟩ ⟨rfl, rfl⟩ ⟨⟨rfl, rfl⟩, hshape⟩
  | _ => simp at hi

theorem Inv.exec_release
    (hi : i ∈ [Instr.gilRelease, .save, .gilHandOver, .gilUnlockAll, .gilYield] ∨ ∃ cookie, i = .leaveToGuest cookie) :
      Inv s' := by
  have hself := h.thread t
  obtain ⟨hfits, hshape⟩ := hself.at hcode
  cases i with
  | leaveToGuest cookie =>
    simp only [State.exec] at hexec
    split at hexec
    · cases hexec
      exact h.goOn hcode nofun nofun (.of_both hfits.1 hfits.2.1 hfits.2.2) hshape.1 hshape.2
    · cases hexec
      exact h.goOn hcode nofun nofun hfits ⟨rfl, rfl⟩ hshape
  | gilRelease =>
    simp only [State.exec] at hexec
    split at hexec
    · cases hexec
      exact h.goOn hcode nofun nofun (.of_both hfits.1 hfits.2.1 hfits.2.2) hshape.1 hshape.2
    · rename_i hdepth
      have hholder := hself.depth hdepth
      have hready := phase_ready hholder hfits.1
      split at hexec
      · cases hexec
        exact h.goOnDepth hcode nofun nofun (fun _ => hholder) (hready ▸ hfits.2.1) hshape.1 hshape.2
      · cases hexec
        refine h.local (hself.move (by simp [hcode]) (by simp [hcode]) rfl rfl (fun hd => absurd rfl hd) ?_
          ?_ (fun _ => rfl) (fun hq => by simp [queuing] at hq) nofun)
        · exact ⟨hready, hready, hfits.2.2⟩
        · exact ⟨⟨rest, rfl⟩, hshape⟩
  | save =>
    cases hexec
    exact h.save hcode
  | gilHandOver =>
    cases hexec
    exact h.handOver hcode
  | gilUnlockAll =>
    simp only [State.exec] at hexec
    split at hexec
    · cases hexec
      exact h.goOn hcode nofun nofun (.of_both hfits.1 hfits.2.1 hfits.2.2) hshape.1 hshape.2
    · rename_i hdepth
      cases hexec
      exact h.goOnDepth hcode nofun nofun (fun _ => hself.depth hdepth) hfits ⟨rfl, rfl⟩ hshape
  | gilYield =>
    simp only [State.exec] at hexec
    split at hexec
    · cases hexec
      exact h.goOn hcode nofun nofun (.of_both hfits.1 hfits.2.1 hfits.2.2) hshape.1 hshape.2
    · split at hexec
      · cases hexec
        exact h.goOn hcode nofun nofun (.of_both hfits.1 hfits.2.1 hfits.2.2) hshape.1 hshape.2
      · rename_i hdepth
        cases hexec
        exact h.goOnDepth hcode nofun nofun (fun _ => hself.depth hdepth)
          ⟨hfits.1, ⟨by decide, hfits.2⟩, ⟨by decide, hfits.2⟩⟩ ⟨rfl, rfl⟩ ⟨⟨rfl, rfl⟩, hshape⟩
  | _ => simp at hi

/-- The ARM lock: its instructions leave the interpreter lock alone. -/
theorem Inv.exec_arm
    (hi : i ∈ [Instr.armAcquire, .armLock, .armWait, .armRelease, .armHandOver, .armUnlockAll] ∨
      ∃ d, i = .armSetDepth d ∨ i = .armRelock d) : Inv s' := by
  have hself := h.thread t
  obtain ⟨hfits, hshape⟩ := hself.at hcode
  cases i with
  | armAcquire =>
    simp only [State.exec] at hexec
    split at hexec
    · cases hexec
      exact h.goOnDepth hcode nofun nofun hself.depth hfits hshape.1 hshape.2
    · cases hexec
      exact h.goOn hcode nofun nofun hfits ⟨rfl, rfl⟩ hshape
  | armLock =>
    simp only [State.exec] at hexec
    split at hexec
    · cases hexec
      exact h.setArm.goOn hcode nofun nofun hfits ⟨rfl, rfl⟩ hshape
    · cases hexec
      exact h.setArm.goOn hcode nofun nofun hfits ⟨rfl, rfl⟩ ⟨⟨rfl, rfl⟩, hshape⟩
  | armWait =>
    simp only [State.exec] at hexec
    split at hexec
    · cases hexec
      exact h.setArm.goOn hcode nofun nofun hfits hshape.1 hshape.2
    · simp at hexec
  | armSetDepth d =>
    cases hexec
    exact h.goOnDepth hcode nofun nofun hself.depth hfits hshape.1 hshape.2
  | armRelease =>
    simp only [State.exec] at hexec
    split at hexec
    · cases hexec
      exact h.goOn hcode nofun nofun hfits hshape.1 hshape.2
    · split at hexec
      · cases hexec
        exact h.goOnDepth hcode nofun nofun hself.depth hfits hshape.1 hshape.2
      · cases hexec
        refine h.local (hself.move (by simp [hcode]) (by simp [hcode]) rfl rfl hself.depth hfits ⟨.inl hshape.1, hshape.2⟩
          (fun hl => by simp [leaving] at hl) (fun _ => rfl) nofun)
  | armHandOver =>
    cases hexec
    rcases hshape.1 with hplain | ⟨r, rfl⟩
    · exact h.setArm.goOn hcode nofun nofun hfits hplain hshape.2
    · -- On the way into the queue the ARM depth is zero already.
      have harm := hself.order (by rw [hcode]; rfl)
      exact h.setArm.local ((h.setArm.thread t).move (by simp [hcode]) (by simp [hcode]) rfl rfl hself.depth hfits hshape.2
        (fun hl => by simp [leaving] at hl) (fun _ => harm) nofun)
  | armUnlockAll =>
    cases hexec
    unfold dropArm
    dsimp only
    split
    · exact h.goOnDepth hcode nofun nofun hself.depth hfits hshape.1 hshape.2
    · exact h.local (hself.move (by simp [hcode]) (by simp [hcode]) rfl rfl hself.depth hfits ⟨.inl hshape.1, hshape.2⟩
        (fun hl => by simp [leaving] at hl) (fun _ => rfl) nofun)
  | armRelock d =>
    simp only [State.exec] at hexec
    split at hexec
    · cases hexec
      exact h.goOn hcode nofun nofun hfits hshape.1 hshape.2
    · cases hexec
      exact h.goOn hcode nofun nofun hfits ⟨rfl, rfl⟩ ⟨⟨rfl, rfl⟩, hshape⟩
  | _ => simp at hi

theorem Inv.exec : Inv s' := by
  have hcases : (i ∈ [Instr.gilAcquire, .acquireTry, .acquireSlow, .gilLock, .gilWait, .install, .enterFromGuest, .guestTry,
        .guestSlow] ∨ ∃ d, i = .setDepth d ∨ i = .gilRelock d) ∨
      (i ∈ [Instr.gilRelease, .save, .gilHandOver, .gilUnlockAll, .gilYield] ∨ ∃ cookie, i = .leaveToGuest cookie) ∨
      (i ∈ [Instr.armAcquire, .armLock, .armWait, .armRelease, .armHandOver, .armUnlockAll] ∨
        ∃ d, i = .armSetDepth d ∨ i = .armRelock d) := by
    cases i <;> simp
  rcases hcases with hi | hi | hi
  · exact h.exec_acquire hcode hexec hi
  · exact h.exec_release hcode hexec hi
  · exact h.exec_arm hcode hexec hi

end

theorem Inv.step {a : Act T} (h : Inv s) (hstep : s.step a = some s') : Inv s' := by
  cases a with
  | call t i =>
    simp only [State.step] at hstep
    split at hstep
    · rename_i hok
      cases hstep
      have hfits := (h.thread t).fits
      rw [hok.1] at hfits
      have hcall := hok.2
      refine h.pop (by simp [hok.1]) (by simp [hok.1]) rfl rfl (h.thread t).depth ?_ ?_ ?_
      · cases i <;> simp [Instr.isCall] at hcall <;> simp_all [Fits]
      · cases i <;> simp [Instr.isCall] at hcall <;> exact ⟨rfl, rfl⟩
      · cases i <;> simp [Instr.isCall] at hcall <;> exact ⟨⟨rfl, rfl⟩, trivial⟩
    · simp at hstep
  | advance t =>
    simp only [State.step] at hstep
    split at hstep
    · simp at hstep
    · rename_i i rest hcode
      exact h.exec hcode hstep
  | interpret t vm =>
    simp only [State.step] at hstep
    split at hstep
    · rename_i hok
      cases hstep
      exact h.interpret hok.1 hok.2
    · simp at hstep

theorem Reach.inv (h : Reach vm s) : Inv s := by
  induction h with
  | init =>
    refine ⟨Lock.Ok.init, fun t h => ?_, fun _ t h => ?_, fun t => ?_⟩
    · cases h
    · cases h
    · refine ⟨fun hd => absurd rfl hd, ?_, trivial, fun h => ?_, fun h => ?_,
        fun hq => by simp [State.init, Lock.init] at hq, fun h => ?_,
        fun _ => rfl, fun _ hv => by simp [State.init] at hv, fun rest h => ?_⟩
      · show Fits (phase (State.init vm) t) []
        rw [phase_out (by simp [State.init, Lock.init])]
        intro h
        cases h
      all_goals cases h
  | step _ hstep ih => exact ih.step hstep

theorem exec_gil (hexec : s.exec t rest i = some s') : s'.gil = s.gil ∨ s.gil.tryTake t = some s'.gil ∨
    s'.gil = s.gil.enqueue t ∨ s'.gil = s.gil.resume t ∨ s'.gil = s.gil.handOver := by
  cases i <;> simp only [State.exec] at hexec
  case acquireTry =>
    split at hexec
    · rename_i htake
      exact .inr (.inl (some.inj hexec ▸ htake))
    · exact .inl (some.inj hexec ▸ rfl)
  case guestTry =>
    split at hexec
    · rename_i htake
      exact .inr (.inl (some.inj hexec ▸ htake))
    · exact .inl (some.inj hexec ▸ rfl)
  case gilLock =>
    split at hexec
    · rename_i htake
      exact .inr (.inl (some.inj hexec ▸ htake))
    · exact .inr (.inr (.inl (some.inj hexec ▸ rfl)))
  case gilWait =>
    split at hexec
    · exact .inr (.inr (.inr (.inl (some.inj hexec ▸ rfl))))
    · simp at hexec
  case gilHandOver => exact .inr (.inr (.inr (.inr (some.inj hexec ▸ rfl))))
  all_goals
    repeat' split at hexec
    all_goals first
      | exact .inl (some.inj hexec ▸ rfl)
      | simp at hexec

theorem step_holder {a : Act T} (hstep : s.step a = some s') {u : T} (hnew : s'.gil.holder = some u)
    (hold : s.gil.holder ≠ some u) : s.gil.queue = [] ∨ s.gil.queue.head? = some u := by
  have hsame : s'.gil = s.gil → s.gil.queue = [] ∨ s.gil.queue.head? = some u := fun heq => absurd (heq ▸ hnew) hold
  cases a with
  | call t i =>
    simp only [State.step] at hstep
    split at hstep
    · exact hsame (some.inj hstep ▸ rfl)
    · simp at hstep
  | interpret t vm =>
    simp only [State.step] at hstep
    split at hstep
    · exact hsame (some.inj hstep ▸ rfl)
    · simp at hstep
  | advance t =>
    simp only [State.step] at hstep
    split at hstep
    · simp at hstep
    · rcases exec_gil hstep with heq | htake | heq | heq | heq
      · exact hsame heq
      · exact .inl (Lock.tryTake_eq_some htake).2.1
      · rw [heq] at hnew
        exact absurd hnew hold
      · rw [heq] at hnew
        exact absurd hnew hold
      · rw [heq] at hnew
        unfold Lock.handOver at hnew
        split at hnew
        · rename_i hq
          rw [hq]
          exact .inr hnew
        · simp at hnew

end Step

/-- The thread has the interpreter lock or has been given it. -/
def Owns (s : State T) (t : T) : Prop := (s.thread t).gilDepth ≠ 0 ∨ s.gil.go t = true

/-- What threads can rely on. -/
structure HandedOver (s : State T) : Prop where
  exclusive : ∀ t u, Owns s t → Owns s u → t = u
  fifo : s.gil.arrived = s.gil.served ++ s.gil.queue
  /-- A thread that interprets has its state installed. -/
  installed : ∀ t, (s.thread t).code = [] → (s.thread t).gilDepth ≠ 0 → s.installed = some t
  /-- Until it changes them, the fields are what they were when the thread last released the lock, or zero. -/
  restored : s.clean = true → ∀ t, s.installed = some t → s.vm.view = (s.last t).getD .zero
  order : ∀ t ∈ s.gil.queue, (s.thread t).armDepth = 0

end Invariant

/-- In every reachable state at most one thread has the lock or was given it, the queue is served in the order of
    arrival and never overtaken, a thread that gets the lock finds its own interpreter state, and no thread is
    queued with the ARM lock. -/
theorem gil_handed_over {T : Type} [DecidableEq T] {vm : TState} {s : State T} (hreach : Reach vm s) :
    HandedOver s ∧ ∀ a s', s.step a = some s' → ∀ u, s'.gil.holder = some u → s.gil.holder ≠ some u →
      s.gil.queue = [] ∨ s.gil.queue.head? = some u := by
  have h := hreach.inv
  have howns : ∀ t, Owns s t → s.gil.holder = some t := fun t ht => ht.elim (h.thread t).depth (h.lock.go t)
  refine ⟨⟨fun t u ht hu => ?_, h.lock.fifo, fun t hcode hdepth => ?_, h.clean, fun t ht => ?_⟩,
    fun a s' hstep u => step_holder hstep⟩
  · exact some.inj ((howns t ht).symm.trans (howns u hu))
  · have hfits := (h.thread t).fits
    rw [hcode] at hfits
    have hready := phase_ready ((h.thread t).depth hdepth) hfits
    by_contra hne
    unfold phase at hready
    rw [if_neg hne] at hready
    split at hready <;> simp at hready
  · obtain ⟨rest, hcode⟩ := (h.thread t).queued ht
    exact (h.thread t).order (by rw [hcode]; rfl)

/-- The steps of a run, one after another. -/
def State.run {T : Type} [DecidableEq T] (s : State T) : List (Act T) → Option (State T)
  | [] => some s
  | a :: acts => (s.step a).bind fun s' => s'.run acts

theorem Reach.run {T : Type} [DecidableEq T] {vm : TState} : ∀ {acts : List (Act T)} {s s' : State T}, Reach vm s →
    s.run acts = some s' → Reach vm s'
  | [], _, _, h, hrun => some.inj hrun ▸ h
  | _ :: _, _, _, h, hrun => by
    obtain ⟨r, hstep, hrest⟩ := Option.bind_eq_some_iff.mp hrun
    exact (h.step hstep).run hrest

/-- One thread takes the interpreter lock; another, inside the ARM lock, asks for it and is queued. -/
def contend : List (Act Bool) :=
  [.call false .gilAcquire, .advance false, .advance false, .advance false, .advance false, .call true .armAcquire,
    .advance true, .advance true, .advance true, .call true .gilAcquire, .advance true, .advance true, .advance true,
    .advance true, .advance true]

theorem gil_handed_over_contend : ∃ s : State Bool, (State.init .zero).run contend = some s ∧ s.gil.queue = [true] ∧
    HandedOver s ∧ ∀ a s', s.step a = some s' → ∀ u, s'.gil.holder = some u → s.gil.holder ≠ some u →
      s.gil.queue = [] ∨ s.gil.queue.head? = some u := by
  obtain ⟨s, hs⟩ := Option.isSome_iff_exists.mp
    (show ((State.init .zero : State Bool).run contend).isSome = true by decide)
  refine ⟨s, hs, ?_, gil_handed_over (Reach.run .init hs)⟩
  have : ((State.init .zero : State Bool).run contend).map (fun s => s.gil.queue) = some [true] := by decide
  rw [hs] at this
  exact some.inj this

end Lunaria.Dvm.Gil
