import Lunaria.Lib.OneTime

/-! One-time initialisation in the guest: `luna_guest_pthread_once` and the two pairs of `__cxa_guard` functions, the
    freestanding one of the loader and the one of `liblunaria_guest`. Each is a protocol on one word. An access to the
    word is a step; the kernel compares the word and puts the caller to sleep in one step, a sleeper may come back by
    itself, and a wake takes all sleepers (there are fewer than 2^31 threads). -/

namespace Lunaria.Guest.Once
open OneTime

/-- `luna_guest_pthread_once`. Whatever value other than 2 it has read, it tries to change 0 to 1, and sleeps if it finds 1. -/
def pthreadOnce : Protocol UInt32 where
  free := 0
  done := 2
  move state := if state = 2 then .told else .take 0 1
  missed expected := if expected = 1 then .doze 1 else .load
  weak := true
  wakes _ := true
  aborts := false

/-- `luna_guest_cxa_guard_acquire` and `luna_guest_cxa_guard_finish`. -/
def cxaGuard : Protocol UInt32 where
  free := 0
  done := 0x101
  move state :=
    if state &&& 0xff ≠ 0 ∨ state &&& 0x100 ≠ 0 then .told
    else if state &&& 0x200 = 0 then .take state 0x200
    else if state &&& 0x400 = 0 then .mark state (state ||| 0x400)
    else .sleep state
  missed state := .seen state
  weak := true
  wakes state := state &&& 0x400 ≠ 0
  aborts := true

def guardBusy : UInt32 := 0x100

def guardBusyWait : UInt32 := 0x200

/-- `__cxa_guard_acquire`, `__cxa_guard_release` and `__cxa_guard_abort`. -/
def libGuard : Protocol UInt32 where
  free := 0
  done := 1
  move v :=
    if v &&& 0xff ≠ 0 then .told
    else if v = 0 then .take v guardBusy
    else if v = guardBusy then .mark v guardBusyWait
    else .sleep guardBusyWait
  missed v := .seen v
  weak := false
  wakes v := v = guardBusyWait
  aborts := true

inductive Variant where
  | pthreadOnce
  | cxaGuard
  | libGuard
deriving DecidableEq

def Variant.protocol : Variant → Protocol UInt32
  | .pthreadOnce => Once.pthreadOnce
  | .cxaGuard => Once.cxaGuard
  | .libGuard => Once.libGuard

/-- The words while someone is in the initialiser: without sleepers, and with. `pthread_once` has one word for both. -/
def Variant.words : Variant → UInt32 × UInt32
  | .pthreadOnce => (1, 1)
  | .cxaGuard => (0x200, 0x600)
  | .libGuard => (guardBusy, guardBusyWait)

def Variant.Busy (k : Variant) (w : UInt32) : Prop := w = k.words.1 ∨ w = k.words.2

theorem Variant.lawful : ∀ k : Variant, Lawful k.protocol k.words.1 k.words.2
  | .pthreadOnce => {
    apart := by decide
    wakes := rfl
    move_free := rfl
    move_busy := .inr rfl
    move_waited := .inr rfl
    move_done := rfl
    missed := by
      intro w
      by_cases hw : w = 1
      · exact .inr (.inr ⟨hw, by simp [protocol, Once.pthreadOnce, hw]⟩)
      · exact .inr (.inl (if_neg hw)) }
  | .cxaGuard => {
    apart := by decide
    wakes := rfl
    move_free := rfl
    move_busy := .inl rfl
    move_waited := .inl rfl
    move_done := rfl
    missed := fun _ => .inl rfl }
  | .libGuard => {
    apart := by decide
    wakes := rfl
    move_free := rfl
    move_busy := .inl rfl
    move_waited := .inl rfl
    move_done := rfl
    missed := fun _ => .inl rfl }

section
variable {T : Type} [DecidableEq T] {k : Variant} {s : State UInt32 T}

/-- In every state that any number of threads reach: at most one is in the initialiser; after a finish with success nobody
    enters it, now or later; who is told that it is done is told so after the finish; each time the word is free after an
    abort (or at the start) exactly one caller gets the initialiser until the next finish or abort, and every caller that is
    not asleep gets it if it goes on; and nobody sleeps once the word is not busy and the wakes were issued. -/
theorem initialised_once (h : Reach k.protocol s) :
    (∀ t u, s.pc t = .inside → s.pc u = .inside → t = u) ∧
    (s.finished = true → ∀ s', Relation.ReflTransGen (fun s s' => ∃ t, Step k.protocol t s s') s s' →
      ∀ t, s'.pc t ≠ .inside) ∧
    (∀ t, s.pc t = .back → s.finished = true) ∧
    ((k.Busy s.word → s.taken = s.ended + 1) ∧ (¬ k.Busy s.word → s.taken = s.ended)) ∧
    (s.word = k.protocol.free → ∀ t, s.pc t = .load ∨ (∃ v, s.pc t = .seen v) ∨ (∃ v, s.pc t = .doze v) →
      ∃ s', Relation.ReflTransGen (Step k.protocol t) s s' ∧ s'.pc t = .inside) ∧
    (¬ k.Busy s.word → (∀ t, s.pc t ≠ .waking) → ∀ t, s.pc t ≠ .asleep) := by
  have hP := k.lawful
  have hinv := Reach.inv hP h
  refine ⟨hinv.alone, fun hs s' hrun => ?_, hinv.back, ⟨fun hb => (hinv.held hb).2, hinv.idle⟩,
    fun hf t => hinv.solo hP hf, ?_⟩
  · exact (Reach.inv hP (h.trans hrun)).not_inside hP (finished_run hrun hs)
  · intro hidle hwoken t ht
    rcases hinv.asleep t ht with hw | ⟨u, hu⟩
    · exact hidle (.inr hw)
    · exact hwoken u hu

/-- The first of two callers is in the initialiser, and the second has read the word. -/
theorem initialised_once_two : ∃ s : State UInt32 (Fin 2), Reach Variant.libGuard.protocol s ∧ s.pc 0 = .inside ∧
    s.pc 1 = .seen guardBusy ∧ ∀ t u, s.pc t = .inside → s.pc u = .inside → t = u := by
  have hfirst : Reach Variant.libGuard.protocol (_ : State UInt32 (Fin 2)) :=
    ((Relation.ReflTransGen.refl.tail ⟨0, .call (.inl rfl)⟩).tail ⟨0, .load rfl⟩).tail ⟨0, .take (n := guardBusy) rfl rfl⟩
  have hreach := (hfirst.tail ⟨1, .call (.inl rfl)⟩).tail ⟨1, .load rfl⟩
  exact ⟨_, hreach, rfl, rfl, (initialised_once (k := .libGuard) hreach).1⟩

end

end Lunaria.Guest.Once
