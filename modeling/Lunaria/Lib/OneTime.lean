import Mathlib.Logic.Function.Basic
import Mathlib.Logic.Relation

/-! One-time initialisation guarded by a word. A caller reads the word and, by what it sees, is told that the work is done,
    tries to take the work, marks the word for sleepers, or goes to sleep if the word still has a given value. Who has the
    work ends it by an exchange, with or without success, and wakes the sleepers where the old value asks for it. A protocol
    says what a caller does with each value; any number of threads take their steps in any order. -/

namespace Lunaria.OneTime

open Function

/-- What a caller does with the value it has seen. -/
inductive Move (W : Type) where
  | told
  | take (expected new : W)
  | mark (expected new : W)
  | sleep (w : W)

/-- Where a thread is: outside, about to read the word, holding a value that it read, about to sleep on a value, asleep, at
    the work, about to wake the others, or back because it was told that the work is done. -/
inductive Pc (W : Type) where
  | outside
  | load
  | seen (v : W)
  | doze (v : W)
  | asleep
  | inside
  | waking
  | back

structure Protocol (W : Type) where
  free : W
  done : W
  move : W → Move W
  /-- Where a compare and swap that failed leads, by the value that it found. -/
  missed : W → Pc W
  /-- A compare and swap may fail though the value is the expected one. -/
  weak : Bool
  /-- Who ends the work wakes the others if the old value is such. -/
  wakes : W → Bool
  /-- The work can be ended without success. -/
  aborts : Bool

/-- The word and the threads. Beside these, the history: the work was ended with success, how often it was taken, and how
    often it was ended. -/
structure State (W T : Type) where
  word : W
  pc : T → Pc W
  finished : Bool
  taken : Nat
  ended : Nat

variable {W T : Type} [DecidableEq T]

def State.go (s : State W T) (t : T) (p : Pc W) : State W T := { s with pc := update s.pc t p }

/-- The sleepers are woken and read the word again. -/
def wakeAll (pc : T → Pc W) (u : T) : Pc W :=
  match pc u with
  | .asleep => .load
  | p => p

/-- One step of thread `t`. -/
inductive Step (P : Protocol W) (t : T) : State W T → State W T → Prop
  | call {s : State W T} : s.pc t = .outside ∨ s.pc t = .back → Step P t s (s.go t .load)
  | load {s : State W T} : s.pc t = .load → Step P t s (s.go t (.seen s.word))
  | told {s : State W T} {v : W} : s.pc t = .seen v → P.move v = .told → Step P t s (s.go t .back)
  | take {s : State W T} {v n : W} : s.pc t = .seen v → P.move v = .take s.word n →
      Step P t s { s.go t .inside with word := n, taken := s.taken + 1 }
  | mark {s : State W T} {v n : W} : s.pc t = .seen v → P.move v = .mark s.word n →
      Step P t s { s.go t (.doze n) with word := n }
  | miss {s : State W T} {v e n : W} : s.pc t = .seen v → P.move v = .take e n ∨ P.move v = .mark e n →
      s.word ≠ e ∨ P.weak = true → Step P t s (s.go t (P.missed s.word))
  | drowse {s : State W T} {v w : W} : s.pc t = .seen v → P.move v = .sleep w → Step P t s (s.go t (.doze w))
  | sleep {s : State W T} : s.pc t = .doze s.word → Step P t s (s.go t .asleep)
  | refuse {s : State W T} {v : W} : s.pc t = .doze v → s.word ≠ v → Step P t s (s.go t .load)
  | stir {s : State W T} : s.pc t = .asleep → Step P t s (s.go t .load)
  | finish {s : State W T} : s.pc t = .inside →
      Step P t s { s.go t (if P.wakes s.word then .waking else .outside) with
        word := P.done, finished := true, ended := s.ended + 1 }
  | abort {s : State W T} : P.aborts = true → s.pc t = .inside →
      Step P t s { s.go t (if P.wakes s.word then .waking else .outside) with word := P.free, ended := s.ended + 1 }
  | wake {s : State W T} : s.pc t = .waking →
      Step P t s { s with pc := wakeAll (update s.pc t .outside) }

def start (P : Protocol W) : State W T := ⟨P.free, fun _ => .outside, false, 0, 0⟩

/-- The states that the threads reach from the start, in any order of their steps. -/
def Reach (P : Protocol W) : State W T → Prop := Relation.ReflTransGen (fun s s' => ∃ t, Step P t s s') (start P)

/-- What a protocol has to keep to. `busy` is the word while someone is at the work, `waited` the word while others may
    sleep. -/
structure Lawful (P : Protocol W) (busy waited : W) : Prop where
  apart : P.free ≠ busy ∧ P.free ≠ waited ∧ P.free ≠ P.done ∧ busy ≠ P.done ∧ waited ≠ P.done
  wakes : P.wakes waited = true
  move_free : P.move P.free = .take P.free busy
  move_busy : P.move busy = .mark busy waited ∨ P.move busy = .take P.free busy
  move_waited : P.move waited = .sleep waited ∨ P.move waited = .take P.free busy
  move_done : P.move P.done = .told
  missed : ∀ w, P.missed w = .seen w ∨ P.missed w = .load ∨ w = waited ∧ P.missed w = .doze w

/-- The word is one of the four. -/
def Known (P : Protocol W) (busy waited : W) (w : W) : Prop := w = P.free ∨ w = busy ∨ w = waited ∨ w = P.done

structure Inv (P : Protocol W) (busy waited : W) (s : State W T) : Prop where
  word : Known P busy waited s.word
  done : s.finished = true ↔ s.word = P.done
  inside : ∀ t, s.pc t = .inside → s.word = busy ∨ s.word = waited
  alone : ∀ t u, s.pc t = .inside → s.pc u = .inside → t = u
  held : s.word = busy ∨ s.word = waited → (∃ t, s.pc t = .inside) ∧ s.taken = s.ended + 1
  idle : ¬ (s.word = busy ∨ s.word = waited) → s.taken = s.ended
  seen : ∀ t v, s.pc t = .seen v → Known P busy waited v ∧ (v = P.done → s.finished = true)
  doze : ∀ t v, s.pc t = .doze v → v = waited
  back : ∀ t, s.pc t = .back → s.finished = true
  asleep : ∀ t, s.pc t = .asleep → s.word = waited ∨ ∃ u, s.pc u = .waking

section Step
variable {P : Protocol W} {busy waited : W} {s s' : State W T} {t u : T} {v : W}

omit [DecidableEq T] in
/-- What a caller can do with a value that the word can have. -/
theorem Lawful.move_cases (hP : Lawful P busy waited) (hv : Known P busy waited v) :
    P.move v = .take P.free busy ∨ v = busy ∧ P.move v = .mark busy waited ∨ v = waited ∧ P.move v = .sleep waited ∨
      v = P.done ∧ P.move v = .told := by
  rcases hv with rfl | rfl | rfl | rfl
  · exact .inl hP.move_free
  · rcases hP.move_busy with h | h
    · exact .inr (.inl ⟨rfl, h⟩)
    · exact .inl h
  · rcases hP.move_waited with h | h
    · exact .inr (.inr (.inl ⟨rfl, h⟩))
    · exact .inl h
  · exact .inr (.inr (.inr ⟨rfl, hP.move_done⟩))

theorem go_self (p : Pc W) : (s.go t p).pc t = p := update_self ..

theorem go_other (p : Pc W) (h : u ≠ t) : (s.go t p).pc u = s.pc u := update_of_ne h ..

/-- Where a thread is after one thread moved on. -/
theorem go_cases {p q : Pc W} (h : (s.go t p).pc u = q) : u = t ∧ p = q ∨ u ≠ t ∧ s.pc u = q := by
  by_cases hu : u = t
  · subst hu
    exact .inl ⟨rfl, (go_self p).symm.trans h⟩
  · exact .inr ⟨hu, (go_other p hu).symm.trans h⟩

theorem go_exists {p q : Pc W} (h : ∃ u, s.pc u = q) (ht : s.pc t ≠ q) : ∃ u, (s.go t p).pc u = q := by
  obtain ⟨u, hu⟩ := h
  have hne : u ≠ t := by
    rintro rfl
    exact ht hu
  exact ⟨u, (go_other p hne).trans hu⟩

/-- A thread that is neither at the work nor about to wake the others moves on, and the word stays as it is. -/
theorem Inv.go (h : Inv P busy waited s) {p : Pc W} (hin : s.pc t ≠ .inside) (hwake : s.pc t ≠ .waking) (hp : p ≠ .inside)
    (hseen : ∀ v, p = .seen v → Known P busy waited v ∧ (v = P.done → s.finished = true))
    (hdoze : ∀ v, p = .doze v → v = waited)
    (hback : p = .back → s.finished = true) (hsleep : p = .asleep → s.word = waited) : Inv P busy waited (s.go t p) where
  word := h.word
  done := h.done
  inside u hu := by
    obtain ⟨-, rfl⟩ | ⟨-, hu⟩ := go_cases hu
    · exact absurd rfl hp
    · exact h.inside u hu
  alone u w hu hw := by
    obtain ⟨-, rfl⟩ | ⟨-, hu⟩ := go_cases hu
    · exact absurd rfl hp
    obtain ⟨-, rfl⟩ | ⟨-, hw⟩ := go_cases hw
    · exact absurd rfl hp
    exact h.alone u w hu hw
  held hw := ⟨go_exists (h.held hw).1 hin, (h.held hw).2⟩
  idle := h.idle
  seen u v hu := by
    obtain ⟨-, hpv⟩ | ⟨-, hu⟩ := go_cases hu
    · exact hseen v hpv
    · exact h.seen u v hu
  doze u v hu := by
    obtain ⟨-, hpv⟩ | ⟨-, hu⟩ := go_cases hu
    · exact hdoze v hpv
    · exact h.doze u v hu
  back u hu := by
    obtain ⟨-, hpv⟩ | ⟨-, hu⟩ := go_cases hu
    · exact hback hpv
    · exact h.back u hu
  asleep u hu := by
    obtain ⟨-, hpv⟩ | ⟨-, hu⟩ := go_cases hu
    · exact .inl (hsleep hpv)
    · exact (h.asleep u hu).imp_right fun hex => go_exists hex hwake

theorem Inv.take (hP : Lawful P busy waited) (h : Inv P busy waited s) (hpc : s.pc t = .seen v) (hfree : s.word = P.free) :
    Inv P busy waited { s.go t .inside with word := busy, taken := s.taken + 1 } := by
  obtain ⟨hfb, hfw, hfd, hbd, -⟩ := hP.apart
  have hnone : ∀ u, s.pc u ≠ .inside := by
    intro u hu
    rcases h.inside u hu with hw | hw
    · exact hfb (hfree.symm.trans hw)
    · exact hfw (hfree.symm.trans hw)
  have hfin : s.finished ≠ true := fun hf => hfd (hfree.symm.trans (h.done.1 hf))
  refine ⟨.inr (.inl rfl), ?_, fun _ _ => .inl rfl, ?_, fun _ => ?_, fun hno => absurd (.inl rfl) hno, ?_, ?_, ?_, ?_⟩
  · exact ⟨fun hf => absurd hf hfin, fun hw => absurd hw hbd⟩
  · intro u w hu hw
    obtain ⟨rfl, -⟩ | ⟨-, hu⟩ := go_cases hu
    · obtain ⟨rfl, -⟩ | ⟨-, hw⟩ := go_cases hw
      · rfl
      · exact absurd hw (hnone w)
    · exact absurd hu (hnone u)
  · refine ⟨⟨t, go_self _⟩, ?_⟩
    have hidle : ¬ (s.word = busy ∨ s.word = waited) := by
      rw [hfree]
      exact not_or.2 ⟨hfb, hfw⟩
    exact congrArg (· + 1) (h.idle hidle)
  · intro u w hu
    obtain ⟨-, hp⟩ | ⟨-, hu⟩ := go_cases hu
    · cases hp
    · exact h.seen u w hu
  · intro u w hu
    obtain ⟨-, hp⟩ | ⟨-, hu⟩ := go_cases hu
    · cases hp
    · exact h.doze u w hu
  · intro u hu
    obtain ⟨-, hp⟩ | ⟨-, hu⟩ := go_cases hu
    · cases hp
    · exact h.back u hu
  · intro u hu
    obtain ⟨-, hp⟩ | ⟨-, hu⟩ := go_cases hu
    · cases hp
    · rcases h.asleep u hu with hw | hex
      · exact absurd (hfree.symm.trans hw) hfw
      · exact .inr (go_exists hex (by simp [hpc]))

theorem Inv.mark (hP : Lawful P busy waited) (h : Inv P busy waited s) (hpc : s.pc t = .seen v) (hbusy : s.word = busy) :
    Inv P busy waited { s.go t (.doze waited) with word := waited } := by
  obtain ⟨-, -, -, hbd, hwd⟩ := hP.apart
  have hgo : Inv P busy waited (s.go t (.doze waited)) := by
    refine h.go (by simp [hpc]) (by simp [hpc]) (by simp) nofun ?_ nofun nofun
    rintro v ⟨⟩
    rfl
  have hheld := hgo.held (.inl hbusy)
  refine ⟨.inr (.inr (.inl rfl)), ?_, fun _ _ => .inr rfl, hgo.alone, fun _ => hheld, fun hno => absurd (.inr rfl) hno,
    hgo.seen, hgo.doze, hgo.back, fun _ _ => .inl rfl⟩
  have hfin : s.finished ≠ true := fun hf => hbd (hbusy.symm.trans (h.done.1 hf))
  exact ⟨fun hf => absurd hf hfin, fun hw => absurd hw hwd⟩

theorem Inv.leave (hP : Lawful P busy waited) (h : Inv P busy waited s) (hpc : s.pc t = .inside) {w : W} {f : Bool}
    (hw : w = P.done ∧ f = true ∨ w = P.free ∧ f = s.finished) :
    Inv P busy waited { s.go t (if P.wakes s.word then .waking else .outside) with
      word := w, finished := f, ended := s.ended + 1 } := by
  obtain ⟨hfb, hfw, hfd, hbd, hwd⟩ := hP.apart
  have hbusy := h.inside t hpc
  have hnot : s.finished ≠ true := by
    intro hf
    rcases hbusy with hb | hb
    · exact hbd (hb.symm.trans (h.done.1 hf))
    · exact hwd (hb.symm.trans (h.done.1 hf))
  have hidle : ¬ (w = busy ∨ w = waited) := by
    rcases hw with ⟨rfl, -⟩ | ⟨rfl, -⟩
    · exact not_or.2 ⟨hbd.symm, hwd.symm⟩
    · exact not_or.2 ⟨hfb, hfw⟩
  have hmoved : ∀ {q : Pc W}, (if P.wakes s.word then Pc.waking else .outside) = q → q = .waking ∨ q = .outside := by
    rintro q rfl
    split
    · exact .inl rfl
    · exact .inr rfl
  have hgone : ∀ u, (s.go t (if P.wakes s.word then .waking else .outside)).pc u ≠ .inside := by
    intro u hu
    obtain ⟨-, hp⟩ | ⟨hne, hu⟩ := go_cases hu
    · simpa using hmoved hp
    · exact hne (h.alone u t hu hpc)
  refine ⟨?_, ?_, fun u hu => absurd hu (hgone u), fun u _ hu _ => absurd hu (hgone u), fun hb => absurd hb hidle,
    fun _ => (h.held hbusy).2, ?_, ?_, ?_, ?_⟩
  · rcases hw with ⟨rfl, -⟩ | ⟨rfl, -⟩
    · exact .inr (.inr (.inr rfl))
    · exact .inl rfl
  · rcases hw with ⟨rfl, rfl⟩ | ⟨rfl, rfl⟩
    · exact ⟨fun _ => rfl, fun _ => rfl⟩
    · exact ⟨fun hf => absurd hf hnot, fun hd => absurd hd hfd⟩
  · intro u v hu
    obtain ⟨-, hp⟩ | ⟨-, hu⟩ := go_cases hu
    · simpa using hmoved hp
    · exact ⟨(h.seen u v hu).1, fun hv => absurd ((h.seen u v hu).2 hv) hnot⟩
  · intro u v hu
    obtain ⟨-, hp⟩ | ⟨-, hu⟩ := go_cases hu
    · simpa using hmoved hp
    · exact h.doze u v hu
  · intro u hu
    obtain ⟨-, hp⟩ | ⟨-, hu⟩ := go_cases hu
    · simpa using hmoved hp
    · exact absurd (h.back u hu) hnot
  -- who sleeps has marked the word, so that the old value asks for the wake
  · intro u hu
    obtain ⟨-, hp⟩ | ⟨-, hu⟩ := go_cases hu
    · simpa using hmoved hp
    · right
      rcases h.asleep u hu with hwait | hex
      · refine ⟨t, ?_⟩
        rw [show (_ : State W T).pc t = _ from go_self _, hwait, hP.wakes]
        rfl
      · exact go_exists hex (by simp [hpc])

omit [DecidableEq T] in
theorem wakeAll_eq {pc : T → Pc W} {p : Pc W} (hp : p ≠ .load) : wakeAll pc u = p ↔ pc u = p ∧ p ≠ .asleep := by
  unfold wakeAll
  constructor
  · intro h
    split at h
    · exact absurd h.symm hp
    · rename_i hne
      exact ⟨h, fun ha => hne (h.trans ha)⟩
  · rintro ⟨rfl, hne⟩
    split
    · rename_i ha
      exact absurd ha hne
    · rfl

/-- The sleepers are woken. -/
theorem Inv.wake (h : Inv P busy waited s) (hpc : s.pc t = .waking) :
    Inv P busy waited { s with pc := wakeAll (update s.pc t .outside) } := by
  have hcases : ∀ {u : T} {p : Pc W}, wakeAll (update s.pc t .outside) u = p → p ≠ .load → p ≠ .outside →
      s.pc u = p ∧ p ≠ .asleep := by
    intro u p hu hp ho
    obtain ⟨hu, hne⟩ := (wakeAll_eq hp).1 hu
    rcases go_cases (s := s) hu with ⟨-, rfl⟩ | ⟨-, hu⟩
    · exact absurd rfl ho
    · exact ⟨hu, hne⟩
  refine ⟨h.word, h.done, fun u hu => h.inside u (hcases hu nofun nofun).1,
    fun u w hu hw => h.alone u w (hcases hu nofun nofun).1 (hcases hw nofun nofun).1, fun hw => ?_, h.idle,
    fun u v hu => h.seen u v (hcases hu nofun nofun).1, fun u v hu => h.doze u v (hcases hu nofun nofun).1,
    fun u hu => h.back u (hcases hu nofun nofun).1, fun u hu => absurd rfl (hcases hu nofun nofun).2⟩
  obtain ⟨⟨u, hu⟩, hcount⟩ := h.held hw
  refine ⟨⟨u, (wakeAll_eq (p := .inside) nofun).2 ⟨?_, nofun⟩⟩, hcount⟩
  have hne : u ≠ t := by
    rintro rfl
    simp [hpc] at hu
  exact (go_other (s := s) .outside hne).trans hu

theorem Inv.step (hP : Lawful P busy waited) (h : Inv P busy waited s) (hstep : Step P t s s') : Inv P busy waited s' := by
  cases hstep with
  | call hpc =>
    rcases hpc with hpc | hpc <;> exact h.go (by simp [hpc]) (by simp [hpc]) nofun nofun nofun nofun nofun
  | load hpc =>
    refine h.go (by simp [hpc]) (by simp [hpc]) nofun ?_ nofun nofun nofun
    rintro v ⟨⟩
    exact ⟨h.word, h.done.2⟩
  | @told v hpc hmove =>
    obtain ⟨hv, hdone⟩ := h.seen t v hpc
    refine h.go (by simp [hpc]) (by simp [hpc]) nofun nofun nofun (fun _ => ?_) nofun
    rcases hP.move_cases hv with hm | ⟨-, hm⟩ | ⟨-, hm⟩ | ⟨hd, -⟩
    · simp [hm] at hmove
    · simp [hm] at hmove
    · simp [hm] at hmove
    · exact hdone hd
  | @take v n hpc hmove =>
    have hboth : s.word = P.free ∧ n = busy := by
      rcases hP.move_cases (h.seen t v hpc).1 with hm | ⟨-, hm⟩ | ⟨-, hm⟩ | ⟨-, hm⟩ <;> simp [hm] at hmove
      exact ⟨hmove.1.symm, hmove.2.symm⟩
    obtain ⟨hfree, rfl⟩ := hboth
    exact h.take hP hpc hfree
  | @mark v n hpc hmove =>
    have hboth : s.word = busy ∧ n = waited := by
      rcases hP.move_cases (h.seen t v hpc).1 with hm | ⟨-, hm⟩ | ⟨-, hm⟩ | ⟨-, hm⟩ <;> simp [hm] at hmove
      exact ⟨hmove.1.symm, hmove.2.symm⟩
    obtain ⟨hbusy, rfl⟩ := hboth
    exact h.mark hP hpc hbusy
  | miss hpc =>
    have hfound := hP.missed s.word
    refine h.go (by simp [hpc]) (by simp [hpc]) ?_ (fun v hv => ?_) (fun v hv => ?_) ?_ ?_
    · rcases hfound with hm | hm | ⟨-, hm⟩ <;> simp [hm]
    · rcases hfound with hm | hm | ⟨-, hm⟩ <;> simp [hm] at hv
      exact hv ▸ ⟨h.word, h.done.2⟩
    · rcases hfound with hm | hm | ⟨hw, hm⟩ <;> simp [hm] at hv
      exact hv ▸ hw
    · rcases hfound with hm | hm | ⟨-, hm⟩ <;> simp [hm]
    · rcases hfound with hm | hm | ⟨-, hm⟩ <;> simp [hm]
  | @drowse v w hpc hmove =>
    have hw : w = waited := by
      rcases hP.move_cases (h.seen t v hpc).1 with hm | ⟨-, hm⟩ | ⟨-, hm⟩ | ⟨-, hm⟩ <;> simp [hm] at hmove
      exact hmove.symm
    refine h.go (by simp [hpc]) (by simp [hpc]) nofun nofun ?_ nofun nofun
    rintro v ⟨⟩
    exact hw
  | sleep hpc => exact h.go (by simp [hpc]) (by simp [hpc]) nofun nofun nofun nofun fun _ => h.doze t s.word hpc
  | refuse hpc => exact h.go (by simp [hpc]) (by simp [hpc]) nofun nofun nofun nofun nofun
  | stir hpc => exact h.go (by simp [hpc]) (by simp [hpc]) nofun nofun nofun nofun nofun
  | finish hpc => exact h.leave hP hpc (.inl ⟨rfl, rfl⟩)
  | abort _ hpc => exact h.leave hP hpc (.inr ⟨rfl, rfl⟩)
  | wake hpc => exact h.wake hpc

end Step

/-! ### Runs -/

section Runs
variable {P : Protocol W} {busy waited : W} {s s' : State W T} {t : T} {v : W}

omit [DecidableEq T] in
theorem Inv.start (hP : Lawful P busy waited) : Inv P busy waited (start P : State W T) where
  word := .inl rfl
  done := ⟨nofun, fun h => absurd h hP.apart.2.2.1⟩
  inside _ := nofun
  alone _ _ := nofun
  held h := by
    rcases h with h | h
    · exact absurd h hP.apart.1
    · exact absurd h hP.apart.2.1
  idle _ := rfl
  seen _ _ := nofun
  doze _ _ := nofun
  back _ := nofun
  asleep _ := nofun

theorem Reach.inv (hP : Lawful P busy waited) (h : Reach P s) : Inv P busy waited s := by
  induction h with
  | refl => exact .start hP
  | tail _ hstep ih =>
    obtain ⟨t, hstep⟩ := hstep
    exact ih.step hP hstep

/-- Success is never undone. -/
theorem finished_run (h : Relation.ReflTransGen (fun s s' => ∃ t, Step P t s s') s s') (hs : s.finished = true) :
    s'.finished = true := by
  induction h with
  | refl => exact hs
  | tail _ hstep ih =>
    obtain ⟨t, hstep⟩ := hstep
    cases hstep <;> first | exact ih | rfl

omit [DecidableEq T] in
theorem Inv.not_inside (hP : Lawful P busy waited) (h : Inv P busy waited s) (hs : s.finished = true) (t : T) :
    s.pc t ≠ .inside := by
  intro ht
  obtain ⟨-, -, -, hbd, hwd⟩ := hP.apart
  have hdone := h.done.1 hs
  rcases h.inside t ht with hw | hw
  · exact hbd (hw.symm.trans hdone)
  · exact hwd (hw.symm.trans hdone)

/-- A thread that is about to read the word, or holds its value, gets the work if the word is free. -/
theorem solo_of_seen (hP : Lawful P busy waited) (hfree : s.word = P.free) (hpc : s.pc t = .seen P.free) :
    ∃ s', Relation.ReflTransGen (Step P t) s s' ∧ s'.pc t = .inside := by
  have hmove : P.move P.free = .take s.word busy := by rw [hfree, hP.move_free]
  exact ⟨_, .single (.take hpc hmove), go_self _⟩

theorem solo_of_load (hP : Lawful P busy waited) (hfree : s.word = P.free) (hpc : s.pc t = .load) :
    ∃ s', Relation.ReflTransGen (Step P t) s s' ∧ s'.pc t = .inside := by
  have hstep : Step P t s (s.go t (.seen P.free)) := hfree ▸ .load hpc
  obtain ⟨s', hrun, hin⟩ := solo_of_seen hP (s := s.go t (.seen P.free)) hfree (go_self _)
  exact ⟨s', .head hstep hrun, hin⟩

theorem solo_of_doze (hP : Lawful P busy waited) (hfree : s.word = P.free) (hpc : s.pc t = .doze waited) :
    ∃ s', Relation.ReflTransGen (Step P t) s s' ∧ s'.pc t = .inside := by
  have hne : s.word ≠ waited := fun hw => hP.apart.2.1 (hfree.symm.trans hw)
  obtain ⟨s', hrun, hin⟩ := solo_of_load hP (s := s.go t .load) hfree (go_self _)
  exact ⟨s', .head (.refuse hpc hne) hrun, hin⟩

/-- While the word is free, every caller that is not asleep gets the work by its own steps. -/
theorem Inv.solo (hP : Lawful P busy waited) (h : Inv P busy waited s) (hfree : s.word = P.free)
    (hpc : s.pc t = .load ∨ (∃ v, s.pc t = .seen v) ∨ ∃ v, s.pc t = .doze v) :
    ∃ s', Relation.ReflTransGen (Step P t) s s' ∧ s'.pc t = .inside := by
  obtain ⟨hfb, hfw, hfd, -⟩ := hP.apart
  rcases hpc with hpc | ⟨v, hpc⟩ | ⟨v, hpc⟩
  · exact solo_of_load hP hfree hpc
  · obtain ⟨hv, hdone⟩ := h.seen t v hpc
    rcases hP.move_cases hv with hm | ⟨-, hm⟩ | ⟨-, hm⟩ | ⟨hd, -⟩
    · exact ⟨_, .single (.take hpc (hfree ▸ hm)), go_self _⟩
    · have hne : s.word ≠ busy := fun hw => hfb (hfree.symm.trans hw)
      have hmiss : Step P t s (s.go t (P.missed s.word)) := .miss hpc (.inr hm) (.inl hne)
      have hstep : ∀ {p : Pc W}, P.missed s.word = p → Step P t s (s.go t p) := fun hp => hp ▸ hmiss
      rcases hP.missed s.word with hp | hp | ⟨hw, -⟩
      · rw [hfree] at hp
        obtain ⟨s', hrun, hin⟩ := solo_of_seen hP (s := s.go t (.seen P.free)) hfree (go_self _)
        exact ⟨s', .head (hstep (hfree ▸ hp)) hrun, hin⟩
      · obtain ⟨s', hrun, hin⟩ := solo_of_load hP (s := s.go t .load) hfree (go_self _)
        exact ⟨s', .head (hstep hp) hrun, hin⟩
      · exact absurd (hfree.symm.trans hw) hfw
    · obtain ⟨s', hrun, hin⟩ := solo_of_doze hP (s := s.go t (.doze waited)) hfree (go_self _)
      exact ⟨s', .head (.drowse hpc hm) hrun, hin⟩
    · exact absurd (hfree.symm.trans (h.done.1 (hdone hd))) hfd
  · obtain rfl := h.doze t v hpc
    exact solo_of_doze hP hfree hpc

end Runs

end Lunaria.OneTime
