import Mathlib.Data.Fintype.Option
import Lunaria.Guest.Cond

/-! No signal is lost. The invariant ties the state word to the number of bumps and each sampled value to the
    bumps at its sampling. A thread falls asleep only with an unchanged word, so with what the newest generation
    is; the sleepers are therefore sorted by generation, and the one that has slept longest is one that a signal has
    to reach. The kernel may wake another in its place, one that fell asleep between the signal's bump and its wake. -/

namespace Lunaria.Guest.Cond
open Word List Function Option

variable {T : Type} [DecidableEq T] {flags : Nat} {s s' : State T} {t : T} {pc : Pc} {kind : Kind}

/-- The state word after `n` bumps. -/
def wordAt (flags n : Nat) : Nat := (flags + 4 * n) % 2 ^ 32

theorem wordAt_succ (flags n : Nat) : add 32 (wordAt flags n) 4 = wordAt flags (n + 1) := by
  unfold add wordAt
  omega

/-- Within `2 ^ 30` bumps the word does not come back to an old value. -/
theorem wordAt_inj {n k : Nat} (hle : k ≤ n) (hfew : n < k + 2 ^ 30) (heq : wordAt flags n = wordAt flags k) : n = k := by
  unfold wordAt at heq
  omega

/-- What one thread's place says about the mutex it waits with, the value it sampled and the bump it made. -/
def ThreadOk (flags : Nat) (s : State T) (t : T) : Prop :=
  match s.pc t with
  | .enter m _ | .sample m | .returned m _ => s.owner m = some t
  | .count m seq | .unlock m seq => s.owner m = some t ∧ seq = wordAt flags (s.sampled t) ∧ s.sampled t ≤ s.bumps
  | .futex _ seq | .asleep _ seq => seq = wordAt flags (s.sampled t) ∧ s.sampled t ≤ s.bumps
  | .load _ | .wake _ => s.gen t ≤ s.bumps
  | _ => True

/-- The queue holds the sleepers, each once, in the order of what they sampled. -/
structure QueueOk (s : State T) : Prop where
  mem : ∀ t, t ∈ s.queue ↔ (s.pc t).isAsleep = true
  nodup : s.queue.Nodup
  sorted : s.queue.Pairwise fun t u => s.sampled t ≤ s.sampled u

/-- No sleeper sampled before the generation `g`. -/
def Reached (s : State T) (g : Nat) : Prop := ∀ t, (s.pc t).isAsleep = true → g ≤ s.sampled t

/-- The kernel woke a thread in place of the one that had slept longest. -/
def Wake.PassesOver (d : Wake T) : Prop := ∃ p ∈ d.woken, d.asleep.head? ≠ some p

/-- A finished wake took a thread that had sampled before its bump, or left none of them asleep, or the kernel passed
    over the thread that had slept longest; a broadcast left none of them asleep. -/
def DoneOk (s : State T) (d : Wake T) : Prop :=
  d.gen ≤ s.bumps ∧ (Reached s d.gen ∨ (d.kind = .signal ∧ ((∃ p ∈ d.woken, p.2 < d.gen) ∨ d.PassesOver)))

/-! ### What a step of one thread leaves alone -/

section Frame

omit [DecidableEq T] in
/-- A thread is not concerned by a step that keeps its place, its values and its mutexes. -/
theorem ThreadOk.frame {u : T} (h : ThreadOk flags s u) (hpc : s'.pc u = s.pc u) (hsampled : s'.sampled u = s.sampled u)
    (hgen : s'.gen u = s.gen u) (hbumps : s.bumps ≤ s'.bumps) (howner : ∀ m, s.owner m = some u → s'.owner m = some u) :
    ThreadOk flags s' u := by
  unfold ThreadOk at *
  rw [hpc, hsampled, hgen]
  cases hu : s.pc u <;> rw [hu] at h <;> dsimp only at h ⊢
  case enter => exact howner _ h
  case sample => exact howner _ h
  case returned => exact howner _ h
  case count => exact ⟨howner _ h.1, h.2.1, Nat.le_trans h.2.2 hbumps⟩
  case unlock => exact ⟨howner _ h.1, h.2.1, Nat.le_trans h.2.2 hbumps⟩
  case futex => exact ⟨h.1, Nat.le_trans h.2 hbumps⟩
  case asleep => exact ⟨h.1, Nat.le_trans h.2 hbumps⟩
  case load => exact Nat.le_trans h hbumps
  case wake => exact Nat.le_trans h hbumps

omit [DecidableEq T] in
theorem QueueOk.frame (h : QueueOk s) (hqueue : s'.queue = s.queue) (hasleep : ∀ u, (s'.pc u).isAsleep = (s.pc u).isAsleep)
    (hsampled : ∀ u, (s.pc u).isAsleep = true → s'.sampled u = s.sampled u) : QueueOk s' := by
  refine ⟨fun u => by rw [hqueue, hasleep]; exact h.mem u, by rw [hqueue]; exact h.nodup, ?_⟩
  rw [hqueue]
  refine h.sorted.imp_of_mem fun {u v} hu hv hle => ?_
  rw [hsampled u ((h.mem u).mp hu), hsampled v ((h.mem v).mp hv)]
  exact hle

omit [DecidableEq T] in
theorem DoneOk.frame {d : Wake T} (h : DoneOk s d) (hbumps : s.bumps ≤ s'.bumps)
    (hasleep : ∀ u, (s'.pc u).isAsleep = true → d.gen ≤ s'.sampled u ∨ (s.pc u).isAsleep = true ∧
      s'.sampled u = s.sampled u) :
    DoneOk s' d := by
  refine ⟨Nat.le_trans h.1 hbumps, h.2.imp_left fun hreached u hu => ?_⟩
  rcases hasleep u hu with hle | ⟨hold, heq⟩
  · exact hle
  · rw [heq]
    exact hreached u hold

@[simp] theorem goto_pc_self : (s.goto t pc).pc t = pc := update_self ..
@[simp] theorem goto_owner : (s.goto t pc).owner = s.owner := (rfl)
@[simp] theorem goto_sampled : (s.goto t pc).sampled = s.sampled := (rfl)
@[simp] theorem goto_gen : (s.goto t pc).gen = s.gen := (rfl)
@[simp] theorem goto_bumps : (s.goto t pc).bumps = s.bumps := (rfl)

theorem goto_pc_of_ne {u : T} (h : u ≠ t) : (s.goto t pc).pc u = s.pc u := update_of_ne h ..

/-- The sleepers are those of before when the thread neither was asleep nor is. -/
theorem isAsleep_goto {p : Pc} (hold : (s.pc t).isAsleep = false) (hnew : p.isAsleep = false) (u : T) :
    ((s.goto t p).pc u).isAsleep = (s.pc u).isAsleep := by
  by_cases hu : u = t
  · rw [hu, goto_pc_self, hold, hnew]
  · rw [goto_pc_of_ne hu]

omit [DecidableEq T] in
/-- A mutex that another thread holds is not touched by a change of a free one or of one's own. -/
theorem setOwner_keeps {m k : Nat} {o : Option T} {u : T} (hm : s.owner m ≠ some u) (hk : s.owner k = some u) :
    (s.setOwner m o).owner k = some u := by
  refine (update_of_ne (fun heq => ?_) ..).trans hk
  exact hm (heq ▸ hk)

end Frame

variable [Fintype T]

/-- The threads between their increment and their decrement of `waiters`. -/
def counted (s : State T) : Finset T := Finset.univ.filter fun t => (s.pc t).counted = true

structure Inv (flags : Nat) (s : State T) : Prop where
  word : s.word = wordAt flags s.bumps
  waiters : s.waiters = (counted s).card
  thread : ∀ t, ThreadOk flags s t
  queue : QueueOk s
  done : ∀ d ∈ s.done, DoneOk s d

/-! ### The count of waiters -/

section Counted

omit [DecidableEq T] in
theorem counted_congr (h : s'.pc = s.pc) : counted s' = counted s := by
  unfold counted
  rw [h]

omit [DecidableEq T] in
theorem mem_counted : t ∈ counted s ↔ (s.pc t).counted = true := by simp [counted]

theorem counted_goto_same (h : pc.counted = (s.pc t).counted) : counted (s.goto t pc) = counted s := by
  refine Finset.filter_congr fun u _ => ?_
  by_cases hu : u = t
  · rw [hu, goto_pc_self, h]
  · rw [goto_pc_of_ne hu]

theorem counted_goto_insert (h : pc.counted = true) : counted (s.goto t pc) = insert t (counted s) := by
  ext u
  by_cases hu : u = t
  · simp [mem_counted, hu, h]
  · simp [mem_counted, goto_pc_of_ne hu, hu]

theorem counted_goto_erase {p : Pc} (h : p.counted = false) : counted (s.goto t p) = (counted s).erase t := by
  ext u
  by_cases hu : u = t
  · simp [mem_counted, hu, h]
  · simp [mem_counted, goto_pc_of_ne hu, hu]

omit [DecidableEq T] in
theorem counted_card_le : (counted s).card ≤ Fintype.card T := Finset.card_le_univ _

end Counted

/-! ### One step -/

section Step

/-- A thread moves to another place, awake before and after; at most its own mutex changes hands with it. -/
theorem Inv.move (h : Inv flags s) {r : State T} (hrest : (r.word, r.pc, r.queue, r.bumps, r.sampled, r.gen, r.done) =
      (s.word, s.pc, s.queue, s.bumps, s.sampled, s.gen, s.done)) (hold : (s.pc t).isAsleep = false)
    (hnew : pc.isAsleep = false) (howner : ∀ u, u ≠ t → ∀ m, s.owner m = some u → r.owner m = some u)
    (hwaiters : r.waiters = (counted (r.goto t pc)).card) (hthread : ThreadOk flags (r.goto t pc) t) :
    Inv flags (r.goto t pc) := by
  simp only [Prod.mk.injEq] at hrest
  obtain ⟨hword, hpc, hqueue, hbumps, hsampled, hgen, hdone⟩ := hrest
  have hasleep : ∀ u, ((r.goto t pc).pc u).isAsleep = (s.pc u).isAsleep := fun u =>
    (isAsleep_goto (by rw [hpc]; exact hold) hnew u).trans (by rw [hpc])
  refine ⟨?_, hwaiters, fun u => ?_, h.queue.frame hqueue hasleep fun u _ => congrFun hsampled u, fun d hd => ?_⟩
  · show r.word = wordAt flags r.bumps
    rw [hword, hbumps]
    exact h.word
  · by_cases hu : u = t
    · rw [hu]
      exact hthread
    · exact (h.thread u).frame ((goto_pc_of_ne hu).trans (by rw [hpc])) (congrFun hsampled u) (congrFun hgen u)
        (Nat.le_of_eq hbumps.symm) (howner u hu)
  · exact (h.done d (hdone ▸ hd)).frame (Nat.le_of_eq hbumps.symm) fun u hu => .inr ⟨hasleep u ▸ hu, congrFun hsampled u⟩

omit [DecidableEq T] in
/-- The program's own locking and unlocking. -/
theorem Inv.setOwner {m : Nat} {o : Option T} (h : Inv flags s)
    (howner : ∀ u, (s.pc u) ≠ .outside → ∀ k, s.owner k = some u → (s.setOwner m o).owner k = some u) :
    Inv flags (s.setOwner m o) := by
  refine ⟨h.word, h.waiters, fun u => ?_, h.queue.frame rfl (fun _ => rfl) fun _ _ => rfl, fun d hd =>
    (h.done d hd).frame le_rfl fun u hu => .inr ⟨hu, rfl⟩⟩
  by_cases hu : s.pc u = .outside
  · have hpc : (s.setOwner m o).pc u = .outside := hu
    unfold ThreadOk
    rw [hpc]
    trivial
  · exact (h.thread u).frame rfl rfl rfl le_rfl (howner u hu)

theorem Inv.sample {m : Nat} (h : Inv flags s) (hpc : s.pc t = .sample m) :
    Inv flags ({ s with sampled := update s.sampled t s.bumps }.goto t (.count m s.word)) := by
  have hasleep := isAsleep_goto (s := { s with sampled := update s.sampled t s.bumps }) (t := t)
    (p := .count m s.word) (by rw [hpc]; rfl) rfl
  have hsampled : ∀ u, (s.pc u).isAsleep = true → update s.sampled t s.bumps u = s.sampled u := fun u hu =>
    update_of_ne (fun heq => by simp [heq, hpc, Pc.isAsleep] at hu) ..
  have hthread := h.thread t
  unfold ThreadOk at hthread
  rw [hpc] at hthread
  refine ⟨h.word, ?_, fun u => ?_, h.queue.frame rfl hasleep hsampled, fun d hd => (h.done d hd).frame le_rfl fun u hu =>
    .inr ⟨hasleep u ▸ hu, hsampled u (hasleep u ▸ hu)⟩⟩
  · rw [counted_goto_same (by rw [hpc]; rfl)]
    exact h.waiters
  · by_cases hu : u = t
    · subst hu
      simp only [ThreadOk, goto_pc_self]
      refine ⟨hthread, ?_⟩
      show s.word = wordAt flags (update s.sampled u s.bumps u) ∧ update s.sampled u s.bumps u ≤ s.bumps
      rw [update_self]
      exact ⟨h.word, le_rfl⟩
    · exact (h.thread u).frame (goto_pc_of_ne hu) (update_of_ne hu ..) rfl le_rfl fun m hm => hm

/-- A thread falls asleep only with the newest generation: the comparison of the words decides that. -/
theorem Inv.sleep {m seq : Nat} (h : Inv flags s) (hpc : s.pc t = .futex m seq) (hword : s.word = seq)
    (hfew : s.bumps < s.sampled t + 2 ^ 30) : Inv flags ({ s with queue := s.queue ++ [t] }.goto t (.asleep m seq)) := by
  have hthread := h.thread t
  unfold ThreadOk at hthread
  rw [hpc] at hthread
  obtain ⟨hseq, hle⟩ := hthread
  have hnewest : s.bumps = s.sampled t := wordAt_inj hle hfew (h.word.symm.trans (hword.trans hseq))
  have hout : t ∉ s.queue := fun hmem => by simpa [hpc, Pc.isAsleep] using (h.queue.mem t).mp hmem
  have hbelow : ∀ u ∈ s.queue, s.sampled u ≤ s.bumps := by
    intro u hu
    have hthread := h.thread u
    have hasleep := (h.queue.mem u).mp hu
    unfold ThreadOk at hthread
    cases hpcu : s.pc u <;> simp [hpcu, Pc.isAsleep] at hasleep
    rw [hpcu] at hthread
    exact hthread.2
  refine ⟨h.word, ?_, fun u => ?_, ⟨fun u => ?_, ?_, ?_⟩, fun d hd => ?_⟩
  · rw [counted_goto_same (by rw [hpc]; rfl)]
    exact h.waiters
  · by_cases hu : u = t
    · subst hu
      simp only [ThreadOk, goto_pc_self]
      exact ⟨hseq, hle⟩
    · exact (h.thread u).frame (goto_pc_of_ne hu) rfl rfl le_rfl fun m hm => hm
  · show u ∈ s.queue ++ [t] ↔ _
    by_cases hu : u = t
    · subst hu
      simp [Pc.isAsleep]
    · rw [goto_pc_of_ne hu]
      simpa [hu] using h.queue.mem u
  · exact nodup_append.mpr ⟨h.queue.nodup, by simp, fun u hu v hv heq =>
      hout (by rw [← mem_singleton.mp hv, ← heq]; exact hu)⟩
  · refine pairwise_append.mpr ⟨h.queue.sorted, by simp, fun u hu v hv => ?_⟩
    rw [mem_singleton.mp hv]
    show s.sampled u ≤ s.sampled t
    rw [← hnewest]
    exact hbelow u hu
  · refine (h.done d hd).frame le_rfl fun u hu => ?_
    by_cases heq : u = t
    · refine .inl ?_
      show d.gen ≤ s.sampled u
      rw [heq, ← hnewest]
      exact (h.done d hd).1
    · rw [goto_pc_of_ne heq] at hu
      exact .inr ⟨hu, rfl⟩

theorem Inv.bump (h : Inv flags s) (hpc : s.pc t = .bump kind) :
    Inv flags ({ s with
      word := add 32 s.word 4
      bumps := s.bumps + 1
      gen := update s.gen t (s.bumps + 1) }.goto t (.load kind)) := by
  have hasleep := isAsleep_goto (s := { s with
      word := add 32 s.word 4
      bumps := s.bumps + 1
      gen := update s.gen t (s.bumps + 1) }) (t := t) (p := .load kind) (by rw [hpc]; rfl) rfl
  refine ⟨?_, ?_, fun u => ?_, h.queue.frame rfl hasleep fun _ _ => rfl, fun d hd =>
    (h.done d hd).frame (Nat.le_succ _) fun u hu => .inr ⟨hasleep u ▸ hu, rfl⟩⟩
  · show add 32 s.word 4 = wordAt flags (s.bumps + 1)
    rw [h.word, wordAt_succ]
  · rw [counted_goto_same (by rw [hpc]; rfl)]
    exact h.waiters
  · by_cases hu : u = t
    · subst hu
      simp only [ThreadOk, goto_pc_self]
      show update s.gen u (s.bumps + 1) u ≤ s.bumps + 1
      rw [update_self]
    · exact (h.thread u).frame (goto_pc_of_ne hu) rfl (update_of_ne hu ..) (Nat.le_succ _) fun m hm => hm

theorem Inv.skip (h : Inv flags s) (hpc : s.pc t = .load kind) (hzero : s.waiters = 0) :
    Inv flags ({ s with done := ⟨s.gen t, kind, s.withSampled s.queue, []⟩ :: s.done }.goto t .outside) := by
  have hasleep := isAsleep_goto (s := { s with done := ⟨s.gen t, kind, s.withSampled s.queue, []⟩ :: s.done }) (t := t)
    (p := .outside) (by rw [hpc]; rfl) rfl
  have hnobody : ∀ u, (s.pc u).isAsleep = false := by
    intro u
    by_contra hu
    have hmem : u ∈ counted s := by
      cases hpcu : s.pc u <;> simp [hpcu, Pc.isAsleep] at hu
      exact mem_counted.mpr (by rw [hpcu]; rfl)
    have := Finset.card_pos.mpr ⟨u, hmem⟩
    have := h.waiters
    omega
  refine ⟨h.word, ?_, fun u => ?_, h.queue.frame rfl hasleep fun _ _ => rfl, fun d hd => ?_⟩
  · rw [counted_goto_same (by rw [hpc]; rfl)]
    exact h.waiters
  · by_cases hu : u = t
    · subst hu
      simp only [ThreadOk, goto_pc_self]
    · exact (h.thread u).frame (goto_pc_of_ne hu) rfl rfl le_rfl fun m hm => hm
  · rcases mem_cons.mp hd with rfl | hd
    · have hthread := h.thread t
      unfold ThreadOk at hthread
      rw [hpc] at hthread
      refine ⟨hthread, .inl fun u hu => ?_⟩
      rw [hasleep] at hu
      exact absurd hu (by simp [hnobody u])
    · exact (h.done d hd).frame le_rfl fun u hu => .inr ⟨hasleep u ▸ hu, rfl⟩

omit [DecidableEq T] [Fintype T] in
/-- Of the sleepers the one that has slept longest sampled before a generation if any did. -/
theorem QueueOk.oldest {v : T} {rest : List T} (h : QueueOk s) (hq : s.queue = v :: rest) (g : Nat) :
    s.sampled v < g ∨ ∀ u ∈ s.queue, g ≤ s.sampled u := by
  have hsorted := h.sorted
  rw [hq] at hsorted ⊢
  by_cases hv : s.sampled v < g
  · exact .inl hv
  · refine .inr fun u hu => ?_
    rcases mem_cons.mp hu with rfl | hu
    · omega
    · have := (pairwise_cons.mp hsorted).1 u hu
      omega

omit [Fintype T] in
/-- A signal that wakes one sleeper reaches one it has to reach, or the kernel passes over the longest sleeper. -/
theorem QueueOk.signalled {l : List T} (h : QueueOk s) (hl : s.MayWake 1 l) (g : Nat) :
    (∀ u ∈ s.queue, g ≤ s.sampled u) ∨ (∃ p ∈ s.withSampled l, p.2 < g) ∨
      ∃ p ∈ s.withSampled l, (s.withSampled s.queue).head? ≠ some p := by
  obtain ⟨-, -, hlen⟩ := hl
  cases hq : s.queue with
  | nil => exact .inl (by simp)
  | cons v rest =>
    rw [hq, length_cons, Nat.min_eq_left (Nat.le_add_left _ _)] at hlen
    obtain ⟨u, rfl⟩ := length_eq_one_iff.mp hlen
    by_cases huv : u = v
    · subst huv
      rcases h.oldest hq g with hold | hnew
      · exact .inr (.inl ⟨(u, s.sampled u), by simp [State.withSampled], hold⟩)
      · exact .inl (hq ▸ hnew)
    · refine .inr (.inr ⟨(u, s.sampled u), by simp [State.withSampled], fun heq => huv ?_⟩)
      simp only [State.withSampled, map_cons, head?_cons, Option.some.injEq, Prod.mk.injEq] at heq
      exact heq.1.symm

theorem wakeUp_counted (pc : Pc) : pc.wakeUp.counted = pc.counted := by cases pc <;> rfl

omit [Fintype T] in
theorem wake_pc {u : T} {l : List T} (hu : u ≠ t) :
    (s.wake t kind l).pc u = if u ∈ l then (s.pc u).wakeUp else s.pc u := goto_pc_of_ne hu

omit [Fintype T] in
/-- The sleepers after a wake are those that it did not wake. -/
theorem QueueOk.asleep_wake {l : List T} (h : QueueOk s) (hl : l ⊆ s.queue) (hpc : s.pc t = .wake kind) (u : T) :
    ((s.wake t kind l).pc u).isAsleep = true ↔ u ∈ s.queue ∧ u ∉ l := by
  by_cases hu : u = t
  · subst hu
    have hself : u ∉ s.queue := fun hmem => by simpa [hpc, Pc.isAsleep] using (h.mem u).mp hmem
    simp [State.wake, Pc.isAsleep, hself]
  · rw [wake_pc hu]
    by_cases hin : u ∈ l
    · have := (h.mem u).mp (hl hin)
      cases hpcu : s.pc u <;> simp [hpcu, Pc.isAsleep] at this
      simp [hin, Pc.wakeUp, Pc.isAsleep]
    · simp [hin, h.mem u]

/-- A signal wakes one sleeper and a broadcast wakes all. -/
theorem Inv.wake {l : List T} (hcard : Fintype.card T < 2 ^ 31) (h : Inv flags s) (hpc : s.pc t = .wake kind)
    (hl : s.MayWake kind.count l) : Inv flags (s.wake t kind l) := by
  have hself : t ∉ l := fun hmem => by simpa [hpc, Pc.isAsleep] using (h.queue.mem t).mp (hl.2.1 hmem)
  have hasleep := h.queue.asleep_wake hl.2.1 hpc
  refine ⟨h.word, ?_, fun u => ?_, ⟨fun u => ?_, h.queue.nodup.sublist filter_sublist,
    h.queue.sorted.sublist filter_sublist⟩, fun d hd => ?_⟩
  · unfold State.wake
    rw [counted_goto_same (by
      show _ = (if t ∈ l then (s.pc t).wakeUp else s.pc t).counted
      rw [if_neg hself, hpc]
      rfl)]
    refine h.waiters.trans (congrArg Finset.card (Finset.filter_congr fun u _ => ?_))
    show _ ↔ (if u ∈ l then (s.pc u).wakeUp else s.pc u).counted = true
    split
    · rw [wakeUp_counted]
    · rfl
  · by_cases hu : u = t
    · subst hu
      simp only [ThreadOk, State.wake, goto_pc_self]
    · by_cases hin : u ∈ l
      · have := (h.queue.mem u).mp (hl.2.1 hin)
        unfold ThreadOk
        rw [wake_pc hu, if_pos hin]
        cases hpcu : s.pc u <;> simp [hpcu, Pc.isAsleep] at this
        simp [Pc.wakeUp]
      · exact (h.thread u).frame ((wake_pc hu).trans (if_neg hin)) rfl rfl le_rfl fun m hm => hm
  · rw [hasleep u]
    show u ∈ s.queue.filter (fun u => u ∉ l) ↔ _
    simp
  · rcases mem_cons.mp hd with rfl | hd
    · have hgen := h.thread t
      unfold ThreadOk at hgen
      rw [hpc] at hgen
      refine ⟨hgen, ?_⟩
      cases kind with
      | broadcast =>
        -- There are no more sleepers than threads, so all of them are woken.
        left
        intro u hu
        have hlen : s.queue.length ≤ Fintype.card T := h.queue.nodup.length_le_card
        obtain ⟨hnodup, hsub, hcount⟩ := hl
        have hcount : l.length = s.queue.length := hcount.trans (Nat.min_eq_right (by
          show s.queue.length ≤ 0x7fffffff
          omega))
        have hall : s.queue ⊆ l := ((subperm_of_subset hnodup hsub).perm_of_length_le hcount.ge).symm.subset
        obtain ⟨hqueue, hout⟩ := (hasleep u).mp hu
        exact absurd (hall hqueue) hout
      | signal =>
        rcases h.queue.signalled hl (s.gen t) with hnone | hsome
        · exact .inl fun u hu => hnone u ((hasleep u).mp hu).1
        · exact .inr ⟨rfl, hsome⟩
    · exact (h.done d hd).frame le_rfl fun u hu => .inr ⟨(h.queue.mem u).mp ((hasleep u).mp hu).1, rfl⟩

theorem Inv.sleepEnd {m seq : Nat} (h : Inv flags s) (hpc : s.pc t = .asleep m seq)
    (hnew : pc = .futex m seq ∨ ∃ rc, pc = .uncount m rc) : Inv flags ({ s with queue := s.queue.erase t }.goto t pc) := by
  have hnot : pc.isAsleep = false := by rcases hnew with rfl | ⟨rc, rfl⟩ <;> rfl
  have hcounted : pc.counted = true := by rcases hnew with rfl | ⟨rc, rfl⟩ <;> rfl
  have hasleep : ∀ u, (({ s with queue := s.queue.erase t }.goto t pc).pc u).isAsleep = true ↔ u ∈ s.queue.erase t := by
    intro u
    rw [h.queue.nodup.mem_erase_iff]
    by_cases hu : u = t
    · simp [hu, hnot]
    · rw [goto_pc_of_ne hu, h.queue.mem u]
      simp [hu]
  refine ⟨h.word, ?_, fun u => ?_, ⟨fun u => (hasleep u).symm, h.queue.nodup.erase t, h.queue.sorted.sublist erase_sublist⟩,
    fun d hd => (h.done d hd).frame le_rfl fun u hu =>
      .inr ⟨(h.queue.mem u).mp (mem_of_mem_erase ((hasleep u).mp hu)), rfl⟩⟩
  · rw [counted_goto_same (by rw [hcounted]; simp [hpc, Pc.counted])]
    exact h.waiters
  · by_cases hu : u = t
    · subst hu
      have hthread := h.thread u
      unfold ThreadOk at hthread
      rw [hpc] at hthread
      simp only [ThreadOk, goto_pc_self]
      rcases hnew with rfl | ⟨rc, rfl⟩
      · exact hthread
      · trivial
    · exact (h.thread u).frame (goto_pc_of_ne hu) rfl rfl le_rfl fun m hm => hm

theorem Inv.moveOn (h : Inv flags s) (hold : (s.pc t).isAsleep = false) (hnew : pc.isAsleep = false)
    (hcounted : pc.counted = (s.pc t).counted) (hthread : ThreadOk flags (s.goto t pc) t) : Inv flags (s.goto t pc) :=
  h.move rfl hold hnew (fun _ _ _ hm => hm) (by rw [counted_goto_same hcounted]; exact h.waiters) hthread

/-- The accesses of a thread inside its call. -/
theorem Inv.advance (hcard : Fintype.card T < 2 ^ 31) (h : Inv flags s) (hfew : s.Few) (hstep : s.advance t = some s') :
    Inv flags s' := by
  have hthread := h.thread t
  have hle := counted_card_le (s := s)
  unfold ThreadOk at hthread
  unfold State.advance at hstep
  cases hpc : s.pc t with
  | outside => simp [hpc] at hstep
  | enter m nsec =>
    rw [hpc] at hthread hstep
    dsimp only at hstep
    split at hstep
    all_goals
      cases hstep
      exact h.moveOn (by rw [hpc]; rfl) rfl (by rw [hpc]; rfl) (by simpa [ThreadOk] using hthread)
  | sample m =>
    rw [hpc] at hstep
    cases hstep
    exact h.sample hpc
  | count m seq =>
    rw [hpc] at hthread hstep
    cases hstep
    have hout : t ∉ counted s := by simp [mem_counted, hpc, Pc.counted]
    refine h.move rfl (by rw [hpc]; rfl) rfl (fun _ _ _ hm => hm) ?_ (by simpa [ThreadOk] using hthread)
    rw [counted_goto_insert rfl]
    show add 32 s.waiters 1 = (insert t (counted s)).card
    rw [Finset.card_insert_of_notMem hout, h.waiters, add_of_lt (by omega)]
  | unlock m seq =>
    rw [hpc] at hthread hstep
    cases hstep
    refine h.move rfl (by rw [hpc]; rfl) rfl (fun u hu k hk => setOwner_keeps (fun hm => ?_) hk) ?_
      (by simpa [ThreadOk, State.setOwner] using hthread.2)
    · exact hu (some.inj (hm.symm.trans hthread.1))
    · rw [counted_goto_same (by simp [State.setOwner, hpc, Pc.counted])]
      exact h.waiters
  | futex m seq =>
    rw [hpc] at hthread hstep
    dsimp only at hstep
    split at hstep
    · cases hstep
      exact h.sleep hpc (by assumption) (hfew t (by simp [hpc, Pc.waiting]))
    · cases hstep
      exact h.moveOn (by rw [hpc]; rfl) rfl (by rw [hpc]; rfl) (by simp [ThreadOk])
  | asleep m seq => simp [hpc] at hstep
  | uncount m rc =>
    rw [hpc] at hstep
    cases hstep
    have hin : t ∈ counted s := by simp [mem_counted, hpc, Pc.counted]
    have hpos := Finset.card_pos.mpr ⟨t, hin⟩
    refine h.move rfl (by rw [hpc]; rfl) rfl (fun _ _ _ hm => hm) ?_ (by simp [ThreadOk])
    have hsub : sub 32 s.waiters 1 = s.waiters - 1 := sub_of_le (by rw [h.waiters]; omega) (by rw [h.waiters]; omega)
    have hset := counted_goto_erase (s := { s with waiters := sub 32 s.waiters 1 }) (t := t) (p := .relock m rc) rfl
    have hcount : counted { s with waiters := sub 32 s.waiters 1 } = counted s := counted_congr rfl
    rw [hset, hcount, Finset.card_erase_of_mem hin, ← h.waiters]
    exact hsub
  | relock m rc =>
    rw [hpc] at hstep
    dsimp only at hstep
    split at hstep
    · rename_i hfree
      cases hstep
      refine h.move rfl (by rw [hpc]; rfl) rfl (fun u _ k hk => setOwner_keeps (by simp [hfree]) hk) ?_
        (by simp [ThreadOk, State.setOwner, State.goto])
      rw [counted_goto_same (by simp [State.setOwner, hpc, Pc.counted])]
      exact h.waiters
    · simp at hstep
  | returned m err =>
    rw [hpc] at hstep
    cases hstep
    exact h.moveOn (by rw [hpc]; rfl) rfl (by rw [hpc]; rfl) (by simp [ThreadOk])
  | bump kind =>
    rw [hpc] at hstep
    cases hstep
    exact h.bump hpc
  | load kind =>
    rw [hpc] at hthread hstep
    dsimp only at hstep
    split at hstep
    · cases hstep
      exact h.moveOn (by rw [hpc]; rfl) rfl (by rw [hpc]; rfl) (by simpa [ThreadOk] using hthread)
    · cases hstep
      exact h.skip hpc (by omega)
  | wake kind => simp [hpc] at hstep

theorem Inv.step {a : Act T} (hcard : Fintype.card T < 2 ^ 31) (h : Inv flags s) (hfew : s.Few)
    (hstep : s.step a = some s') : Inv flags s' := by
  cases a with
  | lock t m =>
    simp only [State.step] at hstep
    split at hstep
    · rename_i hok
      cases hstep
      exact h.setOwner fun u _ k hk => setOwner_keeps (by simp [hok.2]) hk
    · simp at hstep
  | unlock t m =>
    simp only [State.step] at hstep
    split at hstep
    · rename_i hok
      cases hstep
      refine h.setOwner fun u hu k hk => setOwner_keeps (fun hm => ?_) hk
      cases hok.2.symm.trans hm
      exact hu hok.1
    · simp at hstep
  | callWait t m nsec =>
    simp only [State.step] at hstep
    split at hstep
    · rename_i hok
      cases hstep
      exact h.moveOn (by rw [hok.1]; rfl) rfl (by rw [hok.1]; rfl) (by simpa [ThreadOk] using hok.2)
    · simp at hstep
  | callWake t kind =>
    simp only [State.step] at hstep
    split at hstep
    · rename_i hok
      cases hstep
      exact h.moveOn (by rw [hok]; rfl) rfl (by rw [hok]; rfl) (by simp [ThreadOk])
    · simp at hstep
  | sleepEnd t rc =>
    simp only [State.step] at hstep
    split at hstep
    · cases hstep
      exact h.sleepEnd (by assumption) (.inl rfl)
    · cases hstep
      exact h.sleepEnd (by assumption) (.inr ⟨_, rfl⟩)
    · cases hstep
      exact h.sleepEnd (by assumption) (.inr ⟨_, rfl⟩)
    · cases hstep
      exact h.sleepEnd (by assumption) (.inr ⟨_, rfl⟩)
    · simp at hstep
  | wake t l =>
    simp only [State.step] at hstep
    split at hstep
    · rename_i kind hpc
      split at hstep
      · rename_i hl
        cases hstep
        exact h.wake hcard hpc hl
      · simp at hstep
    · simp at hstep
  | advance t => exact h.advance hcard hfew hstep

omit [Fintype T] in
theorem Reach.few (h : Reach flags s) : s.Few := by
  cases h with
  | init => exact fun t ht => by simp [State.init, Pc.waiting] at ht
  | step _ _ hfew => exact hfew

theorem Reach.inv (hflags : flags < 4) (hcard : Fintype.card T < 2 ^ 31) (h : Reach flags s) : Inv flags s := by
  induction h with
  | init =>
    refine ⟨?_, ?_, fun t => ?_, ⟨?_, ?_, ?_⟩, by simp [State.init]⟩
    · show flags = (flags + 4 * 0) % 2 ^ 32
      omega
    · simp [counted, State.init, Pc.counted]
    · simp [ThreadOk, State.init]
    · simp [State.init, Pc.isAsleep]
    · simp [State.init]
    · simp [State.init]
  | step hr hstep _ ih => exact ih.step hcard hr.few hstep

end Step

/-! ### No lost signal -/

/-- The value a thread sampled and has not compared yet. -/
def Pc.pending : Pc → Option Nat
  | .count _ seq | .unlock _ seq | .futex _ seq => some seq
  | _ => none

/-- A finished signal took a thread that had sampled before its bump; or none of these is asleep, and those that have
    not slept yet find the word changed. -/
def Wake.Served (s : State T) (d : Wake T) : Prop :=
  (∃ p ∈ d.woken, p.2 < d.gen) ∨ ∀ t, (s.pc t).waiting = true → s.sampled t < d.gen →
    (s.pc t).isAsleep = false ∧ ∀ seq, (s.pc t).pending = some seq → seq ≠ s.word

/-- What waiters and wakers can rely on. -/
structure NoLostSignal (flags : Nat) (s : State T) : Prop where
  /-- The threads that a signal has to reach are served, or the kernel has woken another one in place of the thread
      that had slept longest. -/
  signal : ∀ d ∈ s.done, d.kind = .signal → d.Served s ∨ d.PassesOver
  /-- A finished broadcast left nobody asleep who had sampled before it, and nobody of these will sleep. -/
  broadcast : ∀ d ∈ s.done, d.kind = .broadcast → ∀ t, (s.pc t).waiting = true → s.sampled t < d.gen →
    (s.pc t).isAsleep = false ∧ ∀ seq, (s.pc t).pending = some seq → seq ≠ s.word
  waiters : s.waiters = (counted s).card
  bits : s.word % 4 = flags
  mutex : ∀ t m err, s.pc t = .returned m err → s.owner m = some t

omit [DecidableEq T] in
/-- A thread that sampled before a bump and has not compared yet is refused by the kernel. -/
theorem Inv.refused {g seq : Nat} (h : Inv flags s) (hfew : s.Few) (hg : g ≤ s.bumps) (hold : s.sampled t < g)
    (hpending : (s.pc t).pending = some seq) : seq ≠ s.word := by
  have hthread := h.thread t
  have hwait := hfew t
  unfold ThreadOk at hthread
  intro heq
  have hsame : seq = wordAt flags (s.sampled t) ∧ s.bumps < s.sampled t + 2 ^ 30 := by
    cases hpc : s.pc t <;> simp [hpc, Pc.pending] at hpending <;> rw [hpc] at hthread hwait
    case count => exact ⟨hpending ▸ hthread.2.1, hwait rfl⟩
    case unlock => exact ⟨hpending ▸ hthread.2.1, hwait rfl⟩
    case futex => exact ⟨hpending ▸ hthread.1, hwait rfl⟩
  have := wordAt_inj (by omega) hsame.2 (h.word.symm.trans (heq.symm.trans hsame.1))
  omega

/-- In every run with fewer than `2 ^ 30` wakes during any one wait no signal is lost. -/
theorem cond_no_lost_signal (hflags : flags < 4) (hcard : Fintype.card T < 2 ^ 31) (hreach : Reach flags s) :
    NoLostSignal flags s := by
  have h := hreach.inv hflags hcard
  have hfew := hreach.few
  have hnone : ∀ d ∈ s.done, Reached s d.gen → ∀ t, (s.pc t).waiting = true → s.sampled t < d.gen →
      (s.pc t).isAsleep = false ∧ ∀ seq, (s.pc t).pending = some seq → seq ≠ s.word := by
    intro d hd hreached t _ hold
    refine ⟨?_, fun seq => h.refused hfew (h.done d hd).1 hold⟩
    by_contra hasleep
    have := hreached t (by simpa using hasleep)
    omega
  refine ⟨fun d hd hkind => ?_, fun d hd hkind => ?_, h.waiters, ?_, fun t m err hpc => ?_⟩
  · rcases (h.done d hd).2 with hreached | ⟨-, hwoken | hpassed⟩
    · exact .inl (.inr (hnone d hd hreached))
    · exact .inl (.inl hwoken)
    · exact .inr hpassed
  · rcases (h.done d hd).2 with hreached | ⟨hsignal, -⟩
    · exact hnone d hd hreached
    · cases hkind.symm.trans hsignal
  · rw [h.word]
    unfold wordAt
    omega
  · have hthread := h.thread t
    unfold ThreadOk at hthread
    rw [hpc] at hthread
    exact hthread

instance (s : State T) : Decidable s.Few := inferInstanceAs (Decidable (∀ _, _ → _))

/-- The steps of a run, one after another. -/
def State.run (s : State T) : List (Act T) → Option (State T)
  | [] => some s
  | a :: acts => (s.step a).bind fun s' => if s'.Few then s'.run acts else none

theorem Reach.run : ∀ {acts : List (Act T)} {s s' : State T}, Reach flags s → s.run acts = some s' → Reach flags s'
  | [], s, s', h, hrun => some.inj hrun ▸ h
  | a :: acts, s, s', h, hrun => by
    obtain ⟨r, hstep, hrest⟩ := Option.bind_eq_some_iff.mp hrun
    split at hrest
    · exact (h.step hstep (by assumption)).run hrest
    · simp at hrest

/-- The thread locks the mutex and goes to sleep on the condition. -/
def fallAsleep (t : Option Bool) : List (Act (Option Bool)) :=
  [.lock t 7, .callWait t 7 none, .advance t, .advance t, .advance t, .advance t, .advance t]

/-- Two threads fall asleep, a third one signals, which wakes the first, and broadcasts. -/
def sleepAndSignal : List (Act (Option Bool)) :=
  fallAsleep none ++ fallAsleep (some false) ++
    [.callWake (some true) .signal, .advance (some true), .advance (some true), .wake (some true) [none],
      .callWake (some true) .broadcast, .advance (some true), .advance (some true), .wake (some true) [some false]]

theorem cond_no_lost_signal_run : ∃ s : State (Option Bool), (State.init 2).run sleepAndSignal = some s ∧
    s.pc none = .uncount 7 .woken ∧ s.pc (some false) = .uncount 7 .woken ∧ NoLostSignal 2 s := by
  obtain ⟨s, hs⟩ := Option.isSome_iff_exists.mp
    (show ((State.init 2 : State (Option Bool)).run sleepAndSignal).isSome = true by decide)
  have : ((State.init 2).run sleepAndSignal).map (fun s => (s.pc none, s.pc (some false))) =
      some (.uncount 7 .woken, .uncount 7 .woken) := by decide
  rw [hs] at this
  obtain ⟨h1, h2⟩ := Prod.mk.inj (some.inj this)
  exact ⟨s, hs, h1, h2, cond_no_lost_signal (by decide) (by decide) (Reach.run .init hs)⟩

/-- One thread sleeps when another signals; a third one falls asleep between the signal's bump and its wake, and the
    kernel wakes that one. -/
def signalLateSleeper : List (Act (Option Bool)) :=
  fallAsleep none ++ [.callWake (some true) .signal, .advance (some true), .advance (some true)] ++
    fallAsleep (some false) ++ [.wake (some true) [some false]]

/-- The thread that slept when the signal came is still asleep, and the one that was woken had sampled after it. -/
theorem signal_passes_over : ∃ s : State (Option Bool), Reach 0 s ∧ ∃ d ∈ s.done, d.kind = .signal ∧ ¬ d.Served s := by
  obtain ⟨s, hs⟩ := Option.isSome_iff_exists.mp
    (show ((State.init 0 : State (Option Bool)).run signalLateSleeper).isSome = true by decide)
  have hsleeper : ((State.init 0).run signalLateSleeper).map (fun s => (s.pc none, s.sampled none)) =
      some (.asleep 7 0, 0) := by decide
  have hdone : ((State.init 0).run signalLateSleeper).map State.done =
      some [⟨1, .signal, [(none, 0), (some false, 1)], [(some false, 1)]⟩] := by decide
  rw [hs] at hsleeper hdone
  obtain ⟨hpc, hsampled⟩ := Prod.mk.inj (some.inj hsleeper)
  replace hdone := some.inj hdone
  refine ⟨s, Reach.run .init hs, _, by rw [hdone]; exact mem_singleton_self _, rfl, ?_⟩
  rintro (⟨p, hp, hlt⟩ | hserved)
  · rw [mem_singleton.mp hp] at hlt
    exact absurd hlt (by decide)
  · have hasleep := (hserved none (by rw [hpc]; rfl) (by rw [hsampled]; decide)).1
    rw [hpc] at hasleep
    exact absurd hasleep (by decide)

end Lunaria.Guest.Cond
