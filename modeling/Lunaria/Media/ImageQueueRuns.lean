import Mathlib
import Lunaria.Media.ImageQueueSafe

/-! Runs of an image queue: what the threads have still to do keeps the invariant too, so it holds in every state. -/

namespace Lunaria.Media
open Function LinkedList
open List hiding Chain

section Tasks
variable {most cap : UInt32} {s s' : LiqState} {queued l : List Nat} {own : Option Nat → List Nat} {q : LiqQueue} {i : Nat}
  {t : LiqTask} {p : Option Nat} {more : List LiqTask}

theorem LiqInv.images_nodup (h : LiqInv most cap s queued own) (ht : t ∈ s.pending) :
    (t.images own).Nodup ∧ (t.images own).length ≤ s.accepted := by
  have hnodup : (t.images own).Nodup := by
    rw [nodup_iff_count_le_one]
    intro j
    have hplace := h.place j
    have hcount := count_images_erase own ht j
    split at hplace <;> omega
  have hsub : t.images own ⊆ List.range s.accepted := fun j hj =>
    List.mem_range.2 (h.pending_images (mem_pending_images ht hj)).1
  exact ⟨hnodup, by simpa using (List.Nodup.subperm hnodup hsub).length_le⟩

/-- What one thread is to free, no other is. -/
theorem LiqInv.images_disjoint (h : LiqInv most cap s queued own) (ht : t ∈ s.pending) {u : LiqTask}
    (hu : u ∈ s.pending.erase t) (hi : i ∈ u.images own) : i ∉ t.images own := by
  intro hi'
  have hplace := h.place i
  have hcount := count_images_erase own ht i
  have h1 := List.count_pos_iff.2 hi'
  have h2 := List.count_pos_iff.2 (List.mem_flatMap.2 ⟨u, hu, hi⟩)
  split at hplace <;> omega

/-- The state after a thread has freed images, with what it has to do then. -/
def LiqState.freeing (s : LiqState) (t : LiqTask) (l : List Nat) (more : List LiqTask) : LiqState :=
  { s.without l with pending := s.pending.erase t ++ more }

theorem freeing_link : (s.freeing t l more).link i = if i ∈ l then none else s.link i := without_link

theorem LiqInv.freeing (h : LiqInv most cap s queued own) (ht : t ∈ s.pending) (hne : t ≠ .destroy)
    (hmore : more = [] ∨ more = [.unref]) (href : (s.freeing t (t.images own) more).references = s.references) :
    LiqInv most cap (s.freeing t (t.images own) more) queued own := by
  have hempty : more.flatMap (LiqTask.images own) = [] := by
    rcases hmore with rfl | rfl <;> rfl
  have hmem : ∀ u ∈ s.pending.erase t ++ more, u ∈ s.pending.erase t ∨ u = .unref := by
    intro u hu
    rcases hmore with rfl | rfl
    · exact .inl (by simpa using hu)
    · simpa using hu
  have hlink : ∀ j, j ∉ t.images own → (s.freeing t (t.images own) more).link j = s.link j := fun j hj => by
    rw [freeing_link, if_neg hj]
  refine ⟨fun j => ?_, fun q hq => ?_, fun hnone => ?_, fun p hpend => ?_, fun j hj => ?_, h.queuedOrder, h.returnedOrder,
    h.returned⟩
  · have hplace := h.place j
    have hcount := count_images_erase own ht j
    unfold LiqState.freeing LiqState.without
    dsimp only
    rw [count_append, flatMap_append, hempty, append_nil]
    omega
  · have hqok := h.alive q hq
    refine ⟨hqok.maxImages, hqok.capacity, ?_, hqok.tail, hqok.acquired, hqok.buffers, hqok.room, hqok.margin,
      hqok.sequence, hqok.closed, ?_, ?_⟩
    · exact hqok.chain.congr fun j hj => hlink j fun hmem => (h.pending_images (mem_pending_images ht hmem)).2.1 hj
    · rw [href]
      exact hqok.refs
    · rw [href, ← hqok.destroy]
      unfold LiqState.freeing
      dsimp only
      rw [count_append, count_erase_of_ne hne.symm]
      rcases hmore with rfl | rfl <;> rfl
  · obtain ⟨hnil, hzero, hnot⟩ := h.gone hnone
    refine ⟨hnil, href.trans hzero, fun hmem' => ?_⟩
    rcases hmem _ hmem' with hold | hnew
    · exact hnot (mem_of_mem_erase hold)
    · cases hnew
  · rcases hmem _ hpend with hold | hnew
    · refine (h.own p (mem_of_mem_erase hold)).congr fun j hj => hlink j ?_
      exact h.images_disjoint ht (u := .freeChain p) hold hj
    · cases hnew
  · rw [hlink]
    · refine h.out j (hj.imp_right fun hpend => ?_)
      rcases hmem _ hpend with hold | hnew
      · exact mem_of_mem_erase hold
      · cases hnew
    · rcases hj with hout | hpend
      · exact fun hmem' => (h.pending_images (mem_pending_images ht hmem')).2.2 hout
      · rcases hmem _ hpend with hold | hnew
        · exact h.images_disjoint ht (u := .freeImage j) hold mem_cons_self
        · cases hnew

/-- The references that a thread is to drop. -/
def LiqTask.drops : LiqTask → Bool
  | freeImage _ => true
  | unref => true
  | _ => false

theorem freeing_references (ht : t ∈ s.pending) (hdrops : more.countP LiqTask.drops = if t.drops then 1 else 0) :
    (s.freeing t l more).references = s.references := by
  have hcount := countP_erase_add ht LiqTask.drops
  show s.held + s.out.length + (s.pending.erase t ++ more).countP LiqTask.drops = s.held + s.out.length + s.pending.countP
    LiqTask.drops
  rw [countP_append, hdrops]
  omega

section
variable (h : LiqInv most cap s queued own)
include h

theorem LiqInv.freeChain (ht : .freeChain p ∈ s.pending) :
    ∃ s', liqTask { s with pending := s.pending.erase (.freeChain p) } (.freeChain p) = .ok s' ∧
      LiqInv most cap s' queued own ∧ s.Keeps s' := by
  obtain ⟨hnodup, hlength⟩ := h.images_nodup ht
  have href : (s.freeing (.freeChain p) (own p) []).references = s.references := freeing_references ht rfl
  refine ⟨s.freeing (.freeChain p) (own p) [], ?_, h.freeing ht (by simp) (.inl rfl) href, .refl⟩
  have hchain : Chain { s with pending := s.pending.erase (.freeChain p) }.link p (own p) := h.own p ht
  refine (freeChain_eq hchain hnodup hlength).trans ?_
  simp [LiqState.freeing, LiqState.without]

theorem LiqInv.freeImage (ht : .freeImage i ∈ s.pending) :
    ∃ s', liqTask { s with pending := s.pending.erase (.freeImage i) } (.freeImage i) = .ok s' ∧
      LiqInv most cap s' queued own ∧ s.Keeps s' := by
  have href : (s.freeing (.freeImage i) [i] [.unref]).references = s.references := freeing_references ht rfl
  refine ⟨s.freeing (.freeImage i) [i] [.unref], ?_, h.freeing ht (by simp) (.inr rfl) href, .refl⟩
  have hsome : ({ s with pending := s.pending.erase (.freeImage i) }.link i).isSome := h.out i (.inr ht)
  unfold liqTask
  dsimp only
  rw [imageFree_eq hsome]
  rfl

/-- A reference is dropped; whoever drops the last one is to destroy the queue. -/
theorem LiqInv.drop (ht : .unref ∈ s.pending) :
    ∃ s', liqTask { s with pending := s.pending.erase .unref } .unref = .ok s' ∧ LiqInv most cap s' queued own ∧
      s.Keeps s' := by
  have hcount := countP_erase_add ht LiqTask.drops
  have hdrops : (if LiqTask.unref.drops then 1 else 0) = 1 := rfl
  rw [hdrops] at hcount
  have hreferences : s.references = s.held + s.out.length + s.pending.countP LiqTask.drops := rfl
  obtain ⟨q, hq⟩ := h.live (by omega)
  have hqok := h.alive q hq
  have hrefs := toNat_pred (a := q.refs) (by rw [hqok.refs]; omega)
  have hone : q.refs = 1 ↔ s.references = 1 := by
    rw [← hqok.refs, ← UInt32.toNat_inj]
    rfl
  have hnone : s.pending.count .destroy = 0 := hqok.destroy.trans (if_neg (by omega))
  -- whether the queue is destroyed then
  let more : List LiqTask := if q.refs = 1 then [.destroy] else []
  have hmem : ∀ u ∈ s.pending.erase .unref ++ more, u ∈ s.pending ∨ u = .destroy := by
    intro u hu
    rcases List.mem_append.1 hu with hu | hu
    · exact .inl (mem_of_mem_erase hu)
    · dsimp only [more] at hu
      split at hu
      · exact .inr (List.mem_singleton.1 hu)
      · cases hu
  have hmore : more.countP LiqTask.drops = 0 ∧ more.flatMap (LiqTask.images own) = [] := by
    dsimp only [more]
    split <;> exact ⟨rfl, rfl⟩
  refine ⟨{ s with queue := some { q with refs := q.refs - 1 }, pending := s.pending.erase .unref ++ more }, ?_, ?_, ?_⟩
  · have hq' : ({ s with pending := s.pending.erase .unref } : LiqState).queue = some q := hq
    unfold liqTask
    dsimp only
    rw [live_eq hq', Checked.bind_ok]
    dsimp only [more]
    split <;> simp [pure]
  · have href : s.held + s.out.length + (s.pending.erase .unref ++ more).countP LiqTask.drops = s.references - 1 := by
      rw [countP_append, hmore.1]
      omega
    refine ⟨fun j => ?_, fun q' hq' => ?_, nofun, fun p hpend => ?_, fun j hj => ?_, h.queuedOrder, h.returnedOrder, h.returned⟩
    · have hplace := h.place j
      have himages := count_images_erase own ht j
      dsimp only
      rw [flatMap_append, hmore.2, append_nil]
      simp only [LiqTask.images, count_nil] at himages
      omega
    · cases hq'
      refine ⟨hqok.maxImages, hqok.capacity, hqok.chain, hqok.tail, hqok.acquired, hqok.buffers, hqok.room, hqok.margin,
        hqok.sequence, hqok.closed, ?_, ?_⟩
      · exact hrefs.trans (by rw [hqok.refs]; exact href.symm)
      · show (s.pending.erase .unref ++ more).count .destroy = if s.held + s.out.length + (s.pending.erase .unref ++
          more).countP LiqTask.drops = 0 then 1 else 0
        rw [href, count_append, count_erase_of_ne (by simp), hnone]
        dsimp only [more]
        by_cases h1 : s.references = 1
        · rw [if_pos (hone.2 h1), if_pos (by omega)]
          rfl
        · rw [if_neg (mt hone.1 h1), if_neg (by omega)]
          rfl
    · rcases hmem _ hpend with hold | hnew
      · exact h.own p hold
      · cases hnew
    · refine h.out j (hj.imp_right fun hpend => ?_)
      rcases hmem _ hpend with hold | hnew
      · exact hold
      · cases hnew
  · refine ⟨rfl, rfl, fun q' hq' => ⟨q, hq, fun hclosed => ?_⟩⟩
    cases hq'
    exact hclosed

/-- The queue is destroyed when nobody has it, with the images that are still queued. -/
theorem LiqInv.destroy (ht : .destroy ∈ s.pending) :
    ∃ s', liqTask { s with pending := s.pending.erase .destroy } .destroy = .ok s' ∧ LiqInv most cap s' [] own ∧
      s.Keeps s' := by
  obtain ⟨q, hq⟩ : ∃ q, s.queue = some q :=
    Option.ne_none_iff_exists'.1 fun hnone => (h.gone hnone).2.2 ht
  have hqok := h.alive q hq
  have hpos := List.count_pos_iff.2 ht
  have hone := hqok.destroy
  have hzero : s.references = 0 := by
    by_contra hne
    rw [if_neg hne] at hone
    omega
  rw [if_pos hzero] at hone
  have hcount := countP_erase_add ht LiqTask.drops
  have hreferences : s.references = s.held + s.out.length + s.pending.countP LiqTask.drops := rfl
  have href : s.held + s.out.length + (s.pending.erase .destroy).countP LiqTask.drops = 0 := by
    have : (if LiqTask.destroy.drops then 1 else 0) = 0 := rfl
    omega
  refine ⟨{ s.without queued with queue := none, pending := s.pending.erase .destroy }, ?_, ?_, rfl, rfl, nofun⟩
  · have hchain : Chain { s with pending := s.pending.erase .destroy }.link q.head queued := hqok.chain
    have hq' : ({ s with pending := s.pending.erase .destroy } : LiqState).queue = some q := hq
    unfold liqTask
    dsimp only
    rw [live_eq hq', Checked.bind_ok, freeChain_eq hchain h.nodup (queued_length_le h)]
    rfl
  · have hlink :
        ∀ j, j ∉ queued →
          ({ s.without queued with queue := none, pending := s.pending.erase .destroy } : LiqState).link j = s.link j :=
      fun j hj => without_link.trans (if_neg hj)
    refine ⟨fun j => ?_, nofun, fun _ => ⟨rfl, href, fun hmem => ?_⟩, fun p hpend => ?_, fun j hj => ?_, .nil,
      h.returnedOrder, fun r hr => ⟨(h.returned r hr).1, nofun⟩⟩
    · have hplace := h.place j
      have himages := count_images_erase own ht j
      simp only [LiqTask.images, count_nil] at himages
      unfold LiqState.without
      dsimp only
      rw [count_append, count_nil]
      omega
    · have hself := List.count_pos_iff.2 hmem
      rw [count_erase_self] at hself
      omega
    · have hold := mem_of_mem_erase hpend
      exact (h.own p hold).congr fun j hj => hlink j (h.pending_images (mem_pending_images hold hj)).2.1
    · have hold : j ∈ s.out ∨ .freeImage j ∈ s.pending := hj.imp_right mem_of_mem_erase
      rw [hlink]
      · exact h.out j hold
      · rcases hold with hout | hpend
        · exact h.not_queued hout
        · exact (h.pending_images (mem_pending_images hpend mem_cons_self)).2.1

end

end Tasks

/-! ### Runs -/

section Runs
variable {most cap : UInt32} {s s' : LiqState} {queued : List Nat} {own : Option Nat → List Nat}
    {t : LiqTask} {e : LiqEvent}

theorem LiqInv.task (h : LiqInv most cap s queued own) (ht : t ∈ s.pending) : ∃ s' queued',
    liqTask { s with pending := s.pending.erase t } t = .ok s' ∧ LiqInv most cap s' queued' own ∧ s.Keeps s' := by
  cases t with
  | freeChain p =>
    obtain ⟨s', hs⟩ := h.freeChain ht
    exact ⟨s', queued, hs⟩
  | freeImage i =>
    obtain ⟨s', hs⟩ := h.freeImage ht
    exact ⟨s', queued, hs⟩
  | unref =>
    obtain ⟨s', hs⟩ := h.drop ht
    exact ⟨s', queued, hs⟩
  | destroy =>
    obtain ⟨s', hs⟩ := h.destroy ht
    exact ⟨s', [], hs⟩

/-- What a step that is allowed does. -/
theorem LiqInv.step (h : LiqInv most cap s queued own) (hallowed : s.Allowed e) : ∃ s', s.step e = .ok s' ∧
    (s'.references < 2 ^ 32 → ∃ queued' own', LiqInv most cap s' queued' own') ∧
    ((∀ q, s.queue = some q → q.closed = true) → s.Keeps s') := by
  cases e with
  | submit pixels bytes width height timestamp alloc =>
    obtain ⟨status, kept, s', hs, hfail, hok⟩ :=
      liqSubmit_spec h hallowed.references_pos pixels alloc bytes width height timestamp
    refine ⟨s', by rw [LiqState.step, hs]; rfl, fun _ => ?_, fun hclosed => ?_⟩
    · by_cases hstatus : status = .ok
      · obtain ⟨-, q, hq, hopen, hroom, hpushed⟩ := hok hstatus
        exact ⟨_, own, hpushed.inv h hq hroom hopen⟩
      · rw [(hfail hstatus).2]
        exact ⟨queued, own, h⟩
    · by_cases hstatus : status = .ok
      · obtain ⟨-, q, hq, hopen, -⟩ := hok hstatus
        cases hopen.symm.trans (hclosed q hq)
      · rw [(hfail hstatus).2]
        exact .refl
  | acquire latest =>
    obtain ⟨q, hq⟩ := h.live hallowed.references_pos
    obtain ⟨status, o, s', hs, hfail, hiff, hok⟩ := liqAcquire_spec h hq latest
    refine ⟨s', by rw [LiqState.step, hs]; rfl, fun hbound => ?_, fun hclosed => ?_⟩
    · by_cases hstatus : status = .ok
      · obtain ⟨hopen, hmargin, -⟩ := hiff.1 hstatus
        obtain ⟨older, i, rest, rfl, -, htaken, -⟩ := hok hstatus
        exact ⟨rest, own, htaken.inv h hq hmargin hopen hallowed.references_pos hbound⟩
      · rw [(hfail hstatus).1]
        exact ⟨queued, own, h⟩
    · by_cases hstatus : status = .ok
      · cases (hiff.1 hstatus).1.symm.trans (hclosed q hq)
      · rw [(hfail hstatus).1]
        exact .refl
  | release i =>
    obtain ⟨q, hq, hs, hinv⟩ := h.release hallowed
    refine ⟨_, hs, fun _ => ⟨queued, own, hinv⟩, fun _ => ⟨rfl, rfl, fun q' hq' => ⟨q, hq, fun hclosed => ?_⟩⟩⟩
    cases hq'
    exact hclosed
  | close =>
    obtain ⟨s', queued', own', hs, hinv, hkeeps⟩ := h.close hallowed.references_pos
    exact ⟨s', hs, fun _ => ⟨queued', own', hinv⟩, fun _ => hkeeps⟩
  | ref =>
    obtain ⟨q, hq, hs, hinv⟩ := h.ref hallowed.references_pos
    refine ⟨_, hs, fun hbound => ⟨queued, own, hinv hbound⟩, fun _ => ⟨rfl, rfl, fun q' hq' => ⟨q, hq, fun hclosed => ?_⟩⟩⟩
    cases hq'
    exact hclosed
  | unref => exact ⟨_, rfl, fun _ => ⟨queued, own, (h.unref hallowed).1⟩, fun _ => .refl⟩
  | task t =>
    obtain ⟨s', queued', hs, hinv, hkeeps⟩ := h.task hallowed
    exact ⟨s', hs, fun _ => ⟨queued', own, hinv⟩, fun _ => hkeeps⟩

theorem liqNew_inv (h : liqNew most cap = some s) : LiqInv most cap s [] fun _ => [] := by
  unfold liqNew at h
  split at h
  · cases h
  cases h
  refine ⟨fun i => rfl, fun q hq => ?_, nofun, nofun, nofun, .nil, .nil, nofun⟩
  cases hq
  exact ⟨rfl, rfl, .nil, rfl, rfl, rfl, UInt32.zero_le, UInt32.zero_le, rfl, nofun, rfl, rfl⟩

theorem LiqReach.inv (h : LiqReach (fun s => s.references < 2 ^ 32) most cap s) :
    ∃ queued own, LiqInv most cap s queued own := by
  induction h with
  | new hnew => exact ⟨_, _, liqNew_inv hnew⟩
  | step _ hallowed hstep hbound ih =>
    obtain ⟨queued, own, h⟩ := ih
    obtain ⟨s', hs, hinv, -⟩ := h.step hallowed
    cases hs.symm.trans hstep
    exact hinv hbound

/-- In every run with fewer than 2^32 references at once, an image is queued, acquired, to be freed by one thread, or freed;
    images are returned in their order; no call fails to return; and a queue that is closed accepts and returns none. -/
theorem image_queue_conserves (h : LiqReach (fun s => s.references < 2 ^ 32) most cap s) : ∃ queued : List Nat,
    (∀ q, s.queue = some q → QueueOk most cap s q queued) ∧
    (queued ++ s.out ++ s.freed).Nodup ∧ (∀ i, i ∈ queued ++ s.out ++ s.freed → i < s.accepted) ∧
    (∀ i ∈ queued ++ s.out, (s.images i).isSome) ∧ queued.Pairwise (· < ·) ∧ (s.returned ++ queued).Pairwise (· < ·) ∧
    (s.references = 0 → s.pending = [] → s.queue = none ∧ ∀ i < s.accepted, i ∈ s.freed) ∧
    (∀ e, s.Allowed e → ∃ s', s.step e = .ok s') ∧
    (∀ pixels bytes width height timestamp alloc status kept s', s.MayCall →
      liqSubmit s pixels bytes width height timestamp alloc = .ok (status, kept, s') →
      if status = .ok then s'.accepted = s.accepted + 1 ∧ kept = false else s' = s ∧ kept = pixels) ∧
    (∀ latest status o s', s.MayCall → liqAcquire s latest = .ok (status, o, s') →
      if status = .ok then ∃ q, s.queue = some q ∧ o ≠ none ∧ s'.returned = s.returned ++ o.toList ∧
        if latest = true ∧ 2 ≤ q.maxImages - q.acquired then o = queued.getLast? ∧ s'.freed = s.freed ++ queued.dropLast
        else o = queued.head? ∧ s'.freed = s.freed
      else s' = s ∧ o = none) ∧
    ((∀ q, s.queue = some q → q.closed = true) → ∀ e s', s.Allowed e → s.step e = .ok s' →
      s'.accepted = s.accepted ∧ s'.returned = s.returned ∧ ∀ q, s'.queue = some q → q.closed = true) := by
  obtain ⟨queued, own, h⟩ := h.inv
  refine ⟨queued, h.alive, ?_, fun i hi => ?_, fun i hi => ?_, h.queuedOrder, ?_, fun hzero hnone => ?_,
    fun e hallowed => ?_, ?_, ?_, ?_⟩
  · rw [nodup_iff_count_le_one]
    intro i
    have hplace := h.place i
    rw [count_append, count_append]
    split at hplace <;> omega
  · have hplace := h.place i
    have hpos := List.count_pos_iff.2 hi
    rw [count_append, count_append] at hpos
    by_contra hlt
    rw [if_neg hlt] at hplace
    omega
  · rcases List.mem_append.1 hi with hi | hi
    · cases hq : s.queue with
      | none =>
        rw [(h.gone hq).1] at hi
        cases hi
      | some q => simpa [LiqState.link] using (h.alive q hq).chain.isSome i hi
    · simpa [LiqState.link] using h.out i (.inl hi)
  · exact List.pairwise_append.2 ⟨h.returnedOrder, h.queuedOrder, fun r hr => (h.returned r hr).2⟩
  · have hout : s.out = [] := by
      unfold LiqState.references at hzero
      exact List.length_eq_zero_iff.1 (by omega)
    have hgone : s.queue = none := by
      by_contra hsome
      obtain ⟨q, hq⟩ := Option.ne_none_iff_exists'.1 hsome
      have hdestroy := (h.alive q hq).destroy
      rw [hnone, if_pos hzero] at hdestroy
      cases hdestroy
    refine ⟨hgone, fun i hi => ?_⟩
    have hplace := h.place i
    rw [(h.gone hgone).1, hout, hnone, if_pos hi] at hplace
    simp only [flatMap_nil, count_nil] at hplace
    exact List.count_pos_iff.1 (by omega)
  · obtain ⟨s', hs, -⟩ := h.step hallowed
    exact ⟨s', hs⟩
  · intro pixels bytes width height timestamp alloc status kept s' hcall hs
    obtain ⟨status', kept', s'', hs', hfail, hok⟩ :=
      liqSubmit_spec h hcall.references_pos pixels alloc bytes width height timestamp
    obtain ⟨rfl, rfl, rfl⟩ : status = status' ∧ kept = kept' ∧ s' = s'' := by simpa using hs.symm.trans hs'
    split_ifs with hstatus
    · obtain ⟨hkept, q, -, -, -, hpushed⟩ := hok hstatus
      exact ⟨hpushed.accepted, hkept⟩
    · exact (hfail hstatus).symm
  · intro latest status o s' hcall hs
    obtain ⟨q, hq⟩ := h.live hcall.references_pos
    obtain ⟨status', o', s'', hs', hfail, -, hok⟩ := liqAcquire_spec h hq latest
    obtain ⟨rfl, rfl, rfl⟩ : status = status' ∧ o = o' ∧ s' = s'' := by simpa using hs.symm.trans hs'
    split_ifs with hstatus
    · obtain ⟨older, i, rest, rfl, rfl, htaken, hwhich⟩ := hok hstatus
      refine ⟨q, hq, (by simp), htaken.returned, ?_⟩
      rw [htaken.freed]
      split_ifs at hwhich ⊢ <;> subst hwhich <;> simp
    · exact hfail hstatus
  · intro hclosed e s' hallowed hstep
    obtain ⟨s'', hs, -, hkeeps⟩ := h.step hallowed
    cases hs.symm.trans hstep
    obtain ⟨haccepted, hreturned, hstays⟩ := hkeeps hclosed
    refine ⟨haccepted, hreturned, fun q' hq' => ?_⟩
    obtain ⟨q, hq, hclose⟩ := hstays q' hq'
    exact hclose (hclosed q hq)

/-- Of four images one is acquired and released, then the newest one, and the one between them is dropped. -/
theorem image_queue_conserves_four : ∃ s queued, LiqReach (fun s => s.references < 2 ^ 32) 2 4 s ∧ s.returned = [0, 2] ∧
    s.out = [2] ∧ s.freed = [0, 1] ∧ s.accepted = 4 ∧ (queued ++ s.out ++ s.freed).Nodup ∧
    ∀ q, s.queue = some q → QueueOk 2 4 s q queued := by
  have h0 : LiqReach (fun s => s.references < 2 ^ 32) 2 4 _ := .new rfl
  have h1 := h0.step (e := .submit true 4 1 1 0 true) (Or.inl Nat.one_pos) rfl (by decide)
  have h2 := h1.step (e := .submit true 16 2 2 5 true) (Or.inl Nat.one_pos) rfl (by decide)
  have h3 := h2.step (e := .acquire false) (Or.inl Nat.one_pos) rfl (by decide)
  have h4 := h3.step (e := .submit true 8 1 2 9 true) (Or.inl Nat.one_pos) rfl (by decide)
  have h5 := h4.step (e := .release 0) mem_cons_self rfl (by decide)
  have h6 := h5.step (e := .task (.freeImage 0)) mem_cons_self rfl (by decide)
  have h7 := h6.step (e := .acquire true) (Or.inl Nat.one_pos) rfl (by decide)
  have h8 := h7.step (e := .submit true 8 2 1 9 true) (Or.inl Nat.one_pos) rfl (by decide)
  obtain ⟨queued, hq, hnodup, -⟩ := image_queue_conserves h8
  exact ⟨_, queued, h8, rfl, rfl, rfl, rfl, hnodup, hq⟩

/-! ### The counters of 64 and 32 bits -/

/-- One image after the other has gone through the queue. -/
structure Rounds (n : Nat) (s : LiqState) : Prop where
  queue : s.queue = some ⟨1, none, none, 1, 1, 0, 0, UInt64.ofNat n, false⟩
  images : ∀ i, s.images i = none
  pending : s.pending = []
  held : s.held = 1
  out : s.out = []
  accepted : s.accepted = n

/-- Submit, acquire, release, and what the release has still to do. -/
theorem Rounds.next {n : Nat} (h : Rounds n s) (hs : LiqReach (fun _ => True) 1 1 s) :
    ∃ s', LiqReach (fun _ => True) 1 1 s' ∧ Rounds (n + 1) s' := by
  obtain ⟨queue, images, pending, held, out, accepted, returned, freed⟩ := s
  obtain ⟨rfl, himages, rfl, rfl, rfl, hn⟩ := h
  dsimp only at hn
  subst hn
  have h1 : LiqReach (fun _ => True) 1 1 ⟨some ⟨1, some accepted, some accepted, 1, 1, 1, 0, UInt64.ofNat accepted + 1,
      false⟩, update images accepted (some ⟨none, 1, 1, 0⟩), [], 1, [], accepted + 1, returned, freed⟩ :=
    hs.step (e := .submit true 4 1 1 0 true) (Or.inl Nat.one_pos) rfl trivial
  have hacquire : (⟨some ⟨1, some accepted, some accepted, 1, 1, 1, 0, UInt64.ofNat accepted + 1, false⟩,
      update images accepted (some ⟨none, 1, 1, 0⟩), [], 1, [], accepted + 1, returned, freed⟩ : LiqState).step
        (.acquire false) =
      .ok ⟨some ⟨2, none, none, 1, 1, 1, 1, UInt64.ofNat accepted + 1, false⟩,
        update images accepted (some ⟨none, 1, 1, 0⟩), [], 1,
        [accepted], accepted + 1, returned ++ [accepted], freed⟩ := by
    simp [LiqState.step, liqAcquire, takeFirst, LiqState.live, LiqState.image, pure]
  have h2 := h1.step (e := .acquire false) (Or.inl Nat.one_pos) hacquire trivial
  have hrelease :
      (⟨some ⟨2, none, none, 1, 1, 1, 1, UInt64.ofNat accepted + 1, false⟩, update images accepted (some ⟨none, 1, 1, 0⟩),
      [], 1, [accepted], accepted + 1, returned ++ [accepted], freed⟩ : LiqState).step (.release accepted) =
      .ok ⟨some ⟨2, none, none, 1, 1, 0, 0, UInt64.ofNat accepted + 1, false⟩,
        update images accepted (some ⟨none, 1, 1, 0⟩),
        [.freeImage accepted], 1, [], accepted + 1, returned ++ [accepted], freed⟩ := by
    simp [LiqState.step, liqRelease, LiqState.live, LiqState.image, pure]
  have h3 := h2.step (e := .release accepted) mem_cons_self hrelease trivial
  have hfree :
      (⟨some ⟨2, none, none, 1, 1, 0, 0, UInt64.ofNat accepted + 1, false⟩, update images accepted (some ⟨none, 1, 1, 0⟩),
      [.freeImage accepted], 1, [], accepted + 1, returned ++ [accepted], freed⟩ : LiqState).step
        (.task (.freeImage accepted)) =
      .ok ⟨some ⟨2, none, none, 1, 1, 0, 0, UInt64.ofNat accepted + 1, false⟩, update images accepted none, [.unref], 1, [],
        accepted + 1, returned ++ [accepted], freed ++ [accepted]⟩ := by
    simp [LiqState.step, liqTask, imageFree, LiqState.image, pure]
  have h4 := h3.step (e := .task (.freeImage accepted)) mem_cons_self hfree trivial
  have h5 := h4.step (e := .task .unref) mem_cons_self rfl trivial
  refine ⟨_, h5, ?_, fun i => ?_, rfl, rfl, rfl, rfl⟩
  · simp [UInt64.ofNat_add]
  · show update images accepted none i = none
    by_cases hi : i = accepted
    · rw [hi, update_self]
    · rw [update_of_ne hi]
      exact himages i

theorem rounds (n : Nat) : ∃ s, LiqReach (fun _ => True) 1 1 s ∧ Rounds n s := by
  induction n with
  | zero => exact ⟨_, .new rfl, rfl, fun _ => rfl, rfl, rfl, rfl, rfl⟩
  | succ n ih =>
    obtain ⟨s, hs, h⟩ := ih
    exact h.next hs

theorem references_reach (n : Nat) : LiqReach (fun _ => True) 1 1
    ⟨some ⟨UInt32.ofNat (n + 1), none, none, 1, 1, 0, 0, 0, false⟩, fun _ => none, [], n + 1, [], 0, [], []⟩ := by
  induction n with
  | zero => exact .new rfl
  | succ n ih =>
    refine ih.step (e := .ref) (Or.inl (Nat.succ_pos _)) ?_ trivial
    simp [LiqState.step, liqRef, LiqState.live, pure, UInt32.ofNat_add]

/-- After 2^64 submits the sequence is 0 again, and after 2^32 references one that is dropped is taken for the last. -/
theorem image_queue_counters_wrap :
    (∃ s q, LiqReach (fun _ => True) 1 1 s ∧ s.queue = some q ∧ q.sequence.toNat ≠ s.accepted) ∧
    ∃ s, LiqReach (fun _ => True) 1 1 s ∧ 0 < s.held ∧ s.step .close = .fault := by
  constructor
  · obtain ⟨s, hs, h⟩ := rounds (2 ^ 64)
    refine ⟨s, _, hs, h.queue, ?_⟩
    rw [h.accepted]
    simp
  · have h1 := (references_reach (2 ^ 32)).step (e := .unref) (Nat.succ_pos _) rfl trivial
    have h2 := h1.step (e := .task .unref) mem_cons_self rfl trivial
    have h3 := h2.step (e := .task .destroy) mem_cons_self rfl trivial
    exact ⟨_, h3, Nat.two_pow_pos 32, rfl⟩

end Runs

end Lunaria.Media
