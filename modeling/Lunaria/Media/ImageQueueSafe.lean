import Mathlib.Data.List.Count
import Mathlib.Data.List.Perm.Subperm
import Lunaria.Media.ImageQueue

/-! What every run of an image queue keeps, while there are fewer references than a counter of them counts: each image that
    was accepted is in one place, which is the queue, a caller or a thread that frees it, or its pixels are freed. -/

namespace Lunaria.Media
open Function LinkedList List Nat UInt32

/-- The images that a thread has still to free, by the chains that were detached. -/
def LiqTask.images (own : Option Nat → List Nat) : LiqTask → List Nat
  | freeChain image => own image
  | freeImage i => [i]
  | unref => []
  | destroy => []

structure QueueOk (most cap : UInt32) (s : LiqState) (q : LiqQueue) (queued : List Nat) : Prop where
  maxImages : q.maxImages = most
  capacity : q.capacity = cap
  chain : Chain s.link q.head queued
  tail : q.tail = queued.getLast?
  acquired : q.acquired.toNat = s.out.length
  buffers : q.buffers.toNat = queued.length + s.out.length
  room : q.buffers ≤ cap
  margin : q.acquired ≤ most
  sequence : q.sequence.toNat = s.accepted % 2 ^ 64
  closed : q.closed = true → queued = []
  refs : q.refs.toNat = s.references
  destroy : s.pending.count .destroy = if s.references = 0 then 1 else 0

structure LiqInv (most cap : UInt32) (s : LiqState) (queued : List Nat) (own : Option Nat → List Nat) : Prop where
  place : ∀ i, s.freed.count i + queued.count i + s.out.count i + (s.pending.flatMap (LiqTask.images own)).count i =
    if i < s.accepted then 1 else 0
  alive : ∀ q, s.queue = some q → QueueOk most cap s q queued
  gone : s.queue = none → queued = [] ∧ s.references = 0 ∧ .destroy ∉ s.pending
  own : ∀ p, .freeChain p ∈ s.pending → Chain s.link p (own p)
  out : ∀ i, i ∈ s.out ∨ .freeImage i ∈ s.pending → (s.link i).isSome
  queuedOrder : queued.Pairwise (· < ·)
  returnedOrder : s.returned.Pairwise (· < ·)
  returned : ∀ r ∈ s.returned, r < s.accepted ∧ ∀ i ∈ queued, r < i

section Places
variable {most cap : UInt32} {s s' : LiqState} {queued l : List Nat} {own : Option Nat → List Nat} {q : LiqQueue} {i : Nat}
  {t : LiqTask} {p : Option Nat}

section
variable (h : LiqInv most cap s queued own)
include h

theorem LiqInv.nodup : queued.Nodup := h.queuedOrder.imp Nat.ne_of_lt

theorem LiqInv.queued_lt (hi : i ∈ queued) : i < s.accepted := by
  have hplace := h.place i
  have hpos := count_pos_iff.2 hi
  by_contra hlt
  rw [if_neg hlt] at hplace
  omega

theorem LiqInv.not_queued (hi : i ∈ s.out) : i ∉ queued := by
  intro hc
  have hplace := h.place i
  have h1 := count_pos_iff.2 hi
  have h2 := count_pos_iff.2 hc
  split at hplace <;> omega

theorem LiqInv.fresh (hi : s.accepted ≤ i) :
    i ∉ s.freed ∧ i ∉ queued ∧ i ∉ s.out ∧ i ∉ s.pending.flatMap (LiqTask.images own) := by
  have hplace := h.place i
  rw [if_neg (Nat.not_lt.2 hi)] at hplace
  refine ⟨?_, ?_, ?_, ?_⟩ <;> rw [← count_eq_zero] <;> omega

end

theorem mem_pending_images (ht : t ∈ s.pending) (hi : i ∈ t.images own) : i ∈ s.pending.flatMap (LiqTask.images own) :=
  mem_flatMap.2 ⟨t, ht, hi⟩

theorem LiqInv.pending_images (h : LiqInv most cap s queued own) (hi : i ∈ s.pending.flatMap (LiqTask.images own)) :
    i < s.accepted ∧ i ∉ queued ∧ i ∉ s.out := by
  have hplace := h.place i
  have hpos := count_pos_iff.2 hi
  by_cases hlt : i < s.accepted
  · rw [if_pos hlt] at hplace
    refine ⟨hlt, ?_, ?_⟩ <;> rw [← count_eq_zero] <;> omega
  · rw [if_neg hlt] at hplace
    omega

theorem count_erase_add {l : List Nat} (hi : i ∈ l) (j : Nat) : (l.erase i).count j + [i].count j = l.count j := by
  have hperm := (perm_cons_erase hi).count_eq j
  rw [hperm, Nat.add_comm]
  exact (@count_append _ _ j [i] (l.erase i)).symm

theorem count_images_erase (own : Option Nat → List Nat) (ht : t ∈ s.pending) (j : Nat) :
    ((s.pending.erase t).flatMap (LiqTask.images own)).count j +
    (t.images own).count j = (s.pending.flatMap (LiqTask.images own)).count j := by
  have hperm := ((perm_cons_erase ht).flatMap_right (LiqTask.images own)).count_eq j
  rw [hperm, flatMap_cons, count_append, Nat.add_comm]

theorem LiqState.MayCall.references_pos (h : s.MayCall) : 0 < s.references := by
  unfold LiqState.references
  rcases h with h | h
  · omega
  · have := length_pos_iff.2 h
    omega

theorem LiqInv.live (h : LiqInv most cap s queued own) (hpos : 0 < s.references) : ∃ q, s.queue = some q := by
  cases hq : s.queue with
  | none =>
    have := (h.gone hq).2.1
    omega
  | some q => exact ⟨q, rfl⟩

theorem queued_length_le (h : LiqInv most cap s queued own) : queued.length ≤ s.accepted := by
  have hsub : queued ⊆ List.range s.accepted := fun i hi => mem_range.2 (h.queued_lt hi)
  simpa using (List.Nodup.subperm h.nodup hsub).length_le

end Places

/-! ### Freeing -/

def LiqState.without (s : LiqState) (l : List Nat) : LiqState :=
  { s with images := fun i => if i ∈ l then none else s.images i, freed := s.freed ++ l }

section Free
variable {s : LiqState} {q : LiqQueue} {l older : List Nat} {p : Option Nat} {i last fuel : Nat}

theorem link_eq_some : s.link i = some p ↔ ∃ img, s.images i = some img ∧ img.next = p := by
  simp [LiqState.link]

theorem without_link : (s.without l).link i = if i ∈ l then none else s.link i := by
  unfold LiqState.without LiqState.link
  dsimp only
  split <;> rfl

theorem without_link_of_ne {j : Nat} (h : j ≠ i) : (s.without [i]).link j = s.link j := by
  rw [without_link, if_neg fun hj => h (mem_singleton.1 hj)]

theorem without_nil : s.without [] = s := by
  simp [LiqState.without]

theorem without_cons : (s.without [i]).without l = s.without (i :: l) := by
  simp only [LiqState.without, append_assoc, singleton_append, mem_cons, not_mem_nil, or_false]
  congr 1
  funext j
  by_cases h1 : j ∈ l <;> by_cases h2 : j = i <;> simp [h1, h2]

theorem imageFree_eq (h : (s.link i).isSome) : imageFree s i = .ok (s.without [i]) := by
  obtain ⟨p, hp⟩ := Option.isSome_iff_exists.1 h
  obtain ⟨img, himg, -⟩ := link_eq_some.1 hp
  have himages : update s.images i none = fun j => if j ∈ [i] then none else s.images j := by
    funext j
    simp [update_apply]
  simp only [imageFree, LiqState.image, himg, LiqState.without, himages]
  rfl

theorem freeChain_eq (h : Chain s.link p l) (hl : l.Nodup) (hfuel : l.length ≤ fuel) :
    freeChain fuel s p = .ok (s.without l) := by
  induction l generalizing s p fuel with
  | nil =>
    cases h
    rw [without_nil]
    cases fuel <;> rfl
  | cons i l ih =>
    obtain ⟨hmem, hl⟩ := nodup_cons.1 hl
    cases h with
    | @cons _ p _ hi hrest =>
      obtain ⟨fuel, rfl⟩ := exists_eq_succ_of_ne_zero (Nat.pos_iff_ne_zero.1 (Nat.lt_of_lt_of_le (succ_pos _) hfuel))
      obtain ⟨img, himg, rfl⟩ := link_eq_some.1 hi
      have hfree := imageFree_eq (s := s) (i := i) (by rw [hi]; rfl)
      have hrest' : Chain (s.without [i]).link img.next l := hrest.congr fun j hj =>
        without_link_of_ne fun heq => hmem (heq ▸ hj)
      unfold freeChain
      rw [LiqState.image, himg, Checked.bind_ok, hfree, Checked.bind_ok, ih hrest' hl (le_of_succ_le_succ hfuel),
        without_cons]

theorem discardOlder_eq (h : Chain s.link q.head (older ++ [last])) (hl : (older ++ [last]).Nodup)
    (hfuel : older.length < fuel)
    (hbuffers : older.length ≤ q.buffers.toNat) : ∃ b : UInt32, b.toNat = q.buffers.toNat - older.length ∧
      discardOlder fuel s q = .ok (s.without older, { q with head := some last, buffers := b }) := by
  induction older generalizing s q fuel with
  | nil =>
    obtain ⟨fuel, rfl⟩ := exists_eq_succ_of_ne_zero (Nat.pos_iff_ne_zero.1 hfuel)
    have hhead := h.head
    rw [nil_append] at h hhead
    rw [hhead] at h
    obtain ⟨p, rest, heq, hp, hrest⟩ := h.first
    cases heq
    obtain ⟨img, himg, rfl⟩ := link_eq_some.1 hp
    refine ⟨q.buffers, rfl, ?_⟩
    unfold discardOlder
    have hnext : img.next = none := hrest.head
    have hsame : { q with head := some last } = q := by rw [← head?_cons, ← hhead]
    rw [hsame, without_nil]
    simp only [hhead, head?_cons, LiqState.image, himg, Checked.bind_ok, hnext]
    rfl
  | cons i older ih =>
    obtain ⟨fuel, rfl⟩ := exists_eq_succ_of_ne_zero (Nat.pos_iff_ne_zero.1 (Nat.lt_of_le_of_lt (Nat.zero_le _) hfuel))
    have hhead := h.head
    rw [cons_append] at h hl hhead
    rw [hhead] at h
    obtain ⟨p, rest, heq, hp, hrest⟩ := h.first
    cases heq
    obtain ⟨img, himg, rfl⟩ := link_eq_some.1 hp
    obtain ⟨hmem, hl⟩ := nodup_cons.1 hl
    obtain ⟨j, hj⟩ : ∃ j, img.next = some j := by
      cases older with
      | nil => exact ⟨last, hrest.head⟩
      | cons j older => exact ⟨j, hrest.head⟩
    have hfree := imageFree_eq (s := s) (i := i) (by rw [hp]; rfl)
    have hrest' : Chain (s.without [i]).link (some j) (older ++ [last]) := (hj ▸ hrest).congr fun k hk =>
      without_link_of_ne fun heq => hmem (heq ▸ hk)
    have hone : (q.buffers - 1).toNat = q.buffers.toNat - 1 := by
      rw [length_cons] at hbuffers
      exact UInt32.toNat_sub_of_le _ _ (UInt32.le_iff_toNat_le.2 (by simp; omega))
    rw [length_cons] at hfuel hbuffers
    obtain ⟨b, hb, hdiscard⟩ :=
      ih (q := { q with head := some j, buffers := q.buffers - 1 }) hrest' hl (lt_of_succ_lt_succ hfuel)
      (by dsimp only; omega)
    refine ⟨b, by rw [hb]; dsimp only; rw [length_cons]; omega, ?_⟩
    unfold discardOlder
    simp only [hhead, head?_cons, LiqState.image, himg, Checked.bind_ok, hj, hfree, hdiscard, without_cons]

end Free

/-! ### Calls -/

section Calls
variable {most cap : UInt32} {s s' : LiqState} {queued : List Nat} {own : Option Nat → List Nat} {q : LiqQueue}
    {i j : Nat} {older rest : List Nat}

theorem live_eq (hq : s.queue = some q) : s.live = .ok q := by
  rw [LiqState.live, hq]

theorem toNat_succ {a b : UInt32} (h : a < b) : (a + 1).toNat = a.toNat + 1 := by
  have hlt := UInt32.lt_iff_toNat_lt.1 h
  have hb := b.toNat_lt
  rw [UInt32.toNat_add]
  simp only [UInt32.reduceToNat]
  omega

theorem references_congr (hheld : s'.held = s.held) (hout : s'.out = s.out) (hpending : s'.pending = s.pending) :
    s'.references = s.references := by
  unfold LiqState.references
  rw [hheld, hout, hpending]

/-- An image is put behind the queued ones. -/
structure Pushed (s s' : LiqState) (q : LiqQueue) : Prop where
  queue : s'.queue = some {
    q with head := if q.tail = none then some s.accepted else q.head, tail := some s.accepted, buffers :=
      q.buffers + 1, sequence := q.sequence + 1 }
  new : s'.link s.accepted = some none
  last : ∀ t, q.tail = some t → s'.link t = some (some s.accepted)
  other : ∀ j, j ≠ s.accepted → q.tail ≠ some j → s'.link j = s.link j
  accepted : s'.accepted = s.accepted + 1
  pending : s'.pending = s.pending
  held : s'.held = s.held
  out : s'.out = s.out
  returned : s'.returned = s.returned
  freed : s'.freed = s.freed

theorem Pushed.isSome (hp : Pushed s s' q) (hj : (s.link j).isSome) : (s'.link j).isSome := by
  by_cases hnew : j = s.accepted
  · rw [hnew, hp.new]
    rfl
  by_cases hlast : q.tail = some j
  · rw [hp.last j hlast]
    rfl
  · rwa [hp.other j hnew hlast]

theorem Pushed.chain (hp : Pushed s s' q) (hq : QueueOk most cap s q queued) (hl : queued.Nodup)
    (hnew : s.accepted ∉ queued) :
    Chain s'.link (if q.tail = none then some s.accepted else q.head) (queued ++ [s.accepted]) := by
  rcases eq_nil_or_concat queued with rfl | ⟨front, t, rfl⟩
  · rw [if_pos (show q.tail = none from hq.tail)]
    exact .cons hp.new .nil
  · have htail : q.tail = some t := by
      rw [hq.tail]
      simp
    rw [if_neg (by simp [htail])]
    refine hq.chain.concat hl (by simp) hnew (hp.last t htail) hp.new fun k hk hkt => hp.other k ?_ ?_
    · rintro rfl
      exact hnew hk
    · rw [htail]
      exact fun heq => hkt (Option.some.inj heq).symm

theorem Pushed.inv (hp : Pushed s s' q) (h : LiqInv most cap s queued own) (hq : s.queue = some q)
    (hroom : q.buffers < q.capacity) (hopen : q.closed = false) : LiqInv most cap s' (queued ++ [s.accepted]) own := by
  have hqok := h.alive q hq
  obtain ⟨-, hfresh, -, -⟩ := h.fresh le_rfl
  have href := references_congr hp.held hp.out hp.pending
  have hbuffers := toNat_succ hroom
  refine ⟨fun j => ?_, fun q' hq' => ?_, fun hnone => ?_, fun p hpend => ?_, fun j hj => ?_, ?_, ?_, ?_⟩
  · rw [hp.freed, hp.out, hp.pending, hp.accepted, count_append, count_singleton]
    have hplace := h.place j
    by_cases hj : j = s.accepted
    · subst hj
      rw [if_neg (Nat.lt_irrefl _)] at hplace
      rw [if_pos (lt_succ_self _), if_pos (by simp)]
      omega
    · rw [if_neg (by simpa using Ne.symm hj)]
      split at hplace <;> split <;> omega
  · rw [hp.queue] at hq'
    cases hq'
    refine ⟨hqok.maxImages, hqok.capacity, hp.chain hqok h.nodup hfresh, by simp, ?_, ?_, ?_, hqok.margin, ?_, ?_, ?_, ?_⟩
    · rw [hp.out]
      exact hqok.acquired
    · rw [hp.out, hbuffers, hqok.buffers, length_append, length_singleton]
      omega
    · rw [le_iff_toNat_le, hbuffers, ← hqok.capacity]
      exact UInt32.lt_iff_toNat_lt.1 hroom
    · rw [hp.accepted, UInt64.toNat_add, hqok.sequence]
      simp
    · exact fun hclosed => absurd (hclosed.symm.trans hopen) (by decide)
    · rw [href]
      exact hqok.refs
    · rw [href, hp.pending]
      exact hqok.destroy
  · rw [hp.queue] at hnone
    cases hnone
  · rw [hp.pending] at hpend
    refine (h.own p hpend).congr fun j hj => ?_
    obtain ⟨hlt, hnot, -⟩ := h.pending_images (mem_pending_images hpend hj)
    refine hp.other j hlt.ne fun heq => hnot ?_
    rw [hqok.tail] at heq
    exact mem_of_getLast? heq
  · rw [hp.out, hp.pending] at hj
    exact hp.isSome (h.out j hj)
  · rw [pairwise_append]
    refine ⟨h.queuedOrder, pairwise_singleton _ _, fun j hj k hk => ?_⟩
    rw [mem_singleton.1 hk]
    exact h.queued_lt hj
  · rw [hp.returned]
    exact h.returnedOrder
  · rw [hp.returned, hp.accepted]
    intro r hr
    obtain ⟨hlt, hall⟩ := h.returned r hr
    refine ⟨lt_succ_of_lt hlt, fun j hj => ?_⟩
    rcases mem_append.1 hj with hj | hj
    · exact hall j hj
    · rwa [mem_singleton.1 hj]

theorem liqSubmit_spec (h : LiqInv most cap s queued own) (hpos : 0 < s.references) (pixels alloc : Bool)
    (bytes width height : Nat) (timestamp : Int) : ∃ status kept s',
      liqSubmit s pixels bytes width height timestamp alloc = .ok (status, kept, s') ∧
      (status ≠ .ok → kept = pixels ∧ s' = s) ∧
      (status = .ok → kept = false ∧ ∃ q, s.queue = some q ∧ q.closed = false ∧
        q.buffers < q.capacity ∧ Pushed s s' q) := by
  obtain ⟨q, hq⟩ := h.live hpos
  have hqok := h.alive q hq
  unfold liqSubmit
  rw [live_eq hq]
  by_cases hvalid : submitValid pixels bytes width height = true
  swap
  · rw [if_neg hvalid]
    exact ⟨_, pixels, s, rfl, fun _ => ⟨rfl, rfl⟩, nofun⟩
  rw [if_pos hvalid, Checked.bind_ok]
  cases hclosed : q.closed with
  | true => exact ⟨.invalidObject, pixels, s, rfl, fun _ => ⟨rfl, rfl⟩, nofun⟩
  | false =>
    rw [if_neg Bool.false_ne_true]
    by_cases hfull : q.capacity ≤ q.buffers
    · rw [if_pos hfull]
      exact ⟨.wouldBlock, pixels, s, rfl, fun _ => ⟨rfl, rfl⟩, nofun⟩
    rw [if_neg hfull]
    cases alloc with
    | false => exact ⟨.noMemory, pixels, s, rfl, fun _ => ⟨rfl, rfl⟩, nofun⟩
    | true =>
      rw [if_pos rfl]
      dsimp only
      have hroom := UInt32.not_le.1 hfull
      cases htail : q.tail with
      | none =>
        refine ⟨.ok, false, _, rfl, fun hne => absurd rfl hne, fun _ => ⟨rfl, q, hq, hclosed, hroom, ?_⟩⟩
        refine ⟨by simp [htail, hclosed], by simp [LiqState.link], fun t ht => (by cases htail.symm.trans ht),
          fun j hj _ => ?_, rfl, rfl, rfl, rfl, rfl, rfl⟩
        simp [LiqState.link, hj]
      | some t =>
        have hmem : t ∈ queued := mem_of_getLast? (hqok.tail.symm.trans htail)
        obtain ⟨p, hp⟩ := Option.isSome_iff_exists.1 (hqok.chain.isSome t hmem)
        obtain ⟨last, hlast, -⟩ := link_eq_some.1 hp
        have hne : t ≠ s.accepted := (h.queued_lt hmem).ne
        simp only [LiqState.image, update_of_ne hne, hlast, Checked.bind_ok]
        refine ⟨.ok, false, _, rfl, fun hne => absurd rfl hne, fun _ => ⟨rfl, q, hq, hclosed, hroom, ?_⟩⟩
        refine ⟨by simp [htail, hclosed], by simp [LiqState.link, Ne.symm hne], fun t' ht => ?_, fun j hj hjt => ?_,
          rfl, rfl, rfl, rfl, rfl, rfl⟩
        · cases htail.symm.trans ht
          simp [LiqState.link]
        · have hjt' : j ≠ t := fun heq => hjt (heq ▸ htail)
          simp [LiqState.link, hj, hjt']

/-- Images are taken from the front of the queue: the first ones are freed, and the next one is acquired. -/
structure Taken (s s' : LiqState) (q : LiqQueue) (older : List Nat) (i : Nat) (rest : List Nat) : Prop where
  queue : ∃ b : UInt32, b.toNat = q.buffers.toNat - older.length ∧
    s'.queue = some {
      q with head := rest.head?, tail := if rest = [] then none else q.tail, buffers := b, acquired :=
        q.acquired + 1, refs := q.refs + 1 }
  link : ∀ j, s'.link j = if j = i then some none else if j ∈ older then none else s.link j
  accepted : s'.accepted = s.accepted
  pending : s'.pending = s.pending
  held : s'.held = s.held
  out : s'.out = s.out ++ [i]
  returned : s'.returned = s.returned ++ [i]
  freed : s'.freed = s.freed ++ older

theorem Taken.references (ht : Taken s s' q older i rest) : s'.references = s.references + 1 := by
  unfold LiqState.references
  rw [ht.held, ht.out, ht.pending, length_append, length_singleton]
  omega

theorem Taken.inv (ht : Taken s s' q older i rest) (h : LiqInv most cap s (older ++ i :: rest) own)
    (hq : s.queue = some q) (hmargin : q.acquired < q.maxImages) (hopen : q.closed = false) (hpos : 0 < s.references)
    (hbound : s'.references < 2 ^ 32) : LiqInv most cap s' rest own := by
  have hqok := h.alive q hq
  obtain ⟨b, hb, hqueue⟩ := ht.queue
  obtain ⟨hnotOlder, hnotRest⟩ : i ∉ older ∧ i ∉ rest := by
    have hnodup := h.nodup
    rw [nodup_append] at hnodup
    exact ⟨fun hmem => hnodup.2.2 i hmem i mem_cons_self rfl, (nodup_cons.1 hnodup.2.1).1⟩
  have hother : ∀ j, j ∉ older ++ i :: rest → s'.link j = s.link j := by
    intro j hj
    rw [mem_append, mem_cons, not_or, not_or] at hj
    rw [ht.link, if_neg hj.2.1, if_neg hj.1]
  have hacquired := toNat_succ hmargin
  have horder := pairwise_append.1 h.queuedOrder
  refine ⟨fun j => ?_, fun q' hq' => ?_, fun hnone => ?_, fun p hpend => ?_, fun j hj => ?_, ?_, ?_, ?_⟩
  · have hplace := h.place j
    have hcons : (i :: rest).count j = [i].count j + rest.count j := @count_append _ _ j [i] rest
    rw [count_append, hcons] at hplace
    rw [ht.freed, ht.out, ht.pending, ht.accepted, count_append, count_append]
    omega
  · rw [hqueue] at hq'
    cases hq'
    have hlength := hqok.buffers
    rw [length_append, length_cons] at hlength
    refine ⟨hqok.maxImages, hqok.capacity, ?_, ?_, ?_, ?_, ?_, ?_, ?_, ?_, ?_, ?_⟩
    · have hchain : Chain s.link q.head ((older ++ [i]) ++ rest) := by simpa using hqok.chain
      have hnodup : ((older ++ [i]) ++ rest).Nodup := by simpa using h.nodup
      refine hchain.of_append.congr fun j hj => ?_
      have hne := (nodup_append.1 hnodup).2.2
      have hji : j ≠ i := by
        rintro rfl
        exact hnotRest hj
      rw [ht.link, if_neg hji, if_neg fun hold => hne j (mem_append_left _ hold) j hj rfl]
    · dsimp only
      split
      · next hnil => rw [hnil]; rfl
      · next hne =>
        obtain ⟨k, r, rfl⟩ := exists_cons_of_ne_nil hne
        rw [hqok.tail, getLast?_append_of_ne_nil _ (cons_ne_nil _ _), getLast?_cons_cons]
    · rw [ht.out, hacquired, hqok.acquired, length_append, length_singleton]
    · rw [ht.out, hb, length_append, length_singleton]
      omega
    · have hle := UInt32.le_iff_toNat_le.1 hqok.room
      rw [le_iff_toNat_le, hb]
      omega
    · rw [le_iff_toNat_le, hacquired, ← hqok.maxImages]
      exact UInt32.lt_iff_toNat_lt.1 hmargin
    · rw [ht.accepted]
      exact hqok.sequence
    · exact fun hclosed => absurd (hclosed.symm.trans hopen) (by decide)
    · rw [ht.references] at hbound ⊢
      rw [UInt32.toNat_add, hqok.refs]
      simp only [UInt32.reduceToNat]
      omega
    · rw [ht.pending, ht.references, if_neg (succ_ne_zero _), hqok.destroy, if_neg hpos.ne']
  · rw [hqueue] at hnone
    cases hnone
  · rw [ht.pending] at hpend
    exact (h.own p hpend).congr fun j hj => hother j (h.pending_images (mem_pending_images hpend hj)).2.1
  · rw [ht.out, ht.pending, mem_append, mem_singleton] at hj
    by_cases hji : j = i
    · rw [ht.link, if_pos hji]
      rfl
    have hold : j ∈ s.out ∨ .freeImage j ∈ s.pending := by tauto
    rw [hother]
    · exact h.out j hold
    · rcases hold with hout | hpend
      · exact h.not_queued hout
      · exact (h.pending_images (mem_pending_images hpend mem_cons_self)).2.1
  · exact (pairwise_cons.1 horder.2.1).2
  · rw [ht.returned, pairwise_append]
    refine ⟨h.returnedOrder, pairwise_singleton _ _, fun r hr k hk => ?_⟩
    rw [mem_singleton.1 hk]
    exact (h.returned r hr).2 i (mem_append_right _ mem_cons_self)
  · rw [ht.returned, ht.accepted]
    intro r hr
    rcases mem_append.1 hr with hr | hr
    · exact ⟨(h.returned r hr).1, fun j hj => (h.returned r hr).2 j (mem_append_right _ (mem_cons_of_mem _ hj))⟩
    · rw [mem_singleton.1 hr]
      exact ⟨h.queued_lt (mem_append_right _ mem_cons_self), (pairwise_cons.1 horder.2.1).1⟩

theorem takeFirst_eq {b : UInt32} (hchain : Chain s.link (some i) (i :: rest)) (hi : i ∉ older)
    (hrest : ∀ j ∈ rest, j ∉ older) (hb : b.toNat = q.buffers.toNat - older.length) :
    ∃ s', takeFirst (s.without older) { q with head := some i, buffers := b } = .ok (.ok, some i, s') ∧
      Taken s s' q older i rest := by
  obtain ⟨p, r, heq, hp, hr⟩ := hchain.first
  cases heq
  have hp' : (s.without older).link i = some p := by rw [without_link, if_neg hi, hp]
  obtain ⟨img, himg, rfl⟩ := link_eq_some.1 hp'
  have hnext := hr.head
  unfold takeFirst
  dsimp only
  rw [LiqState.image, himg, Checked.bind_ok]
  refine ⟨_, rfl, ⟨b, hb, ?_⟩, fun j => ?_, rfl, rfl, rfl, rfl, rfl, rfl⟩
  · dsimp only
    rw [hnext]
    cases rest <;> simp
  · by_cases hj : j = i
    · simp [LiqState.link, hj]
    · rw [if_neg hj, ← without_link]
      simp [LiqState.link, hj]

/-- An acquire takes the first image, or the newest if it may discard the older ones. -/
theorem liqAcquire_spec (h : LiqInv most cap s queued own) (hq : s.queue = some q) (latest : Bool) :
    ∃ status o s', liqAcquire s latest = .ok (status, o, s') ∧ (status ≠ .ok → s' = s ∧ o = none) ∧
      (status = .ok ↔ q.closed = false ∧ q.acquired < q.maxImages ∧ queued ≠ []) ∧
      (status = .ok → ∃ older i rest, queued = older ++ i :: rest ∧ o = some i ∧ Taken s s' q older i rest ∧
        if latest = true ∧ 2 ≤ q.maxImages - q.acquired then rest = [] else older = []) := by
  have hqok := h.alive q hq
  have hhead : q.head = none ↔ queued = [] := by rw [hqok.chain.head, head?_eq_none_iff]
  unfold liqAcquire
  rw [live_eq hq, Checked.bind_ok]
  cases hclosed : q.closed with
  | true => exact ⟨_, _, s, rfl, fun _ => ⟨rfl, rfl⟩, by simp, nofun⟩
  | false =>
    rw [if_neg Bool.false_ne_true]
    by_cases hfull : q.maxImages ≤ q.acquired
    · rw [if_pos hfull]
      exact ⟨_, _, s, rfl, fun _ => ⟨rfl, rfl⟩, by simp [hfull], nofun⟩
    rw [if_neg hfull]
    by_cases hnil : queued = []
    · rw [if_pos (hhead.2 hnil)]
      exact ⟨_, _, s, rfl, fun _ => ⟨rfl, rfl⟩, by simp [hnil], nofun⟩
    rw [if_neg (mt hhead.1 hnil)]
    have hok : LiqStatus.ok = .ok ↔ false = false ∧ q.acquired < q.maxImages ∧ queued ≠ [] :=
      ⟨fun _ => ⟨rfl, UInt32.not_le.1 hfull, hnil⟩, fun _ => rfl⟩
    split_ifs with hlatest
    · rcases eq_nil_or_concat queued with rfl | ⟨older, i, rfl⟩
      · exact absurd rfl hnil
      rw [concat_eq_append] at *
      have hfuel := queued_length_le h
      rw [length_append, length_singleton] at hfuel
      have hlength := hqok.buffers
      rw [length_append, length_singleton] at hlength
      obtain ⟨b, hb, hdiscard⟩ := discardOlder_eq hqok.chain h.nodup (by omega : older.length < s.accepted) (by omega)
      have hnodup := nodup_append.1 h.nodup
      have hchain : Chain s.link (some i) [i] := hqok.chain.of_append
      obtain ⟨s', htake, htaken⟩ := takeFirst_eq hchain (fun hmem => hnodup.2.2 i hmem i mem_cons_self rfl) nofun hb
      rw [hdiscard, Checked.bind_ok]
      exact ⟨_, _, s', htake, fun hne => absurd rfl hne, hok, fun _ => ⟨older, i, [], rfl, rfl, htaken, rfl⟩⟩
    · obtain ⟨i, rest, rfl⟩ := exists_cons_of_ne_nil hnil
      have hchain := hqok.chain
      have hi := hchain.head
      obtain ⟨s', htake, htaken⟩ := takeFirst_eq (q := q) (hi ▸ hchain) (not_mem_nil) (fun j _ => not_mem_nil) rfl
      rw [without_nil] at htake
      have hsame : { q with head := some i } = q := by rw [← head?_cons, ← hi]
      rw [hsame] at htake
      exact ⟨_, _, s', htake, fun hne => absurd rfl hne, hok, fun _ => ⟨[], i, rest, rfl, rfl, htaken, rfl⟩⟩

theorem toNat_pred {a : UInt32} (h : 0 < a.toNat) : (a - 1).toNat = a.toNat - 1 :=
  UInt32.toNat_sub_of_le _ _ (UInt32.le_iff_toNat_le.2 (by simp; omega))

theorem countP_erase_add {t : LiqTask} {l : List LiqTask} (ht : t ∈ l) (P : LiqTask → Bool) :
    (l.erase t).countP P + (if P t then 1 else 0) = l.countP P := by
  rw [(perm_cons_erase ht).countP_eq P, countP_cons]

theorem count_concat {t u : LiqTask} {l : List LiqTask} : (l ++ [t]).count u = l.count u + if t = u then 1 else 0 := by
  rw [count_append, count_singleton]
  simp

/-- Nothing is accepted or returned, and a closed queue stays closed. -/
def LiqState.Keeps (s s' : LiqState) : Prop :=
  s'.accepted = s.accepted ∧ s'.returned = s.returned ∧
    ∀ q', s'.queue = some q' → ∃ q, s.queue = some q ∧ (q.closed = true → q'.closed = true)

theorem LiqState.Keeps.refl : s.Keeps s := ⟨rfl, rfl, fun q hq => ⟨q, hq, id⟩⟩

def LiqState.released (s : LiqState) (q : LiqQueue) (i : Nat) : LiqState :=
  { s with
    queue := some { q with acquired := q.acquired - 1, buffers := q.buffers - 1 }, out := s.out.erase i
    pending := s.pending ++ [.freeImage i] }

theorem released_references (hi : i ∈ s.out) : (s.released q i).references = s.references := by
  have hlen := length_pos_of_mem hi
  unfold LiqState.references LiqState.released
  dsimp only
  rw [length_erase_of_mem hi, countP_append, countP_singleton]
  simp only [↓reduceIte]
  omega

theorem LiqInv.release (h : LiqInv most cap s queued own) (hi : i ∈ s.out) :
    ∃ q, s.queue = some q ∧ liqRelease s i = .ok (s.released q i) ∧ LiqInv most cap (s.released q i) queued own := by
  have hlen := length_pos_of_mem hi
  have hpos : 0 < s.references := by
    unfold LiqState.references
    omega
  obtain ⟨q, hq⟩ := h.live hpos
  have hqok := h.alive q hq
  obtain ⟨p, hp⟩ := Option.isSome_iff_exists.1 (h.out i (.inl hi))
  obtain ⟨img, himg, -⟩ := link_eq_some.1 hp
  have herase := length_erase_of_mem hi
  have hacquired := toNat_pred (a := q.acquired) (by rw [hqok.acquired]; omega)
  have hbuffers := toNat_pred (a := q.buffers) (by rw [hqok.buffers]; omega)
  refine ⟨q, hq, ?_, ⟨fun j => ?_, fun q' hq' => ?_, nofun, fun p hpend => ?_, fun j hj => ?_, h.queuedOrder,
    h.returnedOrder, h.returned⟩⟩
  · unfold liqRelease
    rw [LiqState.image, himg, Checked.bind_ok, live_eq hq]
    rfl
  · unfold LiqState.released
    dsimp only
    have hplace := h.place j
    have hcount := count_erase_add hi j
    rw [flatMap_append, count_append, flatMap_singleton]
    simp only [LiqTask.images]
    omega
  · cases hq'
    refine ⟨hqok.maxImages, hqok.capacity, hqok.chain, hqok.tail, ?_, ?_, ?_, ?_, hqok.sequence, hqok.closed, ?_, ?_⟩
    · exact hacquired.trans (by rw [hqok.acquired]; exact herase.symm)
    · refine hbuffers.trans ?_
      unfold LiqState.released
      dsimp only
      rw [herase, hqok.buffers]
      omega
    · have := UInt32.le_iff_toNat_le.1 hqok.room
      rw [le_iff_toNat_le, hbuffers]
      omega
    · have := UInt32.le_iff_toNat_le.1 hqok.margin
      rw [le_iff_toNat_le, hacquired]
      omega
    · rw [released_references hi]
      exact hqok.refs
    · rw [released_references hi, ← hqok.destroy]
      exact count_concat
  · rcases mem_append.1 hpend with hpend | hpend
    · exact h.own p hpend
    · cases mem_singleton.1 hpend
  · refine h.out j ?_
    rcases hj with hj | hj
    · exact .inl (mem_of_mem_erase hj)
    · rcases mem_append.1 hj with hj | hj
      · exact .inr hj
      · cases mem_singleton.1 hj
        exact .inl hi

def LiqState.closing (s : LiqState) (q : LiqQueue) : LiqState :=
  { s with
    queue := some { q with closed := true, head := none, tail := none, buffers := q.acquired }
    pending := s.pending ++ [.freeChain q.head] }

theorem closing_references : (s.closing q).references = s.references := by
  unfold LiqState.references LiqState.closing
  dsimp only
  rw [countP_append, countP_singleton]
  rfl

theorem LiqInv.close (h : LiqInv most cap s queued own) (hpos : 0 < s.references) :
    ∃ s' queued' own', liqClose s = .ok s' ∧ LiqInv most cap s' queued' own' ∧ s.Keeps s' := by
  obtain ⟨q, hq⟩ := h.live hpos
  have hqok := h.alive q hq
  unfold liqClose
  rw [live_eq hq, Checked.bind_ok]
  cases hclosed : q.closed with
  | true => exact ⟨s, queued, own, rfl, h, .refl⟩
  | false =>
    rw [if_neg Bool.false_ne_true]
    have hsame : ∀ t ∈ s.pending, LiqTask.images (update own q.head queued) t = LiqTask.images own t := by
      rintro (p | k | _ | _) ht
      · by_cases hp : p = q.head
        · subst hp
          simp only [LiqTask.images, update_self]
          exact hqok.chain.unique (h.own _ ht)
        · simp only [LiqTask.images, update_of_ne hp]
      all_goals rfl
    have hflat : s.pending.flatMap (LiqTask.images (update own q.head queued)) = s.pending.flatMap (LiqTask.images own) :=
      flatMap_congr hsame
    refine ⟨s.closing q, [], update own q.head queued, rfl, ⟨fun j => ?_, fun q' hq' => ?_, nofun, fun p hpend => ?_,
      fun j hj => ?_,
      .nil, h.returnedOrder, fun r hr => ⟨(h.returned r hr).1, nofun⟩⟩, rfl, rfl, fun q' hq' => ⟨q, hq, fun _ => ?_⟩⟩
    · unfold LiqState.closing
      dsimp only
      have hplace := h.place j
      rw [flatMap_append, count_append, flatMap_singleton, hflat]
      simp only [LiqTask.images, update_self, count_nil]
      omega
    · cases hq'
      refine ⟨hqok.maxImages, hqok.capacity, .nil, rfl, hqok.acquired, ?_, ?_, hqok.margin, hqok.sequence,
        fun _ => rfl, ?_, ?_⟩
      · exact hqok.acquired.trans (Nat.zero_add _).symm
      · have h1 := UInt32.le_iff_toNat_le.1 hqok.room
        have h2 := hqok.buffers
        have h3 := hqok.acquired
        rw [le_iff_toNat_le]
        dsimp only
        omega
      · rw [closing_references]
        exact hqok.refs
      · rw [closing_references, ← hqok.destroy]
        exact count_concat
    · by_cases hp : p = q.head
      · subst hp
        rw [update_self]
        exact hqok.chain
      · rw [update_of_ne hp]
        rcases mem_append.1 hpend with hpend | hpend
        · exact h.own p hpend
        · exact absurd (LiqTask.freeChain.inj (mem_singleton.1 hpend)) hp
    · refine h.out j (hj.imp_right fun hj => ?_)
      rcases mem_append.1 hj with hj | hj
      · exact hj
      · cases mem_singleton.1 hj
    · cases hq'
      rfl

def LiqState.referenced (s : LiqState) (q : LiqQueue) : LiqState :=
    { s with queue := some { q with refs := q.refs + 1 }, held := s.held + 1 }

theorem referenced_references : (s.referenced q).references = s.references + 1 := by
  unfold LiqState.references LiqState.referenced
  dsimp only
  omega

theorem LiqInv.ref (h : LiqInv most cap s queued own) (hpos : 0 < s.references) :
    ∃ q, s.queue = some q ∧ liqRef s = .ok (s.referenced q) ∧
    ((s.referenced q).references < 2 ^ 32 → LiqInv most cap (s.referenced q) queued own) := by
  obtain ⟨q, hq⟩ := h.live hpos
  have hqok := h.alive q hq
  refine ⟨q, hq, ?_, fun hbound => ⟨h.place, fun q' hq' => ?_, nofun, h.own, h.out, h.queuedOrder, h.returnedOrder, h.returned⟩⟩
  · unfold liqRef
    rw [live_eq hq]
    rfl
  cases hq'
  refine ⟨hqok.maxImages, hqok.capacity, hqok.chain, hqok.tail, hqok.acquired, hqok.buffers, hqok.room, hqok.margin,
    hqok.sequence, hqok.closed, ?_, ?_⟩
  · rw [referenced_references] at hbound ⊢
    rw [UInt32.toNat_add, hqok.refs]
    simp only [UInt32.reduceToNat]
    omega
  · rw [referenced_references, if_neg (succ_ne_zero _)]
    exact hqok.destroy.trans (if_neg hpos.ne')

theorem LiqInv.unref (h : LiqInv most cap s queued own) (hheld : 0 < s.held) :
    LiqInv most cap { s with held := s.held - 1, pending := s.pending ++ [.unref] } queued own ∧
      ({ s with held := s.held - 1, pending := s.pending ++ [.unref] } : LiqState).references = s.references := by
  have href : ({ s with held := s.held - 1, pending := s.pending ++ [.unref] } : LiqState).references = s.references := by
    unfold LiqState.references
    dsimp only
    rw [countP_append, countP_singleton]
    simp only [↓reduceIte]
    omega
  refine ⟨⟨fun j => ?_, fun q hq => ?_, fun hnone => ?_, fun p hpend => ?_, fun j hj => ?_, h.queuedOrder,
    h.returnedOrder, h.returned⟩, href⟩
  · dsimp only
    rw [flatMap_append, flatMap_singleton]
    simpa [LiqTask.images] using h.place j
  · have hqok := h.alive q hq
    refine ⟨hqok.maxImages, hqok.capacity, hqok.chain, hqok.tail, hqok.acquired, hqok.buffers, hqok.room, hqok.margin,
      hqok.sequence, hqok.closed, ?_, ?_⟩
    · rw [href]
      exact hqok.refs
    · rw [href, count_concat, hqok.destroy]
      rfl
  · have hpos : 0 < s.references := by
      unfold LiqState.references
      omega
    have := (h.gone hnone).2.1
    omega
  · rcases mem_append.1 hpend with hpend | hpend
    · exact h.own p hpend
    · cases mem_singleton.1 hpend
  · refine h.out j (hj.imp_right fun hj => ?_)
    rcases mem_append.1 hj with hj | hj
    · exact hj
    · cases mem_singleton.1 hj

end Calls

end Lunaria.Media
