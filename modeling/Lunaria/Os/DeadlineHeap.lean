import Lunaria.Lib.BinaryHeap

/-! The deadlines of the guest threads that sleep: a binary heap of the deadlines, and for each thread its position in the
    heap. There are 255 thread ids. -/

namespace Lunaria.Os
open BinaryHeap Function

/-- `luna_deadline_entry` -/
@[ext] structure DeadlineEntry where
  deadlineNs : Nat
  tid : Nat
  deriving DecidableEq

/-- `luna_deadline_heap`, with no entry at index zero. -/
structure DeadlineHeap where
  entries : Nat → DeadlineEntry
  positions : Nat → Nat
  count : Nat

/-- `luna_deadline_heap_clear` -/
def deadlineHeapClear : DeadlineHeap := ⟨fun _ => ⟨0, 0⟩, fun _ => 0, 0⟩

/-- `luna_deadline_heap_contains` -/
def deadlineHeapContains (h : DeadlineHeap) (tid : Nat) : Bool := 0 < tid ∧ tid < 256 ∧ h.positions tid ≠ 0

/-- `luna_deadline_before` -/
def deadlineBefore (a b : DeadlineEntry) : Bool :=
  a.deadlineNs < b.deadlineNs ∨ a.deadlineNs = b.deadlineNs ∧ a.tid < b.tid

/-- `luna_deadline_swap` -/
def deadlineSwap (h : DeadlineHeap) (a b : Nat) : DeadlineHeap :=
  let entries := update (update h.entries a (h.entries b)) b (h.entries a)
  { h with entries, positions := update (update h.positions (entries a).tid a) (entries b).tid b }

/-- The way up of `luna_deadline_fix`. -/
def deadlineUp (h : DeadlineHeap) (i : Nat) : DeadlineHeap :=
  if 1 < i ∧ deadlineBefore (h.entries i) (h.entries (i / 2)) then deadlineUp (deadlineSwap h i (i / 2)) (i / 2) else h
termination_by i

/-- The child that the way down compares with. -/
def deadlineChild (h : DeadlineHeap) (i : Nat) : Nat :=
  if 2 * i < h.count ∧ deadlineBefore (h.entries (2 * i + 1)) (h.entries (2 * i)) then 2 * i + 1 else 2 * i

theorem deadlineBefore_irrefl (a : DeadlineEntry) : ¬ deadlineBefore a a := by
  simp [deadlineBefore]

/-- The way down of `luna_deadline_fix`. -/
def deadlineDown (h : DeadlineHeap) (i : Nat) : DeadlineHeap :=
  if 2 * i ≤ h.count ∧ deadlineBefore (h.entries (deadlineChild h i)) (h.entries i) then
    deadlineDown (deadlineSwap h i (deadlineChild h i)) (deadlineChild h i)
  else h
termination_by h.count + 1 - i
decreasing_by
  rename_i hi
  have hne : deadlineChild h i ≠ i := fun heq => deadlineBefore_irrefl _ (heq ▸ hi.2)
  have hge : 2 * i ≤ deadlineChild h i := by
    unfold deadlineChild
    split <;> omega
  simp only [deadlineSwap]
  omega

/-- `luna_deadline_fix` -/
def deadlineFix (h : DeadlineHeap) (i : Nat) : DeadlineHeap :=
  if 1 < i ∧ deadlineBefore (h.entries i) (h.entries (i / 2)) then deadlineUp h i else deadlineDown h i

/-- `luna_deadline_heap_remove` -/
def deadlineHeapRemove (h : DeadlineHeap) (tid : Nat) : DeadlineHeap :=
  if deadlineHeapContains h tid then
    let i := h.positions tid
    let h := { h with positions := update h.positions tid 0 }
    let h := if i ≠ h.count then
        { h with entries := update h.entries i (h.entries h.count),
                 positions := update h.positions (h.entries h.count).tid i }
      else h
    let h := { h with count := h.count - 1 }
    if i ≤ h.count then deadlineFix h i else h
  else h

/-- `luna_deadline_heap_set` -/
def deadlineHeapSet (h : DeadlineHeap) (tid deadlineNs : Nat) : DeadlineHeap :=
  if tid = 0 ∨ 256 ≤ tid then h
  else if deadlineNs = 0 then deadlineHeapRemove h tid
  else
    let i := if h.positions tid = 0 then h.count + 1 else h.positions tid
    let h := if h.positions tid = 0 then { h with count := i, positions := update h.positions tid i } else h
    deadlineFix { h with entries := update h.entries i ⟨deadlineNs, tid % 256⟩ } i

/-- `luna_deadline_heap_peek` -/
def deadlineHeapPeek (h : DeadlineHeap) : Option DeadlineEntry := if h.count = 0 then none else some (h.entries 1)

/-! ### Runs -/

inductive DeadlineOp where
  | set (tid deadlineNs : Nat)
  | remove (tid : Nat)
  | clear
  deriving DecidableEq

def DeadlineOp.apply (h : DeadlineHeap) : DeadlineOp → DeadlineHeap
  | set tid deadlineNs => deadlineHeapSet h tid deadlineNs
  | remove tid => deadlineHeapRemove h tid
  | clear => deadlineHeapClear

/-- What a sequence of operations makes of an empty heap. -/
def deadlineRun (ops : List DeadlineOp) : DeadlineHeap := ops.foldl DeadlineOp.apply deadlineHeapClear

/-- What an operation says of the deadlines of the threads. -/
def DeadlineOp.record (latest : Nat → Option Nat) : DeadlineOp → Nat → Option Nat
  | set tid deadlineNs => update latest tid (if deadlineNs = 0 then none else some deadlineNs)
  | remove tid => update latest tid none
  | clear => fun _ => none

/-- The deadline that the last operation on a thread set, if it set one. -/
def latestDeadline (ops : List DeadlineOp) : Nat → Option Nat := ops.foldl DeadlineOp.record fun _ => none

def IsTid (t : Nat) : Prop := 0 < t ∧ t < 256

instance (t : Nat) : Decidable (IsTid t) := inferInstanceAs (Decidable (_ ∧ _))

/-! ### Positions -/

/-- Each entry is at the position of its thread, and each position holds its thread's entry. -/
structure Indexed (h : DeadlineHeap) : Prop where
  entry : ∀ i, 1 ≤ i → i ≤ h.count → IsTid (h.entries i).tid ∧ h.positions (h.entries i).tid = i
  position : ∀ t, h.positions t ≠ 0 → h.positions t ≤ h.count ∧ (h.entries (h.positions t)).tid = t

def Has (h : DeadlineHeap) (e : DeadlineEntry) : Prop := ∃ i, 1 ≤ i ∧ i ≤ h.count ∧ h.entries i = e

/-- What the heap orders the positions by. -/
def keys (h : DeadlineHeap) (i : Nat) : ℕ ×ₗ ℕ := toLex ((h.entries i).deadlineNs, (h.entries i).tid)

section Swap
variable {h : DeadlineHeap} {a b i j : Nat}

theorem deadlineBefore_iff : deadlineBefore (h.entries i) (h.entries j) ↔ keys h i < keys h j := by
  simp [deadlineBefore, keys, Prod.Lex.lt_iff]

theorem Indexed.inj (hi : Indexed h) (ha : 1 ≤ a ∧ a ≤ h.count) (hb : 1 ≤ b ∧ b ≤ h.count)
    (htid : (h.entries a).tid = (h.entries b).tid) : a = b := by
  rw [← (hi.entry a ha.1 ha.2).2, htid, (hi.entry b hb.1 hb.2).2]

theorem Indexed.count_le (hi : Indexed h) : h.count ≤ 255 := by
  have hcard : (Finset.Icc 1 h.count).card ≤ (Finset.Icc 1 255).card :=
    Finset.card_le_card_of_injOn (fun i => (h.entries i).tid)
      (fun i him => by
        obtain ⟨hone, hle⟩ := Finset.mem_Icc.1 him
        have htid := (hi.entry i hone hle).1
        exact Finset.mem_coe.2 (Finset.mem_Icc.2 ⟨htid.1, Nat.le_of_lt_succ htid.2⟩))
      fun i him j hjm heq => hi.inj (Finset.mem_Icc.1 him) (Finset.mem_Icc.1 hjm) heq
  simpa using hcard

theorem swap_entries : (deadlineSwap h a b).entries = h.entries ∘ Equiv.swap a b := by
  funext k
  simp only [deadlineSwap, comp, update_apply, Equiv.swap_apply_def]
  split_ifs with hb ha <;> simp_all

theorem swap_positions (hi : Indexed h) (ha : 1 ≤ a ∧ a ≤ h.count) (hb : 1 ≤ b ∧ b ≤ h.count) :
    (deadlineSwap h a b).positions = Equiv.swap a b ∘ h.positions := by
  have hata := (hi.entry a ha.1 ha.2).2
  have hatb := (hi.entry b hb.1 hb.2).2
  have hea : (update (update h.entries a (h.entries b)) b (h.entries a)) a = h.entries b := by
    by_cases hab : a = b
    · rw [hab, update_self]
    · rw [update_of_ne hab, update_self]
  funext t
  simp only [deadlineSwap, comp, hea, update_self, update_apply]
  by_cases hta : t = (h.entries a).tid
  · rw [if_pos hta, hta, hata, Equiv.swap_apply_left]
  rw [if_neg hta]
  by_cases htb : t = (h.entries b).tid
  · rw [if_pos htb, htb, hatb, Equiv.swap_apply_right]
  rw [if_neg htb, Equiv.swap_apply_of_ne_of_ne]
  · intro heq
    have hpos := hi.position t (by omega)
    rw [heq] at hpos
    exact hta hpos.2.symm
  · intro heq
    have hpos := hi.position t (by omega)
    rw [heq] at hpos
    exact htb hpos.2.symm

theorem swap_range (ha : 1 ≤ a ∧ a ≤ h.count) (hb : 1 ≤ b ∧ b ≤ h.count) (hi : 1 ≤ i ∧ i ≤ h.count) :
    1 ≤ Equiv.swap a b i ∧ Equiv.swap a b i ≤ h.count := by
  rw [Equiv.swap_apply_def]
  split_ifs
  · exact hb
  · exact ha
  · exact hi

theorem Indexed.swap (hi : Indexed h) (ha : 1 ≤ a ∧ a ≤ h.count) (hb : 1 ≤ b ∧ b ≤ h.count) :
    Indexed (deadlineSwap h a b) where
  entry i hone hle := by
    obtain ⟨hone', hle'⟩ := swap_range ha hb ⟨hone, hle⟩
    obtain ⟨htid, hpos⟩ := hi.entry _ hone' hle'
    rw [swap_positions hi ha hb, swap_entries, comp, comp]
    exact ⟨htid, by rw [hpos, Equiv.swap_apply_self]⟩
  position t ht := by
    rw [swap_positions hi ha hb, comp] at ht ⊢
    have hzero : h.positions t ≠ 0 := by
      rintro heq
      rw [heq, Equiv.swap_apply_of_ne_of_ne (by omega) (by omega)] at ht
      exact ht rfl
    obtain ⟨hle, htid⟩ := hi.position t hzero
    refine ⟨(swap_range ha hb ⟨Nat.pos_of_ne_zero hzero, hle⟩).2, ?_⟩
    rw [swap_entries, comp, Equiv.swap_apply_self, htid]

theorem has_swap (ha : 1 ≤ a ∧ a ≤ h.count) (hb : 1 ≤ b ∧ b ≤ h.count) (e : DeadlineEntry) :
    Has (deadlineSwap h a b) e ↔ Has h e := by
  constructor
  · rintro ⟨i, hone, hle, he⟩
    obtain ⟨hone', hle'⟩ := swap_range ha hb ⟨hone, hle⟩
    exact ⟨_, hone', hle', by rw [← he, swap_entries, comp]⟩
  · rintro ⟨i, hone, hle, he⟩
    obtain ⟨hone', hle'⟩ := swap_range ha hb ⟨hone, hle⟩
    exact ⟨_, hone', hle', by rw [swap_entries, comp, Equiv.swap_apply_self, he]⟩

theorem keys_swap : keys (deadlineSwap h a b) = keys h ∘ Equiv.swap a b := by
  funext k
  simp only [keys, swap_entries, comp]

end Swap

/-! ### The heap is put right -/

/-- What `luna_deadline_fix` makes of a heap with one entry out of place. -/
structure Fixed (h h' : DeadlineHeap) : Prop where
  indexed : Indexed h'
  heap : Heap (keys h') h'.count
  count : h'.count = h.count
  has : ∀ e, Has h' e ↔ Has h e

section Fix
variable {h h' : DeadlineHeap} {a b i : Nat}

theorem Fixed.of_swap (ha : 1 ≤ a ∧ a ≤ h.count) (hb : 1 ≤ b ∧ b ≤ h.count) (hf : Fixed (deadlineSwap h a b) h') :
    Fixed h h' :=
  ⟨hf.indexed, hf.heap, hf.count, fun e => (hf.has e).trans (has_swap ha hb e)⟩

theorem deadlineUp_fixed (hi : Indexed h) (hr : Rising (keys h) h.count i) (hone : 1 ≤ i) (hle : i ≤ h.count) :
    Fixed h (deadlineUp h i) := by
  induction h, i using deadlineUp.induct with
  | case1 h i hc ih =>
    rw [deadlineUp, if_pos hc]
    have hp : 1 ≤ i / 2 ∧ i / 2 ≤ h.count := by omega
    have hup := hr.up (by omega) hle (deadlineBefore_iff.1 hc.2)
    rw [← keys_swap] at hup
    exact .of_swap ⟨hone, hle⟩ hp (ih (hi.swap ⟨hone, hle⟩ hp) hup hp.1 hp.2)
  | case2 h i hc =>
    rw [deadlineUp, if_neg hc]
    refine ⟨hi, hr.heap fun htwo => ?_, rfl, fun _ => Iff.rfl⟩
    exact not_lt.1 fun hlt => hc ⟨htwo, deadlineBefore_iff.2 hlt⟩

theorem deadlineChild_least (hle : 2 * i ≤ h.count) : deadlineChild h i / 2 = i ∧ deadlineChild h i ≤ h.count ∧
    ∀ k, k ≤ h.count → k / 2 = i → keys h (deadlineChild h i) ≤ keys h k := by
  unfold deadlineChild
  split_ifs with hc
  · have hlt := deadlineBefore_iff.1 hc.2
    refine ⟨by omega, hc.1, fun k hk hhalf => ?_⟩
    rcases (by omega : k = 2 * i ∨ k = 2 * i + 1) with rfl | rfl
    · exact hlt.le
    · exact le_refl _
  · refine ⟨by omega, hle, fun k hk hhalf => ?_⟩
    rcases (by omega : k = 2 * i ∨ k = 2 * i + 1) with rfl | rfl
    · exact le_refl _
    · exact not_lt.1 fun hlt => hc ⟨hk, deadlineBefore_iff.2 hlt⟩

theorem deadlineDown_fixed (hi : Indexed h) (hs : Sinking (keys h) h.count i) (hone : 1 ≤ i) (hle : i ≤ h.count) :
    Fixed h (deadlineDown h i) := by
  induction h, i using deadlineDown.induct with
  | case1 h i hc ih =>
    rw [deadlineDown, if_pos hc]
    obtain ⟨hhalf, hchild, hleast⟩ := deadlineChild_least hc.1
    have hrange : 1 ≤ deadlineChild h i ∧ deadlineChild h i ≤ h.count := by omega
    have hdown := hs.down hhalf hchild (deadlineBefore_iff.1 hc.2) hleast
    rw [← keys_swap] at hdown
    exact .of_swap ⟨hone, hle⟩ hrange (ih (hi.swap ⟨hone, hle⟩ hrange) hdown hrange.1 hrange.2)
  | case2 h i hc =>
    rw [deadlineDown, if_neg hc]
    refine ⟨hi, hs.heap fun k _ hk hhalf => ?_, rfl, fun _ => Iff.rfl⟩
    have hchild : 2 * i ≤ h.count := by omega
    obtain ⟨-, -, hleast⟩ := deadlineChild_least hchild
    have hge : keys h i ≤ keys h (deadlineChild h i) := not_lt.1 fun hlt => hc ⟨hchild, deadlineBefore_iff.2 hlt⟩
    exact hge.trans (hleast k hk hhalf)

theorem deadlineFix_fixed (hi : Indexed h) (hb : HeapBut (keys h) h.count i) (hone : 1 ≤ i) (hle : i ≤ h.count) :
    Fixed h (deadlineFix h i) := by
  unfold deadlineFix
  split_ifs with hc
  · exact deadlineUp_fixed hi (hb.rising hc.1 (deadlineBefore_iff.1 hc.2)) hone hle
  · refine deadlineDown_fixed hi (hb.sinking fun htwo => ?_) hone hle
    exact not_lt.1 fun hlt => hc ⟨htwo, deadlineBefore_iff.2 hlt⟩

end Fix

/-! ### Operations -/

structure Sleeping (h : DeadlineHeap) (latest : Nat → Option Nat) : Prop where
  indexed : Indexed h
  heap : Heap (keys h) h.count
  has : ∀ t d, IsTid t ∧ latest t = some d ↔ Has h ⟨d, t⟩

section Operations
variable {h : DeadlineHeap} {latest : Nat → Option Nat} {tid d : Nat}

theorem Sleeping.fixed {h' : DeadlineHeap} (hf : Fixed h h') (hhas : ∀ t d, IsTid t ∧ latest t = some d ↔ Has h ⟨d, t⟩) :
    Sleeping h' latest :=
  ⟨hf.indexed, hf.heap, fun t d => (hhas t d).trans (hf.has _).symm⟩

theorem contains_iff (hi : Indexed h) : deadlineHeapContains h tid = true ↔ h.positions tid ≠ 0 := by
  simp only [deadlineHeapContains, decide_eq_true_eq]
  constructor
  · exact fun hc => hc.2.2
  · intro hpos
    obtain ⟨hle, htid⟩ := hi.position tid hpos
    have hid := (hi.entry _ (Nat.pos_of_ne_zero hpos) hle).1
    rw [htid] at hid
    exact ⟨hid.1, hid.2, hpos⟩

theorem has_iff (hi : Indexed h) : Has h ⟨d, tid⟩ ↔ h.positions tid ≠ 0 ∧ (h.entries (h.positions tid)).deadlineNs = d := by
  constructor
  · rintro ⟨i, hone, hle, he⟩
    have hpos := (hi.entry i hone hle).2
    rw [he] at hpos
    dsimp only at hpos
    rw [hpos, he]
    exact ⟨by omega, rfl⟩
  · rintro ⟨hpos, hd⟩
    obtain ⟨hle, htid⟩ := hi.position tid hpos
    exact ⟨h.positions tid, Nat.pos_of_ne_zero hpos, hle, DeadlineEntry.ext hd htid⟩

/-- Entries that keep their threads keep their place in what the heap holds. -/
theorem has_of_positions {h' : DeadlineHeap} (hi : Indexed h) (hi' : Indexed h') (hzero : h'.positions tid = 0)
    (hsame : ∀ t, t ≠ tid → (h'.positions t = 0 ↔ h.positions t = 0) ∧
      (h.positions t ≠ 0 → h'.entries (h'.positions t) = h.entries (h.positions t))) (e : DeadlineEntry) :
    Has h' e ↔ Has h e ∧ e.tid ≠ tid := by
  obtain ⟨d, t⟩ := e
  rw [has_iff hi', has_iff hi]
  by_cases ht : t = tid
  · simp [ht, hzero]
  · obtain ⟨hpos, hentry⟩ := hsame t ht
    constructor
    · rintro ⟨hne, hd⟩
      have hne' := mt hpos.2 hne
      exact ⟨⟨hne', by rwa [hentry hne'] at hd⟩, ht⟩
    · rintro ⟨⟨hne, hd⟩, -⟩
      exact ⟨mt hpos.1 hne, by rwa [hentry hne]⟩

/-- The heap without the entry of a thread, whose place the last entry takes. -/
def withoutEntry (h : DeadlineHeap) (tid : Nat) : DeadlineHeap :=
  let i := h.positions tid
  if i ≠ h.count then
    ⟨update h.entries i (h.entries h.count), update (update h.positions tid 0) (h.entries h.count).tid i, h.count - 1⟩
  else ⟨h.entries, update h.positions tid 0, h.count - 1⟩

theorem remove_eq (hc : deadlineHeapContains h tid = true) : deadlineHeapRemove h tid =
    if h.positions tid ≤ h.count - 1 then deadlineFix (withoutEntry h tid) (h.positions tid) else withoutEntry h tid := by
  unfold deadlineHeapRemove withoutEntry
  rw [if_pos hc]
  by_cases hlast : h.positions tid = h.count <;> simp [hlast]

theorem withoutEntry_count : (withoutEntry h tid).count = h.count - 1 := by
  unfold withoutEntry
  dsimp only
  split <;> rfl

theorem withoutEntry_entries {k : Nat} (hk : k ≠ h.positions tid) : (withoutEntry h tid).entries k = h.entries k := by
  unfold withoutEntry
  dsimp only
  split
  · exact update_of_ne hk _ _
  · rfl

/-- The thread of the last entry. -/
def lastTid (h : DeadlineHeap) : Nat := (h.entries h.count).tid

theorem withoutEntry_facts (hi : Indexed h) (hpos : h.positions tid ≠ 0) :
    Indexed (withoutEntry h tid) ∧ ∀ e, Has (withoutEntry h tid) e ↔ Has h e ∧ e.tid ≠ tid := by
  obtain ⟨hle, htid⟩ := hi.position tid hpos
  have hone := Nat.pos_of_ne_zero hpos
  have hlast := (hi.entry h.count (by omega) le_rfl).2
  have hother {k : Nat} (hk : 1 ≤ k) (hkn : k ≤ h.count) (hne : k ≠ h.positions tid) : (h.entries k).tid ≠ tid := by
    intro heq
    rw [← heq, (hi.entry k hk hkn).2] at hne
    exact hne rfl
  by_cases hend : h.positions tid = h.count
  · have hw : withoutEntry h tid = ⟨h.entries, update h.positions tid 0, h.count - 1⟩ := if_neg (not_not.2 hend)
    have hi' : Indexed (withoutEntry h tid) := by
      rw [hw]
      refine ⟨fun k hk hkn => ?_, fun t ht => ?_⟩
      · dsimp only at hkn ⊢
        rw [update_of_ne (hother hk (by omega) (by omega))]
        exact hi.entry k hk (by omega)
      · dsimp only at ht ⊢
        have hne : t ≠ tid := by
          rintro rfl
          exact ht (update_self _ _ _)
        rw [update_of_ne hne] at ht ⊢
        obtain ⟨htle, htt⟩ := hi.position t ht
        refine ⟨?_, htt⟩
        have : h.positions t ≠ h.positions tid := fun heq => hne (by rw [← htt, heq, htid])
        omega
    refine ⟨hi', has_of_positions hi hi' ?_ fun t ht => ?_⟩
    · rw [hw]
      exact update_self _ _ _
    · rw [hw]
      dsimp only
      rw [update_of_ne ht]
      exact ⟨Iff.rfl, fun _ => rfl⟩
  · have hw : withoutEntry h tid = ⟨update h.entries (h.positions tid) (h.entries h.count),
        update (update h.positions tid 0) (lastTid h) (h.positions tid), h.count - 1⟩ := if_pos hend
    have hlt : lastTid h ≠ tid := hother (by omega) le_rfl (Ne.symm hend)
    have hmoved : ∀ t, t ≠ tid → t ≠ lastTid h → h.positions t ≠ 0 → h.positions t ≠ h.positions tid ∧
        h.positions t < h.count := by
      intro t ht htl htz
      obtain ⟨htle, htt⟩ := hi.position t htz
      have h1 : h.positions t ≠ h.positions tid := fun heq => ht (by rw [← htt, heq, htid])
      have h2 : h.positions t ≠ h.count := fun heq => htl (by rw [← htt, heq]; rfl)
      omega
    have hi' : Indexed (withoutEntry h tid) := by
      rw [hw]
      refine ⟨fun k hk hkn => ?_, fun t ht => ?_⟩
      · dsimp only at hkn ⊢
        by_cases hki : k = h.positions tid
        · rw [hki, update_self]
          exact ⟨(hi.entry h.count (by omega) le_rfl).1, update_self _ _ _⟩
        · have hne : (h.entries k).tid ≠ lastTid h := fun heq => by
            have := hi.inj ⟨hk, by omega⟩ ⟨by omega, le_rfl⟩ heq
            omega
          rw [update_of_ne hki, update_of_ne hne, update_of_ne (hother hk (by omega) hki)]
          exact hi.entry k hk (by omega)
      · dsimp only at ht ⊢
        by_cases htl : t = lastTid h
        · rw [htl, update_self, update_self]
          exact ⟨by omega, rfl⟩
        · rw [update_of_ne htl] at ht ⊢
          have hne : t ≠ tid := by
            rintro rfl
            exact ht (update_self _ _ _)
          rw [update_of_ne hne] at ht ⊢
          obtain ⟨h1, h2⟩ := hmoved t hne htl ht
          rw [update_of_ne h1]
          exact ⟨by omega, (hi.position t ht).2⟩
    refine ⟨hi', has_of_positions hi hi' ?_ fun t ht => ?_⟩
    · rw [hw]
      exact (update_of_ne hlt.symm _ _).trans (update_self _ _ _)
    · rw [hw]
      dsimp only
      by_cases htl : t = lastTid h
      · have hat : h.positions t = h.count := by rw [htl]; exact hlast
        rw [htl, update_self, update_self, ← htl, hat]
        exact ⟨by omega, fun _ => rfl⟩
      · rw [update_of_ne htl, update_of_ne ht]
        exact ⟨Iff.rfl, fun htz => update_of_ne (hmoved t ht htl htz).1 _ _⟩

/-- The record of a thread is taken away. -/
theorem Sleeping.remove (hs : Sleeping h latest) : Sleeping (deadlineHeapRemove h tid) (update latest tid none) := by
  have hrecord (hhas : ∀ e, Has h e → e.tid ≠ tid ∨ ¬ IsTid tid) (t d : Nat) :
      IsTid t ∧ update latest tid none t = some d ↔ Has h ⟨d, t⟩ := by
    rw [← hs.has]
    by_cases ht : t = tid
    · subst ht
      rw [update_self]
      refine ⟨fun hn => absurd hn.2 nofun, fun hd => ?_⟩
      rcases hhas _ ((hs.has t d).1 hd) with hne | hne
      · exact absurd rfl hne
      · exact absurd hd.1 hne
    · rw [update_of_ne ht]
  by_cases hc : deadlineHeapContains h tid = true
  · have hpos := (contains_iff hs.indexed).1 hc
    obtain ⟨hi', hhas'⟩ := withoutEntry_facts hs.indexed hpos
    have hlatest : ∀ t d, IsTid t ∧ update latest tid none t = some d ↔ Has (withoutEntry h tid) ⟨d, t⟩ := by
      intro t d
      rw [hhas', ← hs.has]
      by_cases ht : t = tid
      · subst ht
        rw [update_self]
        exact ⟨fun hn => absurd hn.2 nofun, fun hn => absurd rfl hn.2⟩
      · rw [update_of_ne ht]
        exact ⟨fun hd => ⟨hd, ht⟩, fun hd => hd.1⟩
    have hbut : HeapBut (keys (withoutEntry h tid)) (withoutEntry h tid).count (h.positions tid) :=
      hs.heap.but fun k hk hne => by
        rw [withoutEntry_count] at hk
        refine ⟨by omega, ?_⟩
        rw [keys, withoutEntry_entries hne]
        rfl
    rw [remove_eq hc]
    split_ifs with hle
    · have hone := Nat.pos_of_ne_zero hpos
      exact .fixed (deadlineFix_fixed hi' hbut hone (by rwa [withoutEntry_count])) hlatest
    · refine ⟨hi', fun k hk hkn => ?_, hlatest⟩
      rw [withoutEntry_count] at hkn
      refine hbut.other k hk (by rwa [withoutEntry_count]) (by omega) (by omega)
  · rw [deadlineHeapRemove, if_neg hc]
    refine ⟨hs.indexed, hs.heap, hrecord fun e he => .inl ?_⟩
    obtain ⟨i, hone, hle, rfl⟩ := he
    rintro heq
    refine hc ((contains_iff hs.indexed).2 ?_)
    rw [← heq, (hs.indexed.entry i hone hle).2]
    omega

def withEntry (h : DeadlineHeap) (tid deadlineNs : Nat) : DeadlineHeap :=
  let i := if h.positions tid = 0 then h.count + 1 else h.positions tid
  ⟨update h.entries i ⟨deadlineNs, tid⟩, update h.positions tid i, max h.count i⟩

theorem set_eq (hi : Indexed h) (hid : IsTid tid) (hd : d ≠ 0) : deadlineHeapSet h tid d =
    deadlineFix (withEntry h tid d) (if h.positions tid = 0 then h.count + 1 else h.positions tid) := by
  obtain ⟨hpos, hlt⟩ := hid
  unfold deadlineHeapSet withEntry
  rw [if_neg (by omega), if_neg hd, Nat.mod_eq_of_lt hlt]
  by_cases hzero : h.positions tid = 0
  · simp [hzero]
  · have hle := (hi.position tid hzero).1
    simp [hzero, hle]

theorem withEntry_facts (hi : Indexed h) (hid : IsTid tid) :
    Indexed (withEntry h tid d) ∧ ∀ e, Has (withEntry h tid d) e ↔ e = ⟨d, tid⟩ ∨ Has h e ∧ e.tid ≠ tid := by
  obtain ⟨i, hidef⟩ : ∃ i, i = if h.positions tid = 0 then h.count + 1 else h.positions tid := ⟨_, rfl⟩
  have hw : withEntry h tid d = ⟨update h.entries i ⟨d, tid⟩, update h.positions tid i, max h.count i⟩ := by
    rw [hidef]
    rfl
  have hpos : 1 ≤ i := by
    rw [hidef]
    split <;> omega
  have hold {k : Nat} (hk : k ≤ max h.count i) (hne : k ≠ i) : k ≤ h.count := by
    have : i ≤ h.count + 1 := by
      rw [hidef]
      split
      · exact le_rfl
      · next hz => exact Nat.le_succ_of_le (hi.position tid hz).1
    omega
  have hother {k : Nat} (hk : 1 ≤ k) (hkn : k ≤ h.count) (hne : k ≠ i) : (h.entries k).tid ≠ tid := by
    intro heq
    have hat := (hi.entry k hk hkn).2
    rw [heq] at hat
    rw [hidef, if_neg (by omega)] at hne
    omega
  have hmoved {t : Nat} (ht : t ≠ tid) (htz : h.positions t ≠ 0) : h.positions t ≠ i := by
    obtain ⟨hle, htt⟩ := hi.position t htz
    rw [hidef]
    split
    · omega
    · next hz =>
      intro heq
      exact ht (by rw [← htt, heq, (hi.position tid hz).2])
  have hi' : Indexed (withEntry h tid d) := by
    rw [hw]
    refine ⟨fun k hk hkn => ?_, fun t ht => ?_⟩
    · dsimp only at hkn ⊢
      by_cases hki : k = i
      · rw [hki, update_self]
        exact ⟨hid, update_self _ _ _⟩
      · have hkc := hold hkn hki
        rw [update_of_ne hki, update_of_ne (hother hk hkc hki)]
        exact hi.entry k hk hkc
    · dsimp only at ht ⊢
      by_cases htt : t = tid
      · rw [htt, update_self, update_self]
        exact ⟨le_max_right _ _, rfl⟩
      · rw [update_of_ne htt] at ht ⊢
        rw [update_of_ne (hmoved htt ht)]
        exact ⟨le_max_of_le_left (hi.position t ht).1, (hi.position t ht).2⟩
  refine ⟨hi', fun e => ?_⟩
  obtain ⟨d', t⟩ := e
  rw [has_iff hi', has_iff hi, hw]
  dsimp only
  by_cases ht : t = tid
  · rw [ht, update_self, update_self]
    constructor
    · rintro ⟨-, rfl⟩
      exact .inl rfl
    · rintro (heq | ⟨-, hne⟩)
      · exact ⟨by omega, (congrArg DeadlineEntry.deadlineNs heq).symm⟩
      · exact absurd rfl hne
  · rw [update_of_ne ht]
    constructor
    · rintro ⟨hz, hd⟩
      rw [update_of_ne (hmoved ht hz)] at hd
      exact .inr ⟨⟨hz, hd⟩, ht⟩
    · rintro (heq | ⟨⟨hz, hd⟩, -⟩)
      · exact absurd (congrArg DeadlineEntry.tid heq) ht
      · exact ⟨hz, by rwa [update_of_ne (hmoved ht hz)]⟩

theorem Sleeping.set (hs : Sleeping h latest) (hid : IsTid tid) (hd : d ≠ 0) :
    Sleeping (deadlineHeapSet h tid d) (update latest tid (some d)) := by
  obtain ⟨hi', hhas⟩ := withEntry_facts (d := d) hs.indexed hid
  obtain ⟨i, hidef⟩ : ∃ i, i = if h.positions tid = 0 then h.count + 1 else h.positions tid := ⟨_, rfl⟩
  have hcount : (withEntry h tid d).count = max h.count i := by
    rw [hidef]
    rfl
  have hle : i ≤ h.count + 1 := by
    rw [hidef]
    split
    · exact le_rfl
    · next hz => exact Nat.le_succ_of_le (hs.indexed.position tid hz).1
  have hbut : HeapBut (keys (withEntry h tid d)) (withEntry h tid d).count i := by
    refine hs.heap.but fun k hk hne => ⟨by omega, ?_⟩
    have hentry : (withEntry h tid d).entries k = h.entries k := by
      rw [hidef] at hne
      exact update_of_ne hne _ _
    rw [keys, hentry]
    rfl
  have hone : 1 ≤ i := by
    rw [hidef]
    split <;> omega
  rw [set_eq hs.indexed hid hd, ← hidef]
  refine .fixed (deadlineFix_fixed hi' hbut hone (by omega)) fun t d' => ?_
  rw [hhas, ← hs.has]
  by_cases ht : t = tid
  · subst ht
    rw [update_self]
    simp [hid, eq_comm]
  · rw [update_of_ne ht]
    simp [ht]

theorem Sleeping.outside (hs : Sleeping h latest) (hid : ¬ IsTid tid) (r : Option Nat) :
    Sleeping h (update latest tid r) := by
  refine ⟨hs.indexed, hs.heap, fun t d => ?_⟩
  rw [← hs.has]
  by_cases ht : t = tid
  · subst ht
    simp [hid]
  · rw [update_of_ne ht]

theorem clear_sleeping : Sleeping deadlineHeapClear fun _ => none where
  indexed := ⟨fun i hone hle => absurd (hone.trans hle) (by decide), fun _ ht => absurd rfl ht⟩
  heap k htwo hk := absurd (htwo.trans hk) (by decide)
  has t d := ⟨fun hd => absurd hd.2 nofun, fun ⟨i, hone, hle, _⟩ => absurd (hone.trans hle) (by decide)⟩

theorem Sleeping.apply (hs : Sleeping h latest) (op : DeadlineOp) : Sleeping (op.apply h) (op.record latest) := by
  cases op with
  | set tid d =>
    simp only [DeadlineOp.apply, DeadlineOp.record]
    by_cases hid : IsTid tid
    · by_cases hd : d = 0
      · have hset : deadlineHeapSet h tid d = deadlineHeapRemove h tid := by
          obtain ⟨hpos, hlt⟩ := hid
          rw [deadlineHeapSet, if_neg (by omega), if_pos hd]
        rw [hset, if_pos hd]
        exact hs.remove
      · rw [if_neg hd]
        exact hs.set hid hd
    · have hset : deadlineHeapSet h tid d = h := if_pos (by unfold IsTid at hid; omega)
      rw [hset]
      exact hs.outside hid _
  | remove tid => exact hs.remove
  | clear => exact clear_sleeping

theorem run_sleeping (ops : List DeadlineOp) : Sleeping (deadlineRun ops) (latestDeadline ops) := by
  have hrun : ∀ (ops : List DeadlineOp) (h : DeadlineHeap) (latest : Nat → Option Nat), Sleeping h latest →
      Sleeping (ops.foldl DeadlineOp.apply h) (ops.foldl DeadlineOp.record latest) := by
    intro ops
    induction ops with
    | nil => exact fun _ _ hs => hs
    | cons op ops ih => exact fun _ _ hs => ih _ _ (hs.apply op)
  exact hrun ops _ _ clear_sleeping

theorem Sleeping.contains_iff (hs : Sleeping h latest) :
    deadlineHeapContains h tid = true ↔ IsTid tid ∧ (latest tid).isSome := by
  rw [Os.contains_iff hs.indexed, Option.isSome_iff_exists]
  constructor
  · intro hpos
    have hhas := (hs.has tid _).2 ((has_iff hs.indexed).2 ⟨hpos, rfl⟩)
    exact ⟨hhas.1, _, hhas.2⟩
  · rintro ⟨hid, d, hd⟩
    exact ((has_iff hs.indexed).1 ((hs.has tid d).1 ⟨hid, hd⟩)).1

theorem Sleeping.peek (hs : Sleeping h latest) : (deadlineHeapPeek h = none ↔ ∀ t, IsTid t → latest t = none) ∧
    ∀ e, deadlineHeapPeek h = some e → IsTid e.tid ∧ latest e.tid = some e.deadlineNs ∧
      ∀ t d, IsTid t → latest t = some d → t ≠ e.tid → deadlineBefore e ⟨d, t⟩ = true := by
  unfold deadlineHeapPeek
  split_ifs with hzero
  · refine ⟨⟨fun _ t hid => ?_, fun _ => rfl⟩, nofun⟩
    cases hl : latest t with
    | none => rfl
    | some d =>
      obtain ⟨i, hone, hle, -⟩ := (hs.has t d).1 ⟨hid, hl⟩
      omega
  · have hfirst : Has h (h.entries 1) := ⟨1, le_rfl, Nat.pos_of_ne_zero hzero, rfl⟩
    have hcurrent := (hs.has (h.entries 1).tid (h.entries 1).deadlineNs).2 hfirst
    refine ⟨⟨nofun, fun hall => ?_⟩, ?_⟩
    · rw [hall _ hcurrent.1] at hcurrent
      cases hcurrent.2
    · rintro e ⟨⟩
      refine ⟨hcurrent.1, hcurrent.2, fun t d hid hd hne => ?_⟩
      obtain ⟨i, hone, hle, he⟩ := (hs.has t d).1 ⟨hid, hd⟩
      have hmin := hs.heap.first_le hone hle
      rw [← he, deadlineBefore_iff]
      refine lt_of_le_of_ne hmin fun heq => hne ?_
      have htid : (h.entries 1).tid = (h.entries i).tid := congrArg (fun k => (ofLex k).2) heq
      rw [htid, he]

end Operations

/-- After every sequence of operations the entries and the positions are inverse to each other, the threads of the heap are
    the ones whose last operation set a deadline, and the first entry is the earliest of the latest deadlines. -/
theorem deadline_heap (ops : List DeadlineOp) :
    (deadlineRun ops).count ≤ 255 ∧
    (∀ i, 1 ≤ i → i ≤ (deadlineRun ops).count → (deadlineRun ops).positions ((deadlineRun ops).entries i).tid = i) ∧
    (∀ t, (deadlineRun ops).positions t ≠ 0 → (deadlineRun ops).positions t ≤ (deadlineRun ops).count ∧
      ((deadlineRun ops).entries ((deadlineRun ops).positions t)).tid = t) ∧
    (∀ t, deadlineHeapContains (deadlineRun ops) t = true ↔ IsTid t ∧ (latestDeadline ops t).isSome) ∧
    (deadlineHeapPeek (deadlineRun ops) = none ↔ ∀ t, IsTid t → latestDeadline ops t = none) ∧
    ∀ e, deadlineHeapPeek (deadlineRun ops) = some e → IsTid e.tid ∧ latestDeadline ops e.tid = some e.deadlineNs ∧
      ∀ t d, IsTid t → latestDeadline ops t = some d → t ≠ e.tid → deadlineBefore e ⟨d, t⟩ = true := by
  have hs := run_sleeping ops
  exact ⟨hs.indexed.count_le, fun i hone hle => (hs.indexed.entry i hone hle).2, hs.indexed.position,
    fun _ => hs.contains_iff, hs.peek⟩

/-- A deadline for an id that no thread has is not kept. -/
theorem deadline_outside : ¬ ∀ ops t, deadlineHeapContains (deadlineRun ops) t = true ↔ (latestDeadline ops t).isSome := by
  intro h
  have := h [.set 256 5] 256
  simp [deadlineHeapContains, latestDeadline, DeadlineOp.record] at this

end Lunaria.Os
