import Lunaria.Mmap.Arena

/-! Where the allocator's bytes come from. `Placed` says which addresses the bump pointers and the heap top have
    given out so far; free ranges lie inside them. Each source of space is described by the addresses it takes:
    the free list gives up what it holds, a bump pointer moves over fresh addresses, the heap top sinks. -/

namespace Lunaria.Mmap
open Word Vm Spans List

/-- The free list is sorted, disjoint and made of whole aligned blocks. -/
structure FreeOk (l : List MmapSlab) : Prop where
  ordered : Ordered MmapSlab.lo MmapSlab.hi l
  aligned : ∀ s ∈ l, mmapAlign ∣ s.lo ∧ mmapAlign ∣ s.hi
  bound : ∀ s ∈ l, s.hi ≤ 2 ^ 32

/-- A byte of one of the ranges. -/
abbrev Within (l : List MmapSlab) (x : Nat) : Prop := Holds MmapSlab.lo MmapSlab.hi l x

/-! ### Rounding -/

variable {x : Nat}

theorem maskUp_align (hx : x + 65535 < 2 ^ 64) :
    mmapAlign ∣ maskUp 64 mmapAlign x ∧ x ≤ maskUp 64 mmapAlign x ∧ maskUp 64 mmapAlign x < x + mmapAlign := by
  have h := maskUp_two_pow (w := 64) (k := 16) (x := x) (by omega) hx
  unfold mmapAlign
  rw [show (65536 : Nat) = 2 ^ 16 from rfl, h]
  omega

theorem maskDown_align (hx : x < 2 ^ 32) :
    mmapAlign ∣ maskDown 32 mmapAlign x ∧ maskDown 32 mmapAlign x ≤ x ∧ x < maskDown 32 mmapAlign x + mmapAlign := by
  have h := maskDown_two_pow (w := 32) (k := 16) (x := x) (by omega) hx
  unfold mmapAlign
  rw [show (65536 : Nat) = 2 ^ 16 from rfl, h]
  omega

/-- Rounding a 32-bit word up gives an aligned word: the end of the word or zero when it wraps. -/
theorem maskUp32_align : mmapAlign ∣ maskUp 32 mmapAlign x ∧ maskUp 32 mmapAlign x < 2 ^ 32 := by
  have hlt : add 32 x (mmapAlign - 1) < 2 ^ 32 := Nat.mod_lt _ (by decide)
  obtain ⟨hd, hle, -⟩ := maskDown_align hlt
  exact ⟨hd, Nat.lt_of_le_of_lt hle hlt⟩

/-- A length is rounded to whole pages, or to nothing when it wraps. -/
theorem pageLen_dvd (rawLen : Nat) : 4096 ∣ pageLen rawLen ∧ pageLen rawLen < 2 ^ 32 := by
  have hlt : add 32 rawLen (4096 - 1) < 2 ^ 32 := Nat.mod_lt _ (by decide)
  have h := maskDown_two_pow (w := 32) (k := 12) (by omega) hlt
  have heq : pageLen rawLen = add 32 rawLen (4096 - 1) / 2 ^ 12 * 2 ^ 12 := h
  rw [heq]
  omega

theorem pageLen_of_dvd {len : Nat} (hd : 4096 ∣ len) (hlt : len + 4095 < 2 ^ 32) : pageLen len = len := by
  have h := maskUp_two_pow (w := 32) (k := 12) (x := len) (by omega) (by omega)
  have heq : pageLen len = (len + (2 ^ 12 - 1)) / 2 ^ 12 * 2 ^ 12 := h
  omega

/-! ### The free list -/

section FreeList
variable {l : List MmapSlab}

variable {pre post : List MmapSlab} {lo hi : Nat}

/-- Two ranges that touch become one with the same bytes. -/
theorem FreeOk.merge {a b : MmapSlab} (h : FreeOk (pre ++ a :: b :: post)) (htouch : a.hi = b.lo) :
    FreeOk (pre ++ ⟨a.lo, b.hi⟩ :: post) ∧
    ∀ x, Within (pre ++ ⟨a.lo, b.hi⟩ :: post) x ↔ Within (pre ++ a :: b :: post) x := by
  have htail := h.ordered.sublist (sublist_append_right pre _)
  have ha := htail.head_lt
  have hb := htail.tail.head_lt
  have hmem : ∀ s, s ∈ pre ++ (⟨a.lo, b.hi⟩ : MmapSlab) :: post → s = ⟨a.lo, b.hi⟩ ∨ s ∈ pre ++ a :: b :: post := by
    intro s hs
    rcases mem_append.mp hs with hs | hs
    · exact .inr (by simp [hs])
    · rcases mem_cons.mp hs with hs | hs
      · exact .inl hs
      · exact .inr (by simp [hs])
  refine ⟨⟨h.ordered.merge rfl rfl, fun s hs => ?_, fun s hs => ?_⟩, fun x => ?_⟩
  · rcases hmem s hs with rfl | hs
    · exact ⟨(h.aligned a (by simp)).1, (h.aligned b (by simp)).2⟩
    · exact h.aligned s hs
  · rcases hmem s hs with rfl | hs
    · exact h.bound b (by simp)
    · exact h.bound s hs
  · have htwo : Spans.Has MmapSlab.lo MmapSlab.hi ⟨a.lo, b.hi⟩ x ↔
        Spans.Has MmapSlab.lo MmapSlab.hi a x ∨ Spans.Has MmapSlab.lo MmapSlab.hi b x := by
      show (a.lo ≤ x ∧ x < b.hi) ↔ (a.lo ≤ x ∧ x < a.hi) ∨ (b.lo ≤ x ∧ x < b.hi)
      omega
    rw [Within, Within, holds_append, holds_append, holds_cons, holds_cons, holds_cons, htwo, or_assoc]

/-- Taking in the ranges that touch the new one keeps the order and the bytes. -/
theorem absorb_spec : ∀ {after pre : List MmapSlab} {it : MmapSlab}, FreeOk (pre ++ it :: after) →
    FreeOk (pre ++ absorb it after) ∧ ∀ x, Within (pre ++ absorb it after) x ↔ Within (pre ++ it :: after) x
  | [], pre, it, h => ⟨h, fun _ => Iff.rfl⟩
  | nxt :: rest, pre, it, h => by
    unfold absorb
    split
    · rename_i hle
      have htail := h.ordered.sublist (sublist_append_right pre _)
      have hge := htail.head_le nxt (by simp)
      have hnxt := htail.tail.head_lt
      obtain ⟨hmerged, hsame⟩ := h.merge (by omega)
      rw [show max it.hi nxt.hi = nxt.hi by omega]
      obtain ⟨hok, hsame'⟩ := absorb_spec hmerged
      exact ⟨hok, fun x => (hsame' x).trans (hsame x)⟩
    · exact ⟨h, fun _ => Iff.rfl⟩

theorem FreeOk.insert (h : FreeOk (pre ++ post)) (hlt : lo < hi)
    (halign : mmapAlign ∣ lo ∧ mmapAlign ∣ hi) (hbound : hi ≤ 2 ^ 32) (hpre : ∀ s ∈ pre, s.hi ≤ lo)
    (hpost : ∀ s ∈ post, hi ≤ s.lo) : FreeOk (pre ++ ⟨lo, hi⟩ :: post) := by
  have hmem : ∀ s, s ∈ pre ++ (⟨lo, hi⟩ : MmapSlab) :: post → s = ⟨lo, hi⟩ ∨ s ∈ pre ++ post := by
    intro s hs
    rcases mem_append.mp hs with hs | hs
    · exact .inr (mem_append_left _ hs)
    · rcases mem_cons.mp hs with hs | hs
      · exact .inl hs
      · exact .inr (mem_append_right _ hs)
  refine ⟨h.ordered.insert hlt hpre hpost, fun s hs => ?_, fun s hs => ?_⟩
  · rcases hmem s hs with rfl | hs
    · exact halign
    · exact h.aligned s hs
  · rcases hmem s hs with rfl | hs
    · exact hbound
    · exact h.bound s hs

theorem within_insert {lo hi x : Nat} :
    Within (pre ++ ⟨lo, hi⟩ :: post) x ↔ Within (pre ++ post) x ∨ (lo ≤ x ∧ x < hi) := by
  rw [Within, Within, holds_append, holds_append, holds_cons, or_left_comm, or_comm]
  exact Iff.rfl

/-- The aligned blocks of `[lo, hi)` join the free list, if rounding `lo` up does not wrap to zero. -/
theorem mmapFreeInsert_spec (h : FreeOk l) (hlt : lo < hi) (hhi : hi ≤ 2 ^ 32)
    (hwrap : lo ≤ 0xffff0000 ∨ hi = 2 ^ 32) (hfree : ∀ x, lo ≤ x → x < hi → ¬Within l x) :
    FreeOk (mmapFreeInsert l lo (hi % 2 ^ 32)) ∧
    ∀ x, Within (mmapFreeInsert l lo (hi % 2 ^ 32)) x → Within l x ∨ (lo ≤ x ∧ x < hi) := by
  obtain ⟨hupd, huple, huplt⟩ := maskUp_align (x := lo) (by omega)
  obtain ⟨hdnd, hdnle, hdnlt⟩ := maskDown_align (x := hi % 2 ^ 32) (Nat.mod_lt _ (by decide))
  unfold mmapFreeInsert
  dsimp only
  split
  · exact ⟨h, fun x hx => .inl hx⟩
  · rename_i hgt
    have hmod : hi % 2 ^ 32 = hi := by
      have : mmapAlign = 65536 := rfl
      omega
    rw [hmod] at hdnd hdnle hdnlt hgt ⊢
    have hup : maskUp 64 mmapAlign lo % 2 ^ 32 = maskUp 64 mmapAlign lo := by
      have : mmapAlign = 65536 := rfl
      exact Nat.mod_eq_of_lt (by omega)
    rw [hup] at hgt ⊢
    generalize hlo' : maskUp 64 mmapAlign lo = lo' at *
    generalize hhi' : maskDown 32 mmapAlign hi = hi' at *
    have hin : ∀ z, lo' ≤ z → z < hi' → ∀ a ∈ l, ¬Spans.Has MmapSlab.lo MmapSlab.hi a z := fun z h1 h2 a ha hz =>
      hfree z (by omega) (by omega) ⟨a, ha, hz⟩
    obtain ⟨hbefore, hafter⟩ := h.ordered.between (by omega) hin
    have hsplit := takeWhile_append_dropWhile (p := fun s : MmapSlab => decide (s.lo < lo')) (l := l)
    have hok : FreeOk ((l.takeWhile fun s => decide (s.lo < lo')) ++ ⟨lo', hi'⟩ :: l.dropWhile
        fun s => decide (s.lo < lo')) :=
      FreeOk.insert (by rw [hsplit]; exact h) (by omega) ⟨hupd, hdnd⟩ (by omega) hbefore hafter
    split
    · rename_i prev hprev
      obtain ⟨hlast, htouch⟩ := Option.filter_eq_some_iff.mp hprev
      obtain ⟨pre, hpre⟩ := getLast?_eq_some_iff.mp hlast
      have htouch' : prev.hi = lo' := by
        have := hbefore prev (mem_of_getLast? hlast)
        have : lo' ≤ prev.hi := by simpa using htouch
        omega
      have hsplit' : (pre ++ [prev]) ++ l.dropWhile (fun s => decide (s.lo < lo')) = l := hpre ▸ hsplit
      rw [hpre, append_assoc] at hok
      obtain ⟨hmerged, hsame⟩ := hok.merge htouch'
      obtain ⟨hok', hsame'⟩ := absorb_spec hmerged
      rw [hpre, dropLast_concat, show max prev.hi hi' = hi' by omega]
      refine ⟨hok', fun x hx => ?_⟩
      have hx' := (hsame x).mp ((hsame' x).mp hx)
      rw [append_cons] at hx'
      have := within_insert.mp hx'
      rw [hsplit'] at this
      exact this.imp_right fun hx => by omega
    · obtain ⟨hok', hsame⟩ := absorb_spec hok
      refine ⟨hok', fun x hx => ?_⟩
      have := within_insert.mp ((hsame x).mp hx)
      rw [hsplit] at this
      exact this.imp_right fun hx => by omega

/-- First fit gives an aligned range of free bytes away and keeps the rest. -/
theorem mmapFreeTake_spec {len addr : Nat} : ∀ {l l' : List MmapSlab}, FreeOk l → 0 < len → len < 2 ^ 32 →
    mmapFreeTake len l = some (addr, l') →
    FreeOk l' ∧ mmapAlign ∣ addr ∧ (∀ x, Within l' x → Within l x) ∧ addr + len ≤ 2 ^ 32 ∧
    ∀ x, addr ≤ x → x < addr + len → Within l x ∧ ¬Within l' x
  | [], l', h, hpos, hlen, heq => by simp [mmapFreeTake] at heq
  | it :: rest, l', h, hpos, hlen, heq => by
    have hrest : FreeOk rest := ⟨h.ordered.tail, fun s hs => h.aligned s (by simp [hs]),
      fun s hs => h.bound s (by simp [hs])⟩
    have hbound := h.bound it (by simp)
    -- The bytes of the first range are not bytes of the others.
    have hapart : ∀ x, x < it.hi → ¬Within rest x := by
      rintro x hx ⟨s, hs, hsx⟩
      have := h.ordered.head_le s hs
      have := hsx.1
      omega
    unfold mmapFreeTake at heq
    split at heq
    · rename_i hshort
      obtain ⟨⟨addr', rest'⟩, hr, ⟨⟩⟩ := Option.map_eq_some_iff.mp heq
      obtain ⟨hok, halign, hsub, hend, htaken⟩ := mmapFreeTake_spec hrest hpos hlen hr
      have hle : ∀ s ∈ rest', it.hi ≤ s.lo := by
        intro s hs
        by_contra hgt
        have hlt := hok.ordered.nonempty s hs
        exact hapart s.lo (by omega) (hsub s.lo ⟨s, hs, le_rfl, hlt⟩)
      refine ⟨⟨hok.ordered.cons h.ordered.head_lt hle, ?_, ?_⟩, halign, fun x hx => ?_, hend, fun x h1 h2 => ?_⟩
      · exact forall_mem_cons.mpr ⟨h.aligned it (by simp), hok.aligned⟩
      · exact forall_mem_cons.mpr ⟨hbound, hok.bound⟩
      · exact holds_cons.mpr ((holds_cons.mp hx).imp_right (hsub x))
      · obtain ⟨hx, hx'⟩ := htaken x h1 h2
        refine ⟨holds_cons.mpr (.inr hx), fun hin => ?_⟩
        rcases holds_cons.mp hin with hin | hin
        · exact hapart x hin.2 hx
        · exact hx' hin
    · rename_i hfits
      obtain ⟨haddr, hl'⟩ := Prod.mk.inj (Option.some.inj heq)
      subst addr
      have hit := h.ordered.head_lt
      obtain ⟨hupd, huple, -⟩ := maskUp_align (x := it.lo + len) (by omega)
      generalize maskUp 64 mmapAlign (it.lo + len) = next at hl' hupd huple
      have hin : ∀ x, it.lo ≤ x → x < it.lo + len → Within (it :: rest) x := fun x h1 h2 =>
        holds_cons.mpr (.inl ⟨h1, by omega⟩)
      have halign := h.aligned it (by simp)
      split at hl'
      · subst hl'
        exact ⟨hrest, halign.1, fun x hx => holds_cons.mpr (.inr hx), by omega, fun x h1 h2 =>
          ⟨hin x h1 h2, hapart x (by omega)⟩⟩
      · subst hl'
        refine ⟨⟨hrest.ordered.cons (by simpa using by omega) h.ordered.head_le, ?_, ?_⟩, halign.1, fun x hx => ?_,
          by omega, fun x h1 h2 => ⟨hin x h1 h2, fun hx => ?_⟩⟩
        · exact forall_mem_cons.mpr ⟨⟨hupd, halign.2⟩, hrest.aligned⟩
        · exact forall_mem_cons.mpr ⟨hbound, hrest.bound⟩
        · rcases holds_cons.mp hx with hx | hx
          · exact holds_cons.mpr (.inl ⟨by have : next ≤ x := hx.1; omega, hx.2⟩)
          · exact holds_cons.mpr (.inr hx)
        · rcases holds_cons.mp hx with hx | hx
          · have : next ≤ x := hx.1
            omega
          · exact hapart x (by omega) hx

/-- First fit fails if and only if every range is too short. -/
theorem mmapFreeTake_none {len : Nat} : ∀ {l : List MmapSlab}, mmapFreeTake len l = none ↔ ∀ s ∈ l, s.hi - s.lo < len
  | [] => by simp [mmapFreeTake]
  | it :: rest => by
    unfold mmapFreeTake
    split
    · rename_i hshort
      rw [Option.map_eq_none_iff, mmapFreeTake_none, forall_mem_cons]
      exact ⟨fun h => ⟨hshort, h⟩, fun h => h.2⟩
    · rename_i hfits
      exact ⟨fun h => by simp at h, fun h => absurd (h it (by simp)) hfits⟩

end FreeList

/-! ### The bump pointers -/

/-- A bump pointer is a word that is aligned or says that its arena is used up. -/
def Pointer (next : Nat) : Prop := next < 2 ^ 32 ∧ (mmapAlign ∣ next ∨ next = spent)

/-- The range of `len` bytes at `addr` meets no loaded region. -/
def Avoids (regions : List LoadedRegion) (addr len : Nat) : Prop :=
  ∀ r ∈ regions, ∀ x, addr ≤ x → x < addr + len → ¬(r.lo ≤ x ∧ x < r.hi)

section Bump
variable {regions : List LoadedRegion} {len arenaEnd : Nat}

/-- The pointer only moves forward, and what it finds lies behind it, inside the arena and off the regions. -/
theorem bumpIn_spec (hlen : 1 < len) (hend : arenaEnd ≤ 2 ^ 32) : ∀ {spins next : Nat}, Pointer next →
    Pointer (bumpIn regions len arenaEnd spins next).1 ∧ next ≤ (bumpIn regions len arenaEnd spins next).1 ∧
    ∀ addr, (bumpIn regions len arenaEnd spins next).2 = some addr →
      next ≤ addr ∧ addr + len ≤ arenaEnd ∧ mmapAlign ∣ addr ∧ Avoids regions addr len ∧
      (addr + len ≤ (bumpIn regions len arenaEnd spins next).1 ∨ (bumpIn regions len arenaEnd spins next).1 = spent) := by
  intro spins
  induction spins with
  | zero => exact fun hptr => ⟨hptr, le_rfl, fun addr h => by simp [bumpIn] at h⟩
  | succ spins ih =>
    intro next hptr
    rw [bumpIn]
    split
    · exact ⟨hptr, le_rfl, fun addr h => by simp at h⟩
    · rename_i hroom
      cases hr : regions.find? fun r => decide (next < r.hi ∧ r.lo < next + len) with
      | some r =>
        dsimp only
        split
        · exact ⟨hptr, le_rfl, fun addr h => by simp at h⟩
        · rename_i hskip
          obtain ⟨hptr', hle, hfound⟩ := ih ⟨maskUp32_align.2, .inl (maskUp32_align (x := r.hi)).1⟩
          refine ⟨hptr', by omega, fun addr h => ?_⟩
          obtain ⟨h1, h2⟩ := hfound addr h
          exact ⟨by omega, h2⟩
      | none =>
        obtain ⟨hupd, huple, -⟩ := maskUp_align (x := next + len) (by omega)
        dsimp only
        generalize maskUp 64 mmapAlign (next + len) = n64 at hupd huple
        have havoid : Avoids regions next len := by
          intro r hmem x h1 h2 hx
          have := find?_eq_none.mp hr r hmem
          simp at this
          omega
        have haligned : mmapAlign ∣ next := by
          rcases hptr.2 with h | h
          · exact h
          · unfold spent at h
            omega
        split
        · refine ⟨⟨by decide, .inr rfl⟩, by have := hptr.1; unfold spent; omega, fun addr h => ?_⟩
          cases h
          exact ⟨le_rfl, by omega, haligned, havoid, .inr rfl⟩
        · refine ⟨⟨by omega, .inl hupd⟩, by omega, fun addr h => ?_⟩
          cases h
          exact ⟨le_rfl, by omega, haligned, havoid, .inl huple⟩

end Bump

/-! ### The addresses given out so far -/

section Placement
variable {L : Layout} {regions : List LoadedRegion} {s s' : State}

/-- The bump pointers have passed the address. -/
def Bumped (L : Layout) (s : State) (x : Nat) : Prop :=
  (mmapBase ≤ x ∧ x < L.mmapEnd ∧ x < s.next) ∨
  (s.active2 = true ∧ L.mmap2Base ≤ x ∧ x < L.mmap2EndExcl ∧ (x < s.next2 ∨ s.next2 = spent))

/-- The address was taken from an arena, off the loaded regions, or from the heap top. -/
def Placed (L : Layout) (regions : List LoadedRegion) (s : State) (x : Nat) : Prop :=
  (Bumped L s x ∧ ∀ r ∈ regions, ¬(r.lo ≤ x ∧ x < r.hi)) ∨ (s.heapLimit ≤ x ∧ x < L.heapEnd)

/-- The invariant of the allocator's own variables. -/
structure Ok (L : Layout) (regions : List LoadedRegion) (s : State) : Prop where
  free : FreeOk s.freelist
  placed : ∀ x, Within s.freelist x → Placed L regions s x
  next : Pointer s.next ∧ mmapBase ≤ s.next
  next2 : s.active2 = true → Pointer s.next2 ∧ L.mmap2Base ≤ s.next2
  heap : heapBase ≤ s.heapPtr ∧ s.heapPtr ≤ s.heapLimit ∧ s.heapLimit ≤ L.heapEnd

/-- What a successful call takes: aligned bytes that are no longer free and were free or never given out. -/
structure Takes (L : Layout) (regions : List LoadedRegion) (s s' : State) (len addr : Nat) : Prop where
  ok : Ok L regions s'
  mono : ∀ x, Placed L regions s x → Placed L regions s' x
  shrink : ∀ x, Within s'.freelist x → Within s.freelist x
  aligned : mmapAlign ∣ addr
  bytes : ∀ x, addr ≤ x → x < addr + len →
    Placed L regions s' x ∧ ¬Within s'.freelist x ∧ (Within s.freelist x ∨ ¬Placed L regions s x)

/-- What a failed call does: at most it moves the bump pointers forward. -/
structure Leaves (L : Layout) (regions : List LoadedRegion) (s s' : State) : Prop where
  ok : Ok L regions s'
  mono : ∀ x, Placed L regions s x → Placed L regions s' x
  same : s'.freelist = s.freelist
  next_le : s.next ≤ s'.next
  start2_le : start2 L s ≤ start2 L s'
  heap : s'.heapPtr = s.heapPtr ∧ s'.heapLimit = s.heapLimit

variable {t : State} {n addr len : Nat}

theorem Leaves.trans (h : Leaves L regions s t) (h' : Leaves L regions t s') : Leaves L regions s s' :=
  ⟨h'.ok, fun x hx => h'.mono x (h.mono x hx), h'.same.trans h.same, Nat.le_trans h.next_le h'.next_le,
    Nat.le_trans h.start2_le h'.start2_le, h'.heap.1.trans h.heap.1, h'.heap.2.trans h.heap.2⟩

theorem Leaves.takes {len addr : Nat} (h : Leaves L regions s t) (h' : Takes L regions t s' len addr) :
    Takes L regions s s' len addr :=
  ⟨h'.ok, fun x hx => h'.mono x (h.mono x hx), fun x hx => h.same ▸ h'.shrink x hx, h'.aligned, fun x h1 h2 => by
    obtain ⟨hp, hf, hnew⟩ := h'.bytes x h1 h2
    exact ⟨hp, hf, hnew.imp (fun hw => h.same ▸ hw) fun hn hx => hn (h.mono x hx)⟩⟩

theorem Ok.advance {n : Nat} (h : Ok L regions s) (hptr : Pointer n) (hle : s.next ≤ n) :
    Leaves L regions s { s with next := n } := by
  have hmono : ∀ x, Placed L regions s x → Placed L regions { s with next := n } x := by
    intro x hx
    refine hx.imp_left fun ⟨hb, hr⟩ => ⟨hb.imp_left fun ⟨h1, h2, h3⟩ => ⟨h1, h2, by dsimp only; omega⟩, hr⟩
  exact ⟨⟨h.free, fun x hx => hmono x (h.placed x hx), ⟨hptr, by have := h.next.2; dsimp only; omega⟩, h.next2, h.heap⟩,
    hmono, rfl, hle, le_rfl, rfl, rfl⟩

theorem Ok.advance2 {n : Nat} (h : Ok L regions s) (hptr : Pointer n)
    (hle : start2 L s ≤ n) :
    Leaves L regions s { s with active2 := true, next2 := n } := by
  have hmono : ∀ x, Placed L regions s x → Placed L regions { s with active2 := true, next2 := n } x := by
    intro x hx
    refine hx.imp_left fun ⟨hb, hr⟩ => ⟨hb.imp_right fun ⟨h1, h2, h3, h4⟩ => ⟨rfl, h2, h3, ?_⟩, hr⟩
    rw [start2, if_pos h1] at hle
    have := hptr.1
    dsimp only
    unfold spent at *
    omega
  refine ⟨⟨h.free, fun x hx => hmono x (h.placed x hx), h.next, fun _ => ⟨hptr, ?_⟩, h.heap⟩, hmono, rfl, le_rfl, hle,
    rfl, rfl⟩
  by_cases hact : s.active2 = true
  · rw [start2, if_pos hact] at hle
    have := (h.next2 hact).2
    dsimp only
    omega
  · rw [start2, if_neg hact] at hle
    exact hle

theorem Ok.takes_primary (h : Ok L regions s) (hptr : Pointer n) (hle : s.next ≤ n)
    (haddr : s.next ≤ addr) (hend : addr + len ≤ L.mmapEnd) (halign : mmapAlign ∣ addr) (havoid : Avoids regions addr len)
    (hover : addr + len ≤ n ∨ n = spent) : Takes L regions s { s with next := n } len addr := by
  obtain ⟨hok, hmono, -⟩ := h.advance hptr hle
  have hbase := h.next.2
  have hL := L.primary_le
  refine ⟨hok, hmono, fun x hx => hx, halign, fun x h1 h2 => ?_⟩
  have hfresh : ¬Placed L regions s x := by
    rintro (⟨hb | hb, -⟩ | hb)
    · omega
    · have := L.heap_le
      have := L.heap_mmap2
      omega
    · have := h.heap
      omega
  refine ⟨.inl ⟨.inl ⟨by omega, by omega, ?_⟩, fun r hr => havoid r hr x h1 h2⟩, fun hx => hfresh (h.placed x hx), .inr hfresh⟩
  dsimp only
  unfold spent heapBase at *
  omega

theorem Ok.takes_secondary (h : Ok L regions s) (hptr : Pointer n)
    (hle : start2 L s ≤ n) (haddr : start2 L s ≤ addr)
    (hspent : addr < spent) (hend : addr + len ≤ L.mmap2EndExcl) (halign : mmapAlign ∣ addr)
    (havoid : Avoids regions addr len) (hover : addr + len ≤ n ∨ n = spent) :
    Takes L regions s { s with active2 := true, next2 := n } len addr := by
  obtain ⟨hok, hmono, -⟩ := h.advance2 hptr hle
  have hbase : L.mmap2Base ≤ addr := by
    by_cases hact : s.active2 = true
    · rw [start2, if_pos hact] at haddr
      have := (h.next2 hact).2
      omega
    · rwa [start2, if_neg hact] at haddr
  refine ⟨hok, hmono, fun x hx => hx, halign, fun x h1 h2 => ?_⟩
  have hfresh : ¬Placed L regions s x := by
    have hL1 := L.primary_le
    have hL2 := L.heap_le
    have hL3 := L.heap_mmap2
    rintro (⟨hb | ⟨hact, hb⟩, -⟩ | hb)
    · omega
    · rw [start2, if_pos hact] at haddr
      omega
    · omega
  refine ⟨.inl ⟨.inr ⟨rfl, by omega, by omega, ?_⟩, fun r hr => havoid r hr x h1 h2⟩, fun hx => hfresh (h.placed x hx),
    .inr hfresh⟩
  dsimp only
  omega

theorem Ok.takes_top {addr len : Nat} (h : Ok L regions s)
    (htop : lhTakeTop s.heapPtr s.heapLimit len mmapAlign = some addr) :
    Takes L regions s { s with heapLimit := addr } len addr := by
  have hL := L.heap_mmap2
  have hL2 := L.mmap2_lt
  have hheap := h.heap
  unfold lhTakeTop at htop
  split at htop
  · simp at htop
  · rename_i hlen
    obtain ⟨hd, hdle, -⟩ := maskDown_align (x := s.heapLimit - len) (by omega)
    dsimp only at htop
    split at htop
    · simp at htop
    · rename_i hok
      have heq := Option.some.inj htop
      rw [heq] at hd hdle hok
      have hmono : ∀ x, Placed L regions s x → Placed L regions { s with heapLimit := addr } x := fun x hx =>
        hx.imp_right fun ⟨h1, h2⟩ => ⟨by dsimp only; omega, h2⟩
      refine ⟨⟨h.free, fun x hx => hmono x (h.placed x hx), h.next, h.next2, hheap.1, ?_, ?_⟩, hmono,
        fun x hx => hx, hd, ?_⟩
      · dsimp only
        omega
      · dsimp only
        omega
      · intro x h1 h2
        have hfresh : ¬Placed L regions s x := by
          have hL1 := L.primary_le
          rintro (⟨hb | hb, -⟩ | hb)
          · omega
          · omega
          · omega
        exact ⟨.inr ⟨h1, by omega⟩, fun hx => hfresh (h.placed x hx), .inr hfresh⟩

/-- The result of a call, in the two cases of its address. -/
def Served (L : Layout) (regions : List LoadedRegion) (len : Nat) (s : State) (r : State × Option Nat) : Prop :=
  match r.2 with
  | some addr => Takes L regions s r.1 len addr
  | none => Leaves L regions s r.1

theorem Leaves.refl (h : Ok L regions s) : Leaves L regions s s :=
  ⟨h, fun _ hx => hx, rfl, le_rfl, le_rfl, rfl, rfl⟩

theorem Leaves.served {len : Nat} {r : State × Option Nat} (h : Leaves L regions s t)
    (h' : Served L regions len t r) : Served L regions len s r := by
  unfold Served at *
  cases hr : r.2 with
  | some addr => simp only [hr] at h' ⊢; exact h.takes h'
  | none => simp only [hr] at h' ⊢; exact h.trans h'

theorem mmapBump2_served {len : Nat} (h : Ok L regions s) (hlen : 1 < len) :
    Served L regions len s (mmapBump2 L regions len s) := by
  unfold mmapBump2
  split
  · exact Leaves.refl h
  · have hptr : Pointer (start2 L s) := by
      unfold start2
      split
      · rename_i hact
        exact (h.next2 hact).1
      · exact ⟨L.mmap2_lt, .inl L.mmap2_aligned⟩
    obtain ⟨hptr', hle, hfound⟩ := bumpIn_spec hlen L.mmap2_le hptr
    dsimp only
    cases hr : (bumpIn regions len L.mmap2EndExcl 64 (start2 L s)).2 with
    | some addr =>
      obtain ⟨h1, h2, h3, h4, h5⟩ := hfound addr hr
      have hspent : addr < spent := by
        have := L.mmap2_le
        unfold spent
        omega
      exact h.takes_secondary hptr' hle h1 hspent h2 h3 h4 h5
    | none =>
      have hleaves := h.advance2 hptr' hle
      dsimp only
      split
      · cases htop : lhTakeTop s.heapPtr s.heapLimit len mmapAlign with
        | some next => exact hleaves.takes (hleaves.ok.takes_top htop)
        | none => exact hleaves
      · exact hleaves

theorem mmapBump_served {n : Nat} (h : Ok L regions s) :
    Served L regions (pageLen n) s (mmapBump L regions s n) := by
  obtain ⟨hdvd, hlt⟩ := pageLen_dvd n
  unfold mmapBump
  dsimp only
  split
  · exact Leaves.refl h
  · have hlen : 1 < pageLen n := by omega
    split
    · rename_i addr freelist htake
      obtain ⟨hok, halign, hsub, -, htaken⟩ := mmapFreeTake_spec h.free (by omega) hlt htake
      refine ⟨⟨hok, fun x hx => h.placed x (hsub x hx), h.next, h.next2, h.heap⟩, fun x hx => hx, hsub, halign, ?_⟩
      intro x h1 h2
      obtain ⟨hx, hx'⟩ := htaken x h1 h2
      exact ⟨h.placed x hx, hx', .inl hx⟩
    · have hend : L.mmapEnd ≤ 2 ^ 32 := Nat.le_trans L.primary_le (by decide)
      obtain ⟨hptr', hle, hfound⟩ := bumpIn_spec hlen hend h.next.1
      cases hr : (bumpIn regions (pageLen n) L.mmapEnd 64 s.next).2 with
      | some addr =>
        obtain ⟨h1, h2, h3, h4, h5⟩ := hfound addr hr
        exact h.takes_primary hptr' hle h1 h2 h3 h4 h5
      | none =>
        have hleaves := h.advance hptr' hle
        exact hleaves.served (mmapBump2_served hleaves.ok hlen)

end Placement

end Lunaria.Mmap
