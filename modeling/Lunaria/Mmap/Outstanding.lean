import Lunaria.Mmap.Space

/-! Runs of the allocator together with the ranges its callers hold. A range is outstanding from the call that
    reports it until it is freed, in whole or in part. Outstanding ranges stay apart as long as a split request
    never reports more than it took (`Fits`, `NoRoom`) and no free rounds its start up over the end of the
    32-bit space. -/

namespace Lunaria.Mmap
open Word Vm Spans List

/-- The allocator and the ranges outstanding. -/
structure Sys where
  state : State
  live : List MmapSlab
deriving DecidableEq

/-- The calls, and the movement of the heap's bump pointer by `malloc` and `free`. -/
inductive Op where
  | bump (rawLen : Nat)
  | exact (rawLen : Nat) (allowSplit : Bool)
  | free (lo hi : Nat)
  | heapMove (ptr : Nat)
deriving DecidableEq

/-- What a free of `[lo, hi)` leaves of an outstanding range. -/
def cutSlab (lo hi : Nat) (s : MmapSlab) : List MmapSlab :=
  (if s.lo < min s.hi lo then [⟨s.lo, min s.hi lo⟩] else []) ++ (if max s.lo hi < s.hi then [⟨max s.lo hi, s.hi⟩] else [])

/-- One call, with the address and length it reports. The end of a freed range is passed as a 32-bit word. -/
def Sys.step (L : Layout) (regions : List LoadedRegion) (s : Sys) : Op → Sys × Option (Nat × Nat)
  | .bump rawLen =>
    match mmapBump L regions s.state rawLen with
    | (state, some addr) => (⟨state, ⟨addr, addr + pageLen rawLen⟩ :: s.live⟩, some (addr, pageLen rawLen))
    | (state, none) => (⟨state, s.live⟩, none)
  | .exact rawLen allowSplit =>
    match mmapBumpExact L regions s.state rawLen allowSplit with
    | (state, some (addr, len)) => (⟨state, ⟨addr, addr + len⟩ :: s.live⟩, some (addr, len))
    | (state, none) => (⟨state, s.live⟩, none)
  | .free lo hi =>
    (⟨{ s.state with freelist := mmapFreeInsert s.state.freelist lo (hi % 2 ^ 32) }, s.live.flatMap (cutSlab lo hi)⟩, none)
  | .heapMove ptr => (⟨{ s.state with heapPtr := ptr }, s.live⟩, none)

/-- What the callers promise: a free names a part of one outstanding range, and the heap stays in its window. -/
def Op.Valid (s : Sys) : Op → Prop
  | .bump _ => True
  | .exact _ _ => True
  | .free lo hi => lo < hi ∧ ∃ a ∈ s.live, a.lo ≤ lo ∧ hi ≤ a.hi
  | .heapMove ptr => heapBase ≤ ptr ∧ ptr ≤ s.state.heapLimit

instance (s : Sys) (op : Op) : Decidable (op.Valid s) := by
  cases op <;> unfold Op.Valid <;> infer_instance

/-- There is room for `len` bytes: a free range is long enough, a bump pointer finds a place or the heap top has one. -/
def Fits (L : Layout) (regions : List LoadedRegion) (s : State) (len : Nat) : Prop :=
  (∃ e ∈ s.freelist, len ≤ e.hi - e.lo) ∨ (bumpIn regions len L.mmapEnd 64 s.next).2.isSome ∨
  (bumpIn regions len L.mmap2EndExcl 64 (start2 L s)).2.isSome ∨
  (len ≤ 0x01000000 ∧ (lhTakeTop s.heapPtr s.heapLimit len mmapAlign).isSome)

/-- There is no place for `len` bytes, whatever the search: neither a free range nor an aligned gap between the
    loaded regions ahead of a bump pointer, nor the heap top. -/
structure NoRoom (L : Layout) (regions : List LoadedRegion) (s : State) (len : Nat) : Prop where
  free : ∀ e ∈ s.freelist, e.hi - e.lo < len
  primary : ∀ addr, s.next ≤ addr → mmapAlign ∣ addr → addr + len ≤ L.mmapEnd → ¬Avoids regions addr len
  secondary : ∀ addr, start2 L s ≤ addr → mmapAlign ∣ addr → addr + len ≤ L.mmap2EndExcl → ¬Avoids regions addr len
  top : len ≤ 0x01000000 → lhTakeTop s.heapPtr s.heapLimit len mmapAlign = none

/-- The condition under which the call keeps outstanding ranges apart: a request that may be split fits as it is,
    or no shorter one fits either; and a free that starts in the last 64 KiB runs to the end of the 32-bit space. -/
def Op.Sound (L : Layout) (regions : List LoadedRegion) (s : Sys) : Op → Prop
  | .bump _ => True
  | .exact rawLen allowSplit => allowSplit = true → pageLen rawLen ≤ 0x10000000 →
      Fits L regions s.state (pageLen rawLen) ∨ ∀ len ∈ halvings 16 (pageLen rawLen), NoRoom L regions s.state len
  | .free lo hi => lo ≤ 0xffff0000 ∨ hi = 2 ^ 32
  | .heapMove _ => True

/-- The states that calls under the condition lead to. -/
inductive Reach (L : Layout) (regions : List LoadedRegion) : Sys → Prop
  | init {ptr : Nat} (h : heapBase ≤ ptr ∧ ptr ≤ L.heapEnd) : Reach L regions ⟨.init L ptr, []⟩
  | step {s : Sys} {op : Op} : Reach L regions s → op.Valid s → op.Sound L regions s →
    Reach L regions (s.step L regions op).1

/-- Two ranges do not overlap. -/
def Apart (a b : MmapSlab) : Prop := a.hi ≤ b.lo ∨ b.hi ≤ a.lo

instance (a b : MmapSlab) : Decidable (Apart a b) := inferInstanceAs (Decidable (_ ∨ _))

/-- Outstanding ranges are pairwise apart, and each of their bytes was taken from an arena, off the loaded
    regions, or from the heap top. -/
structure Outstanding (L : Layout) (regions : List LoadedRegion) (s : Sys) : Prop where
  apart : s.live.Pairwise Apart
  inside : ∀ a ∈ s.live, ∀ x, a.lo ≤ x → x < a.hi → Placed L regions s.state x

/-- The invariant: outstanding bytes are given out and not free. -/
structure Good (L : Layout) (regions : List LoadedRegion) (s : Sys) : Prop where
  ok : Ok L regions s.state
  apart : s.live.Pairwise Apart
  nonempty : ∀ a ∈ s.live, a.lo < a.hi
  held : ∀ x, Within s.live x → Placed L regions s.state x ∧ ¬Within s.state.freelist x

theorem Good.outstanding {L : Layout} {regions : List LoadedRegion} {s : Sys} (h : Good L regions s) :
    Outstanding L regions s := ⟨h.apart, fun a ha x h1 h2 => (h.held x ⟨a, ha, h1, h2⟩).1⟩

section Step
variable {L : Layout} {regions : List LoadedRegion} {s : Sys}

/-! ### Requests -/

theorem Good.takes {t : State} {len addr : Nat} (h : Good L regions s) (hpos : 0 < len)
    (ht : Takes L regions s.state t len addr) : Good L regions ⟨t, ⟨addr, addr + len⟩ :: s.live⟩ := by
  have hnew : ∀ x, addr ≤ x → x < addr + len → ¬Within s.live x := by
    intro x h1 h2 hx
    obtain ⟨hplaced, hfree⟩ := h.held x hx
    exact (ht.bytes x h1 h2).2.2.elim hfree fun hn => hn hplaced
  refine ⟨ht.ok, pairwise_cons.mpr ⟨fun a ha => ?_, h.apart⟩, forall_mem_cons.mpr ⟨by dsimp only; omega, h.nonempty⟩,
    fun x hx => ?_⟩
  · have hlt := h.nonempty a ha
    by_contra hmeet
    unfold Apart at hmeet
    exact hnew (max addr a.lo) (by omega) (by dsimp only at hmeet; omega) ⟨a, ha, Nat.le_max_right .., by
      dsimp only at hmeet; omega⟩
  · rcases holds_cons.mp hx with hx | hx
    · exact ⟨(ht.bytes x hx.1 hx.2).1, (ht.bytes x hx.1 hx.2).2.1⟩
    · obtain ⟨hplaced, hfree⟩ := h.held x hx
      exact ⟨ht.mono x hplaced, fun hw => hfree (ht.shrink x hw)⟩

theorem Good.leaves {t : State} (h : Good L regions s) (ht : Leaves L regions s.state t) : Good L regions ⟨t, s.live⟩ :=
  ⟨ht.ok, h.apart, h.nonempty, fun x hx => ⟨ht.mono x (h.held x hx).1, by
    show ¬Within t.freelist x
    rw [ht.same]
    exact (h.held x hx).2⟩⟩

variable {state : State} {len : Nat} {lo hi : Nat}

/-- Room is enough for a request to be served. -/
theorem mmapBump_of_fits (h : Ok L regions state) (hdvd : 4096 ∣ len) (h0 : len ≠ 0)
    (hmax : len ≤ mmapMaxSingle) (hfits : Fits L regions state len) : (mmapBump L regions state len).2.isSome := by
  have hlen : pageLen len = len := pageLen_of_dvd hdvd (by unfold mmapMaxSingle at hmax; omega)
  unfold mmapBump
  dsimp only
  rw [hlen, if_neg (by omega)]
  cases htake : mmapFreeTake len state.freelist with
  | some r => rfl
  | none =>
    have hshort := mmapFreeTake_none.mp htake
    dsimp only
    cases hr : (bumpIn regions len L.mmapEnd 64 state.next).2 with
    | some addr => rfl
    | none =>
      dsimp only
      have hne : ¬(state.active2 = true ∧ state.next2 = 0) := fun hact => by
        have := (h.next2 hact.1).2
        have := L.heap_le
        have := L.heap_mmap2
        unfold heapBase at *
        omega
      unfold mmapBump2
      rw [if_neg hne]
      dsimp only
      have hstart : start2 L { state with next := (bumpIn regions len L.mmapEnd 64 state.next).1 } = start2 L state := rfl
      rw [hstart]
      cases hr2 : (bumpIn regions len L.mmap2EndExcl 64 (start2 L state)).2 with
      | some addr => rfl
      | none =>
        rcases hfits with ⟨e, he, hle⟩ | hf | hf | ⟨hle, htop⟩
        · have := hshort e he
          omega
        · simp [hr] at hf
        · simp [hr2] at hf
        · dsimp only
          rw [if_pos hle]
          obtain ⟨next, hnext⟩ := Option.isSome_iff_exists.mp htop
          rw [hnext]
          rfl

theorem mmapBump_of_noRoom (h : Ok L regions state) (hlen : pageLen len = len)
    (hno : NoRoom L regions state len) : (mmapBump L regions state len).2 = none := by
  obtain ⟨hdvd, -⟩ := pageLen_dvd len
  rw [hlen] at hdvd
  unfold mmapBump
  dsimp only
  rw [hlen]
  split
  · rfl
  · have hgt : 1 < len := by omega
    rw [mmapFreeTake_none.mpr hno.free]
    dsimp only
    have hend : L.mmapEnd ≤ 2 ^ 32 := Nat.le_trans L.primary_le (by decide)
    obtain ⟨hptr', hle, hfound⟩ := bumpIn_spec hgt hend h.next.1
    cases hr : (bumpIn regions len L.mmapEnd 64 state.next).2 with
    | some addr =>
      obtain ⟨h1, h2, h3, h4, -⟩ := hfound addr hr
      exact absurd h4 (hno.primary addr h1 h3 h2)
    | none =>
      dsimp only
      unfold mmapBump2
      split
      · rfl
      · have hstart : start2 L { state with next := (bumpIn regions len L.mmapEnd 64 state.next).1 } = start2 L state := rfl
        dsimp only
        rw [hstart]
        have hptr2 : Pointer (start2 L state) := by
          unfold start2
          split
          · rename_i hact
            exact (h.next2 hact).1
          · exact ⟨L.mmap2_lt, .inl L.mmap2_aligned⟩
        obtain ⟨-, -, hfound2⟩ := bumpIn_spec hgt L.mmap2_le hptr2
        cases hr2 : (bumpIn regions len L.mmap2EndExcl 64 (start2 L state)).2 with
        | some addr =>
          obtain ⟨h1, h2, h3, h4, -⟩ := hfound2 addr hr2
          exact absurd h4 (hno.secondary addr h1 h3 h2)
        | none =>
          dsimp only
          split
          · rename_i hsmall
            rw [hno.top hsmall]
          · rfl

theorem NoRoom.leaves {state t : State} (h : NoRoom L regions state len) (ht : Leaves L regions state t) :
    NoRoom L regions t len :=
  ⟨by rw [ht.same]; exact h.free, fun addr h1 => h.primary addr (Nat.le_trans ht.next_le h1),
    fun addr h1 => h.secondary addr (Nat.le_trans ht.start2_le h1), by rw [ht.heap.1, ht.heap.2]; exact h.top⟩

/-- The lengths tried are whole pages. -/
theorem halvings_pageLen : ∀ {fuel len : Nat}, len < 2 ^ 31 → ∀ half ∈ halvings fuel len, pageLen half = half
  | 0, _, _, half, hmem => by simp [halvings] at hmem
  | fuel + 1, len, hlen, half, hmem => by
    have hdown := maskDown_two_pow (w := 32) (k := 12) (x := len / 2) (by omega) (by omega)
    unfold halvings at hmem
    split at hmem
    · simp at hmem
    · dsimp only at hmem
      rw [show (4096 : Nat) = 2 ^ 12 from rfl, hdown] at hmem
      split at hmem
      · simp at hmem
      · rcases mem_cons.mp hmem with rfl | hmem
        · exact pageLen_of_dvd (by omega) (by omega)
        · exact halvings_pageLen (by omega) half hmem

theorem trySplit_of_noRoom : ∀ {lens : List Nat} {state : State}, Ok L regions state → (∀ len ∈ lens, pageLen len = len) →
    (∀ len ∈ lens, NoRoom L regions state len) →
    (trySplit L regions state lens).2 = none ∧ Leaves L regions state (trySplit L regions state lens).1
  | [], state, h, _, _ => ⟨rfl, Leaves.refl h⟩
  | len :: lens, state, h, hlens, hno => by
    have hnone := mmapBump_of_noRoom h (hlens len (by simp)) (hno len (by simp))
    have hserved := mmapBump_served (n := len) h
    unfold Served at hserved
    rw [hnone] at hserved
    unfold trySplit
    cases hr : mmapBump L regions state len with
    | mk t r =>
      rw [hr] at hnone hserved
      dsimp only at hnone hserved
      subst hnone
      obtain ⟨h1, h2⟩ := trySplit_of_noRoom hserved.ok (fun l (hl : l ∈ lens) => hlens l (by simp [hl])) fun l hl =>
        (hno l (by simp [hl])).leaves hserved
      exact ⟨h1, hserved.trans h2⟩

theorem mmapBumpExact_served {rawLen : Nat} {allowSplit : Bool} (h : Ok L regions state)
    (hsound : allowSplit = true → pageLen rawLen ≤ 0x10000000 →
      Fits L regions state (pageLen rawLen) ∨ ∀ len ∈ halvings 16 (pageLen rawLen), NoRoom L regions state len) :
    match mmapBumpExact L regions state rawLen allowSplit with
    | (t, some (addr, len)) => 0 < len ∧ Takes L regions state t len addr
    | (t, none) => Leaves L regions state t := by
  obtain ⟨hdvd, -⟩ := pageLen_dvd rawLen
  unfold mmapBumpExact
  generalize pageLen rawLen = want at *
  dsimp only
  by_cases hreject : want = 0 ∨ mmapMaxSingle < want
  · rw [if_pos hreject]
    exact Leaves.refl h
  · rw [if_neg hreject]
    have hserved := mmapBump_served (n := want) h
    have hlen : pageLen want = want := pageLen_of_dvd hdvd (by unfold mmapMaxSingle at hreject; omega)
    rw [hlen] at hserved
    unfold Served at hserved
    cases hr : mmapBump L regions state want with
    | mk t r =>
      rw [hr] at hserved
      cases r with
      | some addr => exact ⟨by omega, hserved⟩
      | none =>
        dsimp only at hserved ⊢
        by_cases hstop : (!allowSplit) = true ∨ 0x10000000 < want
        · rw [if_pos hstop]
          exact hserved
        · rw [if_neg hstop]
          have hsmall : want ≤ 0x10000000 := by omega
          have hno : ∀ len ∈ halvings 16 want, NoRoom L regions state len := by
            rcases hsound (by simpa using fun h => hstop (.inl h)) hsmall with hfits | hno
            · have := mmapBump_of_fits h hdvd (by omega) (by omega) hfits
              simp [hr] at this
            · exact hno
          obtain ⟨hnone, hleaves⟩ := trySplit_of_noRoom hserved.ok (halvings_pageLen (by omega)) fun l hl =>
            (hno l hl).leaves hserved
          rw [hnone]
          exact hserved.trans hleaves

/-! ### Frees -/

theorem cutSlab_mem {a b : MmapSlab} (hb : b ∈ cutSlab lo hi a) :
    b.lo < b.hi ∧ a.lo ≤ b.lo ∧ b.hi ≤ a.hi ∧ ∀ x, b.lo ≤ x → x < b.hi → ¬(lo ≤ x ∧ x < hi) := by
  unfold cutSlab at hb
  rcases mem_append.mp hb with hb | hb
  · split at hb
    · rw [mem_singleton.mp hb]
      exact ⟨by assumption, le_rfl, Nat.min_le_left .., fun x h1 h2 => by dsimp only at h1 h2; omega⟩
    · simp at hb
  · split at hb
    · rw [mem_singleton.mp hb]
      exact ⟨by assumption, Nat.le_max_left .., le_rfl, fun x h1 h2 => by dsimp only at h1 h2; omega⟩
    · simp at hb

theorem cutSlab_apart {a : MmapSlab} (hlt : lo < hi) : (cutSlab lo hi a).Pairwise Apart := by
  refine pairwise_append.mpr ⟨by split <;> simp, by split <;> simp, fun b hb c hc => ?_⟩
  split at hb
  · split at hc
    · rw [mem_singleton.mp hb, mem_singleton.mp hc]
      exact .inl (by dsimp only; omega)
    · simp at hc
  · simp at hb

theorem Good.free (h : Good L regions s) (hlt : lo < hi) (hpart : ∃ a ∈ s.live, a.lo ≤ lo ∧ hi ≤ a.hi)
    (hwrap : lo ≤ 0xffff0000 ∨ hi = 2 ^ 32) : Good L regions (s.step L regions (.free lo hi)).1 := by
  obtain ⟨a, ha, h1, h2⟩ := hpart
  have hheld : ∀ x, lo ≤ x → x < hi → Placed L regions s.state x ∧ ¬Within s.state.freelist x := fun x hx1 hx2 =>
    h.held x ⟨a, ha, by omega, by omega⟩
  have hhi : hi ≤ 2 ^ 32 := by
    obtain ⟨hplaced, -⟩ := hheld (hi - 1) (by omega) (by omega)
    have hL1 := L.primary_le
    have hL2 := L.heap_mmap2
    have hL3 := L.mmap2_lt
    have hL4 := L.mmap2_le
    unfold heapBase at hL1
    rcases hplaced with ⟨hb | hb, -⟩ | hb <;> omega
  obtain ⟨hfree, hbytes⟩ := mmapFreeInsert_spec h.ok.free hlt hhi hwrap fun x hx1 hx2 => (hheld x hx1 hx2).2
  have hplaced : ∀ x, Within (mmapFreeInsert s.state.freelist lo (hi % 2 ^ 32)) x → Placed L regions s.state x := fun x hx =>
    (hbytes x hx).elim (h.ok.placed x) fun hx => (hheld x hx.1 hx.2).1
  refine ⟨⟨hfree, hplaced, h.ok.next, h.ok.next2, h.ok.heap⟩, ?_, fun b hb => ?_, ?_⟩
  · refine pairwise_flatMap.mpr ⟨fun a _ => cutSlab_apart hlt, h.apart.imp fun hab b hb c hc => ?_⟩
    obtain ⟨-, hb1, hb2, -⟩ := cutSlab_mem hb
    obtain ⟨-, hc1, hc2, -⟩ := cutSlab_mem hc
    unfold Apart at *
    omega
  · obtain ⟨c, -, hbc⟩ := mem_flatMap.mp hb
    exact (cutSlab_mem hbc).1
  · rintro x ⟨b, hb, hbx⟩
    obtain ⟨c, hc, hbc⟩ := mem_flatMap.mp hb
    obtain ⟨-, hb1, hb2, hout⟩ := cutSlab_mem hbc
    obtain ⟨hx1, hx2⟩ := h.held x ⟨c, hc, Nat.le_trans hb1 hbx.1, Nat.lt_of_lt_of_le hbx.2 hb2⟩
    exact ⟨hx1, fun hx => (hbytes x hx).elim hx2 (hout x hbx.1 hbx.2)⟩

/-! ### Runs -/

/-- What one call does to the ranges outstanding: a success adds the reported range at an aligned address, a
    failed request changes none. -/
def Op.Reports (s s' : Sys) (r : Option (Nat × Nat)) : Op → Prop
  | .free lo hi => s'.live = s.live.flatMap (cutSlab lo hi)
  | _ => match r with
    | some (addr, len) => mmapAlign ∣ addr ∧ s'.live = ⟨addr, addr + len⟩ :: s.live
    | none => s'.live = s.live

/-- The step lemma: every call under the condition keeps the invariant. -/
theorem Good.step {op : Op} (h : Good L regions s) (hvalid : op.Valid s) (hsound : op.Sound L regions s) :
    Good L regions (s.step L regions op).1 ∧ op.Reports s (s.step L regions op).1 (s.step L regions op).2 := by
  cases op with
  | bump rawLen =>
    have hserved := mmapBump_served (n := rawLen) h.ok
    unfold Served at hserved
    cases hr : mmapBump L regions s.state rawLen with
    | mk t r =>
      rw [hr] at hserved
      cases r with
      | some addr =>
        have hpos : 0 < pageLen rawLen := by
          by_contra h0
          unfold mmapBump at hr
          rw [if_pos (.inl (by omega))] at hr
          simp at hr
        simp only [Sys.step, hr]
        exact ⟨h.takes hpos hserved, hserved.aligned, rfl⟩
      | none =>
        simp only [Sys.step, hr]
        exact ⟨h.leaves hserved, rfl⟩
  | exact rawLen allowSplit =>
    have hserved := mmapBumpExact_served h.ok hsound
    cases hr : mmapBumpExact L regions s.state rawLen allowSplit with
    | mk t r =>
      rw [hr] at hserved
      cases r with
      | some p =>
        simp only [Sys.step, hr]
        exact ⟨h.takes hserved.1 hserved.2, hserved.2.aligned, rfl⟩
      | none =>
        simp only [Sys.step, hr]
        exact ⟨h.leaves hserved, rfl⟩
  | free lo hi => exact ⟨h.free hvalid.1 hvalid.2 hsound, rfl⟩
  | heapMove ptr => exact ⟨⟨⟨h.ok.free, h.ok.placed, h.ok.next, h.ok.next2, hvalid.1, hvalid.2, h.ok.heap.2.2⟩, h.apart,
      h.nonempty, h.held⟩, rfl⟩

theorem Reach.good (h : Reach L regions s) : Good L regions s := by
  induction h with
  | init hptr =>
    have hnone : ∀ x, ¬Within [] x := fun x ⟨_, hs, _⟩ => by simp at hs
    refine ⟨⟨⟨Ordered.nil, by simp [State.init], by simp [State.init]⟩, fun x hx => absurd hx (hnone x),
      ?_, by simp [State.init], hptr.1, hptr.2, le_rfl⟩, List.Pairwise.nil, by simp, fun x hx => absurd hx (hnone x)⟩
    exact ⟨show mmapBase < 2 ^ 32 ∧ (mmapAlign ∣ mmapBase ∨ mmapBase = spent) by decide, le_rfl⟩
  | step _ hvalid hsound ih => exact (ih.step hvalid hsound).1

end Step

/-- In every run whose calls meet the condition, outstanding ranges are apart and inside the arenas or the space
    taken from the heap top, off the loaded regions; the next call under the condition keeps that, adds exactly
    the aligned range it reports, and changes no range if it fails. -/
theorem mmap_outstanding_apart {L : Layout} {regions : List LoadedRegion} {s : Sys} (hreach : Reach L regions s) :
    Outstanding L regions s ∧ ∀ op : Op, op.Valid s → op.Sound L regions s →
      Outstanding L regions (s.step L regions op).1 ∧ op.Reports s (s.step L regions op).1 (s.step L regions op).2 :=
  ⟨hreach.good.outstanding, fun _ hvalid hsound =>
    ⟨(hreach.good.step hvalid hsound).1.outstanding, (hreach.good.step hvalid hsound).2⟩⟩

/-- The calls of a run, one after another. -/
def Sys.run (L : Layout) (regions : List LoadedRegion) (s : Sys) (ops : List Op) : Sys :=
  ops.foldl (fun s op => (s.step L regions op).1) s

/-- A 32-bit guest that has filled both arenas with large requests and given 16 MiB back. -/
def filled : Sys := Sys.run .arm32 [] ⟨.init .arm32 0x50010000, []⟩
  [.bump 0x20000000, .bump 0x11000000, .bump 0x20000000, .bump 0x20000000, .bump 0x20000000, .bump 0x20000000,
    .bump 0x20000000, .free 0x10000000 0x11000000]

theorem filled_reach : Reach .arm32 [] filled := by
  have hbump : ∀ {s : Sys} (rawLen : Nat), Reach .arm32 [] s → Reach .arm32 [] (s.step .arm32 [] (.bump rawLen)).1 :=
    fun _ h => .step h trivial trivial
  have hinit : Reach .arm32 [] ⟨.init .arm32 0x50010000, []⟩ := .init (by decide)
  have hfull := hbump 0x20000000 (hbump 0x20000000 (hbump 0x20000000 (hbump 0x20000000 (hbump 0x20000000
    (hbump 0x11000000 (hbump 0x20000000 hinit))))))
  exact .step hfull (show (Op.free 0x10000000 0x11000000).Valid _ by decide +kernel) (.inl (by decide))

theorem mmap_outstanding_apart_filled : Outstanding .arm32 [] filled ∧ ∀ op : Op, op.Valid filled →
    op.Sound .arm32 [] filled → Outstanding .arm32 [] (filled.step .arm32 [] op).1 ∧
      op.Reports filled (filled.step .arm32 [] op).1 (filled.step .arm32 [] op).2 :=
  mmap_outstanding_apart filled_reach

/-- A request for 32 MiB is split: 16 MiB are taken, 32 MiB reported, over a range that is outstanding. -/
theorem split_reports_foreign_bytes : Reach .arm32 [] filled ∧ (Op.exact 0x02000000 true).Valid filled ∧
    (filled.step .arm32 [] (.exact 0x02000000 true)).2 = some (0x10000000, 0x02000000) ∧
    ⟨0x11000000, 0x30000000⟩ ∈ filled.live ∧ ¬Outstanding .arm32 [] (filled.step .arm32 [] (.exact 0x02000000 true)).1 := by
  refine ⟨filled_reach, trivial, by decide +kernel, by decide +kernel, fun h => ?_⟩
  exact absurd h.apart (by decide +kernel)

end Lunaria.Mmap
