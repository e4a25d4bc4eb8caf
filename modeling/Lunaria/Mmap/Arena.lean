import Lunaria.Vm.MapTable

/-! The 32-bit guest's `mmap` allocator: the free list of returned ranges, the two bump arenas that step over
    loaded images, and the top of the heap window as a last resort. A failed call returns `~0u` in the source
    and `none` here; no address that is handed out is `~0u`. -/

namespace Lunaria.Mmap
open Word Vm

/-- `MMAP_ALIGN`. -/
def mmapAlign : Nat := 0x10000

/-- `MMAP_BASE`: where the primary arena starts. -/
def mmapBase : Nat := 0x10000000

/-- `HEAP_BASE`: where the heap window starts. -/
def heapBase : Nat := 0x50000000

/-- `MMAP_MAX_SINGLE`, the value of `g_mmap_max_single`: 512 MiB and a page. -/
def mmapMaxSingle : Nat := 0x20001000

/-- The layout of the guest's 4 GiB: primary arena, heap window, secondary arena. -/
structure Layout where
  mmapEnd : Nat
  heapEnd : Nat
  mmap2Base : Nat
  mmap2EndExcl : Nat
  primary_le : mmapEnd ≤ heapBase
  heap_le : heapBase ≤ heapEnd
  heap_mmap2 : heapEnd ≤ mmap2Base
  mmap2_aligned : mmapAlign ∣ mmap2Base
  mmap2_lt : mmap2Base < 2 ^ 32
  mmap2_le : mmap2EndExcl ≤ 2 ^ 32

/-- What `guest_layout_init` makes for a 32-bit guest when nothing is configured. -/
def Layout.arm32 : Layout where
  mmapEnd := 0x41000000
  heapEnd := 0x60000000
  mmap2Base := 0x60000000
  mmap2EndExcl := 0x100000000
  primary_le := by decide
  heap_le := by decide
  heap_mmap2 := by decide
  mmap2_aligned := by decide
  mmap2_lt := by decide
  mmap2_le := by decide

/-- `struct MmapSlab`: a range `[lo, hi)`. -/
structure MmapSlab where
  lo : Nat
  hi : Nat
deriving DecidableEq

/-- The allocator's variables: the free list, the bump pointers and the two ends of the heap's free window. -/
structure State where
  freelist : List MmapSlab
  next : Nat
  next2 : Nat
  active2 : Bool
  heapPtr : Nat
  heapLimit : Nat
deriving DecidableEq

/-- The allocator at start, with the heap's bump pointer at `heapPtr`. -/
def State.init (L : Layout) (heapPtr : Nat) : State := ⟨[], mmapBase, 0, false, heapPtr, L.heapEnd⟩

/-! ### The free list -/

/-- The loop of `mmap_free_insert` that takes in the ranges after the new one. -/
def absorb (it : MmapSlab) : List MmapSlab → List MmapSlab
  | [] => [it]
  | nxt :: rest => if nxt.lo ≤ it.hi then absorb ⟨it.lo, max it.hi nxt.hi⟩ rest else it :: nxt :: rest

/-- `lo` and `hi` are 32-bit words; `lo` rounded up is cut to a word as well. -/
def mmapFreeInsert (freelist : List MmapSlab) (lo hi : Nat) : List MmapSlab :=
  let lo := maskUp 64 mmapAlign lo % 2 ^ 32
  let hi := maskDown 32 mmapAlign hi
  if hi ≤ lo then freelist
  else
    let before := freelist.takeWhile fun s => decide (s.lo < lo)
    let after := freelist.dropWhile fun s => decide (s.lo < lo)
    match before.getLast?.filter fun prev => decide (lo ≤ prev.hi) with
    | some prev => before.dropLast ++ absorb ⟨prev.lo, max prev.hi hi⟩ after
    | none => before ++ absorb ⟨lo, hi⟩ after

/-- First fit. -/
def mmapFreeTake (len : Nat) : List MmapSlab → Option (Nat × List MmapSlab)
  | [] => none
  | it :: rest =>
    if it.hi - it.lo < len then (mmapFreeTake len rest).map fun r => (r.1, it :: r.2)
    else
      let next := maskUp 64 mmapAlign (it.lo + len)
      some (it.lo, if it.hi ≤ next then rest else ⟨next, it.hi⟩ :: rest)

/-! ### The bump arenas -/

/-- `0xffffffff`: the value of a bump pointer whose arena is used up. -/
def spent : Nat := 0xffffffff

/-- The lambda `bump_in` of `mmap_bump` on the bump pointer `next`: its new value and the address found. -/
def bumpIn (regions : List LoadedRegion) (len arenaEnd : Nat) : Nat → Nat → Nat × Option Nat
  | 0, next => (next, none)
  | spins + 1, next =>
    if arenaEnd < next + len then (next, none)
    else
      match regions.find? fun r => decide (next < r.hi ∧ r.lo < next + len) with
      | some r =>
        let skip := maskUp 32 mmapAlign r.hi
        if skip ≤ next then (next, none) else bumpIn regions len arenaEnd spins skip
      | none =>
        let n64 := maskUp 64 mmapAlign (next + len)
        (if arenaEnd ≤ n64 ∨ 0xffffffff < n64 then spent else n64, some next)

/-- The length a request is rounded up to. -/
def pageLen (rawLen : Nat) : Nat := maskUp 32 4096 rawLen

/-- `lh_take_top` on the ends of the heap's window: the new top, unless malloc has bumped beyond it. -/
def lhTakeTop (ptr limit len align : Nat) : Option Nat :=
  if limit < len then none
  else
    let next := maskDown 32 align (limit - len)
    if next < ptr ∨ limit ≤ next then none else some next

/-- Where the search in the secondary arena starts: activating the arena sets its pointer to the base. -/
def start2 (L : Layout) (s : State) : Nat := if s.active2 then s.next2 else L.mmap2Base

/-- The part of `mmap_bump` after the primary arena: the secondary arena, then the heap top. -/
def mmapBump2 (L : Layout) (regions : List LoadedRegion) (len : Nat) (s : State) : State × Option Nat :=
  if s.active2 ∧ s.next2 = 0 then (s, none)
  else
    let r := bumpIn regions len L.mmap2EndExcl 64 (start2 L s)
    let s := { s with active2 := true, next2 := r.1 }
    match r.2 with
    | some addr => (s, some addr)
    | none =>
      -- `g_small_mmap_top` is the heap's end, which is not zero.
      if len ≤ 0x01000000 then
        match lhTakeTop s.heapPtr s.heapLimit len mmapAlign with
        | some next => ({ s with heapLimit := next }, some next)
        | none => (s, none)
      else (s, none)

def mmapBump (L : Layout) (regions : List LoadedRegion) (s : State) (rawLen : Nat) : State × Option Nat :=
  let len := pageLen rawLen
  if len = 0 ∨ mmapMaxSingle < len then (s, none)
  else
    match mmapFreeTake len s.freelist with
    | some (addr, freelist) => ({ s with freelist }, some addr)
    | none =>
      let r := bumpIn regions len L.mmapEnd 64 s.next
      let s := { s with next := r.1 }
      match r.2 with
      | some addr => (s, some addr)
      | none => mmapBump2 L regions len s

/-- The lengths the fallback of `mmap_bump_exact` tries. -/
def halvings : Nat → Nat → List Nat
  | 0, _ => []
  | fuel + 1, len =>
    if len < 0x10000 then []
    else
      let half := maskDown 32 4096 (len / 2)
      if half = 0 then [] else half :: halvings fuel half

/-- The fallback loop of `mmap_bump_exact`. -/
def trySplit (L : Layout) (regions : List LoadedRegion) : State → List Nat → State × Option Nat
  | s, [] => (s, none)
  | s, len :: lens =>
    match mmapBump L regions s len with
    | (s, some addr) => (s, some addr)
    | (s, none) => trySplit L regions s lens

/-- The address and, with it, the length reported to the caller. -/
def mmapBumpExact (L : Layout) (regions : List LoadedRegion) (s : State) (rawLen : Nat) (allowSplit : Bool) :
    State × Option (Nat × Nat) :=
  let want := pageLen rawLen
  if want = 0 ∨ mmapMaxSingle < want then (s, none)
  else
    match mmapBump L regions s want with
    | (s, some addr) => (s, some (addr, want))
    | (s, none) =>
      if !allowSplit ∨ 0x10000000 < want then (s, none)
      else
        -- The requested size is reported whatever length was found.
        let r := trySplit L regions s (halvings 16 want)
        (r.1, r.2.map fun addr => (addr, want))

end Lunaria.Mmap
