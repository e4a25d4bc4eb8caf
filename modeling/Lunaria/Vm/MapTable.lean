import Lunaria.Vm.ProtectHost

/-! The 64-bit guest's mapping table `g_a64_maps` and the four operations that change it: `a64_map_insert`,
    `a64_map_declare_backing`, `a64_map_remove` and `a64_map_set_prot`, with the loaded image regions that
    `a64_map_remove` cuts as well. A loop of the source that edits the vector in place and only moves forward
    is a map over the entries; the loop that fills the holes of a declared range searches again after each
    insertion and keeps that shape. -/

namespace Lunaria.Vm
open Word Spans

/-! ### Guest addresses -/

/-- `A64_GUEST_BASE`: where the image window starts in the guest's address space. -/
def guestBase : Nat := 0x700000000000

/-- `A64_GUEST_SIZE`: the size of the image window. -/
def guestSize : Nat := 0x100000000

def a64IsGuestVa (va : Nat) : Bool := guestBase ≤ va && va < guestBase + guestSize

def a64GuestVa (backing : Nat) : Nat := guestBase + backing

/-- An address below 4 GiB is the backing offset of an address in the image window. -/
def a64MappingVa (va : Nat) : Nat := if va < guestSize then a64GuestVa va else va

/-! ### The table -/

/-- The entry before the first one above `va`, if it holds `va`. -/
def a64FindLocked (maps : List Mapping) (va : Nat) : Option Mapping :=
  match (maps.takeWhile fun m => decide (m.lo < va + 1)).getLast? with
  | none => none
  | some m => if m.lo ≤ va ∧ va < m.hi then some m else none

def a64MapInsert (maps : List Mapping) (lo hi : Nat) (prot : BitVec 32) (owned fileBacked : Bool) : List Mapping :=
  (maps.takeWhile fun m => decide (m.lo < lo)) ++ ⟨lo, hi, prot, owned, fileBacked⟩ ::
    maps.dropWhile fun m => decide (m.lo < lo)

/-- The loop of `a64_map_declare_backing` that fills the holes of `[lo, hi)`; `none` if it has not reached `hi`
    after `fuel` rounds. -/
def declareFill (hi : Nat) (prot : BitVec 32) : Nat → Nat → List Mapping → Option (List Mapping)
  | 0, lo, maps => if lo < hi then none else some maps
  | fuel + 1, lo, maps =>
    if lo < hi then
      let before := maps.takeWhile fun m => decide (m.lo < lo)
      let after := maps.dropWhile fun m => decide (m.lo < lo)
      match before.getLast?.filter fun prev => lo < prev.hi, after with
      | some prev, _ => declareFill hi prot fuel (min prev.hi hi) maps
      | none, [] => declareFill hi prot fuel hi (before ++ [⟨lo, hi, prot, false, false⟩])
      | none, it :: rest =>
        if it.lo ≤ lo then declareFill hi prot fuel (min it.hi hi) maps
        else declareFill hi prot fuel (min hi it.lo) (before ++ ⟨lo, min hi it.lo, prot, false, false⟩ :: it :: rest)
    else some maps

/-- The second loop of `a64_map_declare_backing`: adjacent entries of equal rights and ownership become one. -/
def declareCoalesce : List Mapping → List Mapping
  | a :: b :: maps =>
    if a.hi = b.lo ∧ a.prot = b.prot ∧ a.owned = b.owned then declareCoalesce ({ a with hi := b.hi } :: maps)
    else a :: declareCoalesce (b :: maps)
  | maps => maps
termination_by maps => maps.length

/-- `len` is a 64-bit length; the range is refused when it is empty or leaves the window. -/
def a64MapDeclareBacking (maps : List Mapping) (base len : Nat) (prot : BitVec 32) : Option (List Mapping) :=
  if len = 0 then some maps
  else
    let offLo := maskDown 64 4096 base
    let offHi := maskDown 64 4096 (add 64 (add 64 base len) 4095)
    if offHi ≤ offLo ∨ guestSize < offHi then some maps
    else
      let lo := a64GuestVa offLo
      let hi := guestBase + offHi
      (declareFill hi prot (hi - lo) lo maps).map declareCoalesce

/-- What `a64_map_remove` leaves of one entry. -/
def removeEntry (lo hi : Nat) (m : Mapping) : List Mapping :=
  if m.hi ≤ lo ∨ hi ≤ m.lo then [m]
  else
    let clo := max m.lo lo
    let chi := min m.hi hi
    if m.lo < clo ∧ chi < m.hi then [{ m with hi := clo }, { m with lo := chi }]
    else if m.lo < clo then [{ m with hi := clo }]
    else if chi < m.hi then [{ m with lo := chi }]
    else []

def a64MapRemove (maps : List Mapping) (lo hi : Nat) : List Mapping := maps.flatMap (removeEntry lo hi)

/-- What `a64_map_set_prot` makes of one entry. -/
def setProtEntry (lo hi : Nat) (prot : BitVec 32) (m : Mapping) : List Mapping :=
  if m.hi ≤ lo ∨ hi ≤ m.lo ∨ m.prot = prot then [m]
  else
    let clo := max m.lo lo
    let chi := min m.hi hi
    if m.lo = clo ∧ m.hi = chi then [{ m with prot }]
    else
      (if m.lo < clo then [{ m with hi := clo }] else []) ++ { m with lo := clo, hi := chi, prot } ::
        (if chi < m.hi then [{ m with lo := chi }] else [])

/-- The walk of `a64_map_set_prot` over the range: every address of it is mapped. -/
def rangeMapped (maps : List Mapping) (hi : Nat) : Nat → Nat → Bool
  | 0, cursor => hi ≤ cursor
  | fuel + 1, cursor =>
    if cursor < hi then
      match a64FindLocked maps cursor with
      | none => false
      | some m => rangeMapped maps hi fuel (min hi m.hi)
    else true

/-- The host side of the page table: its page size and its protection call. -/
structure Host where
  pageSize : Nat
  protect : HostCall → Int

def a64MapSetProt (host : Host) (maps : List Mapping) (lo hi : Nat) (prot : BitVec 32) : List Mapping × Int :=
  if lo % 4096 ≠ 0 ∨ hi ≤ lo then (maps, -1)
  else
    let lo' := a64MappingVa lo
    let hi' := a64MappingVa (hi - 1) + 1
    if !rangeMapped maps hi' (hi' - lo') lo' then (maps, -1)
    else if !a64IsGuestVa lo' && (lunaVmProtectHost maps lo' hi' prot host.pageSize host.protect).2 ≠ 0 then (maps, -1)
    else (maps.flatMap (setProtEntry lo' hi' prot), 0)

/-! ### Loaded regions -/

/-- A loaded image region `[lo, hi)` of the window, with the flags and the file offset of its first byte. -/
structure LoadedRegion where
  lo : Nat
  hi : Nat
  flags : Nat
  fileOff : Nat
deriving DecidableEq

/-- What `a64_loaded_regions_unmap` leaves of one region. -/
def unmapRegion (cutLo cutHi : Nat) (r : LoadedRegion) : List LoadedRegion :=
  if r.hi ≤ cutLo ∨ cutHi ≤ r.lo then [r]
  else if r.lo < cutLo ∧ cutHi < r.hi then
    [{ r with hi := cutLo }, { r with lo := cutHi, fileOff := r.fileOff + (cutHi - r.lo) }]
  else if r.lo < cutLo then [{ r with hi := cutLo }]
  else if cutHi < r.hi then [{ r with lo := cutHi, fileOff := r.fileOff + (cutHi - r.lo) }]
  else []

def a64LoadedRegionsUnmap (regions : List LoadedRegion) (lo hi : Nat) : List LoadedRegion :=
  if lo < guestBase ∨ guestBase + guestSize ≤ lo ∨ hi ≤ lo then regions
  else regions.flatMap (unmapRegion (lo - guestBase) (min (hi - guestBase) guestSize))

end Lunaria.Vm
