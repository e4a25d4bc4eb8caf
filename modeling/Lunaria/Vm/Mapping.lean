import Lunaria.Lib.Spans
import Lunaria.Lib.Word

/-! The guest page table entries (`struct luna_guest_mapping`). -/

namespace Lunaria.Vm

/-- A guest mapping of `[lo, hi)` with its rights (bit 0 read, bit 1 write, bit 2 execute). -/
structure Mapping where
  lo : Nat
  hi : Nat
  prot : BitVec 32
  owned : Bool
  fileBacked : Bool
deriving DecidableEq

/-- The mapping holds the byte at `x`. -/
abbrev Mapping.Has (m : Mapping) (x : Nat) : Prop := Spans.Has Mapping.lo Mapping.hi m x

/-- A table is sorted by address, its entries are disjoint and none is empty. -/
abbrev Ordered (maps : List Mapping) : Prop := Spans.Ordered Mapping.lo Mapping.hi maps

end Lunaria.Vm
