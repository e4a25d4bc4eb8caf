import Mathlib
import Lunaria.Vm.PageTable

/-! The cache of `a64_mapped`: each thread keeps ranges that it found in the mapping table, each with the count of
    removals that it read before the search. A call that changes the table holds the lock alone and is one step; a query
    reads the count, looks into its own cache and searches under the lock, and other threads come between. -/

namespace Lunaria.Vm
open Spans Function

/-! ### One thread -/

/-- `A64RangeCache` -/
structure RangeCache where
  lo : Nat
  hi : Nat
  gen : UInt64
  deriving DecidableEq

/-- `t_a64_cache` -/
abbrev ThreadCache := Fin 8 → RangeCache

def ThreadCache.empty : ThreadCache := fun _ => ⟨1, 0, 0⟩

def cacheSlot (va : Nat) : Fin 8 := ⟨(va >>> 21) % 8, Nat.mod_lt _ (by decide)⟩

def RangeCache.hit (c : RangeCache) (gen : UInt64) (va : Nat) : Bool := gen = c.gen ∧ c.lo ≤ va ∧ va < c.hi

/-- The part of `a64_mapped` before the lock: the slot of the address, then the others. -/
def probeCache (cache : ThreadCache) (gen : UInt64) (va : Nat) : Bool × ThreadCache :=
  if (cache (cacheSlot va)).hit gen va then (true, cache)
  else
    match (List.finRange 8).find? fun i => (cache i).hit gen va with
    | some i => (true, update cache (cacheSlot va) (cache i))
    | none => (false, cache)

/-- The part of `a64_mapped` under the lock. -/
def findCache (maps : List Mapping) (cache : ThreadCache) (gen : UInt64) (va : Nat) : Bool × ThreadCache :=
  match a64FindLocked maps va with
  | none => (false, cache)
  | some m => (true, update cache (cacheSlot va) ⟨m.lo, m.hi, gen⟩)

/-- `a64_mapped`, when nothing comes between. -/
def a64Mapped (maps : List Mapping) (gen : UInt64) (cache : ThreadCache) (va : Nat) : Bool × ThreadCache :=
  match probeCache cache gen (a64MappingVa va) with
  | (true, cache) => (true, cache)
  | (false, cache) => findCache maps cache gen (a64MappingVa va)

/-! ### All threads -/

/-- How far a thread is with its query. -/
inductive QueryPoint where
  | idle
  | asked (va : Nat)
  | loaded (va : Nat) (gen : UInt64)
  | missed (va : Nat) (gen : UInt64)
  deriving DecidableEq

structure MapThread where
  cache : ThreadCache
  point : QueryPoint

structure MapSystem where
  table : PageTable
  unmapGen : UInt64
  threads : Nat → MapThread
  /-- The number of removals, which no code reads. -/
  removed : Nat

inductive MapEvent where
  | change (op : MapOp)
  | ask (t va : Nat)
  | load (t : Nat)
  | probe (t : Nat)
  | find (t : Nat)

def MapEvent.thread : MapEvent → Option Nat
  | change _ => none
  | ask t _ => some t
  | load t => some t
  | probe t => some t
  | find t => some t

def MapOp.isRemove : MapOp → Bool
  | remove .. => true
  | _ => false

def MapSystem.withThread (s : MapSystem) (t : Nat) (cache : ThreadCache) (point : QueryPoint) : MapSystem :=
  { s with threads := update s.threads t ⟨cache, point⟩ }

def MapSystem.changed (s : MapSystem) (op : MapOp) (table : PageTable) : MapSystem :=
  if op.isRemove then { s with table, unmapGen := s.unmapGen + 1, removed := s.removed + 1 } else { s with table }

/-- A step, with the answer if it is the last of its query. -/
def MapSystem.step (s : MapSystem) : MapEvent → Option (Option Bool × MapSystem)
  | .change op => (s.table.apply op).map fun r => (none, s.changed op r.1)
  | .ask t va =>
    match (s.threads t).point with
    | .idle => some (none, s.withThread t (s.threads t).cache (.asked (a64MappingVa va)))
    | _ => none
  | .load t =>
    match (s.threads t).point with
    | .asked va => some (none, s.withThread t (s.threads t).cache (.loaded va s.unmapGen))
    | _ => none
  | .probe t =>
    match (s.threads t).point with
    | .loaded va gen =>
      let (hit, cache) := probeCache (s.threads t).cache gen va
      some (if hit then some true else none, s.withThread t cache (if hit then .idle else .missed va gen))
    | _ => none
  | .find t =>
    match (s.threads t).point with
    | .missed va gen =>
      let (found, cache) := findCache s.table.maps (s.threads t).cache gen va
      some (some found, s.withThread t cache .idle)
    | _ => none

/-- What the callers promise, and the condition under which a change of rights leaves the table in order. -/
def MapOp.Callable (maps : List Mapping) : MapOp → Prop
  | insert lo hi _ _ _ => lo < hi ∧ ∀ x, lo ≤ x → x < hi → attrAt maps x = none
  | declare .. => True
  | remove lo hi => lo ≤ hi
  | setProt _ lo hi prot => lo < guestSize → guestSize < hi → hi ≤ guestBase + lo →
      ∀ m ∈ maps, m.lo < hi → guestBase + lo < m.hi → m.prot = prot

def MapEvent.Allowed (s : MapSystem) : MapEvent → Prop
  | change op => op.Callable s.table.maps
  | _ => True

inductive MapReach : MapSystem → Prop
  | start {regions : List LoadedRegion} : MapReach ⟨⟨[], regions⟩, 1, fun _ => ⟨.empty, .idle⟩, 0⟩
  | step {s s' : MapSystem} {e : MapEvent} {r : Option Bool} : MapReach s → e.Allowed s → s.step e = some (r, s') → MapReach s'

/-- The steps from one moment of a thread's query to another. -/
inductive During (t : Nat) (s : MapSystem) : MapSystem → Prop
  | refl : During t s s
  | step {s₁ s₂ : MapSystem} {e : MapEvent} {r : Option Bool} : During t s s₁ → e.Allowed s₁ → (∀ va, e ≠ .ask t va) →
      s₁.step e = some (r, s₂) → During t s s₂

/-! ### What a call does to the mapped addresses -/

section Table
variable {maps : List Mapping} {lo hi x : Nat} {prot : BitVec 32}

theorem declareCoalesce_mapped (h : Ordered maps) : attrAt (declareCoalesce maps) x = none ↔ attrAt maps x = none := by
  fun_induction declareCoalesce maps with
  | case1 a b maps hmerge ih =>
    rw [ih (Ordered.merge (l := []) h rfl rfl), attrAt_eq_none, attrAt_eq_none]
    have ha := h.head_lt
    have hb := h.tail.head_lt
    have hsplit : ¬ Mapping.Has { a with hi := b.hi } x ↔ ¬ a.Has x ∧ ¬ b.Has x := by
      unfold Mapping.Has Spans.Has
      dsimp only
      omega
    simp only [List.forall_mem_cons, hsplit, and_assoc]
  | case2 a b maps hmerge ih =>
    rw [attrAt_eq_none] at ih ⊢
    rw [attrAt_eq_none, List.forall_mem_cons, List.forall_mem_cons, ih h.tail, attrAt_eq_none]
  | case3 => rfl

theorem declare_mapped (base len : Nat) (h : Ordered maps) : ∃ maps', a64MapDeclareBacking maps base len prot = some maps' ∧
    Ordered maps' ∧ (attrAt maps' x = none → attrAt maps x = none) := by
  unfold a64MapDeclareBacking
  by_cases hzero : len = 0
  · exact ⟨maps, if_pos hzero, h, id⟩
  rw [if_neg hzero]
  dsimp only
  split
  · exact ⟨maps, rfl, h, id⟩
  · obtain ⟨filled, heq, hord, hattr, -⟩ := declareFill_spec le_rfl h
    refine ⟨_, by rw [heq]; rfl, declareCoalesce_ordered _ hord, fun hnone => ?_⟩
    have hfilled := (declareCoalesce_mapped hord).1 hnone
    rw [hattr, overlay] at hfilled
    split at hfilled
    · cases hfilled
    · assumption

theorem setProt_mapped {host : Host} (h : Ordered maps) (hc : (MapOp.setProt host lo hi prot).Callable maps) :
    Ordered (a64MapSetProt host maps lo hi prot).1 ∧ (attrAt (a64MapSetProt host maps lo hi prot).1 x = none ↔
      attrAt maps x = none) := by
  unfold a64MapSetProt
  by_cases hargs : lo % 4096 ≠ 0 ∨ hi ≤ lo
  · rw [if_pos hargs]
    exact ⟨h, Iff.rfl⟩
  rw [if_neg hargs]
  dsimp only
  split
  · exact ⟨h, Iff.rfl⟩
  split
  · exact ⟨h, Iff.rfl⟩
  · dsimp only
    by_cases hends : a64MappingVa lo < a64MappingVa (hi - 1) + 1
    · have hpages := @PageTable.setProt_pages ⟨maps, []⟩ _ _ prot h hends
      exact ⟨hpages.1, by rw [hpages.2 x, Option.map_eq_none_iff]⟩
    · -- the ends are crossed, and the condition is that nothing lies over them
      have hcross : lo < guestSize ∧ guestSize < hi ∧ hi ≤ guestBase + lo ∧ a64MappingVa lo = guestBase + lo ∧
          a64MappingVa (hi - 1) + 1 = hi := by
        unfold a64MappingVa a64GuestVa guestSize guestBase at *
        split_ifs at * <;> omega
      obtain ⟨h1, h2, h3, hlo, hhi⟩ := hcross
      have hsame := @PageTable.setProt_vacuous ⟨maps, []⟩ (guestBase + lo) hi prot (hc h1 h2 h3)
      rw [hlo, hhi, hsame]
      exact ⟨h, Iff.rfl⟩

end Table

end Lunaria.Vm
