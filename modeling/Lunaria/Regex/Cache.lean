import Mathlib.Algebra.Group.Int.Defs
import Mathlib.Algebra.Group.Nat.Defs
import Mathlib.Data.List.Basic

/-! The pattern cache of `regex.c`. A thread looks a pattern up under the lock of the cache, compiles it outside the lock if
    it is not there, and enters the lock again to store it; a release enters the lock once. Each of these is a step.
    Compiled patterns are known by their addresses, and an address may be used again once it was freed. -/

namespace Lunaria.Regex

open Function

abbrev Addr := Nat

/-- An `int` after an operation that may have left its range. -/
def int (x : Int) : Int := x.bmod (2 ^ 32)

/-- `RX_CACHE_MAX`. -/
def cacheMax : Nat := 128

/-- `struct rx_cache_ent`. -/
structure Entry where
  pat : List UInt8
  flags : Int
  re : Addr
  used : Nat
  refs : Int
  deriving DecidableEq

/-- Where a thread is in `rx_cached`. -/
inductive Pc
  | idle
  /-- The pattern was not in the table. -/
  | missed (pattern : List UInt8) (flags : Int)
  | compiled (pattern : List UInt8) (flags : Int) (re : Addr)
  deriving DecidableEq

/-- `g_cache` up to `g_cache_n`, `g_cache_clock` and the threads; the addresses in use, and the references that were handed
    out and not given back. -/
structure Cache (T : Type) where
  table : List Entry
  clock : Nat
  pc : T → Pc
  live : List Addr
  held : List (T × Addr)

/-- The number of references to a pattern that were not given back. -/
def Cache.outstanding {T : Type} (c : Cache T) (re : Addr) : Nat := c.held.countP fun r => r.2 = re

/-- The search for a pattern, which takes a reference to the first entry that has it. -/
def hitLoop (pattern : List UInt8) (flags : Int) (clock : Nat) : List Entry → Option (List Entry × Addr)
  | [] => none
  | e :: es =>
    if e.flags = flags ∧ e.pat = pattern then some ({ e with used := clock, refs := int (e.refs + 1) } :: es, e.re)
    else (hitLoop pattern flags clock es).map fun r => (e :: r.1, r.2)

/-- The search for the entry to replace: of those without references, the one that was used the longest time ago. -/
def slotLoop : Nat → Option (Nat × Entry) → List Entry → Option (Nat × Entry)
  | _, slot, [] => slot
  | i, slot, e :: es =>
    if e.refs ≠ 0 then slotLoop (i + 1) slot es
    else match slot with
      | none => slotLoop (i + 1) (some (i, e)) es
      | some (_, best) =>
        if e.used < best.used then slotLoop (i + 1) (some (i, e)) es else slotLoop (i + 1) slot es

/-- The search of `rx_cached_release`, which gives a reference back. -/
def dropLoop (re : Addr) : List Entry → Option (List Entry)
  | [] => none
  | e :: es =>
    if e.re = re then some ((if 0 < e.refs then { e with refs := e.refs - 1 } else e) :: es)
    else (dropLoop re es).map (e :: ·)

namespace Cache
variable {T : Type} [DecidableEq T]

def init : Cache T := ⟨[], 0, fun _ => .idle, [], []⟩

/-- `++g_cache_clock`. -/
def tick (c : Cache T) : Nat := (c.clock + 1) % 2 ^ 64

/-- `rx_cached` returns the pattern to the thread. -/
def give (c : Cache T) (t : T) (re : Addr) : Cache T :=
  { c with pc := update c.pc t .idle, held := (t, re) :: c.held }

/-- `rx_free`. -/
def free (c : Cache T) (re : Addr) : Cache T := { c with live := c.live.filter (· ≠ re) }

/-- The first section of `rx_cached`. -/
def lookup (c : Cache T) (t : T) (pattern : List UInt8) (flags : Int) : Cache T :=
  match hitLoop pattern flags c.tick c.table with
  | some (table, hit) => { c with table := table, clock := c.tick }.give t hit
  | none => { c with pc := update c.pc t (.missed pattern flags) }

/-- The second section of `rx_cached`, and what it frees. -/
def insert (c : Cache T) (t : T) (pattern : List UInt8) (flags : Int) (re : Addr) : Cache T × List Addr :=
  match hitLoop pattern flags c.tick c.table with
  | some (table, hit) => (({ c with table := table, clock := c.tick }.give t hit).free re, [re])
  | none =>
    let e : Entry := ⟨pattern, flags, re, c.tick, 1⟩
    if c.table.length < cacheMax then ({ c with table := c.table ++ [e], clock := c.tick }.give t re, [])
    else match slotLoop 0 none c.table with
      | some (slot, old) => (({ c with table := c.table.set slot e, clock := c.tick }.give t re).free old.re, [old.re])
      | none => (c.give t re, [])

/-- `rx_cached_release`, and what it frees. -/
def release (c : Cache T) (t : T) (re : Addr) : Cache T × List Addr :=
  let c := { c with held := c.held.erase (t, re) }
  match dropLoop re c.table with
  | some table => ({ c with table := table }, [])
  | none => (c.free re, [re])

end Cache

/-- A step of a thread. -/
inductive Act (T : Type)
  | lookup (t : T) (pattern : List UInt8) (flags : Int)
  /-- `rx_compile` outside the lock: an error, or a pattern at an address that is not in use. -/
  | compile (t : T) (re : Option Addr)
  /-- The copy of the pattern text, which may fail, and the second section. -/
  | insert (t : T) (key : Bool)
  | release (t : T) (re : Addr)

section
variable {T : Type} [DecidableEq T]

/-- One step, and the patterns it frees. A thread gives back what it holds. -/
def Cache.step (c : Cache T) : Act T → Option (Cache T × List Addr)
  | .lookup t pattern flags => if c.pc t = .idle then some (c.lookup t pattern flags, []) else none
  | .compile t re =>
    match c.pc t with
    | .missed pattern flags =>
      match re with
      | none => some ({ c with pc := update c.pc t .idle }, [])
      | some re =>
        if re ∈ c.live then none
        else some ({ c with pc := update c.pc t (.compiled pattern flags re), live := re :: c.live }, [])
    | _ => none
  | .insert t key =>
    match c.pc t with
    | .compiled pattern flags re => if key then some (c.insert t pattern flags re) else some (c.give t re, [])
    | _ => none
  | .release t re => if c.pc t = .idle ∧ (t, re) ∈ c.held then some (c.release t re) else none

inductive Reach : Cache T → Prop
  | init : Reach .init
  | step {c c' : Cache T} {a : Act T} {freed : List Addr} : Reach c → c.step a = some (c', freed) → Reach c'

/-- The step takes no reference to an entry that has as many as an `int` can count. -/
def Act.Fits (c : Cache T) (a : Act T) : Prop :=
  ∀ t pattern flags, (a = .lookup t pattern flags ∨ ∃ re, a = .insert t true ∧ c.pc t = .compiled pattern flags re) →
    ∀ e ∈ c.table, e.pat = pattern → e.flags = flags → c.outstanding e.re < 2 ^ 31 - 1

/-- Runs whose steps all fit. -/
inductive ReachFits : Cache T → Prop
  | init : ReachFits .init
  | step {c c' : Cache T} {a : Act T} {freed : List Addr} :
      ReachFits c → a.Fits c → c.step a = some (c', freed) → ReachFits c'

end

end Lunaria.Regex
