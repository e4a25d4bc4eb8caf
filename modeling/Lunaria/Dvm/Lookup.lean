import Lunaria.Dvm.Resolve
import Lunaria.Lib.Probing

/-! The caches of lookups in `dvm.c`. Each class has a table of the methods that were found in it, hashed by name and
    signature and probed in a row. The last two answers to a call are kept beside the method that is called. Each thread has
    2048 places for the fields it found; the place is chosen by the addresses of the class and of the caller's strings.
    An allocation that fails is left out. A capacity is a power of two, so the mask of the C code takes a remainder. -/

namespace Lunaria.Dvm.Lookup

open Function
open Resolve (Method Hierarchy)
open Probing (insert find entryAt)

/-! ### Methods -/

def fnv (h : UInt32) (s : String) : UInt32 := s.toUTF8.data.foldl (fun h p => (h ^^^ p.toUInt32) * 16777619) h

def mcacheHash (name : String) (sig : Option String) : UInt32 :=
  let h := fnv 2166136261 name
  (match sig with
    | none => h
    | some sig => fnv ((h ^^^ 0xff) * 16777619) sig) ||| 1

structure McacheSlot (Id : Type) where
  hash : UInt32
  name : Option String
  sig : Option String
  m : Method Id

/-- The table of a class, with `none` for a free slot. A class that was never asked has no slots. -/
structure Mcache (Id : Type) where
  slots : List (Option (McacheSlot Id))
  len : Nat

variable {Id : Type}

def mcacheHome (s : McacheSlot Id) : Nat := s.hash.toNat

def mcacheKeyEq (h : UInt32) (name : String) (sig : Option String) (s : McacheSlot Id) : Bool :=
  s.hash = h ∧ s.name = some name ∧ s.sig = sig

def mcacheGet (t : Mcache Id) (h : UInt32) (name : String) (sig : Option String) : Option (Method Id) :=
  ((find (mcacheKeyEq h name sig) h.toNat t.slots).bind (entryAt t.slots)).map McacheSlot.m

/-- The slots of a table that has room for one more: twice as many when they are filled to three quarters, with those that
    were taken inserted again. -/
def mcacheRoom (t : Mcache Id) : Option (List (Option (McacheSlot Id))) :=
  if t.len + 1 > t.slots.length - t.slots.length / 4 then
    let cap := if t.slots.length = 0 then 16 else t.slots.length * 2
    t.slots.reduceOption.foldlM (insert mcacheHome) (List.replicate cap none)
  else some t.slots

/-- `none` if the search for a free slot does not end. -/
def mcachePut (t : Mcache Id) (h : UInt32) (sig : Option String) (m : Method Id) : Option (Mcache Id) :=
  if m.name = none ∨ (sig.isSome ∧ m.sig = none) then some t
  else do
    let slots ← mcacheRoom t
    let slots ← insert mcacheHome slots ⟨h, m.name, if sig.isSome then m.sig else none, m⟩
    return ⟨slots, t.len + 1⟩

section
variable {σ : Type} [DecidableEq Id]

/-- The loop over the interfaces. `declaration` is the first method found that cannot be run. -/
def ifaceLoop (lookup : Id → σ → Option (Option (Method Id) × σ)) :
    List (Option Id) → Option (Method Id) → σ → Option (Option (Method Id) × σ)
  | [], declaration, s => some (declaration, s)
  | none :: rest, declaration, s => ifaceLoop lookup rest declaration s
  | some i :: rest, declaration, s => do
    match ← lookup i s with
    | (none, s) => ifaceLoop lookup rest declaration s
    | (some m, s) =>
      if m.concrete then return (some m, s) else ifaceLoop lookup rest (declaration.or (some m)) s

/-- `dvm_find_method`, `n` calls deep, with what it does to look into the table of a class and to put a method there. -/
def findWith (g : Hierarchy Id) (get : σ → Id → Option (Method Id)) (put : σ → Id → Method Id → Option σ) (name : String)
    (sig : Option String) : Nat → Id → σ → Option (Option (Method Id) × σ)
  | 0, _, _ => none
  | n + 1, c, s =>
    match get s c with
    | some m => some (some m, s)
    | none =>
      match g.classOwnMethod c name sig with
      | some m => return (some m, ← put s c m)
      | none =>
        if Hierarchy.constructor name then some (none, s)
        else
          match (g.chain c).tail.findSome? fun d => g.classOwnMethod d name sig with
          | some m => return (some m, ← put s c m)
          | none => do
            match ← ifaceLoop (findWith g get put name sig n) (g.listing c) none s with
            | (some m, s) => return (some m, ← put s c m)
            | (none, s) => return (none, s)

abbrev Tables (Id : Type) := Id → Mcache Id

def dvmFindMethod (g : Hierarchy Id) (tables : Tables Id) (c : Id) (name : String) (sig : Option String) :
    Option (Option (Method Id) × Tables Id) :=
  findWith g (fun tables c => mcacheGet (tables c) (mcacheHash name sig) name sig)
    (fun tables c m => return update tables c (← mcachePut (tables c) (mcacheHash name sig) sig m))
    name sig (g.level c + 1) c tables

/-- The walk through the classes and interfaces that has no tables. -/
def findUncached (g : Hierarchy Id) (c : Id) (name : String) (sig : Option String) : Option (Option (Method Id)) :=
  (findWith g (fun (_ : Unit) _ => none) (fun _ _ _ => some ()) name sig (g.level c + 1) c ()).map Prod.fst

/-- What `virtual_target` keeps beside a method, newest first. -/
abbrev Targets (Id : Type) := Method Id → List (Id × Method Id)

/-- The receiver has class `rc`, if it is known. A method without a name is never called. -/
def virtualTarget (g : Hierarchy Id) (tables : Tables Id) (vt : Targets Id) (rc : Option Id) (decl : Method Id) :
    Option (Method Id × Tables Id × Targets Id) :=
  match rc with
  | none => some (decl, tables, vt)
  | some rc =>
    if rc = decl.cls then some (decl, tables, vt)
    else
      match (vt decl).find? fun entry => entry.1 = rc with
      | some entry => some (entry.2, tables, vt)
      | none => do
        let (found, tables) ← dvmFindMethod g tables rc (decl.name.getD "") decl.sig
        let m := found.getD decl
        return (m, tables, update vt decl ((rc, m) :: (vt decl).take 1))

end

/-! ### Fields -/

structure Field where
  name : Option String
  type : Option String
deriving DecidableEq

/-- The classes of a virtual machine with their fields, and where the classes lie in memory. -/
structure Vm (Id : Type) where
  g : Hierarchy Id
  sfields : Id → List Field
  ifields : Id → List Field
  addr : Id → UInt64
  addr_inj : Function.Injective addr
  fieldCacheGeneration : UInt64

/-- A field asked for: the addresses of the caller's strings, 0 for no type, and what lies in memory at the time. -/
structure Ask (Id : Type) where
  cls : Id
  name : UInt64
  type : UInt64
  statics : Bool
  mem : UInt64 → String

namespace Ask

def nameText (q : Ask Id) : String := q.mem q.name

def typeText (q : Ask Id) : Option String := if q.type = 0 then none else some (q.mem q.type)

end Ask

/-- A field has the name and, where both are given, the type. -/
def Field.is (f : Field) (name : String) (type : Option String) : Bool :=
  f.name = some name ∧ (type = none ∨ f.type = none ∨ f.type = type)

namespace Vm
variable (vm : Vm Id)

def fields (statics : Bool) (c : Id) : List Field := if statics then vm.sfields c else vm.ifields c

/-- `class_find_field_slow`, through `n` superclasses and interfaces; the class that has the field, and its place there. -/
def slowUpTo (name : String) (type : Option String) (statics : Bool) : Nat → Id → Option (Id × Nat)
  | 0, _ => none
  | n + 1, c =>
    match (vm.fields statics c).findIdx? fun f => f.is name type with
    | some i => some (c, i)
    | none =>
      ((if statics then (vm.g.cls c).ifaces.findSome? fun i => i.bind (slowUpTo name type statics n) else none).or
        ((vm.g.cls c).super.bind (slowUpTo name type statics n)))

def classFindFieldSlow (c : Id) (name : String) (type : Option String) (statics : Bool) : Option (Id × Nat) :=
  vm.slowUpTo name type statics (vm.g.level c + 1) c

end Vm

structure FieldHit (Id : Type) where
  cls : UInt64
  owner : Id
  name : UInt64
  type : UInt64
  index : Nat
  statics : Bool
deriving DecidableEq

/-- The places of a thread. -/
structure FieldCache (Id : Type) where
  generation : UInt64
  cache : Nat → Option (FieldHit Id)

namespace Vm
variable (vm : Vm Id)

def fieldKey (q : Ask Id) : Nat :=
  let cls : UInt64 := (vm.addr q.cls >>> 4) * 2654435761
  let type : UInt64 := (q.type >>> 2) * 40503
  let key : UInt64 := (cls ^^^ (q.name >>> 3) ^^^ type ^^^ (if q.statics then 1 else 0)) * 2246822519
  (key >>> 7 &&& 2047).toNat

/-- The places are emptied when the thread turns to another virtual machine. -/
def turn (t : FieldCache Id) : FieldCache Id :=
  if t.generation ≠ vm.fieldCacheGeneration then ⟨vm.fieldCacheGeneration, fun _ => none⟩ else t

/-- What is at the place is taken if it was found for the same class, name address and list, and its texts fit. -/
def fieldHit (q : Ask Id) (hit : FieldHit Id) : Option (Id × Nat) :=
  if hit.cls = vm.addr q.cls ∧ hit.name = q.name ∧ hit.statics = q.statics then
    match (vm.fields q.statics hit.owner)[hit.index]? with
    | some field => if field.is q.nameText q.typeText then some (hit.owner, hit.index) else none
    | none => none
  else none

def classFindField (t : FieldCache Id) (q : Ask Id) : Option (Id × Nat) × FieldCache Id :=
  let t := vm.turn t
  match (t.cache (vm.fieldKey q)).bind (vm.fieldHit q) with
  | some found => (some found, t)
  | none =>
    match vm.classFindFieldSlow q.cls q.nameText q.typeText q.statics with
    | some (owner, index) =>
      (some (owner, index),
        ⟨t.generation, update t.cache (vm.fieldKey q) (some ⟨vm.addr q.cls, owner, q.name, q.type, index, q.statics⟩)⟩)
    | none => (none, ⟨t.generation, update t.cache (vm.fieldKey q) none⟩)

end Vm

/-! ### Runs -/

/-- Virtual machines with different generations, as `dvm_create` gives them. -/
structure World (V Id : Type) where
  vm : V → Vm Id
  generation_inj : Function.Injective fun v => (vm v).fieldCacheGeneration

structure State (V T Id : Type) where
  tables : V → Tables Id
  vt : V → Targets Id
  fields : T → FieldCache Id

/-- A state before any lookup. -/
def State.init {V T Id : Type} : State V T Id := ⟨fun _ _ => ⟨[], 0⟩, fun _ _ => [], fun _ => ⟨0, fun _ => none⟩⟩

/-- The states that lookups and calls in the virtual machines lead to. -/
inductive Reach {V T Id : Type} [DecidableEq V] [DecidableEq T] [DecidableEq Id] (w : World V Id) : State V T Id → Prop
  | init : Reach w .init
  | find {s : State V T Id} {found : Option (Method Id)} {tables : Tables Id} (v : V) (c : Id) (name : String)
      (sig : Option String) : Reach w s → dvmFindMethod (w.vm v).g (s.tables v) c name sig = some (found, tables) →
      Reach w { s with tables := update s.tables v tables }
  | call {s : State V T Id} {m : Method Id} {tables : Tables Id} {vt : Targets Id} (v : V) (rc : Option Id)
      (decl : Method Id) : Reach w s → virtualTarget (w.vm v).g (s.tables v) (s.vt v) rc decl = some (m, tables, vt) →
      Reach w { s with tables := update s.tables v tables, vt := update s.vt v vt }
  | field {s : State V T Id} (t : T) (v : V) (q : Ask Id) : Reach w s →
      Reach w { s with fields := update s.fields t ((w.vm v).classFindField (s.fields t) q).2 }

end Lunaria.Dvm.Lookup
