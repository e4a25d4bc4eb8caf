import Mathlib
import Lunaria.Lib.Probing

/-! The objects of the VM as far as interned strings need them, and `dvm__intern`. The free list, which the source threads
    through `next_free`, is a list of references. -/

namespace Lunaria.Dvm

namespace Intern

/-- The bytes of a C string without its final zero. -/
abbrev Text := List UInt8

inductive Kind where
  | string | other
deriving DecidableEq

structure Object where
  live : Bool
  kind : Kind
  utf8 : Text
  pins : Nat
deriving DecidableEq

/-- `struct dvm_intern`. Its `key` is the storage of the String object `ref` and is read there. -/
structure Entry where
  ref : Nat
  hash : UInt32
deriving DecidableEq

/-- `struct dvm`: `heap_size` is the length of `objects`, `free_head` the head of `free` and `interns_cap` the length of
    `interns`. -/
structure Vm where
  objects : List Object
  free : List Nat
  interns : List (Option Entry)
  ninterns : Nat
deriving DecidableEq

def Vm.empty : Vm := ⟨[], [], [], 0⟩

/-! ### Objects -/

def Vm.obj (vm : Vm) (ref : Nat) : Option Object :=
  if ref = 0 then none else vm.objects[ref - 1]?.filter (·.live)

/-- A new object and its reference; references have 32 bits. -/
def Vm.heapAlloc (vm : Vm) (o : Object) : Option (Vm × Nat) :=
  match vm.free with
  | r :: free => some ({ vm with objects := vm.objects.set (r - 1) o, free }, r)
  | [] =>
    if vm.objects.length + 1 < 2 ^ 32 then some ({ vm with objects := vm.objects ++ [o] }, vm.objects.length + 1) else none

def Vm.setPins (vm : Vm) (ref : Nat) (f : Nat → Nat) : Vm :=
  match vm.obj ref with
  | none => vm
  | some o => { vm with objects := vm.objects.set (ref - 1) { o with pins := f o.pins } }

/-- The count has 32 bits. -/
def Vm.dvmPin (vm : Vm) (ref : Nat) : Vm := vm.setPins ref fun pins => (pins + 1) % 2 ^ 32

def Vm.dvmUnpin (vm : Vm) (ref : Nat) : Vm := vm.setPins ref (· - 1)

def Vm.heapFree (vm : Vm) (ref : Nat) : Vm :=
  match vm.obj ref with
  | none => vm
  | some o =>
    if o.pins ≠ 0 then vm
    else { vm with objects := vm.objects.set (ref - 1) ⟨false, .other, [], 0⟩, free := ref :: vm.free }

def Vm.dvmNewString (vm : Vm) (utf8 : Text) : Option (Vm × Nat) := vm.heapAlloc ⟨true, .string, utf8, 0⟩

def Vm.dvmStringUtf8 (vm : Vm) (ref : Nat) : Option Text := ((vm.obj ref).filter (·.kind = .string)).map (·.utf8)

/-! ### Interning -/

def strHash (s : Text) : UInt32 := s.foldl (fun h b => (h ^^^ b.toUInt32) * 16777619) 2166136261

/-- The loops over the table start at `hash & (cap - 1)` and go on with `(slot + 1) & (cap - 1)`; without an end they give
    nothing. -/
def slotFrom (interns : List (Option Entry)) (stop : Nat → Bool) (hash : UInt32) : Option Nat :=
  Probing.probe stop (fun slot => (slot + 1) &&& (interns.length - 1)) interns.length (hash.toNat &&& (interns.length - 1))

/-- The search for `utf8`: the reference of its entry, 0 if there is none. -/
def Vm.internFind (vm : Vm) (utf8 : Text) : Option Nat :=
  if vm.interns.length = 0 then some 0
  else do
    let hash := strHash utf8
    let slot ← slotFrom vm.interns (fun slot => (Probing.entryAt vm.interns slot).all fun entry =>
      entry.hash = hash ∧ vm.dvmStringUtf8 entry.ref = some utf8) hash
    return ((Probing.entryAt vm.interns slot).map (·.ref)).getD 0

def internStore (interns : List (Option Entry)) (entry : Entry) : Option (List (Option Entry)) :=
  (slotFrom interns (Probing.vacant interns) entry.hash).map fun slot => interns.set slot (some entry)

/-- `INT32_MAX`. -/
def int32Max : Nat := 0x7fffffff

/-- The table with room for one more entry; `false` when it does not grow any more. -/
def Vm.internRoom (vm : Vm) : Option (List (Option Entry) × Bool) :=
  let cap := vm.interns.length
  if cap / 2 ≤ vm.ninterns then
    if int32Max / 2 < cap then some (vm.interns, false)
    else do
      let cap := if cap ≠ 0 then cap * 2 else 64
      let n ← (vm.interns.reduceOption).foldlM internStore (List.replicate cap none)
      return (n, true)
  else some (vm.interns, true)

/-- `dvm__intern`; nothing when a loop does not end or there is no memory for the object. -/
def Vm.dvmIntern (vm : Vm) (utf8 : Text) : Option (Vm × Nat) := do
  let found ← vm.internFind utf8
  if found ≠ 0 then some (vm, found)
  else do
    let (vm, r) ← vm.dvmNewString utf8
    let vm := vm.dvmPin r
    let (interns, room) ← vm.internRoom
    if !room then some (vm, r)
    else if (vm.dvmStringUtf8 r).isNone then some ({ vm with interns }, r)
    else do
      let interns ← internStore interns ⟨r, strHash utf8⟩
      some ({ vm with interns, ninterns := vm.ninterns + 1 }, r)

/-! ### Runs -/

/-- What happens to the objects of the VM: a string is interned, an object is made, and those that use an object pin it,
    release it and drop it. -/
inductive Act where
  | intern (utf8 : Text)
  | create (kind : Kind) (utf8 : Text)
  | pin (ref : Nat)
  | unpin (ref : Nat)
  | discard (ref : Nat)
deriving DecidableEq

/-- With the pins that others hold and the calls so far, the last one first. -/
structure World where
  vm : Vm
  held : Nat → Nat
  calls : List (Text × Nat)

def World.start : World := ⟨.empty, fun _ => 0, []⟩

/-- Who releases an object has pinned it, and the count of its pins does not wrap. -/
def World.step (w : World) : Act → Option World
  | .intern utf8 => (w.vm.dvmIntern utf8).map fun (vm, r) => { w with vm, calls := (utf8, r) :: w.calls }
  | .create kind utf8 => (w.vm.heapAlloc ⟨true, kind, utf8, 0⟩).map fun (vm, _) => { w with vm }
  | .pin ref =>
    match w.vm.obj ref with
    | none => some w
    | some o =>
      if o.pins + 1 < 2 ^ 32 then
        some { w with vm := w.vm.dvmPin ref, held := Function.update w.held ref (w.held ref + 1) }
      else none
  | .unpin ref =>
    if w.held ref = 0 then none
    else some { w with vm := w.vm.dvmUnpin ref, held := Function.update w.held ref (w.held ref - 1) }
  | .discard ref => some { w with vm := w.vm.heapFree ref }

def run (acts : List Act) : Option World := acts.foldlM World.step .start

end Intern

end Lunaria.Dvm
