import Lunaria.Linker.Image

/-! The search of one image for a name: the two hashes, the version check that both searches share, and the walks of the
    buckets and chains. Beside what it finds, a search leaves what it did that C leaves undefined at the wrong operands:
    its reads of the hash tables, its remainders and its shift. -/

namespace Lunaria.Linker

/-! Hashing. -/

/-- One step of `sysv_hash`. -/
def sysvStep (h : UInt32) (c : UInt8) : UInt32 :=
  let h := (h <<< 4) + c.toUInt32
  let g := h &&& 0xf0000000
  (h ^^^ (g >>> 24)) &&& ~~~g

/-- `sysv_hash` -/
def sysvHash (name : List UInt8) : UInt32 := name.foldl sysvStep 0

/-- `gnu_hash` -/
def gnuHash (name : List UInt8) : UInt32 := name.foldl (fun h c => h + ((h <<< 5) + c.toUInt32)) 5381

/-! Versioning. -/

/-- The loop of `def_version` over the definitions: the address of the version's name. -/
def verdefWalk (H : Host) (m : Module) (v : UInt16) : Nat → Nat → Option Nat
  | 0, _ => none
  | n + 1, p =>
    if H.u16 p = 0 then none
    else if H.u16 (p + 4) = v ∧ 0 < H.u16 (p + 6) then
      some (m.strtab.getD 0 + (H.u32 (p + (H.u32 (p + 12)).toNat)).toNat)
    else if H.u32 (p + 16) = 0 then none
    else verdefWalk H m v n (p + (H.u32 (p + 16)).toNat)

/-- `def_version`: the version of a definition, and whether it is hidden. -/
def defVersion (H : Host) (m : Module) (idx : UInt32) : Option Nat × Bool :=
  match m.versym with
  | none => (none, false)
  | some p =>
    let v := H.u16 (p + 2 * idx.toNat)
    let hidden : Bool := v &&& 0x8000 ≠ 0
    let v := v &&& 0x7fff
    if v ≤ 1 then (none, hidden)
    else match m.verdef with
      | none => (none, hidden)
      | some d => (verdefWalk H m v m.verdefnum.toNat d, hidden)

/-- The inner loop of `ref_version`, over the versions needed of one library. -/
def vernauxWalk (H : Host) (m : Module) (v : UInt16) : Nat → Nat → Option Nat
  | 0, _ => none
  | n + 1, ap =>
    if H.u16 (ap + 6) &&& 0x7fff = v then some (m.strtab.getD 0 + (H.u32 (ap + 8)).toNat)
    else if H.u32 (ap + 12) = 0 then none
    else vernauxWalk H m v n (ap + (H.u32 (ap + 12)).toNat)

/-- The outer loop of `ref_version`. -/
def verneedWalk (H : Host) (m : Module) (v : UInt16) : Nat → Nat → Option Nat
  | 0, _ => none
  | n + 1, p =>
    if H.u16 p = 0 then none
    else match vernauxWalk H m v (H.u16 (p + 2)).toNat (p + (H.u32 (p + 8)).toNat) with
      | some a => some a
      | none =>
        if H.u32 (p + 12) = 0 then none
        else verneedWalk H m v n (p + (H.u32 (p + 12)).toNat)

/-- `LN64_NO_VERSION` -/
def noVersion : UInt32 := 0xffffffff

/-- `ref_version`: the version that a reference asks for. -/
def refVersion (H : Host) (m : Module) (idx : UInt32) : Option Nat :=
  match m.versym with
  | none => none
  | some p =>
    if idx = noVersion then none
    else
      let v := H.u16 (p + 2 * idx.toNat) &&& 0x7fff
      if v ≤ 1 then none
      else
        let needed := match m.verneed with
          | none => none
          | some q => verneedWalk H m v m.verneednum.toNat q
        match needed with
        | some a => some a
        | none => (defVersion H m idx).1

/-- `version_ok` -/
def versionOk (H : Host) (m : Module) (idx : UInt32) (want : Option (List UInt8)) : Bool :=
  let d := defVersion H m idx
  match want with
  | none => !d.2
  | some w =>
    match d.1 with
    | none => true
    | some a => H.streq a w

/-- What both searches ask of a symbol: its name, that it is usable, and its version. -/
def answers (H : Host) (m : Module) (name : List UInt8) (want : Option (List UInt8)) (n : UInt32) : Bool :=
  symNamed H m (symbolAt H m n) name && symUsable (symbolAt H m n) && versionOk H m n want

/-! The two searches. -/

/-- What a search does beside reading symbols: a read of a word of so many bytes of a table, a remainder, a shift. -/
inductive Access where
  | read (t : Option Table) (index bytes : Nat)
  | remainder (by' : UInt32)
  | shift (by' : UInt32)

/-- The word lies in the bytes that were asked for; the remainder is not by zero; the shift is by less than the width. -/
def Access.Fine : Access → Prop
  | .read t i b => ∃ t', t = some t' ∧ (i + 1) * b ≤ t'.size
  | .remainder d => d ≠ 0
  | .shift n => n < 32

/-- What a search has done and found. It finds nothing yet where the steps it was given ran out. -/
structure Search where
  accesses : List Access
  found : Option (Option UInt32)

def Search.after (before : List Access) (s : Search) : Search := ⟨before ++ s.accesses, s.found⟩

@[simp] theorem Search.after_found {before : List Access} {s : Search} : (s.after before).found = s.found := rfl

@[simp] theorem Search.after_accesses {before : List Access} {s : Search} :
    (s.after before).accesses = before ++ s.accesses := (rfl)

def word (H : Host) (t : Option Table) (i : Nat) : UInt32 := H.u32 ((t.elim 0 Table.addr) + 4 * i)

section Search
variable (H : Host) (m : Module) (name : List UInt8) (h : UInt32) (want : Option (List UInt8))

/-- `n - m->gnu_symoffset` -/
def chainIndex (n : UInt32) : Nat := (n - m.gnuSymoffset).toNat

/-- The loop of `find_gnu`. -/
def gnuWalk : Nat → UInt32 → Search
  | 0, _ => ⟨[], none⟩
  | k + 1, n =>
    let c := word H m.gnuChain (chainIndex m n)
    let read := [Access.read m.gnuChain (chainIndex m n) 4]
    if (c ||| 1 = h ||| 1) ∧ answers H m name want n then ⟨read, some (some n)⟩
    else if c &&& 1 ≠ 0 then ⟨read, some none⟩
    else (gnuWalk k (n + 1)).after read

/-- The word of the Bloom filter, of 32 or 64 bits. -/
def bloomWord (i : Nat) : Nat :=
  let a := m.gnuBloom.elim 0 Table.addr
  if m.elf32 then (H.u32 (a + 4 * i)).toNat else (H.u64 (a + 8 * i)).toNat

def bloomWidth : UInt32 := if m.elf32 then 32 else 64

/-- Which word the filter keeps a hash in. -/
def bloomIndex : Nat := ((h / bloomWidth m) % m.gnuBloomSize).toNat

/-- The filter lets the hash through: both of its bits are set. -/
def bloomPasses : Bool :=
  let bits := bloomWord H m (bloomIndex m h)
  let b1 := (h % bloomWidth m).toNat
  let b2 := ((h >>> m.gnuBloomShift) % bloomWidth m).toNat
  (bits >>> b1) &&& (bits >>> b2) &&& 1 ≠ 0

/-- `find_gnu` -/
def findGnu (steps : Nat) : Search :=
  let filter := [.remainder m.gnuBloomSize, .shift m.gnuBloomShift,
    .read m.gnuBloom (bloomIndex m h) (bloomBytes m.elf32)]
  if !bloomPasses H m h then ⟨filter, some none⟩
  else
    let b := (h % m.gnuNbucket).toNat
    let bucket := filter ++ [.remainder m.gnuNbucket, .read m.gnuBucket b 4]
    let n := word H m.gnuBucket b
    if n = 0 then ⟨bucket, some none⟩
    else (gnuWalk H m name h want steps n).after bucket

/-- The loop of `find_sysv`. -/
def sysvWalk : Nat → UInt32 → Search
  | 0, _ => ⟨[], none⟩
  | k + 1, n =>
    if n ≠ 0 ∧ n < m.nchain then
      if answers H m name want n then ⟨[], some (some n)⟩
      else (sysvWalk k (word H m.chain n.toNat)).after [.read m.chain n.toNat 4]
    else ⟨[], some none⟩

/-- `find_sysv` -/
def findSysv (steps : Nat) : Search :=
  let b := (h % m.nbucket).toNat
  (sysvWalk H m name want steps (word H m.bucket b)).after [.remainder m.nbucket, .read m.bucket b 4]

end Search

/-- `mod_find`, with the hashes of the name. -/
def modFind (H : Host) (m : Module) (name : List UInt8) (want : Option (List UInt8)) (steps : Nat) : Search :=
  if m.symtab.isNone ∨ m.strtab.isNone then ⟨[], some none⟩
  else if m.gnuBucket.isSome ∧ m.gnuNbucket ≠ 0 then findGnu H m name (gnuHash name) want steps
  else if m.bucket.isSome ∧ m.nbucket ≠ 0 then findSysv H m name (sysvHash name) want steps
  else ⟨[], some none⟩

end Lunaria.Linker
