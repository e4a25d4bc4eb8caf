import Mathlib.Data.UInt

/-! The images of `linker64.c`: what `ln64_add_elf` reads of a library's dynamic segment, and the symbols of its tables.
    A table is where the callback says it is mapped; the memory behind it is read as it is, with the length that was asked
    for beside it. -/

namespace Lunaria.Linker

/-- The callback `g_ptr`, from a backing offset and a length to a host address, and the bytes at the addresses. -/
structure Host where
  ptr : UInt32 → Nat → Option Nat
  mem : Nat → UInt8

namespace Host
variable (H : Host)

/-- `host` -/
def at? (off : UInt32) (len : Nat) : Option Nat := if off = 0 then none else H.ptr off len

/-- A number of some bytes, the lowest first. -/
def read (a : Nat) : Nat → Nat
  | 0 => 0
  | n + 1 => (H.mem a).toNat + 256 * read (a + 1) n

def u16 (a : Nat) : UInt16 := .ofNat (H.read a 2)

def u32 (a : Nat) : UInt32 := .ofNat (H.read a 4)

def u64 (a : Nat) : UInt64 := .ofNat (H.read a 8)

/-- The string at an address, up to its NUL. -/
def strFrom : Nat → Nat → List UInt8
  | 0, _ => []
  | n + 1, a => if H.mem a = 0 then [] else H.mem a :: strFrom n (a + 1)

/-- The string at an address. What has no NUL within 32 bits of bytes is cut there. -/
def str (a : Nat) : List UInt8 := H.strFrom (2 ^ 32) a

/-- `strcmp (a, s) == 0`, for a string without NUL. -/
def streq (a : Nat) : List UInt8 → Bool
  | [] => H.mem a = 0
  | c :: s => c ≠ 0 && H.mem a = c && streq (a + 1) s

theorem streq_unique : ∀ {a : Nat} {s t : List UInt8}, H.streq a s = true → H.streq a t = true → s = t
  | _, [], [], _, _ => rfl
  | a, [], c :: t, hs, ht => by
    simp only [streq, decide_eq_true_eq, Bool.and_eq_true] at hs ht
    exact absurd (ht.1.2.symm.trans hs) ht.1.1
  | a, c :: s, [], hs, ht => by
    simp only [streq, decide_eq_true_eq, Bool.and_eq_true] at hs ht
    exact absurd (hs.1.2.symm.trans ht) hs.1.1
  | a, c :: s, d :: t, hs, ht => by
    simp only [streq, decide_eq_true_eq, Bool.and_eq_true] at hs ht
    rw [← hs.1.2, ← ht.1.2, streq_unique hs.2 ht.2]

/-- A memory of words, mapped as it is. -/
def ofWords (ws : List UInt32) : Host where
  ptr off _ := some off.toNat
  mem a := (ws.getD (a / 4) 0 >>> (.ofNat (8 * (a % 4)))).toUInt8

end Host

/-- A table in the memory, with the bytes the callback was asked for. -/
structure Table where
  addr : Nat
  size : Nat
  deriving Inhabited

/-- A table of as many bytes, where it is mapped. -/
def Host.table (H : Host) (off : UInt32) (size : Nat) : Option Table := (H.at? off size).map (⟨·, size⟩)

/-- `struct ln64_module`, as `ln64_add_elf` fills it in. The dependencies belong to the registry. -/
structure Module where
  path : List UInt8
  soname : List UInt8
  bias : UInt32
  isGlobal : Bool
  isMain : Bool
  elf32 : Bool
  symbolic : Bool
  symtab : Option Nat
  strtab : Option Nat
  initFn : UInt32
  initArray : UInt32
  initArraySize : UInt64
  bucket : Option Table
  chain : Option Table
  nbucket : UInt32
  nchain : UInt32
  gnuBucket : Option Table
  gnuChain : Option Table
  gnuBloom : Option Table
  gnuNbucket : UInt32
  gnuSymoffset : UInt32
  gnuBloomSize : UInt32
  gnuBloomShift : UInt32
  versym : Option Nat
  verdef : Option Nat
  verneed : Option Nat
  verdefnum : UInt32
  verneednum : UInt32
  neededOff : List UInt64
  deriving Inhabited

/-! The dynamic segment. -/

/-- What the entries say: addresses with the load bias, and sizes, numbers and offsets as they are. -/
structure Dynamic where
  initFn : UInt32 := 0
  initArray : UInt32 := 0
  initArraySize : UInt64 := 0
  symtab : UInt32 := 0
  strtab : UInt32 := 0
  hash : UInt32 := 0
  gnu : UInt32 := 0
  versym : UInt32 := 0
  verdef : UInt32 := 0
  verdefnum : UInt32 := 0
  verneed : UInt32 := 0
  verneednum : UInt32 := 0
  soname : UInt64 := 0
  flags : UInt64 := 0
  needed : List UInt64 := []

/-- A pointer of all ones, at the class's width. -/
def noFunction (elf32 : Bool) : UInt64 := if elf32 then 0xffffffff else 0xffffffffffffffff

/-- One entry that is not `DT_NULL`. None of the tags is negative, so they are compared as unsigned numbers. -/
def Dynamic.entry (elf32 : Bool) (bias : UInt32) (d : Dynamic) (tag val : UInt64) : Dynamic :=
  let there := bias + val.toUInt32
  if tag = 12 then if val ≠ 0 ∧ val ≠ noFunction elf32 then { d with initFn := there } else d
  else if tag = 25 then { d with initArray := there }
  else if tag = 27 then { d with initArraySize := val }
  else if tag = 6 then { d with symtab := there }
  else if tag = 5 then { d with strtab := there }
  else if tag = 4 then { d with hash := there }
  else if tag = 0x6ffffef5 then { d with gnu := there }
  else if tag = 0x6ffffff0 then { d with versym := there }
  else if tag = 0x6ffffffc then { d with verdef := there }
  else if tag = 0x6ffffffd then { d with verdefnum := val.toUInt32 }
  else if tag = 0x6ffffffe then { d with verneed := there }
  else if tag = 0x6fffffff then { d with verneednum := val.toUInt32 }
  else if tag = 14 then { d with soname := val }
  else if tag = 30 then { d with flags := val }
  else if tag = 16 then { d with flags := d.flags ||| 2 }
  else if tag = 1 then { d with needed := d.needed ++ [val] }
  else d

def dynSize (elf32 : Bool) : Nat := if elf32 then 8 else 16

/-- The loop over the entries from an offset, which ends at `DT_NULL`, where nothing is mapped, or past 32 bits: of
    more than `2 ^ 32` entries there is no question. -/
def scan (H : Host) (elf32 : Bool) (bias : UInt32) : Nat → Nat → Dynamic → Dynamic
  | 0, _, d => d
  | n + 1, offset, d =>
    if offset < 2 ^ 32 then
      match H.at? (.ofNat offset) (dynSize elf32) with
      | none => d
      | some p =>
        let tag := if elf32 then (H.u32 p).toUInt64 else H.u64 p
        let val := if elf32 then (H.u32 (p + 4)).toUInt64 else H.u64 (p + 8)
        if tag = 0 then d else scan H elf32 bias n (offset + dynSize elf32) (d.entry elf32 bias tag val)
    else d

/-- `basename_of` -/
def basenameOf (path : List UInt8) : List UInt8 := (path.reverse.takeWhile (· ≠ 47)).reverse

/-- The words of the two hash headers, and the tables after them. -/
structure SysvTables where
  bucket : Option Table
  chain : Option Table
  nbucket : UInt32
  nchain : UInt32

def sysvTables (H : Host) (off : UInt32) : SysvTables :=
  if off = 0 then ⟨none, none, 0, 0⟩
  else match H.at? off 8 with
    | none => ⟨none, none, 0, 0⟩
    | some h =>
      let nbucket := H.u32 h
      let nchain := H.u32 (h + 4)
      ⟨H.table (off + 8) (nbucket.toNat * 4), H.table (off + 8 + nbucket * 4) (nchain.toNat * 4), nbucket, nchain⟩

structure GnuTables where
  bucket : Option Table
  chain : Option Table
  bloom : Option Table
  nbucket : UInt32
  symoffset : UInt32
  bloomSize : UInt32
  bloomShift : UInt32

def bloomBytes (elf32 : Bool) : Nat := if elf32 then 4 else 8

/-- The tables are taken where all three are mapped; of the chain one word is asked for. -/
def gnuTables (H : Host) (elf32 : Bool) (off : UInt32) : GnuTables :=
  if off = 0 then ⟨none, none, none, 0, 0, 0, 0⟩
  else match H.at? off 16 with
    | none => ⟨none, none, none, 0, 0, 0, 0⟩
    | some h =>
      let nbucket := H.u32 h
      let symoffset := H.u32 (h + 4)
      let bloomSize := H.u32 (h + 8)
      let bloomShift := H.u32 (h + 12)
      if nbucket ≠ 0 ∧ bloomSize ≠ 0 then
        let bo := off + 16 + bloomSize * .ofNat (bloomBytes elf32)
        let bloom := H.table (off + 16) (bloomSize.toNat * bloomBytes elf32)
        let bucket := H.table bo (nbucket.toNat * 4)
        let chain := H.table (bo + nbucket * 4) 4
        if bloom.isNone ∨ bucket.isNone ∨ chain.isNone then ⟨none, chain, bloom, 0, symoffset, bloomSize, bloomShift⟩
        else ⟨bucket, chain, bloom, nbucket, symoffset, bloomSize, bloomShift⟩
      else ⟨none, none, none, 0, symoffset, bloomSize, bloomShift⟩

/-- `ln64_add_elf` up to the registry. The class is one of the two, 1 for 32 bits. -/
def addElf (H : Host) (path : List UInt8) (bias dynamicOff : UInt32) (elfClass : Nat) (isGlobal isMain : Bool) :
    Option Module :=
  if dynamicOff = 0 then none
  else if elfClass ≠ 1 ∧ elfClass ≠ 2 then none
  else
    let elf32 := elfClass == 1
    if (H.at? dynamicOff (dynSize elf32)).isNone then none
    else
      let d := scan H elf32 bias (2 ^ 32) dynamicOff.toNat {}
      let strtab := H.at? d.strtab 1
      let sysv := sysvTables H d.hash
      let gnu := gnuTables H elf32 d.gnu
      let verdef := H.at? d.verdef 20
      let verneed := H.at? d.verneed 16
      some {
        path, bias, isGlobal, isMain, elf32, strtab, verdef, verneed
        soname := match strtab with
          | some t => if d.soname ≠ 0 then H.str (t + d.soname.toNat) else basenameOf path
          | none => basenameOf path
        symbolic := d.flags &&& 2 ≠ 0
        symtab := H.at? d.symtab (if elf32 then 16 else 24)
        initFn := d.initFn
        initArray := d.initArray
        initArraySize := d.initArraySize
        bucket := sysv.bucket
        chain := sysv.chain
        nbucket := sysv.nbucket
        nchain := sysv.nchain
        gnuBucket := gnu.bucket
        gnuChain := gnu.chain
        gnuBloom := gnu.bloom
        gnuNbucket := gnu.nbucket
        gnuSymoffset := gnu.symoffset
        gnuBloomSize := gnu.bloomSize
        gnuBloomShift := gnu.bloomShift
        versym := H.at? d.versym 2
        verdefnum := if verdef.isNone then 0 else d.verdefnum
        verneednum := if verneed.isNone then 0 else d.verneednum
        neededOff := d.needed }

/-! The symbols. -/

/-- `Elf64_Sym` -/
structure Sym where
  name : UInt32
  info : UInt8
  other : UInt8
  shndx : UInt16
  value : UInt64
  size : UInt64

/-- `symbol_at` -/
def symbolAt (H : Host) (m : Module) (index : UInt32) : Sym :=
  if m.elf32 then
    let p := m.symtab.getD 0 + 16 * index.toNat
    { name := H.u32 p, value := (H.u32 (p + 4)).toUInt64, size := (H.u32 (p + 8)).toUInt64
      info := H.mem (p + 12), other := H.mem (p + 13), shndx := H.u16 (p + 14) }
  else
    let p := m.symtab.getD 0 + 24 * index.toNat
    { name := H.u32 p, info := H.mem (p + 4), other := H.mem (p + 5), shndx := H.u16 (p + 6)
      value := H.u64 (p + 8), size := H.u64 (p + 16) }

/-- `sym_usable`: a definition, global or weak. -/
def symUsable (s : Sym) : Bool := s.shndx ≠ 0 && (s.info >>> 4 = 1 || s.info >>> 4 = 2)

/-- The name of a symbol is a string. -/
def symNamed (H : Host) (m : Module) (s : Sym) (name : List UInt8) : Bool :=
  H.streq (m.strtab.getD 0 + s.name.toNat) name

end Lunaria.Linker
