import Mathlib.Algebra.GroupWithZero.Nat

/-! The ZIP reader of `apk.c`: the index of an archive, a lookup by name and the data of one entry. A file is its bytes;
    offsets and sizes are the source's 64-bit numbers, none of which overflows where it is used. The stream decoder of
    zlib and the cancel button of the launcher are parameters. -/

namespace Lunaria.Apk

def ch (c : Char) : UInt8 := UInt8.ofNat c.toNat

def apkPath : Nat := 4096

def apkMaxManifest : Nat := 16 * 1024 * 1024

def uint32Max : Nat := 0xffffffff

def uint64Max : Nat := 0xffffffffffffffff

/-! ### Little-endian numbers -/

def byte (p : List UInt8) (i : Nat) : Nat := (p.getD i 0).toNat

def le16 (p : List UInt8) (i : Nat) : Nat := byte p i + byte p (i + 1) * 2 ^ 8

def le32 (p : List UInt8) (i : Nat) : Nat := le16 p i + le16 p (i + 2) * 2 ^ 16

def le64 (p : List UInt8) (i : Nat) : Nat := le32 p i + le32 p (i + 4) * 2 ^ 32

/-! ### The index -/

/-- `struct zip_entry`. -/
structure Entry where
  name : List UInt8
  offset : Nat
  compressed : Nat
  size : Nat
  crc : Nat
  attrs : Nat
  method : Nat
  flags : Nat
  deriving DecidableEq

/-- `struct zip`: the file it reads, the part of the file it is, and the entries once they are indexed. -/
structure Zip where
  file : List UInt8
  origin : Nat
  size : Nat
  entries : List Entry
  deriving DecidableEq

/-- `zip_seek` and then `fread` of `n` bytes. -/
def Zip.fread (z : Zip) (offset n : Nat) : Option (List UInt8) :=
  if z.size < offset ∨ uint64Max < z.origin + offset ∨ 2 ^ 63 ≤ z.origin + offset then none
  else if z.origin + offset + n ≤ z.file.length then some ((z.file.drop (z.origin + offset)).take n)
  else none

/-- The end record at a place of the last bytes, with a comment that reaches their end. -/
def isEnd (buf : List UInt8) (i : Nat) : Bool :=
  le32 buf i = 0x06054b50 ∧ i + 22 + le16 buf (i + 20) = buf.length

def findEnd (buf : List UInt8) : Nat → Option Nat
  | 0 => if isEnd buf 0 then some 0 else none
  | i + 1 => if isEnd buf (i + 1) then some (i + 1) else findEnd buf i

/-- `ZIP64_FIELD`: a field that did not fit is the next number of the extra data. -/
def zip64Field (extra : List UInt8) (limit : Nat) (field at' : Nat) : Option (Nat × Nat) :=
  if field = uint32Max then if limit - at' < 8 then none else some (le64 extra at', at' + 8) else some (field, at')

/-- The loop over the extra data of an entry. Each round uses four bytes or more. -/
def extraLoop (extra : List UInt8) : Nat → Nat → Entry → Bool → Option (Entry × Bool)
  | 0, _, e, have64 => some (e, have64)
  | fuel + 1, k, e, have64 =>
    if k + 4 ≤ extra.length then
      let len := le16 extra (k + 2)
      if extra.length - k - 4 < len then none
      else if le16 extra k = 1 then do
        let limit := k + 4 + len
        let (size, at') ← zip64Field extra limit e.size (k + 4)
        let (compressed, at') ← zip64Field extra limit e.compressed at'
        let (offset, _) ← zip64Field extra limit e.offset at'
        extraLoop extra fuel (k + 4 + len) { e with size := size, compressed := compressed, offset := offset } true
      else extraLoop extra fuel (k + 4 + len) e have64
    else some (e, have64)

/-- The entry of the central directory at a position, and the position after it. -/
def entryAt (z : Zip) (cdEnd pos : Nat) : Option (Entry × Nat) := do
  if cdEnd < pos ∨ cdEnd - pos < 46 then none
  let h ← z.fread pos 46
  if le32 h 0 ≠ 0x02014b50 then none
  let nl := le16 h 28
  let xl := le16 h 30
  let cl := le16 h 32
  if nl = 0 ∨ apkPath ≤ nl ∨ cdEnd - pos < 46 + nl + xl + cl then none
  let name ← z.fread (pos + 46) nl
  let extra ← z.fread (pos + 46 + nl) xl
  if name.contains 0 then none
  if le16 h 34 ≠ 0 then none
  let (e, have64) ← extraLoop extra (xl + 1) 0
    { name := name, flags := le16 h 8, method := le16 h 10, crc := le32 h 16, compressed := le32 h 20, size := le32 h 24,
      attrs := le32 h 38, offset := le32 h 42 } false
  if have64 = false ∧ (e.size = uint32Max ∨ e.compressed = uint32Max ∨ e.offset = uint32Max) then none
  if z.size < e.offset ∨ z.size - e.offset < e.compressed then none
  return (e, pos + 46 + nl + xl + cl)

/-- The loop over the central directory. -/
def entriesLoop (z : Zip) (cdEnd : Nat) : Nat → Nat → Option (List Entry)
  | 0, _ => some []
  | count + 1, pos => do
    let (e, pos) ← entryAt z cdEnd pos
    let entries ← entriesLoop z cdEnd count pos
    return e :: entries

/-- The count, offset and size of the central directory from the ZIP64 records before the end record. -/
def zip64End (z : Zip) (eocd : Nat) : Option (Nat × Nat × Nat) := do
  if eocd < 20 then none
  let loc ← z.fread (eocd - 20) 20
  if le32 loc 0 ≠ 0x07064b50 ∨ le32 loc 4 ≠ 0 ∨ le32 loc 16 ≠ 1 then none
  let record ← z.fread (le64 loc 8) 56
  if le32 record 0 ≠ 0x06064b50 ∨ le32 record 16 ≠ 0 ∨ le32 record 20 ≠ 0 then none
  return (le64 record 32, le64 record 48, le64 record 40)

/-- `zip_index`. -/
def zipIndex (z : Zip) : Option Zip := do
  if z.size < 22 then none
  let tail := min z.size 65557
  let buf ← z.fread (z.size - tail) tail
  let endAt ← findEnd buf (tail - 22)
  if le16 buf (endAt + 4) ≠ 0 ∨ le16 buf (endAt + 6) ≠ 0 then none
  let eocd := z.size - tail + endAt
  let count := le16 buf (endAt + 10)
  let cd := le32 buf (endAt + 16)
  let cdSize := le32 buf (endAt + 12)
  let (count, cd, cdSize) ←
    if count = 65535 ∨ cd = uint32Max ∨ cdSize = uint32Max then zip64End z eocd else some (count, cd, cdSize)
  if 1000000 < count ∨ z.size < cd ∨ z.size - cd < cdSize then none
  let entries ← entriesLoop z (cd + cdSize) count cd
  return { z with entries := entries }

/-- `zip_open_range`. -/
def zipOpenRange (file : List UInt8) (origin size : Nat) : Option Zip :=
  if file.length < 22 ∨ file.length < origin ∨ file.length - origin < size then none
  else zipIndex ⟨file, origin, if size ≠ 0 then size else file.length - origin, []⟩

/-- `zip_open`. -/
def zipOpen (file : List UInt8) : Option Zip := zipOpenRange file 0 0

/-- `zip_find`: the first entry with the name. -/
def zipFind (entries : List Entry) (name : List UInt8) : Option Entry := entries.find? fun e => e.name = name

/-! ### Names -/

/-- One part of a path: not empty, neither `.` nor `..`, and no control character. -/
def partSafe (p : List UInt8) : Bool :=
  p ≠ [] ∧ p ≠ [ch '.'] ∧ p ≠ [ch '.', ch '.'] ∧ p.all fun c => 32 ≤ c

/-- The loop over the parts. A name may end in a slash, with nothing after it. -/
def partsSafe : List (List UInt8) → Bool
  | [] => true
  | [p] => p = [] ∨ partSafe p
  | p :: rest => partSafe p ∧ partsSafe rest

/-- `entry_safe`, away from Windows. -/
def entrySafe (name : List UInt8) : Bool :=
  name ≠ [] ∧ name.head? ≠ some (ch '/') ∧ ch '\\' ∉ name ∧ ch ':' ∉ name ∧ partsSafe (name.splitOn (ch '/'))

/-! ### The data of an entry -/

/-- One step of `crc32` for one bit. -/
def crcBit (c : UInt32) : UInt32 := if c &&& 1 = 1 then (c >>> 1) ^^^ 0xedb88320 else c >>> 1

def crcByte (c : UInt32) (b : UInt8) : UInt32 :=
  crcBit (crcBit (crcBit (crcBit (crcBit (crcBit (crcBit (crcBit (c ^^^ b.toUInt32))))))))

/-- `crc32`. -/
def crc32 (crc : UInt32) (data : List UInt8) : UInt32 := ~~~ (data.foldl crcByte (~~~ crc))

/-- What a call of `inflate` returns. -/
inductive InflateCode
  | ok
  | streamEnd
  | bufError
  | other
  deriving DecidableEq

/-- The raw decoder of zlib: `inflateInit2`, and a call of `inflate` on the input that is left, with room for 65536
    bytes. It gives the code, the bytes that were decoded and the input that is left then. -/
structure Inflate where
  Stream : Type
  init : Option Stream
  inflate : Stream → List UInt8 → InflateCode × List UInt8 × List UInt8 × Stream

/-- What the loops of `zip_read` keep. -/
structure Reading (σ : Type) where
  data : List UInt8
  crc : UInt32
  stream : σ
  ended : Bool

section Read
variable (zlib : Inflate) (e : Entry)

/-- A piece of the data, unless there is more than the entry says. -/
def deliver {σ : Type} (r : Reading σ) (data : List UInt8) : Option (Reading σ) :=
  if e.size < r.data.length ∨ e.size - r.data.length < data.length then none
  else some { r with data := r.data ++ data, crc := crc32 r.crc data }

/-- The inner loop of `zip_read` for a compressed entry: `left` bytes of it come after this input. -/
def inflateLoop (left : Nat) : Nat → List UInt8 → Reading zlib.Stream → Option (Reading zlib.Stream)
  | 0, _, _ => none
  | fuel + 1, input, r =>
    match zlib.inflate r.stream input with
    | (.streamEnd, out, input, stream) =>
      if left ≠ 0 ∨ input ≠ [] then none else deliver e { r with stream := stream, ended := true } out
    | (.bufError, out, input, stream) => if input = [] ∧ out = [] then some { r with stream := stream } else none
    | (.other, _, _, _) => none
    | (.ok, out, input, stream) => do
      let r ← deliver e { r with stream := stream } out
      if input ≠ [] ∨ out.length = 65536 then inflateLoop left fuel input r else some r

variable (fuel : Nat) (cancelled : Nat → Bool)

/-- The outer loop of `zip_read`, over pieces of 65536 bytes. The number counts how often the launcher was asked. -/
def readLoop {σ : Type} (next : Nat → List UInt8 → Reading σ → Option (Reading σ)) :
    List (List UInt8) → Nat → Reading σ → Option (Reading σ) × Nat
  | [], polls, r => (some r, polls)
  | input :: rest, polls, r =>
    if cancelled polls then (none, polls + 1)
    else
      match next (rest.map List.length).sum input r with
      | none => (none, polls + 1)
      | some r => if e.method = 8 ∧ r.ended then (some r, polls + 1) else readLoop next rest (polls + 1) r

/-- The compressed data in pieces of 65536 bytes. -/
def pieces : Nat → List UInt8 → List (List UInt8)
  | 0, _ => []
  | fuel + 1, data => if data = [] then [] else data.take 65536 :: pieces fuel (data.drop 65536)

/-- What is read is all of the entry, with the sum that the archive says. -/
def complete {σ : Type} (r : Reading σ) : Bool := r.ended ∧ r.data.length = e.size ∧ r.crc.toNat = e.crc

def finish {σ : Type} : Option (Reading σ) × Nat → Option (List UInt8) × Nat
  | (some r, polls) => (if complete e r then some r.data else none, polls)
  | (none, polls) => (none, polls)

/-- The data of an entry, from what the archive holds of it. -/
def readData (input : List UInt8) (polls : Nat) : Option (List UInt8) × Nat :=
  if e.method = 8 then
    match zlib.init with
    | none => (none, polls)
    | some stream =>
      finish e (readLoop e cancelled (fun left => inflateLoop zlib e left fuel) (pieces input.length input) polls
        ⟨[], crc32 0 [], stream, false⟩)
  else finish e (readLoop e cancelled (fun _ input r => deliver e r input) (pieces input.length input) polls
    (⟨[], crc32 0 [], (), true⟩ : Reading Unit))

/-- Where the data of an entry starts, by its local header. -/
def dataAt (z : Zip) : Option Nat := do
  let h ← z.fread e.offset 30
  if le32 h 0 ≠ 0x04034b50 then none
  let at' := e.offset + 30 + le16 h 26 + le16 h 28
  if z.size < at' ∨ z.size - at' < e.compressed then none
  return at'

/-- `zip_read`: the data it delivers where it returns 0, to a file or to a memory of some capacity. -/
def zipRead (z : Zip) (capacity : Option Nat) (polls : Nat) : Option (List UInt8) × Nat :=
  if e.flags % 2 = 1 ∨ ¬ (e.method = 0 ∨ e.method = 8) then (none, polls)
  else
    match dataAt e z with
    | none => (none, polls)
    | some at' =>
      if capacity.any (· < e.size) then (none, polls)
      else
        match z.fread at' e.compressed with
        | none => (none, polls)
        | some input => readData zlib e fuel cancelled input polls

/-- `zip_memory`. -/
def zipMemory (z : Zip) (name : List UInt8) (polls : Nat) : Option (List UInt8) × Nat :=
  match zipFind z.entries name with
  | none => (none, polls)
  | some e => if apkMaxManifest < e.size then (none, polls) else zipRead zlib e fuel cancelled z (some e.size) polls

end Read

end Lunaria.Apk
