import Lunaria.Dvm.Charset

/-! Dex images of `dex.c`: numbers and pools are read where they lie, and a read past the end of the image gives zero or
    nothing. The strings that are kept once they were read are read again here. -/

namespace Lunaria.Dvm.Dex

/-- `struct dex_file`: the image, and its header's pools. -/
structure DexFile where
  p : List UInt8
  stringIdsSize : UInt32
  stringIdsOff : UInt32
  typeIdsSize : UInt32
  typeIdsOff : UInt32
  protoIdsSize : UInt32
  protoIdsOff : UInt32
  fieldIdsSize : UInt32
  fieldIdsOff : UInt32
  methodIdsSize : UInt32
  methodIdsOff : UInt32
  classDefsSize : UInt32
  classDefsOff : UInt32

/-! ### Numbers -/

/-- The loop of `dex_uleb`. -/
def ulebLoop (p : List UInt8) : Nat → Nat → UInt32 → Nat → UInt32 × Nat
  | 0, _, v, off => (v, off)
  | i + 1, shift, v, off =>
    match p[off]? with
    | none => (0, off)
    | some b =>
      let v := v ||| (b &&& 0x7f).toUInt32 <<< UInt32.ofNat shift
      if b &&& 0x80 = 0 then (v, off + 1) else ulebLoop p i (shift + 7) v (off + 1)

def u32At (p : List UInt8) (off : Nat) : UInt32 :=
  let byte (k : Nat) : UInt32 := (p.getD (off + k) 0).toUInt32
  if p.length < off + 4 then 0 else byte 0 ||| byte 1 <<< 8 ||| byte 2 <<< 16 ||| byte 3 <<< 24

section
variable (d : DexFile)

def dexUleb (off : Nat) : UInt32 × Nat := ulebLoop d.p 5 0 0 off

def dexU32At (off : Nat) : UInt32 := u32At d.p off

end

theorem ulebLoop_off (p : List UInt8) : ∀ (i shift : Nat) (v : UInt32) (off : Nat), off ≤ (ulebLoop p i shift v off).2
  | 0, _, _, off => Nat.le_refl off
  | i + 1, shift, v, off => by
    rw [ulebLoop]
    cases p[off]? with
    | none => exact Nat.le_refl off
    | some b =>
      dsimp only
      split
      · exact Nat.le_succ off
      · exact Nat.le_of_succ_le (ulebLoop_off p i _ _ (off + 1))

theorem dexUleb_off (d : DexFile) (off : Nat) : off ≤ (dexUleb d off).2 := ulebLoop_off d.p 5 0 0 off

/-! ### The header -/

/-- `dex_open_memory`. -/
def dexOpenMemory (p : List UInt8) : Option DexFile :=
  if p.length < 112 ∨ p.take 4 ≠ [0x64, 0x65, 0x78, 0x0a] ∨ p.getD 7 0 ≠ 0 ∨ u32At p 40 ≠ 0x12345678 then none
  else
    let d : DexFile :=
      { p := p
        stringIdsSize := u32At p 56, stringIdsOff := u32At p 60, typeIdsSize := u32At p 64, typeIdsOff := u32At p 68
        protoIdsSize := u32At p 72, protoIdsOff := u32At p 76, fieldIdsSize := u32At p 80, fieldIdsOff := u32At p 84
        methodIdsSize := u32At p 88, methodIdsOff := u32At p 92, classDefsSize := u32At p 96, classDefsOff := u32At p 100 }
    let pools : List (UInt32 × UInt32 × Nat) :=
      [(d.stringIdsOff, d.stringIdsSize, 4), (d.typeIdsOff, d.typeIdsSize, 4), (d.protoIdsOff, d.protoIdsSize, 12),
        (d.fieldIdsOff, d.fieldIdsSize, 8), (d.methodIdsOff, d.methodIdsSize, 8), (d.classDefsOff, d.classDefsSize, 32)]
    if pools.all fun (off, size, stride) => size = 0 ∨ off.toNat + size.toNat * stride ≤ p.length then some d else none

/-! ### Strings -/

/-- Whether a surrogate pair may have to be folded: a byte `ed` before one of a high surrogate. -/
def mutf8NeedsFixup : List UInt8 → Bool
  | b :: c :: s => (b = 0xed ∧ c &&& 0xf0 = 0xa0) || mutf8NeedsFixup (c :: s)
  | _ => false

/-- A surrogate pair of three bytes each is folded to four bytes. -/
def mutf8ToUtf8 : List UInt8 → List UInt8
  | b0 :: b1 :: b2 :: b3 :: b4 :: b5 :: s =>
    if b0 = 0xed ∧ b1 &&& 0xf0 = 0xa0 ∧ b3 = 0xed ∧ b4 &&& 0xf0 = 0xb0 then
      let hi := 0xd800 ||| (b1 &&& 0x0f).toNat <<< 6 ||| (b2 &&& 0x3f).toNat
      let lo := 0xdc00 ||| (b4 &&& 0x0f).toNat <<< 6 ||| (b5 &&& 0x3f).toNat
      let cp := 0x10000 + (hi - 0xd800) <<< 10 + (lo - 0xdc00)
      UInt8.ofNat (0xf0 ||| cp >>> 18) :: UInt8.ofNat (0x80 ||| cp >>> 12 &&& 0x3f) ::
        UInt8.ofNat (0x80 ||| cp >>> 6 &&& 0x3f) :: UInt8.ofNat (0x80 ||| cp &&& 0x3f) :: mutf8ToUtf8 s
    else b0 :: mutf8ToUtf8 (b1 :: b2 :: b3 :: b4 :: b5 :: s)
  | b :: s => b :: mutf8ToUtf8 s
  | [] => []

section
variable (d : DexFile)

/-- The bytes of a string before its NUL. -/
def dexString (idx : Nat) : Option (List UInt8) :=
  if d.stringIdsSize.toNat ≤ idx then none
  else
    let off := (dexU32At d (d.stringIdsOff.toNat + idx * 4)).toNat
    if d.p.length ≤ off then none
    else
      let p := (dexUleb d off).2
      if d.p.length ≤ p then none
      else if 0 ∉ d.p.drop p then none
      else
        let raw := (d.p.drop p).takeWhile (· ≠ 0)
        some (if mutf8NeedsFixup raw then mutf8ToUtf8 raw else raw)

def dexType (idx : Nat) : Option (List UInt8) :=
  if d.typeIdsSize.toNat ≤ idx then none else dexString d (dexU32At d (d.typeIdsOff.toNat + idx * 4)).toNat

/-- The descriptor of the class that a definition is of. -/
def dexClassDesc (i : Nat) : Option (List UInt8) := dexType d (dexU32At d (d.classDefsOff.toNat + i * 32)).toNat

end

end Lunaria.Dvm.Dex
