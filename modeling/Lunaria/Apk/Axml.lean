import Lunaria.Lib.CText
import Lunaria.Lib.Checked
import Lunaria.Dvm.Charset

/-! The string pool of a binary XML file. The data is a string of bytes, a chunk is where it starts and how long it says it
    is. A read outside the data, a subtraction below zero and an index outside the pool are faults. -/

namespace Lunaria.Apk
open Checked CText

/-- A subtraction of sizes, which must not wrap around. -/
def minus (a b : Nat) : Checked Nat := do
  assert (b ≤ a)
  return a - b

theorem minus_sound {a b : Nat} (h : b ≤ a) : (minus a b).Sound fun c => c = a - b :=
  Sound.assert h rfl

/-- `axml_string`. The source answers an index that is too large with the empty string. -/
def axmlString (x : List (List UInt8)) (i : Nat) : Checked (List UInt8) :=
  match x[i]? with
  | some s => .ok s
  | none => .fault

theorem axmlString_sound {x : List (List UInt8)} {i : Nat} (h : i < x.length) :
    (axmlString x i).Sound fun s => s = x[i] := by
  rw [axmlString, List.getElem?_eq_getElem h]
  rfl

section Pool
variable (data : List UInt8) (p n : Nat)

/-- `pool_len`: the length, and where the text is. -/
def poolLen (utf8 : Bool) (at' : Nat) : Checked (Nat × Nat) :=
  if utf8 then do
    require (at' < n)
    let value ← read data (p + at')
    if 0x80 ≤ value then do
      require (at' + 1 < n)
      let low ← read data (p + (at' + 1))
      return (value % 0x80 * 2 ^ 8 + low, at' + 2)
    else return (value, at' + 1)
  else do
    let left ← minus n at'
    require (2 ≤ left)
    let value ← read16 data (p + at')
    if 0x8000 ≤ value then do
      let left ← minus n (at' + 2)
      require (2 ≤ left)
      let low ← read16 data (p + (at' + 2))
      return (value % 0x8000 * 2 ^ 16 + low, at' + 4)
    else return (value, at' + 2)

/-- The units of a string. The offset of a unit is a number of 32 bits. -/
def readUnits (at' : Nat) : Nat → Nat → Checked (List UInt16)
  | 0, _ => return []
  | left + 1, k => do
    let u ← read16 data (p + at' + k * 2 % 2 ^ 32)
    let us ← readUnits at' left (k + 1)
    return UInt16.ofNat u :: us

/-- The loop of `axml_pool`: the string at an index. -/
def poolString (header base : Nat) (utf8 : Bool) (i : Nat) : Checked (List UInt8) := do
  let off ← read32 data (p + header + i * 4)
  let room ← minus n base
  require (off ≤ room)
  let (_, at') ← (if utf8 then poolLen data p n true (base + off) else pure (0, base + off))
  let (len, at') ← poolLen data p n utf8 at'
  let left ← minus n at'
  if utf8 then do
    require (len ≤ left)
    let after ← minus left len
    require (1 ≤ after)
    let terminator ← read data (p + at' + len)
    require (terminator = 0)
    let bytes ← readRange data (p + at') len
    return cstr bytes
  else do
    require (len ≤ left / 2)
    let after ← minus left (len * 2)
    require (2 ≤ after)
    let terminator ← read16 data (p + at' + len * 2 % 2 ^ 32)
    require (terminator = 0)
    let units ← readUnits data p at' len 0
    let bytes := Dvm.Charset.utf16ToWtf8 units
    -- the buffer has three bytes for a unit, and one for the end
    assert (bytes.length < len * 3 + 1)
    return cstr bytes

def poolStrings (string : Nat → Checked (List UInt8)) : Nat → Nat → Checked (List (List UInt8))
  | 0, _ => return []
  | count + 1, i => do
    let s ← string i
    let rest ← poolStrings string count (i + 1)
    return s :: rest

/-- `axml_pool`. -/
def axmlPool : Checked (List (List UInt8)) := do
  require (28 ≤ n)
  let header ← read16 data (p + 2)
  let count ← read32 data (p + 8)
  let base ← read32 data (p + 20)
  let flags ← read32 data (p + 16)
  require (count ≤ 1000000 ∧ header ≤ n)
  let room ← minus n header
  require (count ≤ room / 4 ∧ base ≤ n)
  poolStrings (poolString data p n header base (flags / 256 % 2 = 1)) count 0

end Pool

/-! ### The bounds -/

section Bounds
variable {data : List UInt8} {p n at' : Nat}

theorem poolLen_sound (hp : p + n ≤ data.length) (utf8 : Bool) (hat : at' ≤ n) :
    (poolLen data p n utf8 at').Sound fun r => r.2 ≤ n ∧ r.1 < 2 ^ 31 := by
  unfold poolLen
  cases utf8 with
  | true =>
    rw [if_pos rfl]
    refine Sound.require fun h => ?_
    refine (read_sound (by omega)).bind fun value hvalue => Sound.ite (fun _ => ?_) fun _ => ?_
    · refine Sound.require fun h2 => (read_sound (by omega)).bind fun low hlow => ?_
      rw [sound_pure]
      dsimp only
      omega
    · rw [sound_pure]
      dsimp only
      omega
  | false =>
    rw [if_neg Bool.false_ne_true]
    refine (minus_sound hat).bind fun left hleft => Sound.require fun h => ?_
    refine (read16_sound (by omega)).bind fun value hvalue => Sound.ite (fun _ => ?_) fun _ => ?_
    · refine (minus_sound (by omega)).bind fun left' hleft' => Sound.require fun h2 => ?_
      refine (read16_sound (by omega)).bind fun low hlow => ?_
      rw [sound_pure]
      dsimp only
      omega
    · rw [sound_pure]
      dsimp only
      omega

theorem readUnits_sound : ∀ {left k : Nat}, k + left < 2 ^ 31 → p + at' + (k + left) * 2 ≤ data.length →
    (readUnits data p at' left k).Sound fun us => us.length = left
  | 0, _, _, _ => rfl
  | left + 1, k, hsmall, hin => by
    rw [readUnits]
    have hk : k * 2 % 2 ^ 32 = k * 2 := Nat.mod_eq_of_lt (by omega)
    rw [hk]
    refine (read16_sound (by omega)).bind fun u _ => ?_
    refine (readUnits_sound (k := k + 1) (by omega) (by omega)).bind fun us hus => ?_
    rw [sound_pure, List.length_cons, hus]

theorem putCp_length (cp : Nat) : (Dvm.Charset.putCp cp).length ≤ if cp < 0x10000 then 3 else 4 := by
  unfold Dvm.Charset.putCp
  split
  · rw [if_pos (by omega)]
    simp
  · split
    · rw [if_pos (by omega)]
      simp
    · split <;> simp

/-- A unit becomes three bytes at most, two of a pair become four. -/
theorem utf16ToWtf8_length (units : List UInt16) : (Dvm.Charset.utf16ToWtf8 units).length ≤ units.length * 3 := by
  have hunit : ∀ c : UInt16, (Dvm.Charset.putCp c.toNat).length ≤ 3 := by
    intro c
    have h := putCp_length c.toNat
    rwa [if_pos c.toNat_lt] at h
  induction units using Dvm.Charset.utf16ToWtf8.induct with
  | case1 => exact le_rfl
  | case2 c => exact hunit c
  | case3 c l us hpair ih =>
    rw [Dvm.Charset.utf16ToWtf8, if_pos hpair, List.length_append]
    have h := putCp_length (0x10000 + (c.toNat - 0xd800) <<< 10 + (l.toNat - 0xdc00))
    have h4 : (Dvm.Charset.putCp (0x10000 + (c.toNat - 0xd800) <<< 10 + (l.toNat - 0xdc00))).length ≤ 4 := by
      split at h <;> omega
    simp only [List.length_cons]
    omega
  | case4 c l us hpair ih =>
    rw [Dvm.Charset.utf16ToWtf8, if_neg hpair, List.length_append]
    have h := hunit c
    simp only [List.length_cons] at ih ⊢
    omega

theorem poolString_sound {header base i : Nat} (hp : p + n ≤ data.length) (hi : header + i * 4 + 4 ≤ n) (hbase : base ≤ n)
    (utf8 : Bool) : (poolString data p n header base utf8 i).Safe := by
  unfold poolString
  refine Sound.safe (P := fun _ => True) ?_
  refine (read32_sound (by omega)).bind fun off _ => (minus_sound hbase).bind fun room hroom => Sound.require fun hoff => ?_
  have hlen : (if utf8 = true then poolLen data p n true (base + off) else pure (0, base + off)).Sound
      fun r => r.2 ≤ n := by
    refine Sound.ite (fun _ => (poolLen_sound hp true (by omega)).mono fun r hr => hr.1) fun _ => ?_
    rw [sound_pure]
    omega
  refine hlen.bind fun r hr => ?_
  obtain ⟨_, at'⟩ := r
  dsimp only at hr ⊢
  refine (poolLen_sound hp utf8 hr).bind fun r' hr' => ?_
  obtain ⟨len, at₂⟩ := r'
  obtain ⟨hat, hsmall⟩ := hr'
  dsimp only at hat hsmall ⊢
  refine (minus_sound hat).bind fun left hleft => Sound.ite (fun _ => ?_) fun _ => ?_
  · refine Sound.require fun h1 => (minus_sound h1).bind fun after hafter => Sound.require fun h2 => ?_
    refine (read_sound (by omega)).bind fun terminator _ => Sound.require fun _ => ?_
    exact (readRange_sound (by omega)).bind fun bytes _ => trivial
  · refine Sound.require fun h1 => (minus_sound (by omega)).bind fun after hafter => Sound.require fun h2 => ?_
    have hmod : len * 2 % 2 ^ 32 = len * 2 := Nat.mod_eq_of_lt (by omega)
    rw [hmod]
    refine (read16_sound (by omega)).bind fun terminator _ => Sound.require fun _ => ?_
    refine (readUnits_sound (by omega) (by omega)).bind fun units hunits => ?_
    have hbytes := utf16ToWtf8_length units
    exact Sound.assert (by omega) trivial

theorem poolStrings_sound {string : Nat → Checked (List UInt8)} : ∀ {count i : Nat},
    (∀ j, i ≤ j → j < i + count → (string j).Safe) → (poolStrings string count i).Safe
  | 0, _, _ => nofun
  | count + 1, i, h => by
    rw [poolStrings]
    refine Sound.safe (P := fun _ => True) ((h i (Nat.le_refl i) (by omega)).sound.bind fun s _ => ?_)
    have hrest : (poolStrings string count (i + 1)).Safe := poolStrings_sound fun j hj hlt => h j (by omega) (by omega)
    exact hrest.sound.bind fun _ _ => trivial

theorem axmlPool_safe (hp : p + n ≤ data.length) : (axmlPool data p n).Safe := by
  unfold axmlPool
  refine Sound.safe (P := fun _ => True) (Sound.require fun hn => ?_)
  refine (read16_sound (by omega)).bind fun header _ => (read32_sound (by omega)).bind fun count _ => ?_
  refine (read32_sound (by omega)).bind fun base _ => (read32_sound (by omega)).bind fun flags _ => ?_
  refine Sound.require fun hcount => (minus_sound hcount.2).bind fun room hroom => Sound.require fun hbase => ?_
  exact (poolStrings_sound fun j _ hj => poolString_sound hp (by omega) hbase.2 _).sound

end Bounds

end Lunaria.Apk
