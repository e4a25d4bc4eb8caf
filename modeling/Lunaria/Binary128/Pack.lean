import Mathlib.Algebra.Order.Field.Power
import Mathlib.Tactic.FieldSimp
import Lunaria.Binary128.Big

/-! Dividing magnitudes and assembling the 128 bits of a quotient times a power of two, as `binary128.c` does. An `int`
    is cut to 32 bits wherever one is computed. -/

namespace Lunaria.Binary128

/-- `luna_binary128`. -/
structure Bits where
  lo : UInt64
  hi : UInt64
deriving DecidableEq

/-- What an `int` holds of a number. -/
def int (x : Int) : Int := x.bmod (2 ^ 32)

def bits (b : Big) : Int := int (bigBits b)

/-- The loop of `big_divide`, for the bits below `i`. -/
def divLoop : Nat → Big → Big → Big → Big × Big
  | 0, rem, _, q => (q, rem)
  | i + 1, rem, d, q =>
    if 0 ≤ bigCmp rem d then divLoop i (bigSub rem d) (bigShr1 d) (bigSetBit q i) else divLoop i rem (bigShr1 d) q

/-- `big_divide`: quotient and remainder. -/
def bigDivide (rem den : Big) : Big × Big :=
  if den = [] ∨ bigCmp rem den < 0 then ([], rem)
  else
    let shift := int (bits rem - bits den)
    divLoop (shift + 1).toNat rem (bigShl den shift) []

/-- `cmp_scaled`. -/
def cmpScaled (num den : Big) (shift : Int) : Int :=
  if 0 ≤ shift then bigCmp (bigShl num shift) den else bigCmp num (bigShl den (int (-shift)))

/-- `rounded_ratio`: the quotient of `num << shift` by `den`, rounded to nearest, ties to even. -/
def roundedRatio (num den : Big) (shift : Int) : Big :=
  let num := if 0 ≤ shift then bigShl num shift else num
  let den := if 0 ≤ shift then den else bigShl den (int (-shift))
  let (q, rem) := bigDivide num den
  let half := bigCmp (bigShl rem 1) den
  if 0 < half ∨ half = 0 ∧ bigOdd q then bigAddSmall q 1 else q

/-- The first loop of `pack`. -/
def lowerE (num den : Big) (twoExp : Int) : Nat → Int → Option Int
  | 0, _ => none
  | fuel + 1, e => if cmpScaled num den (int (twoExp - e)) < 0 then lowerE num den twoExp fuel (int (e - 1)) else some e

/-- The second loop of `pack`. -/
def raiseE (num den : Big) (twoExp : Int) : Nat → Int → Option Int
  | 0, _ => none
  | fuel + 1, e =>
    if 0 ≤ cmpScaled num den (int (twoExp - int (e + 1))) then raiseE num den twoExp fuel (int (e + 1)) else some e

def signBit (neg : Bool) : Nat := if neg then 0x8000000000000000 else 0

/-- `make`. -/
def make (neg : Bool) (hiBits : Nat) : Bits := ⟨0, UInt64.ofNat (signBit neg ||| hiBits)⟩

/-- The bits of a significand and an exponent field. The implicit bit is discarded. -/
def assemble (neg : Bool) (q : Big) (expField : Int) : Bits where
  lo := UInt64.ofNat (bigWord64 q 0)
  hi := UInt64.ofNat (signBit neg ||| (expField.toNat <<< 48 ||| bigWord64 q 2 &&& 0x0000ffffffffffff))

/-- The part of `pack` after its loops: the quotient is at least `2 ^ e` and less than `2 ^ (e + 1)`. -/
def packAt (neg : Bool) (num den : Big) (twoExp e : Int) : Bits :=
  if 16383 < e then make neg 0x7fff000000000000
  else if e < -16382 then
    let q := roundedRatio num den (int (twoExp + 16494))
    -- a subnormal may be rounded to the least normal number
    if q = [] then make neg 0 else assemble neg q (if 112 < bits q then 1 else 0)
  else
    let q := roundedRatio num den (int (twoExp + 112 - e))
    let p := if 113 < bits q then (bigShr1 q, int (e + 1)) else (q, e)
    if 16383 < p.2 then make neg 0x7fff000000000000 else assemble neg p.1 (int (p.2 + 16383))

/-- `pack`: the bits of `num / den * 2 ^ twoExp`. -/
def pack (fuel : Nat) (neg : Bool) (num den : Big) (twoExp : Int) : Option Bits :=
  if num = [] then some (make neg 0)
  else do
    let e ← lowerE num den twoExp fuel (int (bits num - bits den + twoExp))
    let e ← raiseE num den twoExp fuel e
    return packAt neg num den twoExp e

/-! ### Division -/

section Division
variable {a b rem den d q num : Big} {D n shift twoExp : Int}

theorem int_eq {x : Int} (h : -2 ^ 31 ≤ x) (h' : x < 2 ^ 31) : int x = x :=
  Int.bmod_eq_of_le (by omega) (by omega)

/-- The dividend is below the divisor shifted by as many bits as are still to be found. -/
theorem divLoop_spec {D : Nat} (hD : 0 < D) : ∀ {k : Nat} {rem d q : Big}, Trimmed rem → Trimmed d → Trimmed q →
    (∀ i, k = i + 1 → value d = D * 2 ^ i) → value rem < D * 2 ^ k → 2 ^ k ∣ value q →
    value (divLoop k rem d q).1 = value q + value rem / D ∧ value (divLoop k rem d q).2 = value rem % D ∧
      Trimmed (divLoop k rem d q).1 ∧ Trimmed (divLoop k rem d q).2
  | 0, rem, d, q, hrem, _, hq, _, hlt, _ => by
    rw [Nat.pow_zero, Nat.mul_one] at hlt
    exact ⟨by rw [Nat.div_eq_of_lt hlt]; rfl, (Nat.mod_eq_of_lt hlt).symm, hq, hrem⟩
  | k + 1, rem, d, q, hrem, hd, hq, hval, hlt, hdvd => by
    have hdk := hval k rfl
    have hshr : Trimmed (bigShr1 d) := bigShr1_trimmed
    have hnext : ∀ i, k = i + 1 → value (bigShr1 d) = D * 2 ^ i := by
      rintro i rfl
      rw [value_bigShr1, hdk, Nat.pow_succ, ← Nat.mul_assoc, Nat.mul_div_cancel _ (by decide)]
    have hdvd' : 2 ^ k ∣ value q := Nat.dvd_trans (Nat.pow_dvd_pow 2 (Nat.le_succ k)) hdvd
    have hpow : D * 2 ^ (k + 1) = D * 2 ^ k + D * 2 ^ k := by rw [Nat.pow_succ]; ring
    have hcmp := order_cases (value rem) (value d)
    rw [divLoop, bigCmp_eq hrem hd]
    split
    · have hge : D * 2 ^ k ≤ value rem := by omega
      have hsub : value (bigSub rem d) = value rem - D * 2 ^ k := by rw [value_bigSub (by omega), hdk]
      have hset : value (bigSetBit q k) = value q + 2 ^ k := value_bigSetBit hdvd
      have hrec := divLoop_spec hD (bigSub_trimmed (a := rem) (b := d)) hshr (bigSetBit_trimmed hq) hnext
        (by omega) (by rw [hset]; exact Nat.dvd_add hdvd' (Nat.dvd_refl _))
      rw [hset, hsub] at hrec
      have hdiv : value rem = (value rem - D * 2 ^ k) + D * 2 ^ k := by omega
      refine ⟨?_, ?_, hrec.2.2⟩
      · rw [hrec.1, hdiv, Nat.add_mul_div_left _ _ hD, Nat.add_sub_cancel]
        ring
      · rw [hrec.2.1, hdiv, Nat.add_mul_mod_self_left, Nat.add_sub_cancel]
    · exact divLoop_spec hD hrem hshr hq hnext (by omega) hdvd'

theorem bits_eq (h : bigBits b < 2 ^ 31) : bits b = bigBits b := int_eq (by omega) (by omega)

theorem bigBits_mono (ha : Trimmed a) (hb : Trimmed b) (h : value a ≤ value b) : bigBits a ≤ bigBits b :=
  (bigBits_le ha).2 (Nat.lt_of_le_of_lt h ((bigBits_le hb).1 le_rfl))

theorem bigDivide_spec (hrem : Trimmed rem) (hden : Trimmed den) (hne : den ≠ []) (hr : bigBits rem < 2 ^ 31)
    (hd : bigBits den < 2 ^ 31) : value (bigDivide rem den).1 = value rem / value den ∧
      value (bigDivide rem den).2 = value rem % value den ∧ Trimmed (bigDivide rem den).1 ∧
      Trimmed (bigDivide rem den).2 := by
  have hcmp := order_cases (value rem) (value den)
  rw [bigDivide, bigCmp_eq hrem hden]
  split
  · rename_i hsmall
    have hlt : value rem < value den := by
      have := hsmall.resolve_left hne
      omega
    exact ⟨(Nat.div_eq_of_lt hlt).symm, (Nat.mod_eq_of_lt hlt).symm, trimmed_nil, hrem⟩
  · rename_i hbig
    have hge : value den ≤ value rem := by
      have := (not_or.1 hbig).2
      omega
    have hmono := bigBits_mono hden hrem hge
    obtain ⟨hlow, -, hpos⟩ := value_bits hden hne
    have hshift : int (bits rem - bits den) = (bigBits rem - bigBits den : Nat) := by
      rw [bits_eq hr, bits_eq hd, int_eq (by omega) (by omega)]
      omega
    rw [hshift]
    have hk : (((bigBits rem - bigBits den : Nat) : Int) + 1).toNat = bigBits rem - bigBits den + 1 := by omega
    have htop : value rem < value den * 2 ^ (bigBits rem - bigBits den + 1) := by
      have hsum : bigBits rem = bigBits den - 1 + (bigBits rem - bigBits den + 1) := by omega
      refine Nat.lt_of_lt_of_le ((bigBits_le hrem).1 le_rfl) ?_
      rw [hsum, Nat.pow_add, Nat.add_comm (bigBits den - 1)]
      refine Nat.mul_le_mul hlow (Nat.pow_le_pow_right (by decide) (by omega))
    have hspec := divLoop_spec (hden.value_pos hne) hrem (bigShl_trimmed (k := (bigBits rem - bigBits den : Nat)) hden)
      trimmed_nil (k := bigBits rem - bigBits den + 1) (fun i hi => ?_) htop (Nat.dvd_zero _)
    · rw [value_nil, Nat.zero_add] at hspec
      dsimp only
      rw [hk]
      exact hspec
    · rw [value_bigShl, Int.toNat_natCast, Nat.succ.inj hi]

theorem bigBits_bigShl (h : Trimmed b) (k : Int) : bigBits (bigShl b k) ≤ bigBits b + k.toNat := by
  rw [bigBits_le (bigShl_trimmed h), value_bigShl, Nat.pow_add]
  exact Nat.mul_lt_mul_of_pos_right ((bigBits_le h).1 le_rfl) (Nat.two_pow_pos _)

/-- The quotient rounded to nearest, ties to even. -/
def roundDiv (n d : Nat) : Nat := if d < 2 * (n % d) ∨ 2 * (n % d) = d ∧ n / d % 2 = 1 then n / d + 1 else n / d

theorem bigShl_ne_nil {k : Int} (h : Trimmed b) (hb : b ≠ []) : bigShl b k ≠ [] := by
  intro hnil
  have hval := value_bigShl b k
  rw [hnil, value_nil] at hval
  exact absurd hval (Nat.mul_pos (h.value_pos hb) (Nat.two_pow_pos _)).ne

section
variable (hnum : Trimmed num) (hden : Trimmed den)
include hnum hden

/-- The quotient of magnitudes that are already shifted. -/
theorem rounded_spec (hne : den ≠ []) (hn : bigBits num < 2 ^ 31)
    (hd : bigBits den < 2 ^ 31) :
    let half := bigCmp (bigShl (bigDivide num den).2 1) den
    let q := if 0 < half ∨ half = 0 ∧ bigOdd (bigDivide num den).1 then bigAddSmall (bigDivide num den).1 1
      else (bigDivide num den).1
    value q = roundDiv (value num) (value den) ∧ Trimmed q := by
  obtain ⟨hq, hr, htq, htr⟩ := bigDivide_spec hnum hden hne hn hd
  have hshl : value (bigShl (bigDivide num den).2 1) = 2 * (value num % value den) := by
    rw [value_bigShl, hr, Nat.mul_comm]
    rfl
  have hcmp := order_cases (2 * (value num % value den)) (value den)
  simp only [bigCmp_eq (bigShl_trimmed htr) hden, hshl, bigOdd_eq, hq]
  have hcond : (0 < order (2 * (value num % value den)) (value den) ∨
      order (2 * (value num % value den)) (value den) = 0 ∧ value num / value den % 2 = 1) ↔
      (value den < 2 * (value num % value den) ∨ 2 * (value num % value den) = value den ∧
        value num / value den % 2 = 1) := by
    omega
  rw [roundDiv, if_congr hcond rfl rfl]
  split
  · refine ⟨?_, bigAddSmall_trimmed htq⟩
    rw [value_bigAddSmall, hq]
    rfl
  · exact ⟨hq, htq⟩

theorem roundedRatio_spec {s : Int} (hne : den ≠ [])
    (hn : bigBits num + s.toNat < 2 ^ 31) (hd : bigBits den + (-s).toNat < 2 ^ 31) :
    value (roundedRatio num den s) = roundDiv (value num * 2 ^ s.toNat) (value den * 2 ^ (-s).toNat) ∧
      Trimmed (roundedRatio num den s) := by
  unfold roundedRatio
  by_cases hs : 0 ≤ s
  · simp only [if_pos hs]
    have hzero : (-s).toNat = 0 := by omega
    have := bigBits_bigShl hnum s
    have hspec := rounded_spec (bigShl_trimmed (k := s) hnum) hden hne (by omega) (by omega)
    rw [value_bigShl] at hspec
    rw [hzero, Nat.pow_zero, Nat.mul_one]
    exact hspec
  · simp only [if_neg hs]
    have hzero : s.toNat = 0 := by omega
    have hint : int (-s) = -s := int_eq (by omega) (by omega)
    have := bigBits_bigShl hden (-s)
    have hspec := rounded_spec hnum (bigShl_trimmed (k := -s) hden) (bigShl_ne_nil hden hne) (by omega) (by omega)
    rw [value_bigShl] at hspec
    rw [hzero, Nat.pow_zero, Nat.mul_one, hint]
    exact hspec

theorem cmpScaled_eq {s : Int} (h : -2 ^ 31 < s) (h' : s < 2 ^ 31) :
    cmpScaled num den s = order (value num * 2 ^ s.toNat) (value den * 2 ^ (-s).toNat) := by
  unfold cmpScaled
  by_cases hs : 0 ≤ s
  · have hzero : (-s).toNat = 0 := by omega
    rw [if_pos hs, bigCmp_eq (bigShl_trimmed hnum) hden, value_bigShl, hzero, Nat.pow_zero, Nat.mul_one]
  · have hzero : s.toNat = 0 := by omega
    rw [if_neg hs, int_eq (by omega) (by omega), bigCmp_eq hnum (bigShl_trimmed hden), value_bigShl, hzero,
      Nat.pow_zero, Nat.mul_one]

end

end Division

end Lunaria.Binary128
