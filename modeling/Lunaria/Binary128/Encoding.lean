import Lunaria.Lib.Rounding
import Lunaria.Binary128.Pack

/-! The encoding of binary128 and what `pack` gives: the code of the value nearest to the quotient, ties to even. -/

namespace Lunaria.Binary128
open Rounding

/-- The value of an encoding without its sign. The code of the infinity stands for the power of two after the
    greatest finite value. -/
def codeValue (k : ℕ) : ℚ :=
  if k / 2 ^ 112 = 0 then (k : ℚ) * 2 ^ (-16494 : ℤ)
  else (2 ^ 112 + (k % 2 ^ 112 : ℕ)) * 2 ^ ((k / 2 ^ 112 : ℕ) - 16495 : ℤ)

def infinity : ℕ := 0x7fff * 2 ^ 112

/-- The encoding without its sign. -/
def Bits.code (r : Bits) : ℕ := r.hi.toNat % 2 ^ 63 * 2 ^ 64 + r.lo.toNat

/-- The bits encode a sign and a magnitude, rounded to nearest, ties to even. -/
structure Encodes (neg : Bool) (V : ℚ) (r : Bits) : Prop where
  sign : r.hi.toNat / 2 ^ 63 = if neg then 1 else 0
  nearest : Nearest codeValue infinity V r.code
  zero : r.code = 0 ↔ V ≤ 2 ^ (-16495 : ℤ)
  infinite : r.code = infinity ↔ (2 ^ 114 - 1) * 2 ^ 16270 ≤ V

/-! ### The table of values -/

theorem codeValue_grid {e : ℤ} (he : -16382 ≤ e) {base i : ℕ} (hbase : (base : ℤ) = (e + 16382) * 2 ^ 112)
    (hi : i ≤ 2 ^ 113) (hlo : e = -16382 ∨ 2 ^ 112 ≤ i) : codeValue (base + i) = i * 2 ^ (e - 112) := by
  obtain ⟨n, hn⟩ : ∃ n : ℕ, e = n - 16382 := ⟨(e + 16382).toNat, by omega⟩
  subst hn
  have hbase : base = n * 2 ^ 112 := by
    have : (n : ℤ) - 16382 + 16382 = n := by ring
    rw [this] at hbase
    exact_mod_cast hbase
  unfold codeValue
  rcases Nat.lt_trichotomy i (2 ^ 113) with hlt | heq | hgt
  · rcases Nat.lt_or_ge i (2 ^ 112) with hsub | hnorm
    · have hn : n = 0 := by omega
      subst hn
      rw [if_pos (by omega), hbase]
      norm_num
    · have hfield : (base + i) / 2 ^ 112 = n + 1 := by omega
      have hrest : (base + i) % 2 ^ 112 = i - 2 ^ 112 := by omega
      have hcast : ((i - 2 ^ 112 : ℕ) : ℚ) = i - 2 ^ 112 := by
        rw [Nat.cast_sub hnorm]
        norm_num
      have hexp : ((n + 1 : ℕ) : ℤ) - 16495 = (n : ℤ) - 16382 - 112 := by
        push_cast
        ring
      rw [if_neg (by omega), hfield, hrest, hcast, hexp, add_sub_cancel]
  · have hfield : (base + i) / 2 ^ 112 = n + 2 := by omega
    have hrest : (base + i) % 2 ^ 112 = 0 := by omega
    have hexp : ((n + 2 : ℕ) : ℤ) - 16495 = ((n : ℤ) - 16382 - 112) + 1 := by
      push_cast
      ring
    rw [if_neg (by omega), hfield, hrest, hexp, zpow_add_one₀ (by norm_num), heq]
    push_cast
    ring
  · omega

theorem exists_grid (k : ℕ) : ∃ (e : ℤ) (base i : ℕ), -16382 ≤ e ∧ (base : ℤ) = (e + 16382) * 2 ^ 112 ∧ k = base + i ∧
    i < 2 ^ 113 ∧ (e = -16382 ∨ 2 ^ 112 ≤ i) := by
  by_cases hsub : k < 2 ^ 112
  · exact ⟨-16382, 0, k, le_refl _, by norm_num, (Nat.zero_add k).symm, by omega, .inl rfl⟩
  · refine ⟨(k / 2 ^ 112 - 1 : ℕ) - 16382, (k / 2 ^ 112 - 1) * 2 ^ 112, k - (k / 2 ^ 112 - 1) * 2 ^ 112, by omega,
      ?_, by omega, by omega, .inr (by omega)⟩
    push_cast
    ring

theorem codeValue_strictMono : StrictMono codeValue := by
  refine strictMono_nat_of_lt_succ fun k => ?_
  obtain ⟨e, base, i, he, hbase, rfl, hlt, hlo⟩ := exists_grid k
  rw [codeValue_grid he hbase hlt.le hlo, Nat.add_assoc, codeValue_grid he hbase hlt (hlo.imp_right fun h => by omega)]
  have hpos : (0 : ℚ) < 2 ^ (e - 112) := by positivity
  have hstep : (i : ℚ) < (i + 1 : ℕ) := by exact_mod_cast Nat.lt_succ_self i
  exact mul_lt_mul_of_pos_right hstep hpos

theorem codeValue_zero : codeValue 0 = 0 := by norm_num [codeValue]

theorem codeValue_one : codeValue 1 / 2 = 2 ^ (-16495 : ℤ) := by
  have hexp : (-16494 : ℤ) = -16495 + 1 := by norm_num
  rw [codeValue, if_pos (by norm_num), hexp, zpow_add_one₀ (by norm_num)]
  generalize (2 : ℚ) ^ (-16495 : ℤ) = x
  push_cast
  ring

theorem codeValue_middle : (codeValue (infinity - 1) + codeValue infinity) / 2 = (2 ^ 114 - 1) * 2 ^ 16270 := by
  have hbase : ((32765 * 2 ^ 112 : ℕ) : ℤ) = ((16383 : ℤ) + 16382) * 2 ^ 112 := by norm_num
  have hlast := codeValue_grid (e := 16383) (i := 2 ^ 113 - 1) (by norm_num) hbase (by norm_num) (.inr (by norm_num))
  have htop := codeValue_grid (e := 16383) (i := 2 ^ 113) (by norm_num) hbase (by norm_num) (.inr (by norm_num))
  have hl : infinity - 1 = 32765 * 2 ^ 112 + (2 ^ 113 - 1) := by decide
  have ht : infinity = 32765 * 2 ^ 112 + 2 ^ 113 := by decide
  rw [hl, hlast, ht, htop]
  have hexp : (2 : ℚ) ^ ((16383 : ℤ) - 112) = 2 * 2 ^ 16270 := by
    rw [← pow_succ', ← zpow_natCast]
    norm_num
  rw [hexp]
  generalize (2 : ℚ) ^ 16270 = x
  push_cast
  ring

section
variable {neg : Bool} {V : ℚ} {r : Bits}

theorem Encodes.of_nearest (hV : 0 ≤ V) (hsign : r.hi.toNat / 2 ^ 63 = if neg then 1 else 0)
    (h : Nearest codeValue infinity V r.code) : Encodes neg V r := by
  have htop : infinity = (infinity - 1) + 1 := by decide
  refine ⟨hsign, h, ?_, ?_⟩
  · rw [← codeValue_one]
    exact h.zero_iff codeValue_strictMono codeValue_zero (by decide) hV
  · rw [← codeValue_middle]
    have h' := h
    rw [htop] at h'
    have := h'.top_iff codeValue_strictMono (by decide)
    rwa [← htop] at this

end

/-! ### The bits of `make` and `assemble` -/

section
variable {neg : Bool} {x : ℕ}

theorem toNat_word64 (n : ℕ) : (UInt64.ofNat n).toNat = n % 2 ^ 64 := UInt64.toNat_ofNat'

theorem signBit_or (neg : Bool) (h : x < 2 ^ 63) : (signBit neg ||| x) % 2 ^ 63 = x ∧
    (signBit neg ||| x) / 2 ^ 63 = (if neg then 1 else 0) ∧ signBit neg ||| x < 2 ^ 64 := by
  cases neg with
  | false =>
    simp only [signBit, Bool.false_eq_true, if_false, Nat.zero_or]
    omega
  | true =>
    have hor : signBit true ||| x = 2 ^ 63 + x := by
      have := Nat.shiftLeft_add_eq_or_of_lt h 1
      rw [Nat.one_shiftLeft] at this
      exact this.symm
    rw [hor, if_pos rfl]
    omega

theorem sign_make (h : x < 2 ^ 63) : (make neg x).hi.toNat / 2 ^ 63 = if neg then 1 else 0 := by
  obtain ⟨-, hdiv, hlt⟩ := signBit_or neg h
  rw [make, toNat_word64, Nat.mod_eq_of_lt hlt, hdiv]

theorem code_make (h : x < 2 ^ 63) : (make neg x).code = x * 2 ^ 64 := by
  obtain ⟨hmod, -, hlt⟩ := signBit_or neg h
  rw [Bits.code, make, toNat_word64, Nat.mod_eq_of_lt hlt, hmod, UInt64.toNat_zero, Nat.add_zero]

variable {n : ℕ}

theorem field_or (hn : n < 2 ^ 15) (q : ℕ) :
    n <<< 48 ||| q &&& 0x0000ffffffffffff = n * 2 ^ 48 + q % 2 ^ 48 ∧ n <<< 48 ||| q &&& 0x0000ffffffffffff < 2 ^ 63 := by
  have hand : q &&& 0x0000ffffffffffff = q % 2 ^ 48 := Nat.and_two_pow_sub_one_eq_mod q 48
  have hlt := Nat.mod_lt q (Nat.two_pow_pos 48)
  rw [hand, ← Nat.shiftLeft_add_eq_or_of_lt hlt, Nat.shiftLeft_eq]
  exact ⟨rfl, by omega⟩

theorem sign_assemble {q : Big} (hn : n < 2 ^ 15) : (assemble neg q n).hi.toNat / 2 ^ 63 = if neg then 1 else 0 := by
  obtain ⟨-, hlt⟩ := field_or hn (bigWord64 q 2)
  obtain ⟨-, hdiv, hlt⟩ := signBit_or neg hlt
  rw [assemble, Int.toNat_natCast, toNat_word64, Nat.mod_eq_of_lt hlt, hdiv]

theorem code_assemble {q : Big} (hn : n < 2 ^ 15) :
    (assemble neg q n).code = n * 2 ^ 112 + value q % 2 ^ 112 := by
  obtain ⟨hor, hlt⟩ := field_or hn (bigWord64 q 2)
  obtain ⟨hmod, -, hlt⟩ := signBit_or neg hlt
  rw [Bits.code, assemble, Int.toNat_natCast, toNat_word64, toNat_word64, Nat.mod_eq_of_lt hlt, hmod, hor, bigWord64_eq,
    bigWord64_eq]
  omega

end

/-! ### Quotients -/

section
variable {n d : ℕ} {s : ℤ}

theorem roundsTo_roundDiv (n : ℕ) (hd : 0 < d) : RoundsTo (n / d) (roundDiv n d) := by
  have hdq : (0 : ℚ) < d := by exact_mod_cast hd
  have hsplit : (n : ℚ) / d = (n / d : ℕ) + (n % d : ℕ) / d := by
    have hnat : (n : ℚ) = d * (n / d : ℕ) + (n % d : ℕ) := by exact_mod_cast (Nat.div_add_mod n d).symm
    rw [eq_comm, ← sub_eq_zero]
    field_simp
    linarith
  have hlt : ((n % d : ℕ) : ℚ) / d < 1 := by
    rw [div_lt_one hdq]
    exact_mod_cast Nat.mod_lt n hd
  have hnonneg : (0 : ℚ) ≤ (n % d : ℕ) / d := by positivity
  have hhalf : ((n % d : ℕ) : ℚ) / d ≤ 1 / 2 ↔ 2 * (n % d) ≤ d := by
    rw [div_le_div_iff₀ hdq (by norm_num)]
    exact_mod_cast (by omega : n % d * 2 ≤ 1 * d ↔ 2 * (n % d) ≤ d)
  have hhalf' : 1 / 2 ≤ ((n % d : ℕ) : ℚ) / d ↔ d ≤ 2 * (n % d) := by
    rw [div_le_div_iff₀ (by norm_num) hdq]
    exact_mod_cast (by omega : 1 * d ≤ n % d * 2 ↔ d ≤ 2 * (n % d))
  unfold RoundsTo roundDiv
  rw [hsplit]
  split
  · rename_i hup
    have hge := hhalf'.2 (by omega)
    push_cast
    rw [abs_of_nonneg (by linarith)]
    refine ⟨by linarith, fun htie => ?_⟩
    have hle := hhalf.1 (by linarith)
    rw [Nat.even_iff]
    omega
  · rename_i hdown
    obtain ⟨hle, htie⟩ := not_or.1 hdown
    have hle := hhalf.2 (by omega)
    rw [abs_of_nonpos (by linarith)]
    refine ⟨by linarith, fun heq => ?_⟩
    have hge := hhalf'.1 (by linarith)
    rw [Nat.even_iff]
    omega

theorem scaled_div (n d : ℕ) (s : ℤ) : ((n * 2 ^ s.toNat : ℕ) : ℚ) / (d * 2 ^ (-s).toNat : ℕ) = n / d * 2 ^ s := by
  push_cast
  rcases le_total 0 s with h | h
  · have hzero : (-s).toNat = 0 := by omega
    have hpow : (2 : ℚ) ^ s.toNat = 2 ^ s := by
      rw [← zpow_natCast, Int.toNat_of_nonneg h]
    rw [hzero, hpow, pow_zero, mul_one]
    ring
  · have hzero : s.toNat = 0 := by omega
    have hpow : (2 : ℚ) ^ (-s).toNat = (2 ^ s)⁻¹ := by
      rw [← zpow_natCast, Int.toNat_of_nonneg (by omega), zpow_neg]
    rw [hzero, hpow, pow_zero, mul_one, div_mul_eq_div_div, div_inv_eq_mul]

/-- The comparison that the loops of `pack` make. -/
theorem scaled_lt (hd : 0 < d) : n * 2 ^ s.toNat < d * 2 ^ (-s).toNat ↔ (n : ℚ) / d * 2 ^ s < 1 := by
  have hpos : (0 : ℚ) < (d * 2 ^ (-s).toNat : ℕ) := by
    exact_mod_cast Nat.mul_pos hd (Nat.two_pow_pos _)
  rw [← scaled_div, div_lt_one hpos]
  exact_mod_cast Iff.rfl

theorem lt_zpow_iff {x : ℚ} {t e : ℤ} : x * 2 ^ (t - e) < 1 ↔ x * 2 ^ t < 2 ^ e := by
  have hpos : (0 : ℚ) < 2 ^ e := by positivity
  rw [zpow_sub₀ (by norm_num), ← mul_div_assoc, div_lt_one hpos]

end

/-! ### The exponent and the whole quotient -/

/-- None of the `int`s of `pack` overflows. -/
structure Fits (num den : Big) (twoExp : ℤ) : Prop where
  above : bigBits num < 2 ^ 31 - 2 ^ 20
  below : bigBits den < 2 ^ 31 - 2 ^ 20
  high : bigBits num + twoExp < 2 ^ 31 - 2 ^ 20
  low : bigBits den - twoExp < 2 ^ 31 - 2 ^ 20

section
variable {num den : Big} {twoExp e : ℤ} {fuel : ℕ}

/-- What `pack` encodes. -/
def quotient (num den : Big) (twoExp : ℤ) : ℚ := (value num : ℚ) / value den * 2 ^ twoExp

theorem cmpScaled_lt (hnum : Trimmed num) (hden : Trimmed den) (hne : den ≠ []) (hlo : -2 ^ 31 < twoExp - e)
    (hhi : twoExp - e < 2 ^ 31) : cmpScaled num den (int (twoExp - e)) < 0 ↔ quotient num den twoExp < 2 ^ e := by
  have hcmp := order_cases (value num * 2 ^ (twoExp - e).toNat) (value den * 2 ^ (-(twoExp - e)).toNat)
  rw [int_eq (by omega) hhi, cmpScaled_eq hnum hden hlo hhi, quotient, ← lt_zpow_iff, ← scaled_lt (hden.value_pos hne)]
  omega

/-- The bits of numerator and denominator give the exponent but for one. -/
theorem quotient_bounds (hnum : Trimmed num) (hden : Trimmed den) (hn : num ≠ []) (hd : den ≠ []) :
    (2 : ℚ) ^ (bigBits num - bigBits den + twoExp - 1 : ℤ) < quotient num den twoExp ∧
      quotient num den twoExp < 2 ^ (bigBits num - bigBits den + twoExp + 1 : ℤ) := by
  obtain ⟨hnlo, hnhi, hnpos⟩ := value_bits hnum hn
  obtain ⟨hdlo, hdhi, hdpos⟩ := value_bits hden hd
  have hdval : (0 : ℚ) < value den := by exact_mod_cast hden.value_pos hd
  have hnlo : (2 : ℚ) ^ (bigBits num - 1 : ℤ) ≤ value num := by
    have : (2 : ℚ) ^ (bigBits num - 1 : ℕ) ≤ value num := by exact_mod_cast hnlo
    rwa [← zpow_natCast, Nat.cast_sub hnpos, Nat.cast_one] at this
  have hdlo : (2 : ℚ) ^ (bigBits den - 1 : ℤ) ≤ value den := by
    have : (2 : ℚ) ^ (bigBits den - 1 : ℕ) ≤ value den := by exact_mod_cast hdlo
    rwa [← zpow_natCast, Nat.cast_sub hdpos, Nat.cast_one] at this
  have hnhi : (value num : ℚ) < 2 ^ (bigBits num : ℤ) := by
    rw [zpow_natCast]
    exact_mod_cast hnhi
  have hdhi : (value den : ℚ) < 2 ^ (bigBits den : ℤ) := by
    rw [zpow_natCast]
    exact_mod_cast hdhi
  have htwo : (0 : ℚ) < 2 ^ twoExp := by positivity
  unfold quotient
  constructor
  · have hsplit : (bigBits num - bigBits den + twoExp - 1 : ℤ) = (bigBits num - 1) - bigBits den + twoExp := by ring
    rw [hsplit, zpow_add₀ (by norm_num), zpow_sub₀ (by norm_num)]
    refine mul_lt_mul_of_pos_right ?_ htwo
    calc (2 : ℚ) ^ (bigBits num - 1 : ℤ) / 2 ^ (bigBits den : ℤ) ≤ value num / 2 ^ (bigBits den : ℤ) := by gcongr
      _ < value num / value den := by
        have hnval : (0 : ℚ) < value num := by exact_mod_cast hnum.value_pos hn
        gcongr
  · have hsplit : (bigBits num - bigBits den + twoExp + 1 : ℤ) = bigBits num - (bigBits den - 1) + twoExp := by ring
    rw [hsplit, zpow_add₀ (by norm_num), zpow_sub₀ (by norm_num)]
    refine mul_lt_mul_of_pos_right ?_ htwo
    calc (value num : ℚ) / value den < 2 ^ (bigBits num : ℤ) / value den := by gcongr
      _ ≤ 2 ^ (bigBits num : ℤ) / 2 ^ (bigBits den - 1 : ℤ) := by gcongr

/-- The loops find the binade. -/
theorem exponent_spec (hnum : Trimmed num) (hden : Trimmed den) (hn : num ≠ []) (hd : den ≠ [])
    (hfits : Fits num den twoExp)
    (hfuel : 2 ≤ fuel) : ∃ e₁ e, lowerE num den twoExp fuel (int (bits num - bits den + twoExp)) = some e₁ ∧
      raiseE num den twoExp fuel e₁ = some e ∧ 2 ^ e ≤ quotient num den twoExp ∧ quotient num den twoExp < 2 ^ (e + 1) ∧
      bigBits num - bigBits den + twoExp - 1 ≤ e ∧ e ≤ bigBits num - bigBits den + twoExp := by
  obtain ⟨fuel, rfl⟩ : ∃ k, fuel = k + 2 := ⟨fuel - 2, by omega⟩
  obtain ⟨hlo, hhi⟩ := @quotient_bounds _ _ twoExp hnum hden hn hd
  obtain ⟨-, -, hnpos⟩ := value_bits hnum hn
  obtain ⟨-, -, hdpos⟩ := value_bits hden hd
  obtain ⟨hf1, hf2, hf3, hf4⟩ := hfits
  obtain ⟨e₀, he₀⟩ : ∃ e₀ : ℤ, e₀ = bigBits num - bigBits den + twoExp := ⟨_, rfl⟩
  have hstart : int (bits num - bits den + twoExp) = e₀ := by
    rw [bits_eq (by omega), bits_eq (by omega), int_eq (by omega) (by omega), he₀]
  rw [← he₀] at hlo hhi ⊢
  rw [hstart]
  have hcmp : ∀ e, e₀ - 1 ≤ e → e ≤ e₀ + 1 →
      (cmpScaled num den (int (twoExp - e)) < 0 ↔ quotient num den twoExp < 2 ^ e) := by
    intro e h1 h2
    exact cmpScaled_lt hnum hden hd (by omega) (by omega)
  by_cases hlow : quotient num den twoExp < 2 ^ e₀
  · -- one step down, none up
    have hint : int (e₀ - 1) = e₀ - 1 := int_eq (by omega) (by omega)
    have hback : int (e₀ - 1 + 1) = e₀ := by rw [int_eq (by omega) (by omega)]; ring
    have hstop : ¬ cmpScaled num den (int (twoExp - (e₀ - 1))) < 0 := by
      rw [hcmp _ (by omega) (by omega), not_lt]
      exact hlo.le
    have hnone : ¬ 0 ≤ cmpScaled num den (int (twoExp - e₀)) := not_le.2 ((hcmp _ (by omega) (by omega)).2 hlow)
    refine ⟨e₀ - 1, e₀ - 1, ?_, ?_, hlo.le, ?_, by omega, by omega⟩
    · rw [lowerE, if_pos ((hcmp _ (by omega) (by omega)).2 hlow), hint, lowerE, if_neg hstop]
    · rw [raiseE, hback, if_neg hnone]
    · rw [sub_add_cancel]
      exact hlow
  · have hint : int (e₀ + 1) = e₀ + 1 := int_eq (by omega) (by omega)
    have hnone : ¬ 0 ≤ cmpScaled num den (int (twoExp - (e₀ + 1))) := not_le.2 ((hcmp _ (by omega) (by omega)).2 hhi)
    refine ⟨e₀, e₀, ?_, ?_, not_lt.1 hlow, hhi, by omega, by omega⟩
    · rw [lowerE, if_neg ((not_congr (hcmp _ (by omega) (by omega))).2 hlow)]
    · rw [raiseE, hint, if_neg hnone]

theorem roundedRatio_roundsTo {s : ℤ} (hnum : Trimmed num) (hden : Trimmed den) (hd : den ≠ [])
    (hn : bigBits num + s.toNat < 2 ^ 31) (hdb : bigBits den + (-s).toNat < 2 ^ 31) :
    RoundsTo (quotient num den twoExp / 2 ^ (twoExp - s)) (value (roundedRatio num den s)) ∧
      Trimmed (roundedRatio num den s) := by
  obtain ⟨hval, htrim⟩ := roundedRatio_spec hnum hden hd hn hdb
  refine ⟨?_, htrim⟩
  have hround := roundsTo_roundDiv (value num * 2 ^ s.toNat) (Nat.mul_pos (hden.value_pos hd) (Nat.two_pow_pos (-s).toNat))
  have hunit : quotient num den twoExp / 2 ^ (twoExp - s) = value num / value den * 2 ^ s := by
    rw [quotient, mul_div_assoc, ← zpow_sub₀ (by norm_num), sub_sub_cancel]
  rw [hval, hunit, ← scaled_div]
  exact hround

theorem roundsTo_le {x : ℚ} {q m : ℕ} (h : RoundsTo x q) (hx : x < m) : q ≤ m := by
  have hlt : (q : ℚ) < m + 1 := by linarith [(abs_le.1 h.1).2]
  exact Nat.lt_succ_iff.1 (by exact_mod_cast hlt)

theorem le_roundsTo {x : ℚ} {q m : ℕ} (h : RoundsTo x q) (hx : m ≤ x) : m ≤ q := by
  have hlt : (m : ℚ) < q + 1 := by linarith [(abs_le.1 h.1).1]
  exact Nat.lt_succ_iff.1 (by exact_mod_cast hlt)

variable {neg : Bool} {V : ℚ}

/-- A quotient below the least normal number. -/
theorem subnormal_encodes (hnum : Trimmed num) (hden : Trimmed den) (hd : den ≠ [])
    (hn : bigBits num + (twoExp + 16494).toNat < 2 ^ 31) (hdb : bigBits den + (-(twoExp + 16494)).toNat < 2 ^ 31)
    (hsmall : quotient num den twoExp < 2 ^ (-16382 : ℤ)) (hV : 0 ≤ quotient num den twoExp) :
    let q := roundedRatio num den (twoExp + 16494)
    Encodes neg (quotient num den twoExp)
      (if q = [] then make neg 0 else assemble neg q (if 112 < bits q then 1 else 0)) := by
  obtain ⟨hround, htrim⟩ := @roundedRatio_roundsTo _ _ twoExp _ hnum hden hd hn hdb
  have hunit : twoExp - (twoExp + 16494) = -16382 - 112 := by ring
  rw [hunit] at hround
  have hlt : quotient num den twoExp / 2 ^ (-16382 - 112 : ℤ) < (2 ^ 112 : ℕ) := by
    rw [div_lt_iff₀ (by positivity), Nat.cast_pow, Nat.cast_ofNat, ← zpow_natCast, ← zpow_add₀ (by norm_num)]
    exact hsmall
  have hq := roundsTo_le hround hlt
  have hnear :
      Nearest codeValue infinity (quotient num den twoExp) (0 + value (roundedRatio num den (twoExp + 16494))) := by
    refine nearest_of_roundsTo 0 (2 ^ 113) codeValue_strictMono Even.zero (by positivity)
      (fun i _ hi => codeValue_grid (le_refl _) (by norm_num) hi (.inl rfl)) ?_ ?_ (by decide) hround
    · rw [Nat.cast_zero]
      positivity
    · exact lt_trans hlt (by norm_num)
  rw [Nat.zero_add] at hnear
  dsimp only
  split
  · rename_i hnil
    rw [hnil, value_nil] at hnear
    refine .of_nearest hV (sign_make (by norm_num)) ?_
    rw [code_make (by norm_num), Nat.zero_mul]
    exact hnear
  · have hbits : bigBits (roundedRatio num den (twoExp + 16494)) ≤ 113 :=
      (bigBits_le htrim).2 (lt_of_le_of_lt hq (by norm_num))
    rw [bits_eq (by omega)]
    have hmost := bigBits_le (n := 112) htrim
    -- the exponent field is the bit 112 of the rounded quotient
    obtain ⟨n, hn1, hn2, hcode⟩ :
        ∃ n : ℕ, (if 112 < (bigBits (roundedRatio num den (twoExp + 16494)) : ℤ) then (1 : ℤ) else 0) = n ∧
        n < 2 ^ 15 ∧ n * 2 ^ 112 + value (roundedRatio num den (twoExp + 16494)) % 2 ^ 112 =
          value (roundedRatio num den (twoExp + 16494)) := by
      by_cases hover : 112 < bigBits (roundedRatio num den (twoExp + 16494))
      · refine ⟨1, if_pos (by exact_mod_cast hover), by norm_num, ?_⟩
        have : ¬ value (roundedRatio num den (twoExp + 16494)) < 2 ^ 112 := fun h => absurd (hmost.2 h) (not_le.2 hover)
        omega
      · refine ⟨0, if_neg (by exact_mod_cast hover), by norm_num, ?_⟩
        have := hmost.1 (not_lt.1 hover)
        omega
    rw [hn1]
    refine .of_nearest hV (sign_assemble hn2) ?_
    rw [code_assemble hn2, hcode]
    exact hnear

theorem infinity_encodes (h : (2 ^ 114 - 1) * 2 ^ 16270 ≤ V) :
    Encodes neg V (make neg 0x7fff000000000000) := by
  have htop : infinity = (infinity - 1) + 1 := by decide
  have hcode : (make neg 0x7fff000000000000).code = infinity := by
    rw [code_make (by norm_num)]
    decide
  refine .of_nearest (le_trans (by positivity) h) (sign_make (by norm_num)) ?_
  rw [hcode]
  rw [← codeValue_middle] at h
  rw [htop]
  exact nearest_top codeValue_strictMono (by decide) h

theorem zero_encodes (hV : 0 ≤ V) (h : V ≤ 2 ^ (-16495 : ℤ)) : Encodes neg V (make neg 0) := by
  refine .of_nearest hV (sign_make (by norm_num)) ?_
  rw [code_make (by norm_num), Nat.zero_mul]
  rw [← codeValue_one] at h
  exact nearest_zero codeValue_strictMono codeValue_zero (by decide) hV h

theorem overflow_le (h : (2 : ℚ) ^ (16384 : ℤ) ≤ V) : (2 ^ 114 - 1) * 2 ^ 16270 ≤ V := by
  refine le_trans ?_ h
  have hexp : (2 : ℚ) ^ (16384 : ℤ) = 2 ^ 114 * 2 ^ 16270 := by
    rw [← pow_add, ← zpow_natCast]
    norm_num
  rw [hexp]
  gcongr
  norm_num

/-- A quotient of the normal range, where the rounded significand may carry into the next binade. -/
theorem normal_encodes (hnum : Trimmed num) (hden : Trimmed den) (hd : den ≠ []) (he : -16382 ≤ e) (he' : e ≤ 16383)
    (hn : bigBits num + (twoExp + 112 - e).toNat < 2 ^ 31) (hdb : bigBits den + (-(twoExp + 112 - e)).toNat < 2 ^ 31)
    (hlo : 2 ^ e ≤ quotient num den twoExp) (hhi : quotient num den twoExp < 2 ^ (e + 1)) :
    let q := roundedRatio num den (twoExp + 112 - e)
    let p := if 113 < bits q then (bigShr1 q, int (e + 1)) else (q, e)
    Encodes neg (quotient num den twoExp)
      (if 16383 < p.2 then make neg 0x7fff000000000000 else assemble neg p.1 (int (p.2 + 16383))) := by
  have hV : 0 ≤ quotient num den twoExp := le_trans (by positivity) hlo
  obtain ⟨hround, htrim⟩ := @roundedRatio_roundsTo _ _ twoExp _ hnum hden hd hn hdb
  have hunit : twoExp - (twoExp + 112 - e) = e - 112 := by ring
  rw [hunit] at hround
  have hpow : ∀ k : ℕ, ((2 ^ k : ℕ) : ℚ) * 2 ^ (e - 112) = 2 ^ (e + k - 112) := by
    intro k
    rw [Nat.cast_pow, Nat.cast_ofNat, ← zpow_natCast, ← zpow_add₀ (by norm_num)]
    congr 1
    ring
  have hxlo : ((2 ^ 112 : ℕ) : ℚ) ≤ quotient num den twoExp / 2 ^ (e - 112) := by
    rw [le_div_iff₀ (by positivity), hpow]
    push_cast
    rwa [add_sub_cancel_right]
  have hxhi : quotient num den twoExp / 2 ^ (e - 112) < (2 ^ 113 : ℕ) := by
    rw [div_lt_iff₀ (by positivity), hpow]
    have hexp : e + (113 : ℕ) - 112 = e + 1 := by
      push_cast
      ring
    rwa [hexp]
  have hqlo := le_roundsTo hround hxlo
  have hqhi := roundsTo_le hround hxhi
  obtain ⟨n, hn⟩ : ∃ n : ℕ, e = n - 16382 := ⟨(e + 16382).toNat, by omega⟩
  have hnear : Nearest codeValue infinity (quotient num den twoExp)
      (n * 2 ^ 112 + value (roundedRatio num den (twoExp + 112 - e))) := by
    refine nearest_of_roundsTo (2 ^ 112) (2 ^ 113) codeValue_strictMono ?_ (by positivity)
      (fun i hlo hi => codeValue_grid he ?_ hi (.inr hlo)) hxlo hxhi ?_ hround
    · exact Even.mul_left (by decide) n
    · rw [hn]
      push_cast
      ring
    · unfold infinity
      omega
  generalize roundedRatio num den (twoExp + 112 - e) = q at *
  have hbits : bigBits q ≤ 114 := (bigBits_le htrim).2 (lt_of_le_of_lt hqhi (by norm_num))
  have hmost := bigBits_le (n := 113) htrim
  dsimp only
  rw [bits_eq (by omega)]
  by_cases hcarry : 113 < bigBits q
  · have hq : value q = 2 ^ 113 := by
      have : ¬ value q < 2 ^ 113 := fun h => absurd (hmost.2 h) (not_le.2 hcarry)
      omega
    have hcarry' : (113 : ℤ) < bigBits q := by exact_mod_cast hcarry
    simp only [if_pos hcarry', int_eq (x := e + 1) (by omega) (by omega)]
    by_cases hover : 16383 < e + 1
    · rw [if_pos hover]
      refine .of_nearest hV (sign_make (by norm_num)) ?_
      have hcode : 0x7fff000000000000 * 2 ^ 64 = n * 2 ^ 112 + value q := by
        rw [hq]
        omega
      rw [code_make (by norm_num), hcode]
      exact hnear
    · have hfield : int (e + 1 + 16383) = (n + 2 : ℕ) := by
        rw [int_eq (by omega) (by omega)]
        omega
      rw [if_neg hover, hfield]
      refine .of_nearest hV (sign_assemble (by omega)) ?_
      have hcode : (n + 2) * 2 ^ 112 + value (bigShr1 q) % 2 ^ 112 = n * 2 ^ 112 + value q := by
        rw [value_bigShr1, hq]
        omega
      rw [code_assemble (by omega), hcode]
      exact hnear
  · have hfield : int (e + 16383) = (n + 1 : ℕ) := by
      rw [int_eq (by omega) (by omega)]
      omega
    have hcarry' : ¬ (113 : ℤ) < bigBits q := by exact_mod_cast hcarry
    simp only [if_neg hcarry', if_neg (not_lt.2 he'), hfield]
    refine .of_nearest hV (sign_assemble (by omega)) ?_
    have hcode : (n + 1) * 2 ^ 112 + value q % 2 ^ 112 = n * 2 ^ 112 + value q := by
      have := hmost.1 (not_lt.1 hcarry)
      omega
    rw [code_assemble (by omega), hcode]
    exact hnear

theorem pack_encodes (hnum : Trimmed num) (hden : Trimmed den) (hd : den ≠ []) (hfits : Fits num den twoExp)
    (hfuel : 2 ≤ fuel) : ∃ r, pack fuel neg num den twoExp = some r ∧ Encodes neg (quotient num den twoExp) r := by
  by_cases hn : num = []
  · have hzero : quotient num den twoExp = 0 := by
      rw [quotient, hn, value_nil, Nat.cast_zero, zero_div, zero_mul]
    refine ⟨make neg 0, if_pos hn, zero_encodes hzero.ge ?_⟩
    rw [hzero]
    positivity
  · obtain ⟨e₁, e, hlower, hraise, hlo, hhi, hmin, hmax⟩ := exponent_spec hnum hden hn hd hfits hfuel
    obtain ⟨hf1, hf2, hf3, hf4⟩ := hfits
    have hV : 0 ≤ quotient num den twoExp := le_trans (by positivity) hlo
    refine ⟨packAt neg num den twoExp e, ?_, ?_⟩
    · rw [pack, if_neg hn, hlower, Option.bind_eq_bind, Option.bind_some, hraise]
      rfl
    by_cases hbig : 16383 < e
    · rw [packAt, if_pos hbig]
      refine infinity_encodes (overflow_le (le_trans ?_ hlo))
      exact zpow_le_zpow_right₀ (by norm_num) (by omega)
    · rw [packAt, if_neg hbig]
      by_cases hsmall : e < -16382
      · have hlt : quotient num den twoExp < 2 ^ (-16382 : ℤ) :=
          lt_of_lt_of_le hhi (zpow_le_zpow_right₀ (by norm_num) (by omega))
        have hint : int (twoExp + 16494) = twoExp + 16494 := int_eq (by omega) (by omega)
        rw [if_pos hsmall, hint]
        exact subnormal_encodes hnum hden hd (by omega) (by omega) hlt hV
      · have hint : int (twoExp + 112 - e) = twoExp + 112 - e := int_eq (by omega) (by omega)
        rw [if_neg hsmall, hint]
        exact normal_encodes hnum hden hd (not_lt.1 hsmall) (not_lt.1 hbig) (by omega) (by omega) hlo hhi

end

end Lunaria.Binary128
