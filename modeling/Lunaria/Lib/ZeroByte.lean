import Mathlib.Tactic.Ring
import Mathlib.Data.UInt

/-! The first zero byte of a word: subtracting 1 from each byte borrows only from a zero byte on, so that the lowest flag
    is genuine. -/

namespace Lunaria.ZeroByte

open Nat

/-- The number of bytes with the lowest first. -/
def value : List UInt8 → Nat
  | [] => 0
  | b :: bytes => b.toNat + 256 * value bytes

/-- The number with 1 in each byte. -/
def ones : Nat → Nat
  | 0 => 0
  | n + 1 => 1 + 256 * ones n

/-- 1 is taken from each byte, modulo the size of the word. -/
def lessOnes (bytes : List UInt8) : Nat := (value bytes + (256 ^ bytes.length - ones bytes.length)) % 256 ^ bytes.length

section Bytes
variable {bytes : List UInt8} {b : UInt8} {n i : Nat}

theorem ones_lt : ones n < 256 ^ n := by
  induction n with
  | zero => exact Nat.one_pos
  | succ n ih =>
    rw [ones, Nat.pow_succ]
    omega

theorem value_lt : value bytes < 256 ^ bytes.length := by
  induction bytes with
  | nil => exact Nat.one_pos
  | cons b bytes ih =>
    have hb := b.toNat_lt
    rw [value, List.length_cons, Nat.pow_succ]
    omega

theorem lessOnes_cons (hb : b ≠ 0) : lessOnes (b :: bytes) = 256 * lessOnes bytes + (b.toNat - 1) := by
  have hpos : 0 < b.toNat := Nat.pos_of_ne_zero fun h => hb (UInt8.toNat_inj.1 h)
  have hones := @ones_lt bytes.length
  have hlt := b.toNat_lt
  have hsum : value (b :: bytes) + (256 ^ (b :: bytes).length - ones (b :: bytes).length) =
      (b.toNat - 1) + 256 * (value bytes + (256 ^ bytes.length - ones bytes.length)) := by
    rw [value, List.length_cons, ones, Nat.pow_succ]
    omega
  unfold lessOnes
  rw [hsum, List.length_cons, Nat.pow_succ', mod_mul, add_mul_mod_self_left, mod_eq_of_lt (by omega),
    add_mul_div_left _ _ (by decide), div_eq_of_lt (by omega), Nat.zero_add]
  ring

/-- The lowest byte. -/
theorem lessOnes_mod : lessOnes (b :: bytes) % 256 = (b.toNat + 255) % 256 := by
  have hones := @ones_lt bytes.length
  have hdvd : 256 ∣ 256 ^ (b :: bytes).length := Dvd.intro_left _ (Nat.pow_succ 256 bytes.length).symm
  have hsum : value (b :: bytes) + (256 ^ (b :: bytes).length - ones (b :: bytes).length) =
      b.toNat + 255 + 256 * (value bytes + (256 ^ bytes.length - ones bytes.length) - 1) := by
    rw [value, List.length_cons, ones, Nat.pow_succ]
    omega
  unfold lessOnes
  rw [mod_mod_of_dvd _ hdvd, hsum, add_mul_mod_self_left]

def flag (bytes : List UInt8) (i : Nat) : Bool := (lessOnes bytes).testBit (8 * i + 7) && !(value bytes).testBit (8 * i + 7)

theorem testBit_add {x v j : Nat} (hx : x < 256) : (256 * v + x).testBit (8 + j) = v.testBit j := by
  have := testBit_two_pow_mul_add v (i := 8) hx (8 + j)
  rw [if_neg (by omega), Nat.add_sub_cancel_left] at this
  exact this

theorem testBit_low {v j : Nat} (hj : j < 8) : v.testBit j = (v % 256).testBit j := by
  have := testBit_mod_two_pow v 8 j
  rw [decide_eq_true hj, Bool.true_and] at this
  exact this.symm

theorem flag_eq (hi : i < bytes.length) (hbefore : ∀ j < i, bytes[j]? ≠ some 0) :
    flag bytes i = true ↔ bytes[i]? = some 0 := by
  induction bytes generalizing i with
  | nil => cases hi
  | cons b bytes ih =>
    cases i with
    | zero =>
      have hbit : ∀ n < 256, (((n + 255) % 256).testBit 7 && !n.testBit 7) = true ↔ n = 0 := by decide +kernel
      have hvalue : value (b :: bytes) % 256 = b.toNat := by
        have := b.toNat_lt
        rw [value]
        omega
      have hb := hbit _ b.toNat_lt
      unfold flag
      rw [testBit_low (by decide), lessOnes_mod, testBit_low (v := value _) (by decide), hvalue, hb,
        List.getElem?_cons_zero]
      rw [Option.some_inj, ← UInt8.toNat_inj]
      rfl
    | succ i =>
      have hb : b ≠ 0 := fun h => hbefore 0 (succ_pos i) (congrArg some h)
      have hlt := b.toNat_lt
      have hpos : 8 * (i + 1) + 7 = 8 + (8 * i + 7) := by omega
      have hvalue : value (b :: bytes) = 256 * value bytes + b.toNat := Nat.add_comm _ _
      have hrest := ih (lt_of_succ_lt_succ hi) fun j hj => hbefore (j + 1) (succ_lt_succ hj)
      rw [List.getElem?_cons_succ, ← hrest]
      unfold flag
      rw [hpos, lessOnes_cons hb, hvalue, testBit_add (by omega), testBit_add hlt]

end Bytes

end Lunaria.ZeroByte
