import Mathlib.Data.Nat.Bitwise
import Mathlib.Tactic.Ring

/-! Fixed-width unsigned arithmetic on natural numbers: sums and differences that wrap at `2 ^ w`, and
    rounding to a power of two with a mask, as C code writes it. -/

namespace Lunaria.Word

open Nat

/-- The sum of two `w`-bit words. -/
def add (w x y : Nat) : Nat := (x + y) % 2 ^ w

/-- The difference of two `w`-bit words. -/
def sub (w x y : Nat) : Nat := (x + (2 ^ w - y)) % 2 ^ w

/-- `x & ~(a - 1)` on `w`-bit words. -/
def maskDown (w a x : Nat) : Nat := x &&& (2 ^ w - a)

/-- `(x + a - 1) & ~(a - 1)` on `w`-bit words: the sum wraps before it is masked. -/
def maskUp (w a x : Nat) : Nat := maskDown w a (add w x (a - 1))

theorem add_of_lt {w x y : Nat} (h : x + y < 2 ^ w) : add w x y = x + y := mod_eq_of_lt h

theorem sub_of_le {w x y : Nat} (hx : x < 2 ^ w) (h : y ≤ x) : sub w x y = x - y := by
  unfold sub
  rw [show x + (2 ^ w - y) = x - y + 2 ^ w by omega, add_mod_right]
  exact mod_eq_of_lt (by omega)

theorem maskDown_two_pow {w k x : Nat} (hk : k ≤ w) (hx : x < 2 ^ w) :
    maskDown w (2 ^ k) x = x / 2 ^ k * 2 ^ k := by
  unfold maskDown
  have hmask : 2 ^ w - 2 ^ k = 2 ^ k * (2 ^ (w - k) - 1) := by
    rw [Nat.mul_sub_one, ← pow_add, Nat.add_sub_cancel' hk]
  rw [hmask, mul_comm (x / 2 ^ k)]
  apply eq_of_testBit_eq
  intro i
  rw [testBit_and, testBit_two_pow_mul, testBit_two_pow_mul, testBit_two_pow_sub_one,
    testBit_div_two_pow]
  by_cases hi : k ≤ i
  · by_cases hw : i < w
    · simp only [hi, Nat.sub_add_cancel hi, decide_true, Bool.true_and, Bool.and_eq_left_iff_imp,
        decide_eq_true_eq]
      intro _
      omega
    · have hbit : x.testBit i = false :=
        testBit_lt_two_pow (lt_of_lt_of_le hx (Nat.pow_le_pow_right (by norm_num) (by omega)))
      simp [hi, Nat.sub_add_cancel hi, hbit]
  · simp [hi]

theorem maskUp_two_pow {w k x : Nat} (hk : k ≤ w) (hx : x + (2 ^ k - 1) < 2 ^ w) :
    maskUp w (2 ^ k) x = (x + (2 ^ k - 1)) / 2 ^ k * 2 ^ k := by
  unfold maskUp
  rw [add_of_lt hx, maskDown_two_pow hk hx]

/-- Two multiples of `a` in strict order are at least `a` apart. -/
theorem add_le_of_dvd {a x y : Nat} (hx : a ∣ x) (hy : a ∣ y) (h : x < y) : x + a ≤ y := by
  have hle := le_of_dvd (Nat.sub_pos_of_lt h) (Nat.dvd_sub hy hx)
  omega

theorem div_mul_le_lt {a x : Nat} (ha : 0 < a) : x / a * a ≤ x ∧ x < x / a * a + a := by
  have hmod := mod_lt x ha
  have hdiv := div_add_mod x a
  rw [mul_comm] at hdiv
  omega

end Lunaria.Word
