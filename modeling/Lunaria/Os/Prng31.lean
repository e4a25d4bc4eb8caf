import Mathlib.Data.UInt

/-! The `random` of the guest: a ring of 31 words with two places, which is the sequence in which each word is the sum of
    the third and of the thirty-first before it. -/

namespace Lunaria.Os
open Function

/-- `luna_prng31` -/
structure Prng31 where
  words : Nat → UInt32
  front : Nat
  rear : Nat
  seeded : Bool

/-- `luna_prng31_step` -/
def prng31Step (s : Prng31) : UInt32 × Prng31 :=
  let sum := s.words s.front + s.words s.rear
  (sum >>> 1, { s with
    words := update s.words s.front sum
    front := if s.front + 1 = 31 then 0 else s.front + 1
    rear := if s.rear + 1 = 31 then 0 else s.rear + 1 })

/-- The `word` of the loop in `luna_prng31_seed`. -/
def seedWord (seed : UInt32) : Nat → Int
  | 0 => if 2 ^ 31 - 1 < seed.toNat then seed.toNat - 2 ^ 32 else seed.toNat
  | i + 1 =>
    let word := (seedWord seed i * 16807).tmod 2147483647
    if word ≤ 0 then word + 2147483647 else word

/-- The words before the first step. -/
def seedWords (seed : UInt32) (i : Nat) : UInt32 := if i = 0 then seed else .ofNat (seedWord seed i).toNat

/-- `luna_prng31_seed` -/
def prng31Seed (seed : UInt32) : Prng31 := (fun s => (prng31Step s).2)^[310] ⟨seedWords seed, 3, 0, true⟩

/-- `luna_prng31_next` -/
def prng31Next (s : Prng31) : UInt32 × Prng31 := prng31Step (if s.seeded then s else prng31Seed 1)

/-- The sequence with 31 first words. -/
def lagged (r : Nat → UInt32) (i : Nat) : UInt32 := if i < 31 then r i else lagged r (i - 31) + lagged r (i - 3)

/-- After `k` steps the ring holds the words from `k` on, the first of them at `front`. -/
structure Lagging (r : Nat → UInt32) (k : Nat) (s : Prng31) : Prop where
  words : ∀ j < 31, s.words ((k + 3 + j) % 31) = lagged r (k + j)
  front : s.front = (k + 3) % 31
  rear : s.rear = k % 31
  seeded : s.seeded = true

variable {r : Nat → UInt32} {k : Nat} {s : Prng31}

theorem Lagging.step (h : Lagging r k s) :
    (prng31Step s).1 = lagged r (k + 31) >>> 1 ∧ Lagging r (k + 1) (prng31Step s).2 := by
  have hsum : s.words s.front + s.words s.rear = lagged r (k + 31) := by
    have hrear : k % 31 = (k + 3 + 28) % 31 := by omega
    rw [h.front, h.rear, hrear, h.words 28 (by decide), lagged.eq_1 r (k + 31), if_neg (by omega)]
    exact congrArg (· + _) (h.words 0 (by decide))
  refine ⟨by simp only [prng31Step, hsum], fun j hj => ?_, ?_, ?_, h.seeded⟩
  · simp only [prng31Step, hsum]
    by_cases hlast : j = 30
    · have hfront : (k + 1 + 3 + j) % 31 = s.front := by rw [h.front]; omega
      rw [hfront, update_self, hlast]
    · have hother : (k + 1 + 3 + j) % 31 ≠ s.front := by rw [h.front]; omega
      rw [update_of_ne hother, Nat.add_right_comm k 1, Nat.add_right_comm, Nat.add_assoc, h.words (j + 1) (by omega)]
      congr 1
      omega
  · simp only [prng31Step, h.front]
    split <;> omega
  · simp only [prng31Step, h.rear]
    split <;> omega

theorem Lagging.steps (h : Lagging r k s) (n : Nat) : Lagging r (k + n) ((fun s => (prng31Step s).2)^[n] s) := by
  induction n with
  | zero => exact h
  | succ n ih =>
    rw [iterate_succ_apply']
    exact ih.step.2

theorem seed_lagging (seed : UInt32) :
    Lagging (fun i => seedWords seed ((i + 3) % 31)) 310 (prng31Seed seed) := by
  have hfirst : Lagging (fun i => seedWords seed ((i + 3) % 31)) 0 ⟨seedWords seed, 3, 0, true⟩ := by
    refine ⟨fun j hj => ?_, rfl, rfl, rfl⟩
    rw [lagged, if_pos (by omega)]
    dsimp only
    congr 1
    omega
  exact Nat.zero_add 310 ▸ hfirst.steps 310

theorem Lagging.next (h : Lagging r k s) : prng31Next s = prng31Step s := by
  rw [prng31Next, if_pos h.seeded]

/-- Whatever the seed, the numbers handed out are the words of the sequence from the 341st on, each without its last bit. -/
theorem prng31_sequence (seed : UInt32) (n : Nat) : (prng31Next ((fun s => (prng31Next s).2)^[n] (prng31Seed seed))).1 =
    lagged (fun i => seedWords seed ((i + 3) % 31)) (n + 341) >>> 1 := by
  have hrun : Lagging (fun i => seedWords seed ((i + 3) % 31)) (310 + n)
      ((fun s => (prng31Next s).2)^[n] (prng31Seed seed)) := by
    induction n with
    | zero => exact seed_lagging seed
    | succ n ih =>
      rw [iterate_succ_apply', ih.next]
      exact ih.step.2
  rw [hrun.next, hrun.step.1]
  congr 2
  omega

end Lunaria.Os
