import Mathlib

/-! Binary heaps in the positions from 1 on of an array: what holds while one entry is out of place, and the exchanges with
    a parent or a child that put it right. -/

namespace Lunaria.BinaryHeap
variable {α : Type*} [LinearOrder α] {a b : Nat → α} {n m i c : Nat}

/-- No entry is before its parent. -/
def Heap (a : Nat → α) (n : Nat) : Prop := ∀ k, 2 ≤ k → k ≤ n → a (k / 2) ≤ a k

/-- The entries below a position are not before the one above it. -/
def Above (a : Nat → α) (n i : Nat) : Prop := 2 ≤ i → ∀ k, k ≤ n → k / 2 = i → a (i / 2) ≤ a k

/-- A heap but for one entry, which may be out of order with the one above it and those below it. -/
structure HeapBut (a : Nat → α) (n i : Nat) : Prop where
  other : ∀ k, 2 ≤ k → k ≤ n → k ≠ i → k / 2 ≠ i → a (k / 2) ≤ a k
  above : Above a n i

/-- The entry can only be out of order with the one above it. -/
structure Rising (a : Nat → α) (n i : Nat) : Prop where
  other : ∀ k, 2 ≤ k → k ≤ n → k ≠ i → a (k / 2) ≤ a k
  above : Above a n i

/-- The entry can only be out of order with those below it. -/
structure Sinking (a : Nat → α) (n i : Nat) : Prop where
  other : ∀ k, 2 ≤ k → k ≤ n → k / 2 ≠ i → a (k / 2) ≤ a k
  above : Above a n i

theorem Heap.first_le (h : Heap a n) {k : Nat} (hk : 1 ≤ k) (hn : k ≤ n) : a 1 ≤ a k := by
  induction k using Nat.strong_induction_on with
  | _ k ih =>
    by_cases hone : k = 1
    · rw [hone]
    · have htwo : 2 ≤ k := by omega
      have hhalf := ih (k / 2) (by omega) (by omega) (by omega)
      exact hhalf.trans (h k htwo hn)

/-- A heap with another entry at one position, or at the next one after its last. -/
theorem Heap.but (h : Heap a n) (hsame : ∀ k, k ≤ m → k ≠ i → k ≤ n ∧ b k = a k) : HeapBut b m i where
  other k htwo hk hi hhalf := by
    obtain ⟨hn, heq⟩ := hsame k hk hi
    obtain ⟨-, heq'⟩ := hsame (k / 2) (by omega) hhalf
    rw [heq, heq']
    exact h k htwo hn
  above htwo k hk hhalf := by
    obtain ⟨hn, heq⟩ := hsame k hk (by omega)
    obtain ⟨-, heq'⟩ := hsame (i / 2) (by omega) (by omega)
    rw [heq, heq']
    have hup := h i htwo (by omega)
    have hdown := h k (by omega) hn
    rw [hhalf] at hdown
    exact hup.trans hdown

theorem HeapBut.rising (h : HeapBut a n i) (htwo : 2 ≤ i) (hlt : a i < a (i / 2)) : Rising a n i where
  other k hk hn hi := by
    by_cases hhalf : k / 2 = i
    · rw [hhalf]
      exact hlt.le.trans (h.above htwo k hn hhalf)
    · exact h.other k hk hn hi hhalf
  above := h.above

theorem HeapBut.sinking (h : HeapBut a n i) (hle : 2 ≤ i → a (i / 2) ≤ a i) : Sinking a n i where
  other k hk hn hhalf := by
    by_cases hi : k = i
    · subst hi
      exact hle hk
    · exact h.other k hk hn hi hhalf
  above := h.above

theorem Rising.up (h : Rising a n i) (htwo : 2 ≤ i) (hn : i ≤ n) (hlt : a i < a (i / 2)) :
    Rising (a ∘ Equiv.swap i (i / 2)) n (i / 2) := by
  have hne : i / 2 ≠ i := by omega
  have hat {k : Nat} (h1 : k ≠ i) (h2 : k ≠ i / 2) : (a ∘ Equiv.swap i (i / 2)) k = a k := by
    rw [Function.comp, Equiv.swap_apply_of_ne_of_ne h1 h2]
  have hi : (a ∘ Equiv.swap i (i / 2)) i = a (i / 2) := by rw [Function.comp, Equiv.swap_apply_left]
  have hp : (a ∘ Equiv.swap i (i / 2)) (i / 2) = a i := by rw [Function.comp, Equiv.swap_apply_right]
  refine ⟨fun k hk hkn hkp => ?_, fun hp2 k hkn hhalf => ?_⟩
  · by_cases hki : k = i
    · rw [hki, hi, hp]
      exact hlt.le
    rw [hat hki hkp]
    by_cases hchild : k / 2 = i
    · rw [hchild, hi]
      exact h.above htwo k hkn hchild
    by_cases hsib : k / 2 = i / 2
    · have hother := h.other k hk hkn hki
      rw [hsib] at hother
      rw [hsib, hp]
      exact hlt.le.trans hother
    · rw [hat hchild hsib]
      exact h.other k hk hkn hki
  · have habove := h.other (i / 2) hp2 (by omega) hne
    rw [hat (by omega) (by omega)]
    by_cases hki : k = i
    · rwa [hki, hi]
    · have hother := h.other k (by omega) hkn hki
      rw [hhalf] at hother
      rw [hat hki (by omega)]
      exact habove.trans hother

theorem Rising.heap (h : Rising a n i) (hle : 2 ≤ i → a (i / 2) ≤ a i) : Heap a n := by
  intro k hk hn
  by_cases hi : k = i
  · subst hi
    exact hle hk
  · exact h.other k hk hn hi

/-- An entry changes places with the least of those below it, which is before it. -/
theorem Sinking.down (h : Sinking a n i) (hc : c / 2 = i) (hn : c ≤ n) (hlt : a c < a i)
    (hleast : ∀ k, k ≤ n → k / 2 = i → a c ≤ a k) : Sinking (a ∘ Equiv.swap i c) n c := by
  have hat {k : Nat} (h1 : k ≠ i) (h2 : k ≠ c) : (a ∘ Equiv.swap i c) k = a k := by
    rw [Function.comp, Equiv.swap_apply_of_ne_of_ne h1 h2]
  have hati : (a ∘ Equiv.swap i c) i = a c := by rw [Function.comp, Equiv.swap_apply_left]
  have hatc : (a ∘ Equiv.swap i c) c = a i := by rw [Function.comp, Equiv.swap_apply_right]
  refine ⟨fun k hk hkn hkc => ?_, fun hc2 k hkn hhalf => ?_⟩
  · by_cases hki : k = i
    · rw [hki, hati, hat (by omega) (by omega)]
      exact h.above (hki ▸ hk) c hn hc
    by_cases hkc' : k = c
    · rw [hkc', hc, hati, hatc]
      exact hlt.le
    rw [hat hki hkc']
    by_cases hhalf : k / 2 = i
    · rw [hhalf, hati]
      exact hleast k hkn hhalf
    · rw [hat hhalf hkc]
      exact h.other k hk hkn hhalf
  · have hother := h.other k (by omega) hkn (by omega)
    rw [hhalf] at hother
    rw [hc, hati, hat (by omega) (by omega)]
    exact hother

theorem Sinking.heap (h : Sinking a n i) (hle : ∀ k, 2 ≤ k → k ≤ n → k / 2 = i → a i ≤ a k) : Heap a n := by
  intro k hk hn
  by_cases hhalf : k / 2 = i
  · rw [hhalf]
    exact hle k hk hn hhalf
  · exact h.other k hk hn hhalf

end Lunaria.BinaryHeap
