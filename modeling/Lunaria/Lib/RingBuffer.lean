import Mathlib.Data.Nat.ModEq

/-! Ring buffers: what an array holds from a head on around its end, and what becomes of that when cells behind it are
    written and when the head moves. -/

namespace Lunaria.RingBuffer
open Function List
variable {α : Type*} {N head length k : Nat} {ring : Nat → α}

/-- What is held from the head on, in `N` cells. -/
def window (N : Nat) (ring : Nat → α) (head length : Nat) : List α :=
  (List.range length).map fun i => ring ((head + i) % N)

/-- The cells from a position on are written. -/
def put (N : Nat) (ring : Nat → α) (pos : Nat) : List α → Nat → α
  | [] => ring
  | b :: bs => put N (update ring pos b) ((pos + 1) % N) bs

@[simp] theorem length_window : (window N ring head length).length = length := by
  simp [window]

theorem getElem?_window {i : Nat} (h : i < length) : (window N ring head length)[i]? = some (ring ((head + i) % N)) := by
  simp [window, getElem?_range h]

@[simp] theorem window_mod : window N ring (head % N) length = window N ring head length := by
  simp only [window, Nat.mod_add_mod]

theorem window_succ : window N ring head (length + 1) = window N ring head length ++ [ring ((head + length) % N)] := by
  simp [window, range_succ]

theorem window_cons : window N ring head (length + 1) = ring (head % N) :: window N ring (head + 1) length := by
  simp [window, range_succ_eq_map, Nat.add_assoc, Nat.add_comm 1]

theorem window_drop (h : k ≤ length) : window N ring (head + k) (length - k) = (window N ring head length).drop k := by
  apply ext_getElem?
  intro i
  rw [getElem?_drop]
  by_cases hi : i < length - k
  · rw [getElem?_window hi, getElem?_window (by omega), Nat.add_assoc]
  · rw [getElem?_eq_none (by rw [length_window]; omega), getElem?_eq_none (by rw [length_window]; omega)]

/-- What is held does not change when the cell behind it is written. -/
theorem window_update {b : α} (h : length < N) :
    window N (update ring ((head + length) % N) b) head length = window N ring head length := by
  apply map_congr_left
  intro i hi
  have hlt := mem_range.1 hi
  refine update_of_ne (fun heq => ?_) _ _
  have hmod : Nat.ModEq N i length := Nat.ModEq.add_left_cancel' head heq
  have hiN : i % N = i := Nat.mod_eq_of_lt (by omega)
  have hlN : length % N = length := Nat.mod_eq_of_lt h
  unfold Nat.ModEq at hmod
  omega

/-- What is written behind is held then. -/
theorem window_put : ∀ {bs : List α} {ring : Nat → α} {length : Nat}, length + bs.length ≤ N →
    window N (put N ring ((head + length) % N) bs) head (length + bs.length) = window N ring head length ++ bs
  | [], _, _, _ => (append_nil _).symm
  | b :: bs, ring, length, h => by
    rw [length_cons] at h ⊢
    have hnext : ((head + length) % N + 1) % N = (head + (length + 1)) % N := by
      rw [Nat.mod_add_mod, Nat.add_assoc]
    have hrest : window N (put N (update ring ((head + length) % N) b) ((head + (length + 1)) % N) bs) head
        (length + 1 + bs.length) = window N (update ring ((head + length) % N) b) head (length + 1) ++ bs :=
      window_put (by omega)
    rw [put, hnext, show length + (bs.length + 1) = length + 1 + bs.length by omega, hrest, window_succ,
      window_update (by omega), update_self, append_assoc, singleton_append]

end Lunaria.RingBuffer
