import Mathlib.Data.List.Basic

/-! Playing a queue at another rate: each output is the first of the queue, and between outputs a remainder grows, of
    which a whole rate is settled by leaving one behind. What the queue owes when it is empty is settled when there is
    more, so that it does not matter when more is queued. -/

namespace Lunaria.Resampling
open List Nat
variable {α : Type*} {rate : Nat} {grow : Nat → Nat} {x : Nat × List α} {q more : List α} {remainder n m : Nat}

/-- What is left behind, as far as there is something in the queue. -/
def settle (rate : Nat) (x : Nat × List α) : Nat × List α :=
  (x.1 - min x.2.length (x.1 / rate) * rate, x.2.drop (min x.2.length (x.1 / rate)))

/-- At most so many outputs, and what is left of the queue. -/
def play (rate : Nat) (grow : Nat → Nat) : Nat → Nat × List α → List α × (Nat × List α)
  | 0, x => ([], x)
  | _ + 1, (remainder, []) => ([], (remainder, []))
  | n + 1, (remainder, f :: q) =>
    let (out, x) := play rate grow n (settle rate (grow remainder, f :: q))
    (f :: out, x)

@[simp] theorem settle_nil : settle rate (remainder, ([] : List α)) = (remainder, []) := by
  simp [settle]

theorem settle_of_lt (h : remainder < rate) : settle rate (remainder, q) = (remainder, q) := by
  simp [settle, div_eq_of_lt h]

theorem settle_lt (hrate : 0 < rate) (h : (settle rate x).2 ≠ []) : (settle rate x).1 < rate := by
  unfold settle at h ⊢
  dsimp only at h ⊢
  have hlt : min x.2.length (x.1 / rate) < x.2.length := by
    by_contra hge
    exact h (drop_eq_nil_of_le (Nat.not_lt.1 hge))
  have hmin : min x.2.length (x.1 / rate) = x.1 / rate := by omega
  rw [hmin, ← mod_eq_sub_div_mul]
  exact mod_lt _ hrate

theorem settle_append (hrate : 0 < rate) :
    settle rate ((settle rate (remainder, q)).1, (settle rate (remainder, q)).2 ++ more) =
      settle rate (remainder, q ++ more) := by
  rcases Nat.lt_or_ge q.length (remainder / rate) with hlt | hge
  · -- the queue is left empty, and some is still owed
    have hdiv : (remainder - q.length * rate) / rate = remainder / rate - q.length := by
      rw [Nat.mul_comm, sub_mul_div]
    have hmin : min (q ++ more).length (remainder / rate) = q.length + min more.length (remainder / rate - q.length) := by
      rw [length_append]
      omega
    unfold settle
    dsimp only
    rw [Nat.min_eq_left (Nat.le_of_lt hlt), drop_length, nil_append, hdiv, hmin, drop_append, Nat.add_mul, Nat.sub_sub,
      Nat.add_sub_cancel_left, drop_eq_nil_of_le (Nat.le_add_right _ _), nil_append]
  · have hsettled : (settle rate (remainder, q)) = (remainder % rate, q.drop (remainder / rate)) := by
      unfold settle
      dsimp only
      rw [Nat.min_eq_right hge, ← mod_eq_sub_div_mul]
    rw [hsettled, settle_of_lt (mod_lt _ hrate)]
    unfold settle
    dsimp only
    rw [Nat.min_eq_right (by rw [length_append]; omega), ← mod_eq_sub_div_mul, drop_append_of_le_length hge]

theorem settle_settle (hrate : 0 < rate) : settle rate (settle rate x) = settle rate x := by
  obtain ⟨remainder, q⟩ := x
  have h : settle rate ((settle rate (remainder, q)).1, (settle rate (remainder, q)).2 ++ []) =
      settle rate (remainder, q ++ []) :=
    settle_append hrate
  simpa using h

/-- What is played stays the same when more is queued behind, and one plays on from what is left. -/
theorem play_append (hrate : 0 < rate) (hx : settle rate x = x) :
    play rate grow ((play rate grow n x).1.length + m) (settle rate (x.1, x.2 ++ more)) =
      let y := (play rate grow n x).2
      let rest := play rate grow m (settle rate (y.1, y.2 ++ more))
      ((play rate grow n x).1 ++ rest.1, rest.2) := by
  induction n generalizing x with
  | zero => simp [play]
  | succ n ih =>
    obtain ⟨remainder, _ | ⟨f, q⟩⟩ := x
    · simp [play]
    · have hlt : remainder < rate := by
        have := settle_lt (x := (remainder, f :: q)) hrate (by rw [hx]; simp)
        rwa [hx] at this
      have ih := ih (x := settle rate (grow remainder, f :: q)) (settle_settle hrate)
      rw [settle_append hrate, cons_append] at ih
      rw [cons_append, settle_of_lt hlt]
      simp only [play, length_cons, succ_add, ih, cons_append]

end Lunaria.Resampling
