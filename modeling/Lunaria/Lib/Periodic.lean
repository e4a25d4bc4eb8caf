import Mathlib.Data.Set.Card

/-! Instants with a period: `d`, `d + p`, `d + 2 * p` and so on, how many of them have passed at a time, and which is next. -/

namespace Lunaria.Periodic
variable {d p t t' k n : Nat}

/-- The number of instants up to a time. Without a period the first is the only one. -/
def passed (d p t : Nat) : Nat := if t < d then 0 else if p = 0 then 1 else (t - d) / p + 1

theorem passed_of_lt (h : t < d) : passed d p t = 0 := if_pos h

theorem passed_of_le (hp : 0 < p) (h : d ≤ t) : passed d p t = (t - d) / p + 1 := by
  rw [passed, if_neg (Nat.not_lt.2 h), if_neg hp.ne']

theorem passed_zero : passed d 0 t = if d ≤ t then 1 else 0 := by
  unfold passed
  split_ifs <;> first | rfl | omega

theorem lt_passed (hp : 0 < p) : k < passed d p t ↔ d + k * p ≤ t := by
  rcases Nat.lt_or_ge t d with h | h
  · rw [passed_of_lt h]
    exact iff_of_false (Nat.not_lt_zero k) fun hle => absurd h (Nat.not_lt.2 ((Nat.le_add_right d _).trans hle))
  · rw [passed_of_le hp h, Nat.lt_succ_iff, Nat.le_div_iff_mul_le hp]
    omega

theorem passed_le_iff (hp : 0 < p) : passed d p t ≤ n ↔ t < d + n * p := by
  rw [← Nat.not_lt, lt_passed hp, Nat.not_le]

/-- The instants up to a time, counted. -/
theorem ncard_passed (hp : 0 < p) : {k | d + k * p ≤ t}.ncard = passed d p t := by
  have hset : {k | d + k * p ≤ t} = ↑(Finset.range (passed d p t)) := by
    ext k
    rw [Finset.mem_coe, Finset.mem_range, lt_passed hp, Set.mem_ofPred_eq]
  rw [hset, Set.ncard_coe_finset, Finset.card_range]

theorem passed_mono (h : t ≤ t') : passed d p t ≤ passed d p t' := by
  rcases Nat.eq_zero_or_pos p with rfl | hp
  · rw [passed_zero, passed_zero]
    split_ifs <;> omega
  · rw [passed_le_iff hp]
    exact h.trans_lt ((passed_le_iff hp).1 le_rfl)

/-- It does not matter whether the first instants are counted before the others. -/
theorem passed_add (hp : 0 < p) (h : n ≤ passed d p t) : n + passed (d + n * p) p t = passed d p t := by
  refine eq_of_forall_lt_iff fun k => ?_
  rw [lt_passed hp]
  rcases Nat.lt_or_ge k n with hk | hk
  · exact iff_of_true (Nat.lt_of_lt_of_le hk (Nat.le_add_right _ _)) ((lt_passed hp).1 (Nat.lt_of_lt_of_le hk h))
  · obtain ⟨j, rfl⟩ := Nat.exists_eq_add_of_le hk
    rw [Nat.add_lt_add_iff_left, lt_passed hp, Nat.add_assoc, ← Nat.add_mul]

/-- The first instant after a time. -/
theorem isLeast_next (hp : 0 < p) : IsLeast {x | t < x ∧ ∃ k, x = d + k * p} (d + passed d p t * p) := by
  refine ⟨⟨(passed_le_iff hp).1 le_rfl, _, rfl⟩, ?_⟩
  rintro x ⟨hx, k, rfl⟩
  exact Nat.add_le_add_left (Nat.mul_le_mul_right p ((passed_le_iff hp).2 hx)) d

end Lunaria.Periodic
