import Mathlib.Data.Rat.Floor

/-! Rounding a rational to the nearest value of a table that increases with its code. Of two values that are as near
    the one with the even code is taken. -/

namespace Lunaria.Rounding

/-- `q` is `x` rounded to a nearest natural number, ties to even. -/
def RoundsTo (x : ℚ) (q : ℕ) : Prop := |(q : ℚ) - x| ≤ 1 / 2 ∧ (|(q : ℚ) - x| = 1 / 2 → Even q)

/-- `k` is the code of the value nearest to `V`, among the codes up to `top`. -/
structure Nearest (val : ℕ → ℚ) (top : ℕ) (V : ℚ) (k : ℕ) : Prop where
  le : k ≤ top
  closest : ∀ j ≤ top, |val k - V| ≤ |val j - V|
  even : ∀ j ≤ top, j ≠ k → |val k - V| = |val j - V| → Even k

section
variable {val : ℕ → ℚ} {top k a base lo hi q : ℕ} {V u : ℚ}

theorem nearest_lower (hval : StrictMono val) (ha : a + 1 ≤ top) (hlo : val a ≤ V) (hclose : V - val a ≤ val (a + 1) - V)
    (heven : V - val a = val (a + 1) - V → Even a) : Nearest val top V a := by
  have hdist : |val a - V| = V - val a := by rw [abs_of_nonpos (by linarith)]; ring
  refine ⟨by omega, fun j _ => ?_, fun j _ hne heq => ?_⟩
  · rw [hdist]
    rcases Nat.lt_or_ge a j with h | h
    · have := hval.monotone h
      exact le_trans (by linarith) (le_abs_self _)
    · have := hval.monotone h
      exact le_trans (by linarith) (neg_le_abs _)
  · rw [hdist] at heq
    rcases Nat.lt_or_ge a j with h | h
    · have hj := hval.monotone h
      have hup : V ≤ val j := by linarith [hval (Nat.lt_succ_self a)]
      rw [abs_of_nonneg (by linarith)] at heq
      exact heven (by linarith)
    · have hj := hval (Nat.lt_of_le_of_ne h hne)
      rw [abs_of_nonpos (by linarith)] at heq
      linarith

theorem nearest_upper (hval : StrictMono val) (ha : a + 1 ≤ top) (hhi : V ≤ val (a + 1))
    (hclose : val (a + 1) - V ≤ V - val a)
    (heven : val (a + 1) - V = V - val a → Even (a + 1)) : Nearest val top V (a + 1) := by
  have hdist : |val (a + 1) - V| = val (a + 1) - V := abs_of_nonneg (by linarith)
  refine ⟨ha, fun j _ => ?_, fun j _ hne heq => ?_⟩
  · rw [hdist]
    rcases Nat.lt_or_ge a j with h | h
    · have := hval.monotone h
      exact le_trans (by linarith) (le_abs_self _)
    · have := hval.monotone h
      exact le_trans (by linarith) (neg_le_abs _)
  · rw [hdist] at heq
    rcases Nat.lt_or_ge a j with h | h
    · have hj := hval (Nat.lt_of_le_of_ne h (Ne.symm hne))
      rw [abs_of_nonneg (by linarith)] at heq
      linarith
    · have hj := hval.monotone h
      have hdown : val j ≤ V := by linarith [hval (Nat.lt_succ_self a)]
      rw [abs_of_nonpos (by linarith)] at heq
      exact heven (by linarith)

theorem nearest_of_roundsTo (lo hi : ℕ) (hval : StrictMono val) (hbase : Even base) (hu : 0 < u)
    (hgrid : ∀ i, lo ≤ i → i ≤ hi → val (base + i) = i * u) (hlo : (lo : ℚ) ≤ V / u) (hhi : V / u < hi)
    (htop : base + hi ≤ top) (hq : RoundsTo (V / u) q) : Nearest val top V (base + q) := by
  obtain ⟨x, hx⟩ : ∃ x, x = V / u := ⟨_, rfl⟩
  rw [← hx] at hlo hhi hq
  unfold RoundsTo at hq
  have hV : V = x * u := by rw [hx]; field_simp
  have hx0 : 0 ≤ x := le_trans (Nat.cast_nonneg lo) hlo
  obtain ⟨f, hf⟩ : ∃ f, f = ⌊x⌋₊ := ⟨_, rfl⟩
  have hfle : (f : ℚ) ≤ x := hf ▸ Nat.floor_le hx0
  have hflt : x < f + 1 := hf ▸ Nat.lt_floor_add_one x
  have hflo : lo ≤ f := by
    rw [hf]
    exact Nat.le_floor hlo
  have hfhi : f + 1 ≤ hi := by
    have : (f : ℚ) < hi := lt_of_le_of_lt hfle hhi
    exact_mod_cast this
  have hvlo := hgrid f hflo (by omega)
  have hvhi : val (base + f + 1) = (f + 1) * u := by
    have := hgrid (f + 1) (by omega) hfhi
    rw [← Nat.add_assoc] at this
    rw [this]
    push_cast
    ring
  have hdist := abs_le.1 hq.1
  rcases Nat.lt_or_ge q (f + 1) with hlt | hge
  · have hqf : q = f := by
      have : (f : ℚ) < q + 1 := by linarith [hdist.1]
      have : f < q + 1 := by exact_mod_cast this
      omega
    subst hqf
    have heq : |(q : ℚ) - x| = x - q := by rw [abs_of_nonpos (by linarith)]; ring
    rw [heq] at hq
    refine nearest_lower hval (by omega) (by rw [hvlo, hV]; exact mul_le_mul_of_nonneg_right hfle hu.le) ?_ fun htie => ?_
    · rw [hvlo, hvhi, hV]
      nlinarith [hq.1]
    · rw [hvlo, hvhi, hV] at htie
      refine hbase.add (hq.2 ?_)
      have : (x - q) * u = (q + 1 - x) * u := by linarith
      have := mul_right_cancel₀ hu.ne' this
      linarith
  · have hqf : q = f + 1 := by
      have : (q : ℚ) < f + 2 := by linarith [hdist.2]
      have : q < f + 2 := by exact_mod_cast this
      omega
    subst hqf
    push_cast at hq
    have heq : |(f : ℚ) + 1 - x| = f + 1 - x := abs_of_nonneg (by linarith)
    rw [heq] at hq
    rw [← Nat.add_assoc]
    refine nearest_upper hval (by omega) (by rw [hvhi, hV]; exact mul_le_mul_of_nonneg_right hflt.le hu.le) ?_
      fun htie => ?_
    · rw [hvlo, hvhi, hV]
      nlinarith [hq.1]
    · rw [hvlo, hvhi, hV] at htie
      rw [Nat.add_assoc]
      refine hbase.add (hq.2 ?_)
      have : (f + 1 - x) * u = (x - f) * u := by linarith
      have := mul_right_cancel₀ hu.ne' this
      linarith

section
variable (hval : StrictMono val)
include hval

/-- From the middle of the last two values on, the last one is the nearest. -/
theorem Nearest.top_iff (h : Nearest val (top + 1) V k) (hodd : ¬ Even top) :
    k = top + 1 ↔ (val top + val (top + 1)) / 2 ≤ V := by
  have hstep := hval (Nat.lt_succ_self top)
  constructor
  · rintro rfl
    have hclose := h.closest top (Nat.le_succ _)
    by_contra hlt
    rw [not_le] at hlt
    rw [abs_of_nonneg (by linarith)] at hclose
    rcases le_total V (val top) with hle | hle
    · rw [abs_of_nonneg (by linarith)] at hclose
      linarith
    · rw [abs_of_nonpos (by linarith)] at hclose
      linarith
  · intro hmid
    by_contra hne
    have hk : k ≤ top := by
      have := h.le
      omega
    have hmono := hval.monotone hk
    have hclose := h.closest (top + 1) le_rfl
    have hlast : |val (top + 1) - V| ≤ V - val top := abs_le.2 ⟨by linarith, by linarith⟩
    rw [abs_of_nonpos (by linarith)] at hclose
    have heq : val k = val top := by linarith
    have hkt := hval.injective heq
    refine hodd (hkt ▸ h.even (top + 1) le_rfl (Ne.symm hne) ?_)
    rw [abs_of_nonpos (by linarith)]
    linarith

theorem nearest_top (heven : Even (top + 1)) (hmid : (val top + val (top + 1)) / 2 ≤ V) :
    Nearest val (top + 1) V (top + 1) := by
  rcases le_total V (val (top + 1)) with hle | hle
  · exact nearest_upper hval le_rfl hle (by linarith) fun _ => heven
  · refine ⟨le_rfl, fun j hj => ?_, fun _ _ _ _ => heven⟩
    have := hval.monotone hj
    rw [abs_of_nonpos (by linarith), abs_of_nonpos (by linarith)]
    linarith

theorem Nearest.zero_iff (hzero : val 0 = 0) (htop : 1 ≤ top) (hV : 0 ≤ V) (h : Nearest val top V k) :
    k = 0 ↔ V ≤ val 1 / 2 := by
  have hstep := hval Nat.zero_lt_one
  constructor
  · rintro rfl
    have hclose := h.closest 1 htop
    by_contra hlt
    rw [not_le] at hlt
    rw [hzero, abs_of_nonpos (by linarith)] at hclose
    rcases le_total V (val 1) with hle | hle
    · rw [abs_of_nonneg (by linarith)] at hclose
      linarith
    · rw [abs_of_nonpos (by linarith)] at hclose
      linarith
  · intro hmid
    by_contra hne
    have hmono := hval.monotone (Nat.one_le_iff_ne_zero.2 hne)
    have hclose := h.closest 0 (Nat.zero_le _)
    rw [hzero, abs_of_nonneg (by linarith), abs_of_nonpos (by linarith)] at hclose
    have heq : val k = val 1 := by linarith
    have hk1 := hval.injective heq
    have := h.even 0 (Nat.zero_le _) (Ne.symm hne) (by
      rw [hzero, abs_of_nonneg (by linarith), abs_of_nonpos (by linarith)]
      linarith)
    rw [hk1] at this
    exact absurd this (by decide)

theorem nearest_zero (hzero : val 0 = 0) (htop : 1 ≤ top) (hV : 0 ≤ V) (hmid : V ≤ val 1 / 2) :
    Nearest val top V 0 := by
  have hstep := hval Nat.zero_lt_one
  exact nearest_lower hval htop (by linarith) (by rw [hzero, Nat.zero_add]; linarith) fun _ => Even.zero

end

end

end Lunaria.Rounding
