import Lunaria.Lib.Trimming
import Lunaria.Regex.Match

/-! A step back undoes a step forward, except behind a stray byte that looks like the inside of a sequence. -/

namespace Lunaria.Regex
open Trimming (forall_byte)

/-- A byte inside a sequence, by its upper bits. -/
def Continues (s : List UInt8) (i : Nat) : Prop := byteAt s i &&& 0xc0 = 0x80

instance (s : List UInt8) (i : Nat) : Decidable (Continues s i) := inferInstanceAs (Decidable (_ = _))

/-- The places that steps from the start come to. -/
inductive Reached (s : List UInt8) (len : Nat) : Nat → Prop
  | start : Reached s len 0
  | step {p : Nat} : Reached s len p → p < len → Reached s len (rxU8 s len p).2

section Steps
variable {s : List UInt8} {len p q i n cp : Nat}

theorem not_continues_of_lead {need : Nat} (h : leadByte (byteAt s p) = some (need, cp)) : ¬Continues s p := by
  refine forall_byte (P := fun c => (leadByte c).isSome → ¬c &&& 0xc0 = 0x80) (by decide +kernel) _ ?_
  rw [h]
  rfl

theorem followBytes_continues {r : Nat} (h : followBytes s n i cp = some r) : ∀ k < n, Continues s (i + k) := by
  induction n generalizing i cp with
  | zero => exact fun k hk => absurd hk (Nat.not_lt_zero k)
  | succ n ih =>
    rw [followBytes] at h
    split_ifs at h with hbyte
    intro k hk
    cases k with
    | zero => exact not_not.1 hbyte
    | succ k =>
      have := ih h k (Nat.lt_of_succ_lt_succ hk)
      rwa [Nat.add_right_comm] at this

/-- What a step goes over: a byte that begins something and what follows it, or a stray byte. -/
theorem rxU8_span (s : List UInt8) (len p : Nat) : ∃ need ≤ 3, (rxU8 s len p).2 = p + need + 1 ∧
    (∀ k < need, Continues s (p + 1 + k)) ∧ (Continues s p → need = 0) := by
  have hone : ∃ need ≤ 3, p + 1 = p + need + 1 ∧ (∀ k < need, Continues s (p + 1 + k)) ∧ (Continues s p → need = 0) :=
    ⟨0, Nat.zero_le _, rfl, fun k hk => absurd hk (Nat.not_lt_zero k), fun _ => rfl⟩
  rw [rxU8]
  split
  · exact hone
  · split
    · exact hone
    · rename_i need cp hlead
      split
      · exact hone
      · split
        · exact hone
        · rename_i hfollow
          exact ⟨need, leadByte_need hlead, rfl, followBytes_continues hfollow,
            fun h => absurd h (not_continues_of_lead hlead)⟩

theorem prevFrom_stop (h : ¬Continues s p) : prevFrom s i (p + 1) = p := if_pos h

theorem prevFrom_back (h : Continues s p) (hi : i < p + 4) : prevFrom s i (p + 1) = prevFrom s i p :=
  (if_neg (not_not.2 h)).trans (if_neg (by omega))

theorem prevFrom_lt {j : Nat} (hj : 0 < j) : prevFrom s i j < j := by
  induction j with
  | zero => cases hj
  | succ j ih =>
    rw [prevFrom]
    split_ifs
    · exact Nat.lt_succ_self j
    · exact Nat.lt_succ_self j
    · rcases Nat.eq_zero_or_pos j with rfl | hpos
      · exact Nat.one_pos
      · exact (ih hpos).trans (Nat.lt_succ_self j)

theorem prevFrom_run (hp : ¬Continues s p) (hinside : ∀ k < n, Continues s (p + 1 + k)) (hi : i ≤ p + 4) :
    prevFrom s i (p + n + 1) = p := by
  induction n with
  | zero => exact prevFrom_stop hp
  | succ n ih =>
    have hbyte : Continues s (p + n + 1) := by
      have := hinside n (Nat.lt_succ_self n)
      rwa [Nat.add_right_comm] at this
    rw [← Nat.add_assoc, prevFrom_back hbyte (by omega)]
    exact ih fun k hk => hinside k (hk.trans (Nat.lt_succ_self n))

/-- A step back undoes a step forward at the start, and from a byte that is not the inside of a sequence. -/
theorem rxU8Prev_rxU8 : rxU8Prev s (rxU8 s len p).2 = p ↔ p = 0 ∨ ¬Continues s p := by
  obtain ⟨need, hneed, hnext, hinside, hstray⟩ := rxU8_span s len p
  rw [hnext]
  unfold rxU8Prev
  by_cases hp : Continues s p
  · rw [hstray hp, Nat.add_zero, prevFrom_back hp (by omega)]
    rcases Nat.eq_zero_or_pos p with rfl | hpos
    · exact iff_of_true rfl (.inl rfl)
    · exact iff_of_false (prevFrom_lt hpos).ne fun h => h.elim hpos.ne' fun h => h hp
  · exact iff_of_true (prevFrom_run hp hinside (by omega)) (.inr hp)

end Steps

/-- In a text the steps back from where steps forward come to undo them, one by one, if and only if no step but the first
    is at a stray byte. -/
theorem rxU8Prev_undoes (s : List UInt8) (len : Nat) :
    (∀ p, Reached s len p → p < len → (rxU8Prev s (rxU8 s len p).2 = p ↔ p = 0 ∨ ¬Continues s p)) ∧
    ((∀ p, Reached s len p → p < len → rxU8Prev s (rxU8 s len p).2 = p) ↔ ∀ p, Reached s len p → 0 < p →
      p < len → ¬Continues s p) := by
  refine ⟨fun p _ _ => rxU8Prev_rxU8, ?_⟩
  constructor
  · intro h p hp hpos hlt
    exact (rxU8Prev_rxU8.1 (h p hp hlt)).resolve_left hpos.ne'
  · intro h p hp hlt
    rcases Nat.eq_zero_or_pos p with rfl | hpos
    · exact rxU8Prev_rxU8.2 (.inl rfl)
    · exact rxU8Prev_rxU8.2 (.inr (h p hp hpos hlt))

/-- Back from the letter behind a sequence of two bytes. -/
theorem rxU8Prev_undoes_letter : rxU8Prev [0xc3, 0xa9, 0x62] (rxU8 [0xc3, 0xa9, 0x62] 3 2).2 = 2 :=
  ((rxU8Prev_undoes [0xc3, 0xa9, 0x62] 3).1 2 (.step .start (by decide)) (by decide)).2 (.inr (by decide))

/-- Behind the second of two stray bytes, one step back comes to the first. -/
theorem rxU8Prev_stray : Reached [0x80, 0x80] 2 1 ∧ rxU8Prev [0x80, 0x80] (rxU8 [0x80, 0x80] 2 1).2 = 0 :=
  ⟨.step .start (by decide), by decide⟩

end Lunaria.Regex
