import Lunaria.Lib.Periodic
import Lunaria.Os.Timers

/-! Nothing wraps in the timers, and expirations do not depend on when one polls. -/

namespace Lunaria.Os
open Periodic

/-! ### One timer -/

section Timer
variable {t t' : PosixTimer} {clock : TimerClock} {a b now n : Nat}

theorem mul64_eq (h : a * b ≤ uint64Max) : mul64 a b = .ok (a * b) := by
  simp [mul64, Checked.assert, h, pure]

theorem reading_le (x : UInt64) : x.toNat ≤ uint64Max := Nat.le_pred_of_lt x.toNat_lt

theorem int64Max_le : int64Max ≤ uint64Max := by decide

/-- A timer whose numbers are in their ranges. -/
structure PosixTimer.Ok (t : PosixTimer) : Prop where
  due : t.due ≤ int64Max
  interval : t.interval ≤ int64Max
  pending : t.pending ≤ uint64Max

theorem PosixTimer.Ok.zero : PosixTimer.zero.Ok := ⟨Nat.zero_le _, Nat.zero_le _, Nat.zero_le _⟩

/-- The expirations that a poll finds. -/
def PosixTimer.expired (t : PosixTimer) (now : Nat) :
    Nat := if t.id = 0 ∨ t.armed = false then 0 else passed t.due t.interval now

/-- A timer after some expirations. -/
def PosixTimer.polled (t : PosixTimer) (n : Nat) : PosixTimer :=
  { t with
    due := min (t.due + n * t.interval) int64Max
    armed := t.armed && (n = 0 || t.interval ≠ 0)
    pending := if t.notify = 1 then t.pending else min (t.pending + n) uint64Max }

theorem PosixTimer.Ok.polled (h : t.Ok) (n : Nat) : (t.polled n).Ok := by
  refine ⟨Nat.min_le_right _ _, h.interval, ?_⟩
  unfold PosixTimer.polled
  dsimp only
  split
  · exact h.pending
  · exact Nat.min_le_right _ _

theorem polled_zero (h : t.Ok) : t.polled 0 = t := by
  obtain ⟨hdue, -, hpending⟩ := h
  simp [PosixTimer.polled, hdue, hpending]

/-- What a poll counts is what has passed, unless that is more than a number of 64 bits. -/
theorem timerExpirations_eq {due p : Nat} (hdue : due ≤ now) (hnow : now ≤ uint64Max) :
    timerExpirations now due p = .ok (min (passed due p now) uint64Max) := by
  have hextra : (if p ≠ 0 then (now - due) / p else 0) = (now - due) / p := by
    split_ifs with hp
    · rfl
    · rw [not_not.1 hp, Nat.div_zero]
  have hpassed : passed due p now = (now - due) / p + 1 := by
    rcases Nat.eq_zero_or_pos p with rfl | hp
    · rw [passed_zero, if_pos hdue, Nat.div_zero]
    · exact passed_of_le hp hdue
  have hbound : (now - due) / p ≤ uint64Max := (Nat.div_le_self _ _).trans ((Nat.sub_le _ _).trans hnow)
  unfold timerExpirations
  rw [Checked.minus_eq hdue, Checked.bind_ok]
  dsimp only
  rw [hextra, hpassed]
  split_ifs with hmax
  · rw [hmax, Nat.min_eq_right (Nat.le_succ _)]
    rfl
  · have hlt : (now - due) / p + 1 ≤ uint64Max := Nat.lt_of_le_of_ne hbound hmax
    rw [Checked.plus_eq hlt, Nat.min_eq_left hlt]

theorem advance_eq (h : t.Ok) : t.advance (min n uint64Max) =
    .ok { t with due := min (t.due + n * t.interval) int64Max, armed := t.armed && t.interval ≠ 0 } := by
  have hlimit := int64Max_le
  have hdue := h.due
  unfold PosixTimer.advance
  by_cases hp : t.interval = 0
  · rw [if_pos hp]
    simp [hp, hdue]
  rw [if_neg hp, Checked.minus_eq hdue, Checked.bind_ok]
  have hroom : (int64Max - t.due) / t.interval < uint64Max := by
    refine Nat.lt_of_le_of_lt (Nat.div_le_self _ _) ?_
    have : int64Max < uint64Max := by decide
    omega
  have hcap : (int64Max - t.due) / t.interval < min n uint64Max ↔ int64Max < t.due + n * t.interval := by
    rw [lt_min_iff, and_iff_left hroom, Nat.div_lt_iff_lt_mul (Nat.pos_of_ne_zero hp)]
    omega
  have harmed : (t.armed && decide (t.interval ≠ 0)) = t.armed := by simp [hp]
  rw [harmed]
  split_ifs with hfull
  · rw [Nat.min_eq_right (hcap.1 hfull).le]
    rfl
  · have hle : t.due + n * t.interval ≤ int64Max := Nat.not_lt.1 (mt hcap.2 hfull)
    have hsmall : min n uint64Max = n := by
      have := Nat.le_mul_of_pos_right n (Nat.pos_of_ne_zero hp)
      omega
    rw [hsmall, mul64_eq (by omega), Checked.bind_ok, Checked.plus_eq (by omega), Checked.bind_ok, Nat.min_eq_left hle]
    rfl

theorem add_eq (h : t.pending ≤ uint64Max) : t.add (min n uint64Max) =
    .ok { t with pending := if t.notify = 1 then t.pending else min (t.pending + n) uint64Max } := by
  unfold PosixTimer.add
  by_cases hnotify : t.notify = 1
  · rw [if_neg (not_not.2 hnotify), if_pos hnotify]
  rw [if_pos hnotify, if_neg hnotify, Checked.minus_eq h, Checked.bind_ok]
  split_ifs with hfull
  · rw [Nat.min_eq_right (by omega)]
    rfl
  · have hsum : t.pending + min n uint64Max = min (t.pending + n) uint64Max := by omega
    rw [Checked.plus_eq (by omega), Checked.bind_ok, hsum]
    rfl

theorem poll_eq (h : t.Ok) : t.poll clock = .ok (t.polled (t.expired (clock t.armedClock t.clockTid).toNat)) := by
  have hnow := reading_le (clock t.armedClock t.clockTid)
  unfold PosixTimer.poll PosixTimer.expired
  dsimp only
  generalize (clock t.armedClock t.clockTid).toNat = now at hnow ⊢
  by_cases hid : t.id = 0 ∨ t.armed = false
  · rw [if_pos (by simpa [or_assoc] using hid.imp_right Or.inl), if_pos hid, polled_zero h]
  rw [if_neg hid]
  by_cases hlt : now < t.due
  · rw [if_pos (.inr (.inr hlt)), passed_of_lt hlt, polled_zero h]
  have hdue := Nat.not_lt.1 hlt
  have hne : passed t.due t.interval now ≠ 0 := by
    rw [passed, if_neg hlt]
    split <;> exact Nat.succ_ne_zero _
  rw [if_neg (by simpa [hlt, or_assoc] using hid), timerExpirations_eq hdue hnow, Checked.bind_ok, advance_eq h,
    Checked.bind_ok, add_eq (by exact h.pending)]
  simp [PosixTimer.polled, hne]

end Timer

end Lunaria.Os
