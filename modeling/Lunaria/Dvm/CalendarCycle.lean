import Lunaria.Dvm.CalendarDays

/-! Months and years of the calendar with its cutover: the days between the first of a month and the first of the next are
    those whose date is in the month, in October 1582 too, which has 21 of them. -/

namespace Lunaria.Dvm.Calendar

theorem Date.before_trichotomy (d d' : Date) : d.Before d' ∨ d = d' ∨ d'.Before d := by
  obtain ⟨y, m, n⟩ := d
  obtain ⟨y', m', n'⟩ := d'
  simp only [Date.Before, Date.mk.injEq]
  omega

theorem civilDay_le {g : Bool} {d d' : Date} (h : d.Valid g) (h' : d'.Valid g) (hle : ¬d'.Before d) :
    lcCivilDay d.year d.month d.day g ≤ lcCivilDay d'.year d'.month d'.day g := by
  rcases Date.before_trichotomy d d' with hlt | rfl | hlt
  · exact Int.le_of_lt (civilDay_lt h h' hlt)
  · exact Int.le_refl _
  · exact (hle hlt).elim

def Date.IsFirst (d : Date) : Prop := 1 ≤ d.month ∧ d.month ≤ 12 ∧ d.day = 1

theorem Date.IsFirst.valid {d : Date} (h : d.IsFirst) (g : Bool) : d.Valid g := by
  obtain ⟨hl, hh, hd⟩ := h
  refine ⟨hl, hh, by omega, ?_⟩
  obtain ⟨h2, h4, hlong⟩ := daysIn_spec g d.year d.month
  by_cases hfeb : d.month = 2
  · rw [h2 hfeb]
    omega
  · by_cases hshort : d.month = 4 ∨ d.month = 6 ∨ d.month = 9 ∨ d.month = 11
    · rw [h4 hshort]
      omega
    · rw [hlong hfeb hshort]
      omega

def cutoverDay : Int := 2299161

def dateOf (day : Int) : Date := lcDayCivil day (cutoverDay ≤ day)

def firstDayOf (d : Date) : Int :=
  if cutoverDay ≤ lcCivilDay d.year d.month d.day true then lcCivilDay d.year d.month d.day true
  else lcCivilDay d.year d.month d.day false

theorem dateOf_valid (day : Int) : (dateOf day).Valid (cutoverDay ≤ day) := (civilDay_dayCivil _ day).1

theorem civilDay_dateOf (day : Int) :
    lcCivilDay (dateOf day).year (dateOf day).month (dateOf day).day (cutoverDay ≤ day) = day :=
  (civilDay_dayCivil _ day).2

theorem dateOf_gregorian {day : Int} (h : cutoverDay ≤ day) :
    (dateOf day).Valid true ∧ lcCivilDay (dateOf day).year (dateOf day).month (dateOf day).day true = day := by
  have hv := dateOf_valid day
  have hd := civilDay_dateOf day
  rw [decide_eq_true h] at hv hd
  exact ⟨hv, hd⟩

theorem dateOf_julian {day : Int} (h : ¬cutoverDay ≤ day) :
    (dateOf day).Valid false ∧ lcCivilDay (dateOf day).year (dateOf day).month (dateOf day).day false = day := by
  have hv := dateOf_valid day
  have hd := civilDay_dateOf day
  rw [decide_eq_false h] at hv hd
  exact ⟨hv, hd⟩

theorem cutover_days : lcCivilDay 1582 11 1 true = 2299178 ∧ lcCivilDay 1582 10 1 false = 2299157 ∧
    lcCivilDay 1582 10 4 false = 2299160 ∧ lcCivilDay 1582 10 4 true = 2299150 := by
  decide

theorem first_before_cutover {p : Date} (hp : p.IsFirst) (h : lcCivilDay p.year p.month p.day true < cutoverDay) :
    lcCivilDay p.year p.month p.day false < cutoverDay := by
  obtain ⟨hnov, hoct, -, -⟩ := cutover_days
  have hlast : ¬Date.Before ⟨1582, 10, 1⟩ p := by
    intro hafter
    have hno : ¬p.Before ⟨1582, 11, 1⟩ := by
      obtain ⟨hl, hh, hday⟩ := hp
      simp only [Date.Before] at hafter ⊢
      omega
    have hfirst : Date.IsFirst ⟨1582, 11, 1⟩ := ⟨by decide, by decide, rfl⟩
    have hle := civilDay_le (hfirst.valid true) (hp.valid true) hno
    dsimp only at hle
    unfold cutoverDay at h
    omega
  have hfirst : Date.IsFirst ⟨1582, 10, 1⟩ := ⟨by decide, by decide, rfl⟩
  have hle := civilDay_le (hp.valid false) (hfirst.valid false) hlast
  dsimp only at hle
  unfold cutoverDay
  omega

theorem gregorian_before_cutover {p : Date} (ht : p.Valid true) (hf : p.Valid false)
    (h : lcCivilDay p.year p.month p.day false < cutoverDay) : lcCivilDay p.year p.month p.day true < cutoverDay := by
  obtain ⟨-, -, hjul, hgreg⟩ := cutover_days
  have hlast : ¬Date.Before ⟨1582, 10, 4⟩ p := by
    intro hafter
    have h4 : Date.Valid false ⟨1582, 10, 4⟩ := ⟨by decide, by decide, by decide, by decide⟩
    have hlt := civilDay_lt h4 hf hafter
    dsimp only at hlt
    unfold cutoverDay at h
    omega
  have h4 : Date.Valid true ⟨1582, 10, 4⟩ := ⟨by decide, by decide, by decide, by decide⟩
  have hle := civilDay_le ht h4 hlast
  dsimp only at hle
  unfold cutoverDay
  omega

theorem lt_firstDayOf_iff {p : Date} (hp : p.IsFirst) (day : Int) : day < firstDayOf p ↔ (dateOf day).Before p := by
  have hpt := hp.valid true
  have hpf := hp.valid false
  by_cases hcut : cutoverDay ≤ day
  · obtain ⟨hv, hd⟩ := dateOf_gregorian hcut
    constructor
    · intro hlt
      by_contra hno
      have hle := civilDay_le hpt hv hno
      rw [firstDayOf] at hlt
      split at hlt
      · omega
      · have := first_before_cutover hp (by omega)
        omega
    · intro hbefore
      have hlt := civilDay_lt hv hpt hbefore
      rw [firstDayOf, if_pos (by omega)]
      omega
  · obtain ⟨hv, hd⟩ := dateOf_julian hcut
    constructor
    · intro hlt
      by_contra hno
      have hle := civilDay_le hpf hv hno
      rw [firstDayOf] at hlt
      split at hlt
      · have := gregorian_before_cutover hpt hpf (by omega)
        omega
      · omega
    · intro hbefore
      have hlt := civilDay_lt hv hpf hbefore
      rw [firstDayOf]
      split <;> omega

/-! ### Cycles -/

def Date.cycleFirst (yearly : Bool) (d : Date) : Date := if yearly then ⟨d.year, 1, 1⟩ else ⟨d.year, d.month, 1⟩

/-- The first day after it. -/
def Date.cycleNext (yearly : Bool) (d : Date) : Date :=
  if yearly then ⟨d.year + 1, 1, 1⟩ else if d.month = 12 then ⟨d.year + 1, 1, 1⟩ else ⟨d.year, d.month + 1, 1⟩

theorem dateOf_month (day : Int) : 1 ≤ (dateOf day).month ∧ (dateOf day).month ≤ 12 ∧ 1 ≤ (dateOf day).day :=
  ⟨(dateOf_valid day).month_low, (dateOf_valid day).month_high, (dateOf_valid day).day_low⟩

theorem cycle_isFirst (yearly : Bool) (day : Int) :
    ((dateOf day).cycleFirst yearly).IsFirst ∧ ((dateOf day).cycleNext yearly).IsFirst := by
  obtain ⟨hl, hh, -⟩ := dateOf_month day
  cases yearly with
  | true => exact ⟨⟨Nat.le_refl 1, Nat.le_add_left 1 11, rfl⟩, ⟨Nat.le_refl 1, Nat.le_add_left 1 11, rfl⟩⟩
  | false =>
    refine ⟨⟨hl, hh, rfl⟩, ?_⟩
    simp only [Date.cycleNext, Bool.false_eq_true, if_false]
    split
    · exact ⟨Nat.le_refl 1, Nat.le_add_left 1 11, rfl⟩
    · exact ⟨by dsimp only; omega, by dsimp only; omega, rfl⟩

/-- The days of the month or the year of a day. -/
def cycleStart (yearly : Bool) (day : Int) : Int := firstDayOf ((dateOf day).cycleFirst yearly)

def cycleEnd (yearly : Bool) (day : Int) : Int := firstDayOf ((dateOf day).cycleNext yearly)

theorem mem_cycle_iff (yearly : Bool) (day day' : Int) : cycleStart yearly day ≤ day' ∧ day' < cycleEnd yearly day ↔
    (dateOf day').year = (dateOf day).year ∧ (yearly = false → (dateOf day').month = (dateOf day).month) := by
  obtain ⟨hfirst, hnext⟩ := cycle_isFirst yearly day
  obtain ⟨hl, hh, hd⟩ := dateOf_month day
  obtain ⟨hl', hh', hd'⟩ := dateOf_month day'
  rw [cycleStart, cycleEnd, ← Int.not_lt, lt_firstDayOf_iff hfirst, lt_firstDayOf_iff hnext]
  cases yearly with
  | true =>
    simp only [Date.Before, Date.cycleFirst, Date.cycleNext, if_true, Bool.true_eq_false, false_imp_iff, and_true]
    omega
  | false =>
    simp only [Date.Before, Date.cycleFirst, Date.cycleNext, Bool.false_eq_true, if_false, true_imp_iff]
    split
    · dsimp only
      omega
    · dsimp only
      omega

theorem mem_cycle (yearly : Bool) (day : Int) : cycleStart yearly day ≤ day ∧ day < cycleEnd yearly day :=
  (mem_cycle_iff yearly day day).2 ⟨rfl, fun _ => rfl⟩

theorem cycle_eq {yearly : Bool} {day day' : Int} (h : cycleStart yearly day ≤ day') (h' : day' < cycleEnd yearly day) :
    cycleStart yearly day' = cycleStart yearly day ∧ cycleEnd yearly day' = cycleEnd yearly day := by
  obtain ⟨hy, hm⟩ := (mem_cycle_iff yearly day day').1 ⟨h, h'⟩
  rw [cycleStart, cycleStart, cycleEnd, cycleEnd]
  cases yearly with
  | true => simp only [Date.cycleFirst, Date.cycleNext, hy, if_true, and_self]
  | false => simp only [Date.cycleFirst, Date.cycleNext, hy, hm rfl, Bool.false_eq_true, if_false, and_self]

/-! ### Rolling a day -/

def rollDay (yearly : Bool) (day a : Int) : Int :=
  cycleStart yearly day + (day - cycleStart yearly day + a) % (cycleEnd yearly day - cycleStart yearly day)

theorem rollDay_mem (yearly : Bool) (day a : Int) :
    cycleStart yearly day ≤ rollDay yearly day a ∧ rollDay yearly day a < cycleEnd yearly day := by
  obtain ⟨hlow, hhigh⟩ := mem_cycle yearly day
  have hnn := Int.emod_nonneg (day - cycleStart yearly day + a)
    (show cycleEnd yearly day - cycleStart yearly day ≠ 0 by omega)
  have hlt := Int.emod_lt_of_pos (day - cycleStart yearly day + a)
    (show 0 < cycleEnd yearly day - cycleStart yearly day by omega)
  rw [rollDay]
  omega

theorem rollDay_add (yearly : Bool) (day a b : Int) :
    rollDay yearly (rollDay yearly day a) b = rollDay yearly day (a + b) := by
  obtain ⟨hlow, hhigh⟩ := rollDay_mem yearly day a
  obtain ⟨hs, he⟩ := cycle_eq hlow hhigh
  rw [rollDay, hs, he, rollDay, rollDay]
  rw [add_sub_cancel_left, Int.emod_add_emod, Int.add_assoc]

theorem rollDay_cycle (yearly : Bool) (day k : Int) :
    rollDay yearly day (k * (cycleEnd yearly day - cycleStart yearly day)) = day := by
  obtain ⟨hlow, hhigh⟩ := mem_cycle yearly day
  rw [rollDay, Int.add_mul_emod_self_right, Int.emod_eq_of_lt (by omega) (by omega)]
  omega

theorem rollDay_same (yearly : Bool) (day a : Int) : (dateOf (rollDay yearly day a)).year = (dateOf day).year ∧
    (yearly = false → (dateOf (rollDay yearly day a)).month = (dateOf day).month) :=
  (mem_cycle_iff yearly day _).1 (rollDay_mem yearly day a)

end Lunaria.Dvm.Calendar
