import Mathlib.Tactic.Linarith
import Lunaria.Dvm.Calendar

/-! The day of a date and the date of a day. Both calendars count the months of a year from March, and the years from one
    that is a multiple of 400; a day of the julian calendar before the cutover is before it as a gregorian date too. -/

namespace Lunaria.Dvm.Calendar

open Int

theorem lcFloor_eq (n : Int) {d : Int} (hd : 0 < d) : lcFloor n d = n / d := by
  have hsum := tmod_add_mul_tdiv n d
  have hlt : n.tmod d < d := tmod_lt_of_pos n hd
  have hgt : -d < n.tmod d := lt_tmod_of_pos n hd
  rw [lcFloor]
  symm
  split
  · have heq : n = (n.tmod d + d) + d * (n.tdiv d - 1) := by
      rw [Int.mul_sub, Int.mul_one]
      omega
    conv_lhs => rw [heq]
    rw [add_mul_ediv_left _ _ (by omega), ediv_eq_zero_of_lt (by omega) (by omega), Int.zero_add]
  · conv_lhs => rw [← hsum]
    rw [add_mul_ediv_left _ _ (by omega), ediv_eq_zero_of_lt (by omega) (by omega)]
    omega

theorem mod_eq (n : Int) {d : Int} (hd : 0 < d) : mod n d = n % d := by
  rw [mod, lcFloor_eq n hd, emod_def, Int.mul_comm]

theorem i32_eq {x : Int} (hl : -2147483648 ≤ x) (hu : x ≤ 2147483647) : i32 x = x := by
  rw [i32, bmod_def]
  omega

theorem i64_eq {x : Int} (hl : -9223372036854775808 ≤ x) (hu : x ≤ 9223372036854775807) : i64 x = x := by
  rw [i64, bmod_def]
  omega

theorem u32_eq {x : Int} (hl : 0 ≤ x) (hu : x < 4294967296) : (u32 x : Int) = x := by
  rw [u32]
  omega

theorem lcCivilDay_march {m y : Int} {month : Nat} (day : Nat) (g : Bool) (hm : 0 ≤ m) (hm' : m ≤ 11)
    (hmonth : (month : Int) = m + 3 - 12 * (m / 10)) :
    lcCivilDay (y - 4800 + m / 10) month day g =
      day + (153 * m + 2) / 5 + 365 * y + y / 4 - if g then y / 100 - y / 400 + 32045 else 32083 := by
  have ha : (14 - (month : Int)).tdiv 12 = m / 10 := by
    rw [tdiv_eq_ediv_of_nonneg (by omega)]
    omega
  have hy : y - 4800 + m / 10 + 4800 - m / 10 = y := by omega
  have hm₁ : (month : Int) + 12 * (m / 10) - 3 = m := by omega
  rw [lcCivilDay, ha, hy, hm₁, tdiv_eq_ediv_of_nonneg (by omega), lcFloor_eq y (by decide), lcFloor_eq y (by decide),
    lcFloor_eq y (by decide)]
  split <;> omega

/-- What a date is made of: the year that starts in March, the day and the month in it. -/
structure Parts (jd : Int) (g : Bool) (y e m : Int) : Prop where
  date : lcDayCivil jd g =
    ⟨y - 4800 + m / 10, u32 (m + 3 - 12 * (m / 10)), u32 (e - (153 * m + 2) / 5 + 1)⟩
  days : jd = e + 1 + 365 * y + y / 4 - if g then y / 100 - y / 400 + 32045 else 32083
  first : 0 ≤ e
  last : e ≤ 365
  month : m = (5 * e + 2) / 153

theorem parts_exist (jd : Int) (g : Bool) : ∃ y e m, Parts jd g y e m := by
  cases g with
  | true =>
    set a := jd + 32044 with ha
    set b := (4 * a + 3) / 146097 with hb
    set c := a - 146097 * b / 4 with hc
    set d := (4 * c + 3) / 1461 with hd
    set e := c - 1461 * d / 4 with he
    -- a century has 36525 days or fewer
    have hcent : 0 ≤ c ∧ c ≤ 36524 := by omega
    have hd' : 0 ≤ d ∧ d ≤ 99 := by omega
    have he' : 0 ≤ e ∧ e ≤ 365 := by omega
    refine ⟨100 * b + d, e, (5 * e + 2) / 153, ⟨?_, ?_, he'.1, he'.2, rfl⟩⟩
    · rw [lcDayCivil]
      simp only [if_true, lcFloor_eq _ (show (0 : Int) < 146097 by decide), lcFloor_eq _ (show (0 : Int) < 4 by decide),
        lcFloor_eq _ (show (0 : Int) < 1461 by decide)]
      rw [← ha, ← hb, ← hc, ← hd, ← he, tdiv_eq_ediv_of_nonneg (show 0 ≤ 5 * e + 2 by omega),
        tdiv_eq_ediv_of_nonneg (show 0 ≤ (5 * e + 2) / 153 by omega),
        tdiv_eq_ediv_of_nonneg (show 0 ≤ 153 * ((5 * e + 2) / 153) + 2 by omega)]
    · rw [if_pos rfl]
      have h4 : (100 * b + d) / 4 = 25 * b + d / 4 := by omega
      have h100 : (100 * b + d) / 100 = b := by omega
      have h400 : (100 * b + d) / 400 = b / 4 := by omega
      rw [h4, h100, h400]
      omega
  | false =>
    set c := jd + 32082 with hc
    set d := (4 * c + 3) / 1461 with hd
    set e := c - 1461 * d / 4 with he
    have he' : 0 ≤ e ∧ e ≤ 365 := by omega
    refine ⟨d, e, (5 * e + 2) / 153, ⟨?_, ?_, he'.1, he'.2, rfl⟩⟩
    · rw [lcDayCivil]
      simp only [Bool.false_eq_true, if_false, lcFloor_eq _ (show (0 : Int) < 4 by decide),
        lcFloor_eq _ (show (0 : Int) < 1461 by decide)]
      rw [← hc, ← hd, ← he, tdiv_eq_ediv_of_nonneg (show 0 ≤ 5 * e + 2 by omega),
        tdiv_eq_ediv_of_nonneg (show 0 ≤ (5 * e + 2) / 153 by omega),
        tdiv_eq_ediv_of_nonneg (show 0 ≤ 153 * ((5 * e + 2) / 153) + 2 by omega), Int.mul_zero, Int.zero_add]
    · rw [if_neg Bool.false_ne_true]
      omega

section
variable {jd y e m : Int} {g : Bool}

section
variable (h : Parts jd g y e m)
include h

theorem Parts.month_bounds : 0 ≤ m ∧ m ≤ 11 ∧ 0 ≤ e - (153 * m + 2) / 5 ∧ e - (153 * m + 2) / 5 ≤ 30 := by
  have := h.month
  have := h.first
  have := h.last
  omega

theorem Parts.month_eq : ((lcDayCivil jd g).month : Int) = m + 3 - 12 * (m / 10) := by
  have := h.month_bounds
  rw [h.date]
  exact u32_eq (by omega) (by omega)

theorem Parts.day_eq : ((lcDayCivil jd g).day : Int) = e - (153 * m + 2) / 5 + 1 := by
  have := h.month_bounds
  rw [h.date]
  exact u32_eq (by omega) (by omega)

theorem Parts.year_eq : (lcDayCivil jd g).year = y - 4800 + m / 10 := by
  rw [h.date]

theorem Parts.back (g' : Bool) :
    lcCivilDay (lcDayCivil jd g).year (lcDayCivil jd g).month 1 g' + (lcDayCivil jd g).day - 1 =
      e + 1 + 365 * y + y / 4 - if g' then y / 100 - y / 400 + 32045 else 32083 := by
  obtain ⟨hm, hm', -, -⟩ := h.month_bounds
  rw [h.year_eq, lcCivilDay_march 1 g' hm hm' h.month_eq, h.day_eq]
  push_cast
  omega

end

/-- Before the cutover, the date of the julian calendar is not a later day of the gregorian one. -/
theorem Parts.before (h : Parts jd false y e m) (hjd : jd < 2299161) :
    e + 1 + 365 * y + y / 4 - (y / 100 - y / 400 + 32045) < 2299161 := by
  have hdays := h.days
  have := h.first
  have := h.last
  rw [if_neg Bool.false_ne_true] at hdays
  omega

end

theorem date_bounds (jd : Int) (g : Bool) : 1 ≤ (lcDayCivil jd g).month ∧ (lcDayCivil jd g).month ≤ 12 ∧
    1 ≤ (lcDayCivil jd g).day ∧ (lcDayCivil jd g).day ≤ 31 := by
  obtain ⟨y, e, m, h⟩ := parts_exist jd g
  have := h.month_bounds
  have := h.month_eq
  have := h.day_eq
  omega

/-- Years stay far within 32 bits where days do. -/
theorem year_bounds {jd : Int} (g : Bool) (hl : -120000000000 ≤ jd) (hu : jd ≤ 120000000000) :
    -400000000 ≤ (lcDayCivil jd g).year ∧ (lcDayCivil jd g).year ≤ 400000000 := by
  obtain ⟨y, e, m, h⟩ := parts_exist jd g
  have hdays := h.days
  have := h.month_bounds
  have := h.first
  have := h.last
  rw [h.year_eq]
  cases g with
  | true =>
    rw [if_pos rfl] at hdays
    omega
  | false =>
    rw [if_neg Bool.false_ne_true] at hdays
    omega

theorem civil_january (c : LcCalendar) {jd : Int} (g : Bool) (hl : -2140000000 ≤ jd) (hu : jd ≤ 2140000000) :
    -200000 ≤ jd - civil c (lcDayCivil jd g).year 0 1 ∧ jd - civil c (lcDayCivil jd g).year 0 1 ≤ 200000 := by
  obtain ⟨y, e, m, h⟩ := parts_exist jd g
  have hm := h.month_bounds
  have hdays := h.days
  have := h.first
  have := h.last
  have hyear := h.year_eq
  -- January is the tenth month after the March of the year before
  have hjan : ∀ g', lcCivilDay (lcDayCivil jd g).year 1 1 g' = 307 + 365 * (y + m / 10 - 1) + (y + m / 10 - 1) / 4 -
      if g' then (y + m / 10 - 1) / 100 - (y + m / 10 - 1) / 400 + 32045 else 32083 := by
    intro g'
    have hmarch := @lcCivilDay_march 10 (y + m / 10 - 1) 1 1 g' (by decide) (by decide) (by decide)
    rw [show y + m / 10 - 1 - 4800 + 10 / 10 = (lcDayCivil jd g).year by omega] at hmarch
    exact hmarch
  have hu0 : u32 (mod 0 12) + 1 = 1 := by decide
  have hf0 : lcFloor 0 12 = 0 := by decide
  have htrue := hjan true
  have hfalse := hjan false
  rw [if_pos rfl] at htrue
  rw [if_neg Bool.false_ne_true] at hfalse
  rw [civil, hf0, Int.add_zero, hu0, htrue, hfalse]
  cases g with
  | true =>
    rw [if_pos rfl] at hdays
    split <;> omega
  | false =>
    rw [if_neg Bool.false_ne_true] at hdays
    split <;> omega

theorem civil_dayCivil {c : LcCalendar} (hc : c.cutover = 2299161) (day : Int) :
    civil c (lcDayCivil day (c.cutover ≤ day)).year ((lcDayCivil day (c.cutover ≤ day)).month - 1)
      (lcDayCivil day (c.cutover ≤ day)).day = day := by
  set g : Bool := decide (c.cutover ≤ day) with hg
  obtain ⟨hm, hm', -, -⟩ := date_bounds day g
  obtain ⟨y, e, m, h⟩ := parts_exist day g
  set d := lcDayCivil day g with hd
  have hfloor : lcFloor ((d.month : Int) - 1) 12 = 0 := by
    rw [lcFloor_eq _ (by decide)]
    omega
  have hmod : mod ((d.month : Int) - 1) 12 = d.month - 1 := by
    rw [mod_eq _ (by decide)]
    omega
  have hu : u32 ((d.month : Int) - 1) + 1 = d.month := by
    have := @u32_eq ((d.month : Int) - 1) (by omega) (by omega)
    omega
  rw [civil, hfloor, hmod, hu, Int.add_zero]
  have hgreg := h.back true
  have hjul := h.back false
  rw [if_pos rfl] at hgreg
  rw [if_neg Bool.false_ne_true] at hjul
  rw [← hd] at hgreg hjul
  rw [hgreg, hjul, hc]
  have hdays := h.days
  by_cases hday : c.cutover ≤ day
  · rw [show g = true from decide_eq_true hday, if_pos rfl] at hdays
    rw [if_pos (by omega)]
    omega
  · have hgf : g = false := decide_eq_false hday
    have hbefore := (hgf ▸ h).before (by omega)
    rw [hgf, if_neg Bool.false_ne_true] at hdays
    rw [if_neg (by omega)]
    omega

end Lunaria.Dvm.Calendar
