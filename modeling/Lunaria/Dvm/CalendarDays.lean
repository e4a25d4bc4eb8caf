import Lunaria.Dvm.CalendarCivil

/-! Dates and day numbers. Under either rule the valid dates are the days, in their order: `lc_day_civil` and
    `lc_civil_day` are each the inverse of the other. -/

namespace Lunaria.Dvm.Calendar

def leapYear (gregorian : Bool) (year : Int) : Bool :=
  year % 4 = 0 && (!gregorian || year % 100 ≠ 0 || year % 400 = 0)

def daysIn (gregorian : Bool) (year : Int) (month : Nat) : Nat :=
  match month with
  | 2 => if leapYear gregorian year then 29 else 28
  | 4 | 6 | 9 | 11 => 30
  | _ => 31

structure Date.Valid (gregorian : Bool) (date : Date) : Prop where
  month_low : 1 ≤ date.month
  month_high : date.month ≤ 12
  day_low : 1 ≤ date.day
  day_high : date.day ≤ daysIn gregorian date.year date.month

def Date.Before (date date' : Date) : Prop :=
  date.year < date'.year ∨ date.year = date'.year ∧ (date.month < date'.month ∨ date.month = date'.month ∧
    date.day < date'.day)

/-- The years before a year, each from its March on. -/
def yearDays (gregorian : Bool) (y : Int) : Int := 365 * y + y / 4 - if gregorian then y / 100 - y / 400 else 0

/-- The day before the first March. -/
def marchEpoch (gregorian : Bool) : Int := if gregorian then -32045 else -32083

theorem yearDays_succ (g : Bool) (y : Int) :
    yearDays g (y + 1) = yearDays g y + 365 + if leapYear g (y + 1) then 1 else 0 := by
  cases g with
  | true =>
    simp only [yearDays, leapYear, if_true, Bool.and_eq_true, Bool.or_eq_true, Bool.not_true, decide_eq_true_eq, ne_eq,
      decide_not, Bool.not_eq_true', decide_eq_false_iff_not, Bool.false_eq_true, false_or]
    split <;> omega
  | false =>
    simp only [yearDays, leapYear, Bool.and_eq_true, Bool.or_eq_true, Bool.not_false, decide_eq_true_eq, true_or, and_true,
      Bool.false_eq_true, if_false]
    split <;> omega

theorem yearDays_mono (g : Bool) {y y' : Int} (h : y < y') : yearDays g (y + 1) ≤ yearDays g y' := by
  cases g with
  | true =>
    simp only [yearDays, if_true]
    omega
  | false =>
    simp only [yearDays, Bool.false_eq_true, if_false]
    omega

/-- A date by the year that starts in March, the month in it, and the day in the year. -/
structure March (g : Bool) (date : Date) (y m e : Int) : Prop where
  year : date.year = y - 4800 + m / 10
  month : (date.month : Int) = m + 3 - 12 * (m / 10)
  month_low : 0 ≤ m
  month_high : m ≤ 11
  day : e = (153 * m + 2) / 5 + date.day - 1
  month_eq : m = (5 * e + 2) / 153
  first : 0 ≤ e
  last : e ≤ 364 + if leapYear g (y + 1) then 1 else 0

theorem leapYear_shift (g : Bool) (y : Int) : leapYear g (y - 4800 + 1) = leapYear g (y + 1) := by
  have h4 : (y - 4800 + 1) % 4 = (y + 1) % 4 := by omega
  have h100 : (y - 4800 + 1) % 100 = (y + 1) % 100 := by omega
  have h400 : (y - 4800 + 1) % 400 = (y + 1) % 400 := by omega
  rw [leapYear, leapYear, h4, h100, h400]

theorem daysIn_spec (g : Bool) (year : Int) (month : Nat) :
    (month = 2 → daysIn g year month = 28 + if leapYear g year then 1 else 0) ∧
    (month = 4 ∨ month = 6 ∨ month = 9 ∨ month = 11 → daysIn g year month = 30) ∧
    (month ≠ 2 → ¬(month = 4 ∨ month = 6 ∨ month = 9 ∨ month = 11) → daysIn g year month = 31) := by
  refine ⟨?_, ?_, fun h2 hshort => ?_⟩
  · rintro rfl
    change (if leapYear g year then 29 else 28) = _
    split <;> rfl
  · rintro (rfl | rfl | rfl | rfl) <;> rfl
  · unfold daysIn
    split
    · exact (h2 rfl).elim
    iterate 4 exact (hshort (by decide)).elim
    · rfl

variable {g : Bool} {date : Date} {y e : Int}

theorem march_exists (h : date.Valid g) : ∃ y m e, March g date y m e := by
  obtain ⟨hml, hmh, hdl, hdh⟩ := h
  obtain ⟨hfeb, hshort, hlong⟩ := daysIn_spec g date.year date.month
  have hmonths : date.month = 1 ∨ date.month = 2 ∨ date.month = 3 ∨ date.month = 4 ∨ date.month = 5 ∨ date.month = 6 ∨
    date.month = 7 ∨ date.month = 8 ∨ date.month = 9 ∨ date.month = 10 ∨ date.month = 11 ∨ date.month = 12 := by omega
  by_cases hbefore : date.month ≤ 2
  · -- the March before
    have hshift := leapYear_shift g (date.year + 4799)
    rw [show date.year + 4799 - 4800 + 1 = date.year by omega] at hshift
    rw [hshift] at hfeb
    refine ⟨date.year + 4799, date.month + 9, (153 * ((date.month : Int) + 9) + 2) / 5 + date.day - 1, ?_⟩
    have hleap : (if leapYear g (date.year + 4799 + 1) then 1 else 0 : Int) =
      ((if leapYear g (date.year + 4799 + 1) then 1 else 0 : Nat) : Int) := by split <;> rfl
    refine ⟨?_, ?_, ?_, ?_, rfl, ?_, ?_, ?_⟩
    all_goals rcases hmonths with h | h | h
    all_goals omega
  · refine ⟨date.year + 4800, date.month - 3, (153 * ((date.month : Int) - 3) + 2) / 5 + date.day - 1, ?_⟩
    refine ⟨?_, ?_, ?_, ?_, rfl, ?_, ?_, ?_⟩
    · omega
    · omega
    · omega
    · omega
    · omega
    · omega
    · split <;> omega

theorem March.civilDay {y m e : Int} (h : March g date y m e) :
    lcCivilDay date.year date.month date.day g = e + 1 + yearDays g y + marchEpoch g := by
  have hday := h.day
  rw [h.year, lcCivilDay_march date.day g h.month_low h.month_high h.month, yearDays, marchEpoch]
  cases g with
  | true =>
    simp only [if_true]
    omega
  | false =>
    simp only [Bool.false_eq_true, if_false]
    omega

/-- What a year is made of: the leap years of a period are those that end it. -/
structure Period (g : Bool) (y e q i j k : Int) : Prop where
  eq : y = 400 * q + 100 * i + 4 * j + k
  century : 0 ≤ i ∧ i ≤ 3
  four : 0 ≤ j ∧ j ≤ 24
  one : 0 ≤ k ∧ k ≤ 3
  first : 0 ≤ e
  last : e ≤ 365
  leap : e = 365 → k = 3 ∧ (g = true → j ≠ 24 ∨ i = 3)

theorem period_exists (hfirst : 0 ≤ e) (hlast : e ≤ 364 + if leapYear g (y + 1) then 1 else 0) :
    ∃ q i j k, Period g y e q i j k := by
  have he : e ≤ 365 := by split at hlast <;> omega
  refine ⟨y / 400, y / 100 % 4, y / 4 % 25, y % 4, ⟨by omega, by omega, by omega, by omega, hfirst, he, ?_⟩⟩
  rintro rfl
  rw [leapYear] at hlast
  split at hlast
  · rename_i h
    simp only [Bool.and_eq_true, Bool.or_eq_true, decide_eq_true_eq, Bool.not_eq_true', ne_eq] at h
    obtain ⟨h4, h⟩ := h
    refine ⟨by omega, fun hg => ?_⟩
    rcases h with (h | h) | h
    · exact (Bool.false_ne_true (h.symm.trans hg)).elim
    · omega
    · omega
  · omega

theorem lcDayCivil_march (hfirst : 0 ≤ e) (hlast : e ≤ 364 + if leapYear g (y + 1) then 1 else 0) :
    lcDayCivil (e + 1 + yearDays g y + marchEpoch g) g =
      ⟨y - 4800 + (5 * e + 2) / 153 / 10, u32 ((5 * e + 2) / 153 + 3 - 12 * ((5 * e + 2) / 153 / 10)),
        u32 (e - (153 * ((5 * e + 2) / 153) + 2) / 5 + 1)⟩ := by
  obtain ⟨q, i, j, k, hp⟩ := period_exists hfirst hlast
  obtain ⟨heq, hi, hj, hk, -, he, hleap⟩ := hp
  have h4 : y / 4 = 100 * q + 25 * i + j := by omega
  have h100 : y / 100 = 4 * q + i := by omega
  have h400 : y / 400 = q := by omega
  have hm : (5 * e + 2).tdiv 153 = (5 * e + 2) / 153 := Int.tdiv_eq_ediv_of_nonneg (by omega)
  have hm10 : ((5 * e + 2) / 153).tdiv 10 = (5 * e + 2) / 153 / 10 := Int.tdiv_eq_ediv_of_nonneg (by omega)
  have hmd : (153 * ((5 * e + 2) / 153) + 2).tdiv 5 = (153 * ((5 * e + 2) / 153) + 2) / 5 :=
    Int.tdiv_eq_ediv_of_nonneg (by omega)
  rw [lcDayCivil]
  simp only [lcFloor_eq _ (show (0 : Int) < 146097 by decide), lcFloor_eq _ (show (0 : Int) < 4 by decide),
    lcFloor_eq _ (show (0 : Int) < 1461 by decide)]
  cases g with
  | true =>
    have hleap' : e = 365 → k = 3 ∧ (j ≠ 24 ∨ i = 3) := fun h => ⟨(hleap h).1, (hleap h).2 rfl⟩
    have ha : e + 1 + yearDays true y + marchEpoch true + 32044 = e + 146097 * q + 36524 * i + 1461 * j + 365 * k := by
      simp only [yearDays, marchEpoch, if_true]
      omega
    have hb : (4 * (e + 146097 * q + 36524 * i + 1461 * j + 365 * k) + 3) / 146097 = 4 * q + i := by omega
    have hc :
      e + 146097 * q + 36524 * i + 1461 * j + 365 * k - 146097 * (4 * q + i) / 4 = e + 1461 * j + 365 * k := by omega
    have hd : (4 * (e + 1461 * j + 365 * k) + 3) / 1461 = 4 * j + k := by omega
    have hy : e + 1461 * j + 365 * k - 1461 * (4 * j + k) / 4 = e := by omega
    simp only [if_true, ha, hb, hc, hd, hy, hm, hm10, hmd]
    congr 1
    omega
  | false =>
    have ha : e + 1 + yearDays false y + marchEpoch false + 32082 = e + 146100 * q + 36525 * i + 1461 * j + 365 * k := by
      simp only [yearDays, marchEpoch, Bool.false_eq_true, if_false]
      omega
    have hd : (4 * (e + 146100 * q + 36525 * i + 1461 * j + 365 * k) + 3) / 1461 = y := by
      have := hleap
      omega
    have hy : e + 146100 * q + 36525 * i + 1461 * j + 365 * k - 1461 * y / 4 = e := by omega
    simp only [Bool.false_eq_true, if_false, ha, hd, hy, hm, hm10, hmd, Int.mul_zero, Int.zero_add]

theorem dayCivil_civilDay (h : date.Valid g) :
    lcDayCivil (lcCivilDay date.year date.month date.day g) g = date := by
  obtain ⟨y, m, e, hd⟩ := march_exists h
  obtain ⟨-, -, hday, -⟩ := h
  rw [hd.civilDay, lcDayCivil_march hd.first hd.last, ← hd.month_eq]
  have hm := hd.month
  have hdate := hd.day
  have hy := hd.year
  have hlow := hd.month_low
  have hhigh := hd.month_high
  have hlast : e ≤ 365 := by
    have := hd.last
    split at this <;> omega
  have hmonth := @u32_eq (m + 3 - 12 * (m / 10)) (by omega) (by omega)
  have hday' := @u32_eq (e - (153 * m + 2) / 5 + 1) (by omega) (by omega)
  obtain ⟨year, month, day⟩ := date
  congr 1
  · exact hy.symm
  · dsimp only at hm
    omega
  · dsimp only at hdate
    omega

theorem day_exists (g : Bool) (jd : Int) : ∃ y e, 0 ≤ e ∧ e ≤ 364 + (if leapYear g (y + 1) then 1 else 0) ∧
    jd = e + 1 + yearDays g y + marchEpoch g := by
  obtain ⟨y, e, m, hp⟩ := parts_exist jd g
  have hdays : jd = e + 1 + yearDays g y + marchEpoch g := by
    have := hp.days
    rw [yearDays, marchEpoch]
    split at this <;> simp_all <;> omega
  have hfirst := hp.first
  have hlast := hp.last
  by_cases hleap : leapYear g (y + 1) = true
  · exact ⟨y, e, hfirst, by rw [if_pos hleap]; omega, hdays⟩
  · by_cases hfits : e ≤ 364
    · exact ⟨y, e, hfirst, by rw [if_neg hleap]; omega, hdays⟩
    · -- the first day of the next year
      have hnext := yearDays_succ g y
      rw [if_neg hleap] at hnext
      exact ⟨y + 1, 0, Int.le_refl 0, by split <;> omega, by omega⟩

theorem march_of_day (hfirst : 0 ≤ e) (hlast : e ≤ 364 + if leapYear g (y + 1) then 1 else 0) :
    (lcDayCivil (e + 1 + yearDays g y + marchEpoch g) g).Valid g ∧
      March g (lcDayCivil (e + 1 + yearDays g y + marchEpoch g) g) y ((5 * e + 2) / 153) e := by
  rw [lcDayCivil_march hfirst hlast]
  have he : e ≤ 365 := by split at hlast <;> omega
  obtain ⟨m, hm⟩ : ∃ m, m = (5 * e + 2) / 153 := ⟨_, rfl⟩
  have hmonth := @u32_eq (m + 3 - 12 * (m / 10)) (by omega) (by omega)
  have hday := @u32_eq (e - (153 * m + 2) / 5 + 1) (by omega) (by omega)
  rw [← hm]
  refine ⟨?_, ⟨rfl, hmonth, by omega, by omega, by dsimp only; omega, hm, hfirst, hlast⟩⟩
  obtain ⟨hfeb, hshort, hlong⟩ := daysIn_spec g (y - 4800 + m / 10) (u32 (m + 3 - 12 * (m / 10)))
  refine ⟨by dsimp only; omega, by dsimp only; omega, by dsimp only; omega, ?_⟩
  dsimp only
  by_cases hm2 : m = 11
  · have hyear : leapYear g (y - 4800 + m / 10) = leapYear g (y + 1) := by
      rw [← leapYear_shift g y]
      congr 1
      omega
    rw [hfeb (by omega), hyear]
    by_cases hleap : leapYear g (y + 1) = true
    · rw [if_pos hleap] at hlast ⊢
      omega
    · rw [if_neg hleap] at hlast ⊢
      omega
  · by_cases hm4 : m = 1 ∨ m = 3 ∨ m = 6 ∨ m = 8
    · rw [hshort (by omega)]
      omega
    · rw [hlong (by omega) (by omega)]
      omega

theorem March.before {date date' : Date} {y m e y' m' e' : Int} (h : March g date y m e) (h' : March g date' y' m' e')
    (hlt : date.Before date') : y < y' ∨ y = y' ∧ e < e' := by
  obtain ⟨hy, hm, hml, hmh, hd, hme, hf, hl⟩ := h
  obtain ⟨hy', hm', hml', hmh', hd', hme', hf', hl'⟩ := h'
  rcases hlt with hlt | ⟨heq, hlt | ⟨hmonth, hlt⟩⟩
  · by_cases hyy : y < y'
    · exact .inl hyy
    · exact .inr ⟨by omega, by omega⟩
  · by_cases hyy : y < y'
    · exact .inl hyy
    · exact .inr ⟨by omega, by omega⟩
  · have hmm : m = m' := by omega
    subst hmm
    exact .inr ⟨by omega, by omega⟩

theorem civilDay_lt {date date' : Date} (h : date.Valid g) (h' : date'.Valid g) (hlt : date.Before date') :
    lcCivilDay date.year date.month date.day g < lcCivilDay date'.year date'.month date'.day g := by
  obtain ⟨y, m, e, hd⟩ := march_exists h
  obtain ⟨y', m', e', hd'⟩ := march_exists h'
  rw [hd.civilDay, hd'.civilDay]
  rcases hd.before hd' hlt with hyy | ⟨rfl, he⟩
  · have hmono := yearDays_mono g hyy
    rw [yearDays_succ] at hmono
    have hlast := hd.last
    have hfirst := hd'.first
    omega
  · omega

/-- Within 2^54 years nothing overflows on the way from a date to its day. -/
theorem lcCivilDay64_eq {year : Int} {month day : Nat} (g : Bool) (hl : -2 ^ 54 ≤ year) (hu : year ≤ 2 ^ 54)
    (hm : 1 ≤ month) (hm' : month ≤ 12) (hd : day ≤ 31) : lcCivilDay64 year month day g = lcCivilDay year month day g := by
  have ha : (14 - (month : Int)).tdiv 12 = (14 - (month : Int)) / 12 := Int.tdiv_eq_ediv_of_nonneg (by omega)
  rw [lcCivilDay64, lcCivilDay, ha]
  obtain ⟨a, ha⟩ : ∃ a, a = (14 - (month : Int)) / 12 := ⟨_, rfl⟩
  obtain ⟨y, hy⟩ : ∃ y, y = year + 4800 - a := ⟨_, rfl⟩
  obtain ⟨k, hk⟩ : ∃ k, k = (153 * ((month : Int) + 12 * a - 3) + 2) / 5 := ⟨_, rfl⟩
  have hkd : (153 * ((month : Int) + 12 * a - 3) + 2).tdiv 5 = k :=
    (Int.tdiv_eq_ediv_of_nonneg (by omega)).trans hk.symm
  have hy64 : i64 (i64 (year + 4800) - a) = y := by
    rw [@i64_eq (year + 4800) (by omega) (by omega), ← hy]
    exact i64_eq (by omega) (by omega)
  rw [← ha]
  simp only [hy64, hkd, lcFloor_eq _ (show (0 : Int) < 4 by decide), lcFloor_eq _ (show (0 : Int) < 100 by decide),
    lcFloor_eq _ (show (0 : Int) < 400 by decide), ← hy]
  rw [@i64_eq (365 * y) (by omega) (by omega), @i64_eq (day + k + 365 * y) (by omega) (by omega),
    @i64_eq (day + k + 365 * y + y / 4) (by omega) (by omega)]
  split
  · rw [@i64_eq (day + k + 365 * y + y / 4 - y / 100) (by omega) (by omega),
      @i64_eq (day + k + 365 * y + y / 4 - y / 100 + y / 400) (by omega) (by omega)]
    exact i64_eq (by omega) (by omega)
  · exact i64_eq (by omega) (by omega)

/-- Nothing overflows on the way from a day below 2 * 10^18 to its date. -/
theorem lcDayCivil64_eq {jd : Int} (g : Bool) (hl : -2000000000000000000 ≤ jd) (hu : jd ≤ 2000000000000000000) :
    lcDayCivil64 jd g = lcDayCivil jd g := by
  obtain ⟨a, ha⟩ : ∃ a, a = jd + 32044 := ⟨_, rfl⟩
  obtain ⟨b, hb⟩ : ∃ b, b = if g then (4 * a + 3) / 146097 else 0 := ⟨_, rfl⟩
  obtain ⟨c, hc⟩ : ∃ c, c = if g then a - 146097 * b / 4 else jd + 32082 := ⟨_, rfl⟩
  obtain ⟨d, hd⟩ : ∃ d, d = (4 * c + 3) / 1461 := ⟨_, rfl⟩
  obtain ⟨e, he⟩ : ∃ e, e = c - 1461 * d / 4 := ⟨_, rfl⟩
  have hbl : -100000000000000 ≤ b ∧ b ≤ 100000000000000 := by split at hb <;> omega
  have hbm : -2100000000000000000 ≤ 146097 * b / 4 ∧ 146097 * b / 4 ≤ 2100000000000000000 := by
    split at hb <;> omega
  have hcl : -2000000000000100000 ≤ c ∧ c ≤ 2000000000000100000 := by
    cases g with
    | true =>
      simp only [if_true] at hb hc
      omega
    | false =>
      simp only [Bool.false_eq_true, if_false] at hc
      omega
  have he' : 0 ≤ e ∧ e ≤ 365 := by omega
  rw [lcDayCivil64, lcDayCivil]
  simp only [lcFloor_eq _ (show (0 : Int) < 146097 by decide), lcFloor_eq _ (show (0 : Int) < 4 by decide),
    lcFloor_eq _ (show (0 : Int) < 1461 by decide)]
  rw [@i64_eq (jd + 32044) (by omega) (by omega), @i64_eq (jd + 32082) (by omega) (by omega), ← ha,
    @i64_eq (4 * a) (by omega) (by omega), @i64_eq (4 * a + 3) (by omega) (by omega), ← hb,
    @i64_eq (146097 * b) (by omega) (by omega), @i64_eq (a - 146097 * b / 4) (by omega) (by omega), ← hc,
    @i64_eq (4 * c) (by omega) (by omega), @i64_eq (4 * c + 3) (by omega) (by omega), ← hd,
    @i64_eq (1461 * d) (by omega) (by omega), ← he, @i64_eq e (by omega) (by omega),
    @i64_eq (5 * e + 2) (by omega) (by omega)]
  obtain ⟨m, hm⟩ : ∃ m, m = (5 * e + 2).tdiv 153 := ⟨_, rfl⟩
  obtain ⟨n, hn⟩ : ∃ n, n = m.tdiv 10 := ⟨_, rfl⟩
  have hm' : m = (5 * e + 2) / 153 := hm.trans (Int.tdiv_eq_ediv_of_nonneg (by omega))
  have hn' : n = m / 10 := hn.trans (Int.tdiv_eq_ediv_of_nonneg (by omega))
  rw [@i64_eq (100 * b) (by omega) (by omega), @i64_eq (100 * b + d) (by omega) (by omega),
    @i64_eq (100 * b + d - 4800) (by omega) (by omega), ← hm, ← hn, i64_eq (by omega) (by omega)]

/-- Days and years are of the same order. -/
theorem civilDay_bounds (h : date.Valid g) {n : Int} (hl : -n ≤ date.year) (hu : date.year ≤ n) :
    -366 * n - 40000 ≤ lcCivilDay date.year date.month date.day g ∧
      lcCivilDay date.year date.month date.day g ≤ 366 * n + 1800000 := by
  obtain ⟨y, m, e, hd⟩ := march_exists h
  rw [hd.civilDay]
  have hy := hd.year
  have hlow := hd.month_low
  have hhigh := hd.month_high
  have hfirst := hd.first
  have hlast : e ≤ 365 := by
    have := hd.last
    split at this <;> omega
  cases g with
  | true =>
    simp only [yearDays, marchEpoch, if_true]
    omega
  | false =>
    simp only [yearDays, marchEpoch, Bool.false_eq_true, if_false]
    omega

theorem civilDay_dayCivil (g : Bool) (jd : Int) : (lcDayCivil jd g).Valid g ∧
    lcCivilDay (lcDayCivil jd g).year (lcDayCivil jd g).month (lcDayCivil jd g).day g = jd := by
  obtain ⟨y, e, hfirst, hlast, rfl⟩ := day_exists g jd
  obtain ⟨hvalid, hmarch⟩ := march_of_day hfirst hlast
  exact ⟨hvalid, hmarch.civilDay⟩

/-- Under both rules dates and day numbers are each other's inverses: the date of a day is valid and its day is that day,
    the day of a valid date has that date, and days are in the order of their dates, in 64 bits, as long as nothing
    overflows. -/
theorem civil_bijection (g : Bool) :
    (∀ jd, -2 ^ 55 < jd → jd < 2 ^ 55 → (lcDayCivil64 jd g).Valid g ∧
      lcCivilDay64 (lcDayCivil64 jd g).year (lcDayCivil64 jd g).month (lcDayCivil64 jd g).day g = jd) ∧
    (∀ date : Date, date.Valid g → -2 ^ 52 ≤ date.year → date.year ≤ 2 ^ 52 →
      lcDayCivil64 (lcCivilDay64 date.year date.month date.day g) g = date) ∧
    (∀ date date' : Date, date.Valid g → date'.Valid g → -2 ^ 54 ≤ date.year → date'.year ≤ 2 ^ 54 → date.Before date' →
      lcCivilDay64 date.year date.month date.day g < lcCivilDay64 date'.year date'.month date'.day g) := by
  have hday : ∀ date : Date, date.Valid g → date.day ≤ 31 := by
    intro date h
    obtain ⟨hfeb, hshort, hlong⟩ := daysIn_spec g date.year date.month
    have := h.day_high
    split at hfeb <;> omega
  have heq : ∀ date : Date, date.Valid g → -2 ^ 54 ≤ date.year → date.year ≤ 2 ^ 54 →
      lcCivilDay64 date.year date.month date.day g = lcCivilDay date.year date.month date.day g := fun date h hl hu =>
    lcCivilDay64_eq g hl hu h.month_low h.month_high (hday date h)
  refine ⟨fun jd hl hu => ?_, fun date h hl hu => ?_, fun date date' h h' hl hu hlt => ?_⟩
  · rw [lcDayCivil64_eq g (by omega) (by omega)]
    obtain ⟨y, e, hfirst, hlast, rfl⟩ := day_exists g jd
    obtain ⟨hvalid, hmarch⟩ := march_of_day hfirst hlast
    have hyear := hmarch.year
    have he : e ≤ 365 := by split at hlast <;> omega
    have hbounds : -2 ^ 54 ≤ y - 4800 ∧ y - 4800 + 1 ≤ 2 ^ 54 := by
      cases g with
      | true =>
        simp only [yearDays, marchEpoch, if_true] at hl hu
        omega
      | false =>
        simp only [yearDays, marchEpoch, Bool.false_eq_true, if_false] at hl hu
        omega
    exact ⟨hvalid, (heq _ hvalid (by omega) (by omega)).trans hmarch.civilDay⟩
  · obtain ⟨hlow, hhigh⟩ := civilDay_bounds h hl hu
    rw [heq date h (by omega) (by omega), lcDayCivil64_eq g (by omega) (by omega)]
    exact dayCivil_civilDay h
  · have hyears : date.year ≤ date'.year := by
      rcases hlt with hlt | ⟨heq, -⟩ <;> omega
    rw [heq date h hl (by omega), heq date' h' (by omega) hu]
    exact civilDay_lt h h' hlt

/-- The leap day of 2000 and the day after it. -/
theorem civil_bijection_leapDay : lcDayCivil64 (lcCivilDay64 2000 2 29 true) true = ⟨2000, 2, 29⟩ ∧
    lcCivilDay64 2000 2 29 true < lcCivilDay64 2000 3 1 true ∧
    lcCivilDay64 (lcDayCivil64 (-1000000) true).year (lcDayCivil64 (-1000000) true).month
      (lcDayCivil64 (-1000000) true).day true = -1000000 := by
  have hleap : Date.Valid true ⟨2000, 2, 29⟩ := ⟨by decide, by decide, by decide, by decide⟩
  have hnext : Date.Valid true ⟨2000, 3, 1⟩ := ⟨by decide, by decide, by decide, by decide⟩
  exact ⟨(civil_bijection true).2.1 ⟨2000, 2, 29⟩ hleap (by norm_num) (by norm_num),
    (civil_bijection true).2.2 ⟨2000, 2, 29⟩ ⟨2000, 3, 1⟩ hleap hnext (by norm_num) (by norm_num)
      (.inr ⟨rfl, .inl (by decide)⟩),
    ((civil_bijection true).1 (-1000000) (by norm_num) (by norm_num)).2⟩

/-- In the year 10^16 the days of a date no longer fit in 64 bits once they are multiplied by four. -/
theorem civil_overflows : Date.Valid true ⟨10000000000000000, 1, 1⟩ ∧
    lcDayCivil64 (lcCivilDay64 10000000000000000 1 1 true) true ≠ ⟨10000000000000000, 1, 1⟩ :=
  ⟨⟨by decide, by decide, by decide, by decide⟩, by decide +kernel⟩

end Lunaria.Dvm.Calendar
