import Lunaria.Dvm.CalendarCivil

/-! A field set to what it reads as does not move the instant. Whichever of the fields was set last, the way back takes
    the date and the time of day from fields that were read from the same day. -/

namespace Lunaria.Dvm.Calendar

open Function Int

/-- The fields that an instant is set through, one at a time. -/
def commonFields : List Field :=
  [.era, .year, .month, .date, .dayOfYear, .amPm, .hour, .hourOfDay, .minute, .second, .millisecond]

def icuFields : List Field := [.extendedYear, .julianDay, .millisecondsInDay]

def settable (c : LcCalendar) : List Field := commonFields ++ if c.icu then icuFields else []

def NoCallbacks (zone : Option LcZone) : Prop := ∀ z ∈ zone, z.offset = none ∧ z.resolve = none

/-- All fields read from a day and a time of day, and one of them set again. -/
structure Touched (c : LcCalendar) (field : Field) (day wall : Int) : Prop where
  cutover : c.cutover = 2299161
  lenient : c.lenient = true
  fields : c.fields = fieldsOf c day wall 0 0
  stamps : c.stamps = update (fun _ => 1) field 2
  mem : field ∈ settable c
  day_low : -2140000000 ≤ day
  day_high : day ≤ 2140000000
  wall_low : 0 ≤ wall
  wall_high : wall < 86400000

/-! ### Which fields count -/

theorem mem_settable {c : LcCalendar} {field : Field} (h : field ∈ settable c) : field ∈ commonFields ++ icuFields := by
  rcases List.mem_append.1 h with h | h
  · exact List.mem_append_left _ h
  · refine List.mem_append_right _ ?_
    split at h
    · exact h
    · cases h

theorem resolveDate_touched : ∀ field ∈ commonFields ++ icuFields,
    resolveDate (update (fun _ => 1) field 2) = if field = .dayOfYear then .dayOfYear else .date := by
  decide

theorem stamp_eq (field other : Field) :
    update (fun _ => 1) field 2 other = if other = field then 2 else 1 :=
  update_apply ..

theorem wallOf_eq {day wall : Int} (hl : -2140000000 ≤ day) (hu : day ≤ 2140000000) (hw : 0 ≤ wall)
    (hw' : wall < 86400000) : wallOf day wall = .ok ((day - lcEpochJd) * lcDay + wall) := by
  have hfloor : lcFloor wall lcDay = 0 := by
    rw [lcFloor_eq _ (by decide)]
    exact ediv_eq_zero_of_lt hw hw'
  have hmod : mod wall lcDay = wall := by
    rw [mod_eq _ (by decide)]
    exact emod_eq_of_lt hw hw'
  rw [Calendar.wallOf, hfloor, hmod, Int.add_zero, if_neg]
  have hmin : int64Min.tdiv lcDay = -106751991167 := by decide
  have hmax : int64Max.tdiv lcDay = 106751991167 := by decide
  rw [hmin, hmax]
  unfold lcEpochJd
  omega

/-! ### Fields as they were read -/

section
variable {c : LcCalendar} {day wall : Int} (hl : -120000000000 ≤ day) (hu : day ≤ 120000000000)
include hl hu

theorem yearOf_read (hread : ∀ f ∈ [.era, .year, .extendedYear], ∀ x, value c f x = fieldsOf c day wall 0 0 f)
    {best : Field} (hbest : best ≠ .weekOfYear) : yearOf c best = (lcDayCivil day (c.cutover ≤ day)).year := by
  obtain ⟨hl, hu⟩ := year_bounds (c.cutover ≤ day) hl hu
  set year := (lcDayCivil day (c.cutover ≤ day)).year with hyear
  have hext : ∀ x, value c .extendedYear x = i32 year := hread .extendedYear (by decide)
  have hera : ∀ x, value c .era x = if c.buddhist then 0 else if 1 ≤ year then 1 else 0 := hread .era (by decide)
  have hyr : ∀ x, value c .year x = i32 (if c.buddhist then year + 543 else if 1 ≤ year then year else 1 - year) :=
    hread .year (by decide)
  rw [yearOf, if_neg (fun hb => hbest hb.1), hext, hyr, hera]
  split
  · exact i32_eq (by omega) (by omega)
  · by_cases hb : c.buddhist = true
    · rw [if_pos hb, if_pos hb, i32_eq (by omega) (by omega)]
      omega
    · rw [if_neg hb, if_neg hb, if_neg hb]
      by_cases hpos : 1 ≤ year
      · rw [if_pos hpos, if_pos hpos, if_neg (by decide), i32_eq (by omega) (by omega)]
      · rw [if_neg hpos, if_neg hpos, if_pos rfl, i32_eq (by omega) (by omega)]
        omega

theorem date_read (hread : ∀ f ∈ [.era, .year, .extendedYear, .month, .date], ∀ x,
    value c f x = fieldsOf c day wall 0 0 f) :
    yearOf c .date = (lcDayCivil day (c.cutover ≤ day)).year ∧
      value c .month 0 = (lcDayCivil day (c.cutover ≤ day)).month - 1 ∧
    value c .date 1 = (lcDayCivil day (c.cutover ≤ day)).day := by
  obtain ⟨hm, hm', hd, hd'⟩ := date_bounds day (c.cutover ≤ day)
  refine ⟨yearOf_read hl hu (fun f hf => hread f (List.mem_append_left [Field.month, .date] hf)) (by decide), ?_, ?_⟩
  · rw [hread .month (by decide)]
    show i32 ((lcDayCivil day (c.cutover ≤ day)).month : Int) - 1 = _
    rw [i32_eq (by omega) (by omega)]
  · rw [hread .date (by decide)]
    exact i32_eq (by omega) (by omega)

theorem dayOf_read (hcut : c.cutover = 2299161) (hlenient : c.lenient = true) (hjulian : c.stamps .julianDay < 2)
    (hread : ∀ f ∈ [.era, .year, .extendedYear, .month, .date], ∀ x, value c f x = fieldsOf c day wall 0 0 f) :
    dayOf c .date = .ok day := by
  obtain ⟨hyear, hmonth, hdate⟩ := date_read hl hu hread
  rw [dayOf, if_neg fun hb => absurd hb.1 (Nat.not_le.2 hjulian), if_neg (by decide), if_pos rfl, hyear, hmonth, hdate]
  dsimp only
  rw [civil_dayCivil hcut, hlenient]
  rfl

end

theorem timeOfDay_read {c : LcCalendar} {day wall : Int} (hw : 0 ≤ wall) (hw' : wall < 86400000)
    (hms : c.stamps .millisecondsInDay < 2)
    (hread : ∀ f ∈ [.hour, .amPm, .hourOfDay, .minute, .second, .millisecond], ∀ x,
      value c f x = fieldsOf c day wall 0 0 f) :
    timeOfDay c = wall := by
  have hhour : (fieldsOf c day wall 0 0 .hourOfDay : Int) = wall / 3600000 := by
    show i32 (wall.tdiv 3600000) = _
    rw [tdiv_eq_ediv_of_nonneg hw, i32_eq (by omega) (by omega)]
  have hmod : (fieldsOf c day wall 0 0 .hour : Int) = wall / 3600000 % 12 := by
    show (fieldsOf c day wall 0 0 .hourOfDay).tmod 12 = _
    rw [hhour, tmod_eq_emod_of_nonneg (by omega)]
  have hdiv : (fieldsOf c day wall 0 0 .amPm : Int) = wall / 3600000 / 12 := by
    show (fieldsOf c day wall 0 0 .hourOfDay).tdiv 12 = _
    rw [hhour, tdiv_eq_ediv_of_nonneg (by omega)]
  have hminute : (fieldsOf c day wall 0 0 .minute : Int) = wall / 60000 % 60 := by
    show i32 ((wall.tdiv 60000).tmod 60) = _
    rw [tdiv_eq_ediv_of_nonneg hw, tmod_eq_emod_of_nonneg (by omega), i32_eq (by omega) (by omega)]
  have hsecond : (fieldsOf c day wall 0 0 .second : Int) = wall / 1000 % 60 := by
    show i32 ((wall.tdiv 1000).tmod 60) = _
    rw [tdiv_eq_ediv_of_nonneg hw, tmod_eq_emod_of_nonneg (by omega), i32_eq (by omega) (by omega)]
  have hmilli : (fieldsOf c day wall 0 0 .millisecond : Int) = wall % 1000 := by
    show i32 (wall.tmod 1000) = _
    rw [tmod_eq_emod_of_nonneg hw, i32_eq (by omega) (by omega)]
  rw [timeOfDay, if_neg fun hb => absurd hb.1 (Nat.not_le.2 hms), hread .hourOfDay (by decide), hread .hour (by decide),
    hread .amPm (by decide), hread .minute (by decide), hread .second (by decide), hread .millisecond (by decide), hhour,
      hmod, hdiv,
    hminute, hsecond, hmilli]
  -- both ways to the hour are the same
  split <;> omega

section
variable {c : LcCalendar} {field : Field} {day wall : Int} (h : Touched c field day wall)
include h

theorem Touched.day_wide : -120000000000 ≤ day ∧ day ≤ 120000000000 := by
  have hl := h.day_low
  have hu := h.day_high
  omega

theorem Touched.value (other : Field) (x : Int) : value c other x = fieldsOf c day wall 0 0 other := by
  rw [Calendar.value, h.fields, h.stamps, stamp_eq, if_pos]
  split <;> decide

theorem Touched.newest_le (fields : List Field) (h₁ : field ∉ fields) : newest c fields ≤ 1 := by
  rw [newest, h.stamps]
  have hfold : ∀ stamp, stamp ≤ 1 →
      fields.foldl (fun stamp f => max stamp (update (fun _ => 1) field 2 f)) stamp ≤ 1 := by
    clear h
    induction fields with
    | nil => exact fun stamp hs => hs
    | cons f fields ih =>
      intro stamp hs
      rw [List.mem_cons, not_or] at h₁
      refine ih h₁.2 _ (Nat.max_le.2 ⟨hs, ?_⟩)
      rw [stamp_eq, if_neg (Ne.symm h₁.1)]
  exact hfold 0 (Nat.zero_le 1)

theorem Touched.stamp_ge (other : Field) : 2 ≤ c.stamps other ↔ other = field := by
  rw [h.stamps, stamp_eq]
  split
  · exact iff_of_true (Nat.le_refl 2) ‹_›
  · exact iff_of_false (by decide) ‹_›

theorem Touched.yearOf {best : Field} (hbest : best ≠ .weekOfYear) :
    yearOf c best = (lcDayCivil day (c.cutover ≤ day)).year :=
  yearOf_read h.day_wide.1 h.day_wide.2 (fun f _ => h.value f) hbest

theorem Touched.dayOf : dayOf c (resolveDate c.stamps) = .ok day := by
  rw [h.stamps, resolveDate_touched field (mem_settable h.mem)]
  by_cases hjulian : .julianDay = field
  · have hnew := h.newest_le dateFields (by rw [← hjulian]; decide)
    have hstamp := (h.stamp_ge .julianDay).2 hjulian
    rw [Calendar.dayOf, if_pos ⟨hstamp, by omega⟩, h.fields]
    dsimp only [fieldsOf]
    rw [i32_eq (by have := h.day_low; omega) (by have := h.day_high; omega)]
  · by_cases hdoy : field = .dayOfYear
    · rw [if_pos hdoy, Calendar.dayOf, if_neg fun hb => hjulian ((h.stamp_ge .julianDay).1 hb.1), if_pos rfl,
        h.yearOf (by decide), h.value]
      obtain ⟨hl, hu⟩ := civil_january c (c.cutover ≤ day) h.day_low h.day_high
      show Except.ok (civil c _ 0 1 + i32 (day - civil c _ 0 1 + 1) - 1) = Except.ok day
      rw [i32_eq (by omega) (by omega)]
      congr 1
      omega
    · rw [if_neg hdoy]
      have hstamp : c.stamps .julianDay < 2 := Nat.not_le.1 fun hb => hjulian ((h.stamp_ge .julianDay).1 hb)
      exact dayOf_read h.day_wide.1 h.day_wide.2 h.cutover h.lenient hstamp fun f _ => h.value f

theorem Touched.timeOfDay : timeOfDay c = wall := by
  by_cases hms : .millisecondsInDay = field
  · have hw := h.wall_low
    have hw' := h.wall_high
    have hnew := h.newest_le [.hour, .amPm, .hourOfDay, .minute, .second, .millisecond] (by rw [← hms]; decide)
    have hstamp := (h.stamp_ge .millisecondsInDay).2 hms
    rw [Calendar.timeOfDay, if_pos ⟨hstamp, by omega⟩, h.fields]
    exact i32_eq (by omega) (by omega)
  · have hstamp : c.stamps .millisecondsInDay < 2 := Nat.not_le.1 fun hb => hms ((h.stamp_ge .millisecondsInDay).1 hb)
    exact timeOfDay_read h.wall_low h.wall_high hstamp fun f _ => h.value f

theorem Touched.wallOf : wallOf day wall = .ok ((day - lcEpochJd) * lcDay + wall) :=
  wallOf_eq h.day_low h.day_high h.wall_low h.wall_high

theorem Touched.computeTime {zone : Option LcZone} (hz : NoCallbacks zone) {m : Int}
    (hm : (day - lcEpochJd) * lcDay + wall = m) (hl : lcMinMs ≤ m) (hu : m ≤ lcMaxMs) :
    computeTime zone c = .ok { c with millis := m, timeValid := true, virtualFields := false } := by
  have hresolve : zone.bind (·.resolve) = none := by
    cases zone with
    | none => rfl
    | some z => exact (hz z rfl).2
  have hmem := mem_settable h.mem
  have hzone : ¬(2 ≤ c.stamps .zoneOffset ∨ 2 ≤ c.stamps .dstOffset) := by
    rw [h.stamp_ge, h.stamp_ge]
    rintro (rfl | rfl)
    · exact absurd hmem (by decide)
    · exact absurd hmem (by decide)
  have hinstant : instantOf c zone m = .ok m := by
    rw [instantOf, if_neg hzone, hresolve]
  have hclamp : clamp c m = .ok m := by
    rw [clamp, if_neg]
    omega
  have hlimits : (!c.lenient && !inLimits c) = false := by
    rw [h.lenient]
    rfl
  have hwall := h.wallOf
  rw [hm] at hwall
  simp only [Calendar.computeTime, hlimits, h.dayOf, h.timeOfDay, hwall, hinstant, hclamp, bind, Except.bind,
    Bool.false_eq_true, if_false]

end

/-! ### Reading and setting -/

section
variable {c : LcCalendar} {zone : Option LcZone} {m : Int} {field : Field}

def atInstant (c : LcCalendar) (m : Int) : LcCalendar :=
  { c with
    millis := m, timeValid := true, fieldsValid := false, virtualFields := true, nextStamp := 2
    fields := fun _ => 0, stamps := fun _ => 0 }

def readOut (c : LcCalendar) (m : Int) : LcCalendar :=
  { c with
    millis := m, timeValid := true, fieldsValid := true, virtualFields := false, nextStamp := 2
    fields := fieldsOf c (m / lcDay + lcEpochJd) (m % lcDay) 0 0, stamps := fun _ => 1 }

theorem lcSetMillis_eq (hl : lcMinMs ≤ m) (hu : m ≤ lcMaxMs) : lcSetMillis c m = .ok (atInstant c m) := by
  have hclamp : clamp c m = .ok m := by
    rw [clamp, if_neg]
    omega
  rw [lcSetMillis, hclamp]
  rfl

theorem computeFields_eq (hz : NoCallbacks zone) (c : LcCalendar) :
    computeFields zone c = .ok { c with
      fields := fieldsOf c (c.millis / lcDay + lcEpochJd) (c.millis % lcDay) 0 0, stamps := fun _ => 1
      fieldsValid := true, virtualFields := false } := by
  have hoffset : zone.bind (·.offset) = none := by
    cases zone with
    | none => rfl
    | some z => exact (hz z rfl).1
  have hpos : (0 : Int) < lcDay := by decide
  have hzone : zoneOffsets zone c.millis = .ok (0, 0) := by
    rw [zoneOffsets, hoffset]
  have hdiv : c.millis % lcDay / lcDay = 0 :=
    ediv_eq_zero_of_lt (emod_nonneg _ (Int.ne_of_gt hpos)) (emod_lt_of_pos _ hpos)
  simp only [computeFields, hzone, bind, Except.bind, lcFloor_eq _ hpos, mod_eq _ hpos, Int.add_zero, hdiv,
    emod_emod_of_dvd _ (Int.dvd_refl lcDay)]

theorem lcGet_eq (hz : NoCallbacks zone) (hok : fieldOk c field) :
    lcGet zone field (atInstant c m) = (.ok ((readOut c m).fields field), readOut c m) := by
  have hok' : fieldOk (atInstant c m) field = true := hok
  have hcomplete : complete zone (atInstant c m) = (.ok (), readOut c m) := by
    rw [complete, lcGetMillis, if_pos (show (atInstant c m).timeValid = true from rfl)]
    dsimp only
    rw [if_neg (show ¬(atInstant c m).fieldsValid = true from Bool.false_ne_true), computeFields_eq hz]
    rfl
  simp only [lcGet, hok', hcomplete, Bool.not_true, Bool.false_eq_true, if_false]

theorem lcSet_eq (hok : fieldOk c field) :
    lcSet zone field ((readOut c m).fields field) (readOut c m) = .ok { readOut c m with
      stamps := update (fun _ => 1) field 2, nextStamp := 3, timeValid := false, fieldsValid := false
      virtualFields := false } := by
  have hok' : fieldOk (readOut c m) field = true := hok
  have hvirtual : (readOut c m).virtualFields = false := rfl
  have hnext : (readOut c m).nextStamp = 2 := rfl
  simp only [lcSet, hok', hvirtual, hnext, bind, Except.bind, Bool.not_true, Bool.false_eq_true, if_false,
    update_eq_self, show ¬(2 = 0xffffffff) by decide]
  rfl

theorem settable_ok (h : field ∈ settable c) : fieldOk c field = true := by
  have hall : ∀ icu : Bool, ∀ f ∈ commonFields ++ (if icu then icuFields else []),
      f ∈ if icu then Field.all else Field.all.take 17 := by decide
  exact decide_eq_true (hall c.icu field h)

/-- The fields determine the instant: any one of them set to what it reads as leaves the instant where it is. -/
theorem fields_determine_instant (c : LcCalendar) (zone : Option LcZone) (m : Int) (field : Field) (hz : NoCallbacks zone)
    (hcut : c.cutover = 2299161) (hlenient : c.lenient = true) (hl : lcMinMs ≤ m) (hu : m ≤ lcMaxMs)
    (hfield : field ∈ settable c) :
    ∃ c₁ c₂ c₃ v, lcSetMillis c m = .ok c₁ ∧ lcGet zone field c₁ = (.ok v, c₂) ∧ lcSet zone field v c₂ = .ok c₃ ∧
      (lcGetMillis zone c₃).1 = .ok m := by
  have hok := settable_ok hfield
  refine ⟨_, _, _, _, lcSetMillis_eq hl hu, lcGet_eq hz hok, lcSet_eq hok, ?_⟩
  have hday : m / lcDay * lcDay + m % lcDay = m := by
    rw [Int.mul_comm]
    exact mul_ediv_add_emod m lcDay
  have hpos : (0 : Int) < lcDay := by decide
  have hdl : -2133147020 ≤ m / lcDay := by
    rw [Int.le_ediv_iff_mul_le hpos]
    exact Int.le_trans (by decide) hl
  have hdu : m / lcDay ≤ 2128265844 := by
    refine Int.ediv_le_of_le_mul hpos (Int.le_trans hu (by decide))
  have htouched : Touched { readOut c m with
      stamps := update (fun _ => 1) field 2, nextStamp := 3, timeValid := false, fieldsValid := false
      virtualFields := false } field (m / lcDay + lcEpochJd) (m % lcDay) := by
    refine ⟨hcut, hlenient, rfl, rfl, hfield, ?_, ?_, emod_nonneg _ (by decide), emod_lt_of_pos _ hpos⟩
    · unfold lcEpochJd
      omega
    · unfold lcEpochJd
      omega
  rw [lcGetMillis, if_neg Bool.false_ne_true,
    htouched.computeTime hz (by rw [Int.add_sub_cancel]; exact hday) hl hu]

end

/-- The last millisecond before the cutover, through the day of the year. -/
theorem fields_determine_cutover : ∃ c₁ c₂ c₃ v, lcSetMillis (lcInit true false 1 1) (-12219292800001) = .ok c₁ ∧
    lcGet none .dayOfYear c₁ = (.ok v, c₂) ∧ lcSet none .dayOfYear v c₂ = .ok c₃ ∧
    (lcGetMillis none c₃).1 = .ok (-12219292800001) :=
  fields_determine_instant (lcInit true false 1 1) none (-12219292800001) .dayOfYear nofun rfl rfl
    (by decide) (by decide) (by decide)

end Lunaria.Dvm.Calendar
