import Lunaria.Dvm.CalendarRoll

/-! Adding and rolling over the integers. What a call ends at is that instant, or the nearest one that the calendar has;
    the days at either end of 64 bits, which are not whole, are left out. -/

namespace Lunaria.Dvm.Calendar
open List

/-! ### Exact results -/

def eraDay (c : LcCalendar) (amount m : Int) : Int :=
  let d := dateOf (dayAt m)
  let year := if 1 ≤ d.year then d.year else 1 - d.year
  let era := (if 1 ≤ d.year then 1 else 0) + amount
  if c.buddhist then dayAt m else civil c (if era ≤ 0 then 1 - year else year) ((d.month : Int) - 1) d.day

/-- The day that an addition to a field of the date leads to. -/
def addedDay (c : LcCalendar) (field : Field) (amount m : Int) : Int :=
  let d := dateOf (dayAt m)
  match field with
  | .era => eraDay c amount m
  | .year => pinned c (if ¬c.buddhist ∧ d.year < 1 then d.year - amount else d.year + amount) ((d.month : Int) - 1) d.day
  | .month => pinned c d.year ((d.month : Int) - 1 + amount) d.day
  | .weekOfYear | .weekOfMonth | .dayOfWeekInMonth => dayAt m + amount * 7
  | _ => dayAt m + amount

def added (c : LcCalendar) (field : Field) (amount m : Int) : Int :=
  if field ∈ timeFields then m + amount * unitMillis field
  else (addedDay c field amount m - lcEpochJd) * lcDay + m % lcDay

def rolled (c : LcCalendar) (field : Field) (amount m : Int) : Int :=
  if field = .month then
    let d := dateOf (dayAt m)
    (pinned c d.year (((d.month : Int) - 1 + amount) % 12) d.day - lcEpochJd) * lcDay + m % lcDay
  else rolledInstant field m amount

/-- In the first day of 64 bits, which is not whole, or after the end of the last one. -/
def AtEdge (x : Int) : Prop :=
  (int64Min ≤ x ∧ x < int64Min.tdiv lcDay * lcDay) ∨ (int64Max < x ∧ x < (int64Max.tdiv lcDay + 1) * lcDay)

/-- An instant, or the nearest one of an ICU calendar. -/
def kept (c : LcCalendar) (x : Int) : Int :=
  if c.icu then (if x < lcMinMs then lcMinMs else if lcMaxMs < x then lcMaxMs else x) else x

/-- Instants that no calendar rejects but a strict one, if it has a range. -/
def Fits (c : LcCalendar) (x : Int) : Prop :=
  int64Min ≤ x ∧ x ≤ int64Max ∧ (c.icu = true → c.lenient = false → lcMinMs ≤ x ∧ x ≤ lcMaxMs)

/-! ### Setting an instant -/

section
variable {c c' : LcCalendar} {x y : Int}

theorem clamp_kept (h : clamp c x = .ok y) : y = kept c x := by
  rw [clamp] at h
  rw [kept]
  by_cases hicu : c.icu = true
  · rw [if_pos hicu]
    split at h
    · split at h
      · cases h
      · cases h
        split
        · rfl
        · rw [if_pos (by omega)]
    · rename_i hin
      cases h
      rw [if_neg fun hlt => hin ⟨hicu, .inl hlt⟩, if_neg fun hlt => hin ⟨hicu, .inr hlt⟩]
  · rw [if_neg hicu]
    rw [if_neg fun hb => hicu hb.1] at h
    exact (Except.ok.inj h).symm

theorem clamp_fits (h : Fits c x) : clamp c x = .ok (kept c x) := by
  obtain ⟨-, -, hstrict⟩ := h
  cases hc : clamp c x with
  | ok y => rw [clamp_kept hc]
  | error err =>
    rw [clamp] at hc
    split at hc
    · rename_i hout
      split at hc
      · rename_i hlenient
        have hin := hstrict hout.1 (by simpa using hlenient)
        omega
      · cases hc
    · cases hc

theorem lcSetMillis_kept (h : lcSetMillis c x = .ok c') : c' = atInstant c (kept c x) := by
  rw [lcSetMillis] at h
  obtain ⟨y, hc, ⟨⟩⟩ := ok_of_bind h
  rw [clamp_kept hc]
  rfl

theorem lcSetMillis_fits (h : Fits c x) : lcSetMillis c x = .ok (atInstant c (kept c x)) := by
  rw [lcSetMillis, clamp_fits h]
  rfl

end

/-- The days that are let through have instants of 64 bits, but for the end of the last one. -/
theorem wall_fits {day tod : Int} (hlow : 0 ≤ tod) (hhigh : tod < lcDay) (hl : int64Min.tdiv lcDay ≤ day - lcEpochJd)
    (hu : day - lcEpochJd ≤ int64Max.tdiv lcDay) : i64 ((day - lcEpochJd) * lcDay) = (day - lcEpochJd) * lcDay ∧
    (¬AtEdge ((day - lcEpochJd) * lcDay + tod) →
      i64 ((day - lcEpochJd) * lcDay + tod) = (day - lcEpochJd) * lcDay + tod) := by
  have hmin64 : int64Min.tdiv lcDay = -106751991167 := by decide
  have hmax64 : int64Max.tdiv lcDay = 106751991167 := by decide
  rw [AtEdge, hmin64, hmax64]
  rw [hmin64] at hl
  rw [hmax64] at hu
  generalize day - lcEpochJd = days at hl hu ⊢
  refine ⟨i64_eq ?_ ?_, fun hedge => i64_eq ?_ ?_⟩
  all_goals
    unfold int64Min int64Max lcDay at *
    omega

section
variable {zone : Option LcZone} (hz : NoCallbacks zone) (c : LcCalendar) {day tod x : Int}
  (hx : (day - lcEpochJd) * lcDay + tod = x) (hlow : 0 ≤ tod) (hhigh : tod < lcDay) (hedge : ¬AtEdge x)
include hz hx hlow hhigh hedge

theorem setWallDay_exact :
    setWallDay zone day tod c = if int64Min ≤ x ∧ x ≤ int64Max then lcSetMillis c x else .error .range := by
  have hresolve : zone.bind (·.resolve) = none := by
    cases zone with
    | none => rfl
    | some z => exact (hz z rfl).2
  have hmin64 : int64Min.tdiv lcDay = -106751991167 := by decide
  have hmax64 : int64Max.tdiv lcDay = 106751991167 := by decide
  have hfits := @wall_fits day tod hlow hhigh
  rw [hx] at hfits
  rw [setWallDay, hx, hresolve]
  by_cases hin : int64Min.tdiv lcDay ≤ day - lcEpochJd ∧ day - lcEpochJd ≤ int64Max.tdiv lcDay
  · have hwall := (hfits hin.1 hin.2).2 hedge
    rw [if_neg (by omega), hwall, if_pos]
    rw [← hwall, i64]
    unfold int64Min int64Max
    rw [Int.bmod_def]
    omega
  · rw [if_pos (by omega), if_neg]
    rw [AtEdge, hmin64, hmax64] at hedge
    rw [hmin64, hmax64] at hin
    unfold int64Min int64Max lcDay at *
    omega

theorem settle_exact {c' : LcCalendar} (h : settle c (setWallDay zone day tod c) = (.ok (), c')) :
    (lcGetMillis zone c').1 = .ok (kept c x) := by
  rw [setWallDay_exact hz c hx hlow hhigh hedge] at h
  split at h
  · cases hs : lcSetMillis c x with
    | error err =>
      rw [hs] at h
      cases h
    | ok c₁ =>
      rw [hs] at h
      obtain rfl := lcSetMillis_kept hs
      cases h
      rfl
  · cases h

theorem settle_fits (hfits : Fits c x) : (settle c (setWallDay zone day tod c)).1 = .ok () := by
  rw [setWallDay_exact hz c hx hlow hhigh hedge, if_pos ⟨hfits.1, hfits.2.1⟩, lcSetMillis_fits hfits]
  rfl

end

/-! ### One field set -/

variable {zone : Option LcZone} {field : Field} {c c' : LcCalendar} {a : Int}

theorem resolveInstant_ok {c : LcCalendar} {y : Int} (h : resolveInstant zone c = .ok y) :
    ∃ day wall x, dayOf c (resolveDate c.stamps) = .ok day ∧ wallOf day (timeOfDay c) = .ok wall ∧
      instantOf c zone wall = .ok x ∧ clamp c x = .ok y := by
  rw [resolveInstant] at h
  split at h
  · cases h
  · obtain ⟨day, hday, h⟩ := ok_of_bind h
    obtain ⟨wall, hwall, h⟩ := ok_of_bind h
    obtain ⟨x, hinstant, h⟩ := ok_of_bind h
    exact ⟨day, wall, x, hday, hwall, hinstant, h⟩

theorem wallOf_ok {day tod wall : Int} (h : wallOf day tod = .ok wall) : wall = (day - lcEpochJd) * lcDay + tod := by
  have hpos : (0 : Int) < lcDay := by decide
  rw [wallOf, lcFloor_eq _ hpos, mod_eq _ hpos] at h
  split at h
  · cases h
  · cases h
    unfold lcDay lcEpochJd
    omega

theorem dayOf_ok {c : LcCalendar} {day : Int} (hjulian : c.stamps .julianDay < 2) (h : dayOf c .date = .ok day) :
    day = civil c (yearOf c .date) (value c .month 0) (value c .date 1) := by
  rw [dayOf, if_neg fun hb => absurd hb.1 (Nat.not_le.2 hjulian), if_neg (by decide), if_pos rfl] at h
  dsimp only at h
  split at h
  · cases h
  · exact (Except.ok.inj h).symm

theorem setAndGet_ok {val : Int}
    (h : setAndGet zone field val c = (.ok (), c')) : ∃ c₁, lcSet zone field val c = .ok c₁ ∧
      ∃ y, lcGetMillis zone c₁ = (.ok y, c') := by
  rw [setAndGet] at h
  cases hs : lcSet zone field val c with
  | error err =>
    rw [hs] at h
    cases h
  | ok c₁ =>
    rw [hs] at h
    dsimp only at h
    cases hg : lcGetMillis zone c₁ with
    | mk r c₂ =>
      rw [hg] at h
      cases r with
      | error err => cases h
      | ok y =>
        obtain rfl := (Prod.mk.inj h).2
        exact ⟨c₁, rfl, y, hg⟩

section
variable {c : LcCalendar} (h : Coherent c) (hread : c.fieldsValid = true) (hdl : -120000000000 ≤ dayAt c.millis)
  (hdu : dayAt c.millis ≤ 120000000000) {zone : Option LcZone} (hz : NoCallbacks zone) {c' : LcCalendar}
include h hread hdl hdu hz

variable {field : Field}

theorem setAndGet_instant {val : Int} (hok : fieldOk c field = true) (hf : field ∈ Field.era :: timeFields)
    (hcall : setAndGet zone field val c = (.ok (), c')) :
    ∃ c₁ n day, FieldSet c₁ field (dayAt c.millis) (c.millis % lcDay) val n ∧ Alike c c₁ ∧
      dayOf c₁ (resolveDate c₁.stamps) = .ok day ∧
      (lcGetMillis zone c').1 = .ok (kept c ((day - lcEpochJd) * lcDay + timeOfDay c₁)) := by
  obtain ⟨c₁, hs, y, hg⟩ := setAndGet_ok hcall
  obtain ⟨c₂, n, hset, hfield, halike, hvalid⟩ := h.set hread hdl hdu zone hok val
  obtain rfl := Except.ok.inj (hset.symm.trans hs)
  obtain ⟨hvalid', hmillis⟩ := lcGetMillis_valid hg
  rw [lcGetMillis, hvalid, if_neg Bool.false_ne_true, computeTime_eq] at hg
  cases hr : resolveInstant zone c₂ with
  | error err =>
    rw [hr] at hg
    cases hg
  | ok x =>
    rw [hr] at hg
    obtain ⟨day, wall, inst, hday, hwall, hinst, hclamp⟩ := resolveInstant_ok hr
    have hy : x = y := Except.ok.inj (Prod.mk.inj hg).1
    rw [hfield.instantOf (ne_of_mem_of_not_mem hf (by decide)).symm (ne_of_mem_of_not_mem hf (by decide)).symm hz] at hinst
    have hkept : kept c₂ inst = kept c inst := by
      rw [kept, kept, halike.icu]
    refine ⟨c₂, n, day, hfield, halike, hday, ?_⟩
    rw [lcGetMillis, if_pos hvalid', hmillis, ← hy, clamp_kept hclamp, hkept, ← Except.ok.inj hinst, wallOf_ok hwall]

theorem setAndGet_time (hf : field ∈ timeFields)
    (hcall : setAndGet zone field (i32 (mod (c.fields field + a) (cycleLength field))) c = (.ok (), c')) :
    (lcGetMillis zone c').1 = .ok (kept c (rolledInstant field c.millis a)) := by
  obtain ⟨-, -, -, hfields⟩ := h.read hread
  obtain ⟨htl, hth⟩ := tod_bounds c.millis
  obtain ⟨hv, hv'⟩ := @rollTod_value field hf (c.millis % lcDay) a
  obtain ⟨hpos, hlen⟩ := cycleLength_pos hf
  rw [hfields, instantFields, fieldsOf_time hf htl hth, mod_eq _ hpos, i32_eq (by omega) (by omega)] at hcall
  obtain ⟨c₁, n, day, hset, halike, hday, hget⟩ := setAndGet_instant h hread hdl hdu hz
    (cyclic_ok (mem_append_right _ hf) c) (mem_cons_of_mem _ hf) hcall
  obtain ⟨hbest, hjulian, hvalues⟩ := hset.date_read hf
  obtain ⟨hyear, hmonth, hdate⟩ := date_read hdl hdu hvalues
  rw [hbest] at hday
  have hd := dayOf_ok hjulian hday
  rw [hyear, hmonth, hdate, civil_dayCivil hset.cutover] at hd
  rw [hget, hset.timeOfDay hf, hd, rolledInstant_time hf, rollTod]

/-- The same date in an era. -/
theorem setAndGet_era
    (hcall : setAndGet zone .era
      (if c.fields .era + a < 0 then 0 else if 1 < c.fields .era + a then 1 else c.fields .era + a) c = (.ok (), c')) :
    (lcGetMillis zone c').1 = .ok (kept c ((eraDay c a c.millis - lcEpochJd) * lcDay + c.millis % lcDay)) := by
  obtain ⟨-, -, -, hfields⟩ := h.read hread
  obtain ⟨htl, hth⟩ := tod_bounds c.millis
  obtain ⟨hyl, hyu⟩ := year_bounds (c.cutover ≤ dayAt c.millis) hdl hdu
  obtain ⟨hml, hmh, hnl, hnh⟩ := date_bounds (dayAt c.millis) (c.cutover ≤ dayAt c.millis)
  have hok : ∀ icu : Bool, Field.era ∈ if icu then Field.all else Field.all.take 17 := by decide
  obtain ⟨c₁, n, day, hset, halike, hday, hget⟩ := setAndGet_instant h hread hdl hdu hz (decide_eq_true (hok c.icu))
    mem_cons_self hcall
  have hera :
      c.fields .era = if c.buddhist then 0 else if 1 ≤ (lcDayCivil (dayAt c.millis)
        (c.cutover ≤ dayAt c.millis)).year then 1
      else 0 := by
    rw [hfields]
    rfl
  have hbest : resolveDate c₁.stamps = .date := by
    rw [hset.stamps]
    rfl
  have hvalues : ∀ f, f ≠ .era → ∀ x, value c₁ f x = fieldsOf c (dayAt c.millis) (c.millis % lcDay) 0 0 f := by
    intro f hne x
    rw [hset.value, if_neg hne, halike.fieldsOf]
  have hstamp : ∀ f, f ≠ .era → c₁.stamps f = 1 := fun f hne => by rw [hset.stamp, if_neg hne]
  have htod : timeOfDay c₁ = c.millis % lcDay := by
    refine @timeOfDay_read c₁ (dayAt c.millis) _ htl hth (by rw [hstamp _ (by decide)]; decide) fun f hmem x => ?_
    rw [hvalues f (ne_of_mem_of_not_mem hmem (by decide)), halike.fieldsOf]
  rw [hbest] at hday
  have hjulian : c₁.stamps .julianDay < 2 := by
    rw [hstamp _ (by decide)]
    decide
  have hmonth : value c₁ .month 0 = (dateOf (dayAt c.millis)).month - 1 := by
    rw [hvalues .month (by decide), ← dateOf_eq h.cutover]
    show i32 ((lcDayCivil (dayAt c.millis) (c.cutover ≤ dayAt c.millis)).month : Int) - 1 = _
    rw [i32_eq (by omega) (by omega)]
  have hdate : value c₁ .date 1 = (dateOf (dayAt c.millis)).day := by
    rw [hvalues .date (by decide), ← dateOf_eq h.cutover]
    exact i32_eq (by omega) (by omega)
  have hyear : yearOf c₁ .date = if c.buddhist then (dateOf (dayAt c.millis)).year
      else if (if 1 ≤ (dateOf (dayAt c.millis)).year then 1 else 0) + a ≤ 0 then
        1 - (if 1 ≤ (dateOf (dayAt c.millis)).year then (dateOf (dayAt c.millis)).year else 1 - (dateOf
          (dayAt c.millis)).year)
      else if 1 ≤ (dateOf (dayAt c.millis)).year then (dateOf (dayAt c.millis)).year else 1 - (dateOf
        (dayAt c.millis)).year := by
    have hread : ∀ x, value c₁ .year x = i32 (if c.buddhist then (dateOf (dayAt c.millis)).year + 543
        else if 1 ≤ (dateOf (dayAt c.millis)).year then (dateOf (dayAt c.millis)).year
        else 1 - (dateOf (dayAt c.millis)).year) := by
      intro x
      rw [hvalues .year (by decide), ← dateOf_eq h.cutover]
      rfl
    rw [dateOf_eq h.cutover] at hera hyl hyu
    generalize (dateOf (dayAt c.millis)).year = year at hread hera hyl hyu ⊢
    rw [yearOf, if_neg fun hb => absurd hb.1 (by decide), hstamp .year (by decide), hstamp .extendedYear (by decide),
      if_neg (Nat.lt_irrefl 1), halike.buddhist, hread, hset.value, if_pos rfl, hera]
    by_cases hb : c.buddhist = true
    · rw [if_pos hb, if_pos hb, if_pos hb, i32_eq (by omega) (by omega)]
      omega
    · rw [if_neg hb, if_neg hb, if_neg hb, if_neg hb]
      by_cases hpos : 1 ≤ year
      · rw [if_pos hpos, if_pos hpos, i32_eq (by omega) (by omega)]
        split <;> split <;> omega
      · rw [if_neg hpos, if_neg hpos, i32_eq (by omega) (by omega)]
        split <;> split <;> omega
  have hcivil : ∀ year month date, civil c₁ year month date = civil c year month date := fun year month date => by
    rw [civil, civil, halike.cutover]
  have hback := civil_dayCivil h.cutover (dayAt c.millis)
  rw [dateOf_eq h.cutover] at hback
  rw [hget, htod, dayOf_ok hjulian hday, hmonth, hdate, hcivil, hyear, eraDay]
  by_cases hb : c.buddhist = true
  · rw [if_pos hb, if_pos hb, hback]
  · rw [if_neg hb, if_neg hb]

end

/-! ### The calls -/

/-- The fields that are added to by days, weeks, months or years. -/
def dayFields : List Field :=
  [.year, .month, .weekOfYear, .weekOfMonth, .date, .dayOfYear, .dayOfWeek, .dayOfWeekInMonth]

section
variable {c c₁ : LcCalendar} (h : Alike c c₁)
include h

theorem Alike.civil (year month day : Int) : Calendar.civil c₁ year month day = Calendar.civil c year month day := by
  rw [Calendar.civil, Calendar.civil, h.cutover]

theorem Alike.pinned (year month date : Int) : Calendar.pinned c₁ year month date = Calendar.pinned c year month date := by
  rw [Calendar.pinned, Calendar.pinned, monthLength, monthLength, h.civil, h.cutover]

theorem Alike.added (field : Field) (amount m : Int) :
    Calendar.added c₁ field amount m = Calendar.added c field amount m := by
  have hera : eraDay c₁ amount m = eraDay c amount m := by
    simp only [eraDay, h.civil, h.buddhist]
  simp only [Calendar.added, addedDay, hera, h.pinned, h.buddhist]

theorem Alike.rolled (field : Field) (amount m : Int) :
    Calendar.rolled c₁ field amount m = Calendar.rolled c field amount m := by
  simp only [Calendar.rolled, h.pinned]

theorem Alike.kept (x : Int) : Calendar.kept c₁ x = Calendar.kept c x := by
  rw [Calendar.kept, Calendar.kept, h.icu]

theorem Alike.fits {x : Int} (hfits : Fits c x) : Fits c₁ x := by
  rw [Fits, h.icu, h.lenient]
  exact hfits

end

theorem lcAdd_time {c₀ c : LcCalendar} (hc : complete zone c₀ = (.ok (), c)) (ha : a ≠ 0)
    (hf : field ∈ timeFields) : lcAdd zone field a c₀ =
    if (0 < a * unitMillis field ∧ int64Max - a * unitMillis field < c.millis) ∨
      (a * unitMillis field < 0 ∧ c.millis < int64Min - a * unitMillis field) then (.error .range, c)
    else settle c (lcSetMillis c (c.millis + a * unitMillis field)) := by
  have hok : ∀ icu : Bool, ∀ f ∈ timeFields, (f ∈ if icu then Field.all else Field.all.take 17) ∧ f ∈ addable := by decide
  obtain ⟨hvalid, hadd⟩ := hok c₀.icu field hf
  have hpass : ¬((!fieldOk c₀ field || decide (field ∉ addable)) = true) := by
    rw [show fieldOk c₀ field = true from decide_eq_true hvalid, decide_eq_false (not_not_intro hadd)]
    decide
  rw [lcAdd, if_neg hpass, if_neg ha, hc]
  dsimp only
  simp only [timeFields, mem_cons, not_mem_nil, or_false] at hf
  rcases hf with rfl | rfl | rfl | rfl | rfl | rfl <;> rfl

section
variable {c : LcCalendar} (h : Coherent c) (hread : c.fieldsValid = true) (hdl : -120000000000 ≤ dayAt c.millis)
  (hdu : dayAt c.millis ≤ 120000000000) {zone : Option LcZone} {c₀ : LcCalendar} (hc : complete zone c₀ = (.ok (), c)) {a : Int}
  (ha : a ≠ 0)
include h hread hdl hdu hc ha

theorem Coherent.addDays {field : Field} (hf : field ∈ dayFields) :
    lcAdd zone field a c₀ = settle c (setWallDay zone (addedDay c field a c.millis) (c.millis % lcDay) c) := by
  obtain ⟨-, -, -, hfields⟩ := h.read hread
  obtain ⟨hyear, hmonth, hdate, htod⟩ := h.date hread hdl hdu
  have hback := civil_dayCivil h.cutover (dayAt c.millis)
  have hera :
      c.fields .era = if c.buddhist then 0 else if 1 ≤ (lcDayCivil (dayAt c.millis)
        (c.cutover ≤ dayAt c.millis)).year then 1
      else 0 := by
    rw [hfields]
    rfl
  rw [dateOf_eq h.cutover] at hback hera
  have hok : ∀ icu : Bool, ∀ f ∈ dayFields, (f ∈ if icu then Field.all else Field.all.take 17) ∧ f ∈ addable := by decide
  obtain ⟨hvalid, hadd⟩ := hok c₀.icu field hf
  have hpass : ¬((!fieldOk c₀ field || decide (field ∉ addable)) = true) := by
    rw [show fieldOk c₀ field = true from decide_eq_true hvalid, decide_eq_false (not_not_intro hadd)]
    decide
  rw [lcAdd, if_neg hpass, if_neg ha, hc]
  dsimp only
  simp only [dayFields, mem_cons, not_mem_nil, or_false] at hf
  rcases hf with rfl | rfl | rfl | rfl | rfl | rfl | rfl | rfl
  · have hbefore : (!c.buddhist) = true ∧ c.fields .era = 0 ↔ ¬c.buddhist = true ∧ (dateOf (dayAt c.millis)).year < 1 := by
      rw [hera]
      by_cases hb : c.buddhist = true
      · simp only [hb, Bool.not_true, Bool.false_eq_true, false_and, not_true_eq_false]
      · by_cases hpos : 1 ≤ (dateOf (dayAt c.millis)).year
        · simp [hb, hpos]
        · simp [hb, hpos]
          omega
    simp only [hyear, hmonth, hdate, htod, hbefore]
    rfl
  all_goals
    simp only [hyear, hmonth, hdate, htod, hback]
    rfl

theorem Coherent.rollMonth : lcRoll zone .month a c₀ = settle c (setWallDay zone
    (Calendar.pinned c (dateOf (dayAt c.millis)).year (((dateOf (dayAt c.millis)).month - 1 + a) % 12)
    (dateOf (dayAt c.millis)).day)
    (c.millis % lcDay) c) := by
  obtain ⟨hyear, hmonth, hdate, htod⟩ := h.date hread hdl hdu
  have hok : ∀ icu : Bool, Field.month ∈ if icu then Field.all else Field.all.take 17 := by decide
  rw [lcRoll, show fieldOk c₀ .month = true from decide_eq_true (hok c₀.icu), Bool.not_true, if_neg Bool.false_ne_true,
    if_neg ha, hc]
  dsimp only
  rw [hyear, hmonth, hdate, htod, mod_eq _ (by decide)]

end

theorem dayAt_wide {m : Int} (hl : int64Min ≤ m) (hu : m ≤ int64Max) :
    -120000000000 ≤ dayAt m ∧ dayAt m ≤ 120000000000 := by
  unfold int64Min at hl
  unfold int64Max at hu
  unfold dayAt lcEpochJd lcDay
  omega

theorem addable_cases : ∀ f ∈ addable, f ∈ dayFields ∨ f = .era ∨ f ∈ timeFields := by
  decide

theorem dayFields_not_time : ∀ f ∈ Field.era :: dayFields, f ∉ timeFields := by
  decide

theorem added_days (c : LcCalendar) (hf : field ∈ Field.era :: dayFields) (amount m : Int) :
    added c field amount m = (addedDay c field amount m - lcEpochJd) * lcDay + m % lcDay := by
  rw [added, if_neg (dayFields_not_time field hf)]

theorem rolled_cyclic (c : LcCalendar) (hf : field ∈ cyclic) (amount m : Int) :
    rolled c field amount m = rolledInstant field m amount := by
  have hmonth : field ≠ .month := ne_of_mem_of_not_mem hf (by decide)
  rw [rolled, if_neg hmonth]

section
variable {c : LcCalendar} (h : Coherent c) {zone : Option LcZone} (hz : NoCallbacks zone) {m : Int}
  (hm : (lcGetMillis zone c).1 = .ok m) (hl : int64Min ≤ m) (hu : m ≤ int64Max) {a : Int} (ha : a ≠ 0)
include h hz hm hl hu ha

variable {field : Field} {c' : LcCalendar}

theorem lcAdd_exact (hcall : lcAdd zone field a c = (.ok (), c'))
    (hedge : ¬AtEdge (added c field a m)) : (lcGetMillis zone c').1 = .ok (kept c (added c field a m)) := by
  obtain ⟨c₁, hc₁, hcoherent, halike, hread, rfl⟩ := complete_instant h hz hm
  obtain ⟨hdl, hdu⟩ := dayAt_wide hl hu
  obtain ⟨htl, hth⟩ := tod_bounds c₁.millis
  have hadd : field ∈ addable := by
    by_contra hno
    rw [lcAdd, if_pos (by simp [hno])] at hcall
    cases hcall
  rw [← halike.added] at hedge ⊢
  rw [← halike.kept]
  rcases addable_cases field hadd with hf | rfl | hf
  · rw [added_days c₁ (mem_cons_of_mem _ hf)] at hedge ⊢
    rw [hcoherent.addDays hread hdl hdu hc₁ ha hf] at hcall
    exact settle_exact hz c₁ rfl htl hth hedge hcall
  · have hera : lcAdd zone .era a c = setAndGet zone .era
        (if c₁.fields .era + a < 0 then 0 else if 1 < c₁.fields .era + a then 1 else c₁.fields .era + a) c₁ := by
      have hok : ∀ icu : Bool, Field.era ∈ if icu then Field.all else Field.all.take 17 := by decide
      have hpass : ¬((!fieldOk c .era || decide (Field.era ∉ addable)) = true) := by
        rw [show fieldOk c .era = true from decide_eq_true (hok c.icu)]
        decide
      rw [lcAdd, if_neg hpass, if_neg ha, hc₁]
    rw [hera] at hcall
    rw [added_days c₁ mem_cons_self]
    exact setAndGet_era hcoherent hread hdl hdu hz hcall
  · rw [lcAdd_time hc₁ ha hf] at hcall
    rw [added, if_pos hf]
    split at hcall
    · cases hcall
    · cases hs : lcSetMillis c₁ (c₁.millis + a * unitMillis field) with
      | error err =>
        rw [hs] at hcall
        cases hcall
      | ok c₂ =>
        rw [hs] at hcall
        obtain rfl := lcSetMillis_kept hs
        cases hcall
        rfl

theorem lcRoll_exact (hcall : lcRoll zone field a c = (.ok (), c'))
    (hedge : ¬AtEdge (rolled c field a m)) : (lcGetMillis zone c').1 = .ok (kept c (rolled c field a m)) := by
  obtain ⟨c₁, hc₁, hcoherent, halike, hread, rfl⟩ := complete_instant h hz hm
  obtain ⟨hdl, hdu⟩ := dayAt_wide hl hu
  obtain ⟨htl, hth⟩ := tod_bounds c₁.millis
  rw [← halike.rolled] at hedge ⊢
  rw [← halike.kept]
  by_cases hmonth : field = .month
  · subst hmonth
    rw [hcoherent.rollMonth hread hdl hdu hc₁ ha] at hcall
    exact settle_exact hz c₁ rfl htl hth hedge hcall
  · by_cases hf : field ∈ cyclic
    · rw [rolled_cyclic c₁ hf] at hedge ⊢
      rcases cyclic_cases hf with ⟨yearly, rfl⟩ | ht
      · rw [hcoherent.rollDays hread hdl hdu hc₁ yearly ha] at hcall
        rw [rolledInstant_days] at hedge ⊢
        exact settle_exact hz c₁ rfl htl hth hedge hcall
      · refine setAndGet_time hcoherent hread hdl hdu hz ht ?_
        rw [lcRoll, cyclic_ok hf c, Bool.not_true, if_neg Bool.false_ne_true, if_neg ha, hc₁] at hcall
        dsimp only at hcall
        simp only [timeFields, mem_cons, not_mem_nil, or_false] at ht
        rcases ht with rfl | rfl | rfl | rfl | rfl | rfl <;> exact hcall
    · rw [lcRoll, if_neg ha, hc₁] at hcall
      split at hcall
      · cases hcall
      · dsimp only at hcall
        cases field with
        | month => exact (hmonth rfl).elim
        | date | dayOfYear | amPm | hour | hourOfDay | minute | second | millisecond => exact (hf (by decide)).elim
        | _ => cases hcall

theorem lcAdd_fits (hf : field ∈ dayFields) (hedge : ¬AtEdge (added c field a m))
    (hfits : Fits c (added c field a m)) : (lcAdd zone field a c).1 = .ok () := by
  obtain ⟨c₁, hc₁, hcoherent, halike, hread, rfl⟩ := complete_instant h hz hm
  obtain ⟨hdl, hdu⟩ := dayAt_wide hl hu
  obtain ⟨htl, hth⟩ := tod_bounds c₁.millis
  rw [← halike.added, added_days c₁ (mem_cons_of_mem _ hf)] at hedge hfits
  rw [hcoherent.addDays hread hdl hdu hc₁ ha hf]
  exact settle_fits hz c₁ rfl htl hth hedge (halike.fits hfits)

end

theorem call_error (ha : a ≠ 0)
    (hcall : lcAdd zone field a c = (.ok (), c') ∨ lcRoll zone field a c = (.ok (), c')) :
      ∃ m, (lcGetMillis zone c).1 = .ok m := by
  cases hg : lcGetMillis zone c with
  | mk r c₁ =>
    cases r with
    | ok m => exact ⟨m, rfl⟩
    | error err =>
      have hc : complete zone c = (.error err, c₁) := by
        rw [complete, hg]
      rcases hcall with hcall | hcall
      · rw [lcAdd, if_neg ha, hc] at hcall
        split at hcall <;> cases hcall
      · rw [lcRoll, if_neg ha, hc] at hcall
        split at hcall <;> cases hcall

/-- A call that does not fail does nothing, if there is nothing to add, or ends at the exact result, or the instant
    nearest to it that the calendar has, unless that is at an edge of 64 bits. What fits is not rejected where days,
    weeks, months or years are added, and the days that are let through have instants of 64 bits. -/
theorem arithmetic_exact {c : LcCalendar} (hreached : Reached c) {zone : Option LcZone} (hz : NoCallbacks zone)
    (h64 : ∀ m, (lcGetMillis zone c).1 = .ok m → int64Min ≤ m ∧ m ≤ int64Max) (field : Field) (a : Int) :
    (∀ c', lcAdd zone field a c = (.ok (), c') → (a = 0 ∧ c' = c) ∨ ∃ m, (lcGetMillis zone c).1 = .ok m ∧
      (¬AtEdge (added c field a m) → (lcGetMillis zone c').1 = .ok (kept c (added c field a m)))) ∧
    (∀ c', lcRoll zone field a c = (.ok (), c') → (a = 0 ∧ c' = c) ∨ ∃ m, (lcGetMillis zone c).1 = .ok m ∧
      (¬AtEdge (rolled c field a m) → (lcGetMillis zone c').1 = .ok (kept c (rolled c field a m)))) ∧
    (∀ m, (lcGetMillis zone c).1 = .ok m → field ∈ dayFields → a ≠ 0 → Fits c (added c field a m) →
      ¬AtEdge (added c field a m) → (lcAdd zone field a c).1 = .ok ()) ∧
    ∀ day tod, 0 ≤ tod → tod < lcDay → int64Min.tdiv lcDay ≤ day - lcEpochJd → day - lcEpochJd ≤ int64Max.tdiv lcDay →
      i64 ((day - lcEpochJd) * lcDay) = (day - lcEpochJd) * lcDay ∧
      (¬AtEdge ((day - lcEpochJd) * lcDay + tod) →
        i64 ((day - lcEpochJd) * lcDay + tod) = (day - lcEpochJd) * lcDay + tod) := by
  have h := hreached.coherent
  refine ⟨fun c' hcall => ?_, fun c' hcall => ?_, fun m hm hf ha hfits hedge => ?_, fun day tod hlow hhigh hl hu => ?_⟩
  · by_cases ha : a = 0
    · refine .inl ⟨ha, ?_⟩
      rw [lcAdd, if_pos ha] at hcall
      split at hcall
      · cases hcall
      · exact (Prod.mk.inj hcall).2.symm
    · obtain ⟨m, hm⟩ := call_error ha (.inl hcall)
      obtain ⟨hl, hu⟩ := h64 m hm
      exact .inr ⟨m, hm, lcAdd_exact h hz hm hl hu ha hcall⟩
  · by_cases ha : a = 0
    · refine .inl ⟨ha, ?_⟩
      rw [lcRoll, if_pos ha] at hcall
      split at hcall
      · cases hcall
      · exact (Prod.mk.inj hcall).2.symm
    · obtain ⟨m, hm⟩ := call_error ha (.inr hcall)
      obtain ⟨hl, hu⟩ := h64 m hm
      exact .inr ⟨m, hm, lcRoll_exact h hz hm hl hu ha hcall⟩
  · obtain ⟨hl, hu⟩ := h64 m hm
    exact lcAdd_fits h hz hm hl hu ha hf hedge hfits
  · exact wall_fits hlow hhigh hl hu

/-- A java calendar goes on after the end of the range of the ICU calendars. -/
theorem arithmetic_exact_day :
    (lcAdd none .date 1 (CalendarCall.run (lcInit false false 1 1) (.setMillis lcMaxMs))).1 = .ok () := by
  have hz : NoCallbacks none := fun _ hzone => (nomatch hzone)
  have hreached : Reached (CalendarCall.run (lcInit false false 1 1) (.setMillis lcMaxMs)) :=
    (Reached.init false false 1 1).call (.setMillis lcMaxMs) hz
  have hget : (lcGetMillis none (CalendarCall.run (lcInit false false 1 1) (.setMillis lcMaxMs))).1 = .ok lcMaxMs := rfl
  have hadded :
      added (CalendarCall.run (lcInit false false 1 1) (.setMillis lcMaxMs)) .date 1 lcMaxMs = lcMaxMs + lcDay := by
    decide
  refine (arithmetic_exact hreached hz (fun m hm => ?_) .date 1).2.2.1 lcMaxMs hget (by decide) (by decide) ?_ ?_
  · cases hget.symm.trans hm
    decide
  · rw [hadded]
    exact ⟨by decide, by decide, fun hicu => (nomatch hicu)⟩
  · rw [hadded, AtEdge]
    decide

/-- A lenient ICU calendar stays at the end of its range, and the call succeeds. -/
theorem add_clamped : ¬∀ (c c' : LcCalendar) (zone : Option LcZone) (field : Field) (a m : Int), Reached c →
    NoCallbacks zone →
    (lcGetMillis zone c).1 = .ok m → lcAdd zone field a c = (.ok (), c') →
    (lcGetMillis zone c').1 = .ok (added c field a m) := by
  intro hall
  have hz : NoCallbacks none := fun _ hzone => (nomatch hzone)
  have hreached : Reached (CalendarCall.run (lcInit true false 1 1) (.setMillis lcMaxMs)) :=
    (Reached.init true false 1 1).call (.setMillis lcMaxMs) hz
  have hget : (lcGetMillis none (CalendarCall.run (lcInit true false 1 1) (.setMillis lcMaxMs))).1 = .ok lcMaxMs := rfl
  generalize hc : CalendarCall.run (lcInit true false 1 1) (.setMillis lcMaxMs) = c at hreached hget
  have hadded : added c .date 1 lcMaxMs = lcMaxMs + lcDay := by
    rw [← hc]
    decide
  have hkept : kept c (lcMaxMs + lcDay) = lcMaxMs := by
    rw [← hc]
    decide
  have hfits : Fits c (lcMaxMs + lcDay) := by
    rw [← hc]
    exact ⟨by decide, by decide, fun _ hlenient => (nomatch hlenient)⟩
  have hedge : ¬AtEdge (lcMaxMs + lcDay) := by
    rw [AtEdge]
    decide
  rw [← hadded] at hkept hfits hedge
  have hok := lcAdd_fits hreached.coherent hz hget (by decide) (by decide) (show (1 : Int) ≠ 0 by decide)
    (show Field.date ∈ dayFields by decide) hedge hfits
  have hcall : lcAdd none .date 1 c = (.ok (), (lcAdd none .date 1 c).2) := Prod.ext hok rfl
  have hexact := lcAdd_exact hreached.coherent hz hget (by decide) (by decide) (by decide) hcall hedge
  have hsays := hall c _ none .date 1 lcMaxMs hreached hz hget hcall
  have hsame := Except.ok.inj (hexact.symm.trans hsays)
  rw [hkept, hadded] at hsame
  cases hsame

end Lunaria.Dvm.Calendar
