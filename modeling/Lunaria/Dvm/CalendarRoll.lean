import Lunaria.Dvm.CalendarRound
import Lunaria.Dvm.CalendarStamps
import Lunaria.Dvm.CalendarCycle

/-! Rolling a field goes around in a cycle: the days of a month or of a year, or the values of a field of the time of day.
    A field of the time is set, and the instant worked out from all fields, of which only that one is new. -/

namespace Lunaria.Dvm.Calendar
open List Function Int

/-! ### Times of day -/

def timeFields : List Field := [.hour, .hourOfDay, .amPm, .minute, .second, .millisecond]

theorem timeFields_cases {f : Field} (h : f ∈ timeFields) :
    f = .hour ∨ f = .hourOfDay ∨ f = .amPm ∨ f = .minute ∨ f = .second ∨ f = .millisecond := by
  simpa only [timeFields, mem_cons, not_mem_nil, or_false] using h

def timeDigit (field : Field) (tod : Int) : Int := tod / unitMillis field % cycleLength field

def rollTod (field : Field) (tod a : Int) : Int :=
  tod + ((timeDigit field tod + a) % cycleLength field - timeDigit field tod) * unitMillis field

section
attribute [local simp] timeFields timeDigit unitMillis cycleLength

variable {field : Field} (hfield : field ∈ timeFields) {tod : Int} (hlow : 0 ≤ tod) (hhigh : tod < 86400000)
include hfield

theorem timeDigit_set {v : Int} (hv : 0 ≤ v) (hv' : v < cycleLength field) :
    timeDigit field (tod + (v - timeDigit field tod) * unitMillis field) = v := by
  rcases timeFields_cases hfield with rfl | rfl | rfl | rfl | rfl | rfl <;>
    simp only [timeDigit, unitMillis, cycleLength] at * <;> omega

theorem timeDigit_bounds : 0 ≤ timeDigit field tod ∧ timeDigit field tod < cycleLength field := by
  rcases timeFields_cases hfield with rfl | rfl | rfl | rfl | rfl | rfl <;>
    simp only [timeDigit, unitMillis, cycleLength] <;> omega

include hlow hhigh in
theorem setTod_bounds {v : Int} (hv : 0 ≤ v) (hv' : v < cycleLength field) :
    0 ≤ tod + (v - timeDigit field tod) * unitMillis field ∧
      tod + (v - timeDigit field tod) * unitMillis field < 86400000 := by
  rcases timeFields_cases hfield with rfl | rfl | rfl | rfl | rfl | rfl <;>
    simp only [timeDigit, unitMillis, cycleLength] at * <;> omega

theorem cycleLength_pos : 0 < cycleLength field ∧ cycleLength field ≤ 1000 := by
  rcases timeFields_cases hfield with rfl | rfl | rfl | rfl | rfl | rfl <;> decide

theorem rollTod_value (a : Int) :
    0 ≤ (timeDigit field tod + a) % cycleLength field ∧
      (timeDigit field tod + a) % cycleLength field < cycleLength field := by
  obtain ⟨hpos, -⟩ := cycleLength_pos hfield
  exact ⟨emod_nonneg _ (Int.ne_of_gt hpos), emod_lt_of_pos _ hpos⟩

theorem rollTod_add (a b : Int) : rollTod field (rollTod field tod a) b = rollTod field tod (a + b) := by
  obtain ⟨hv, hv'⟩ := @rollTod_value field hfield tod a
  have hdigit : timeDigit field (rollTod field tod a) = (timeDigit field tod + a) % cycleLength field :=
    timeDigit_set hfield hv hv'
  rw [rollTod, hdigit, emod_add_emod, rollTod, rollTod, ← Int.add_assoc, Int.add_assoc, ← Int.add_mul]
  congr 2
  omega

theorem rollTod_cycle (k : Int) : rollTod field tod (k * cycleLength field) = tod := by
  obtain ⟨hlow, hhigh⟩ := @timeDigit_bounds field hfield tod
  rw [rollTod, add_mul_emod_self_right, emod_eq_of_lt hlow hhigh, Int.sub_self, Int.zero_mul, Int.add_zero]

include hlow hhigh in
theorem rollTod_bounds (a : Int) : 0 ≤ rollTod field tod a ∧ rollTod field tod a < 86400000 := by
  obtain ⟨hv, hv'⟩ := @rollTod_value field hfield tod a
  exact setTod_bounds hfield hlow hhigh hv hv'

include hlow hhigh in
theorem fieldsOf_time (c : LcCalendar) (day : Int) : fieldsOf c day tod 0 0 field = timeDigit field tod := by
  have hhour : i32 (tod.tdiv 3600000) = tod / 3600000 := by
    rw [tdiv_eq_ediv_of_nonneg hlow, i32_eq (by omega) (by omega)]
  rcases timeFields_cases hfield with rfl | rfl | rfl | rfl | rfl | rfl
  · show (i32 (tod.tdiv 3600000)).tmod 12 = tod / 3600000 % 12
    rw [hhour, tmod_eq_emod_of_nonneg (by omega)]
  · show i32 (tod.tdiv 3600000) = tod / 3600000 % 24
    omega
  · show (i32 (tod.tdiv 3600000)).tdiv 12 = tod / 43200000 % 2
    rw [hhour, tdiv_eq_ediv_of_nonneg (by omega)]
    omega
  · show i32 ((tod.tdiv 60000).tmod 60) = tod / 60000 % 60
    rw [tdiv_eq_ediv_of_nonneg hlow, tmod_eq_emod_of_nonneg (by omega), i32_eq (by omega) (by omega)]
  · show i32 ((tod.tdiv 1000).tmod 60) = tod / 1000 % 60
    rw [tdiv_eq_ediv_of_nonneg hlow, tmod_eq_emod_of_nonneg (by omega), i32_eq (by omega) (by omega)]
  · show i32 (tod.tmod 1000) = tod / 1 % 1000
    rw [tmod_eq_emod_of_nonneg hlow, i32_eq (by omega) (by omega)]
    omega

end

/-! ### Setting a field of the time -/

/-- All fields read from a day and a time of day, and one of them set to something else. -/
structure FieldSet (c : LcCalendar) (field : Field) (day tod v : Int) (n : Nat) : Prop where
  cutover : c.cutover = 2299161
  fields : c.fields = update (fieldsOf c day tod 0 0) field v
  stamps : c.stamps = update (fun _ => 1) field n
  set : 2 ≤ n
  day_low : -120000000000 ≤ day
  day_high : day ≤ 120000000000
  tod_low : 0 ≤ tod
  tod_high : tod < 86400000

variable {field : Field} {c : LcCalendar}

theorem resolveDate_time (h : field ∈ timeFields) (n : Nat) :
    resolveDate (update (fun _ => 1) field n) = .date := by
  rcases timeFields_cases h with rfl | rfl | rfl | rfl | rfl | rfl <;> rfl

theorem date_not_time : ∀ f ∈ [Field.era, .year, .extendedYear, .month, .date, .julianDay], f ∉ timeFields := by
  decide

section
variable {c : LcCalendar} {field : Field} {day tod v : Int} {n : Nat} (h : FieldSet c field day tod v n)
include h

theorem FieldSet.stamp (other : Field) : c.stamps other = if other = field then n else 1 := by
  rw [h.stamps, update_apply]

theorem FieldSet.value (other : Field) (x : Int) :
    value c other x = if other = field then v else fieldsOf c day tod 0 0 other := by
  have hset := h.set
  rw [Calendar.value, h.stamp, h.fields, update_apply, if_pos]
  split <;> omega

theorem FieldSet.instantOf (hraw : .zoneOffset ≠ field) (hdst : .dstOffset ≠ field) {zone : Option LcZone}
    (hz : NoCallbacks zone) (wall : Int) : instantOf c zone wall = .ok wall := by
  have hresolve : zone.bind (·.resolve) = none := by
    cases zone with
    | none => rfl
    | some z => exact (hz z rfl).2
  have hzone : ¬(2 ≤ c.stamps .zoneOffset ∨ 2 ≤ c.stamps .dstOffset) := by
    rw [h.stamp, h.stamp, if_neg hraw, if_neg hdst]
    decide
  rw [Calendar.instantOf, if_neg hzone, hresolve]

section
variable (hf : field ∈ timeFields)
include hf

theorem FieldSet.date_read : resolveDate c.stamps = .date ∧ c.stamps .julianDay < 2 ∧
    ∀ f ∈ [.era, .year, .extendedYear, .month, .date], ∀ x, Calendar.value c f x = fieldsOf c day tod 0 0 f := by
  have hother : ∀ f ∈ [Field.era, .year, .extendedYear, .month, .date, .julianDay], f ≠ field := fun f hmem heq =>
    date_not_time f hmem (heq ▸ hf)
  refine ⟨?_, ?_, fun f hmem x => ?_⟩
  · rw [h.stamps]
    exact resolveDate_time hf n
  · rw [h.stamp, if_neg (hother .julianDay (by decide))]
    decide
  · rw [h.value, if_neg (hother f (mem_append_left [Field.julianDay] hmem))]

theorem FieldSet.dayOf (hlenient : c.lenient = true) : dayOf c (resolveDate c.stamps) = .ok day := by
  obtain ⟨hbest, hjulian, hread⟩ := h.date_read hf
  rw [hbest]
  exact dayOf_read h.day_low h.day_high h.cutover hlenient hjulian hread

theorem FieldSet.timeOfDay : timeOfDay c = tod + (v - timeDigit field tod) * unitMillis field := by
  have hset := h.set
  have hms : c.stamps .millisecondsInDay = 1 := by
    rw [h.stamp, if_neg]
    rintro rfl
    exact absurd hf (by decide)
  have hread : ∀ f ∈ timeFields, fieldsOf c day tod 0 0 f = timeDigit f tod := fun f hf =>
    fieldsOf_time hf h.tod_low h.tod_high c day
  have hlow := h.tod_low
  have hhigh := h.tod_high
  rw [Calendar.timeOfDay, hms, if_neg fun hand => absurd hand.1 (by decide)]
  simp only [h.value, h.stamp, hread .hour (by decide), hread .hourOfDay (by decide), hread .amPm (by decide),
    hread .minute (by decide), hread .second (by decide), hread .millisecond (by decide)]
  rcases timeFields_cases hf with rfl | rfl | rfl | rfl | rfl | rfl
  all_goals simp only [reduceCtorEq, if_true, if_false, timeDigit, unitMillis, cycleLength]
  · rw [if_neg (by omega)]
    omega
  · rw [if_pos (by omega)]
    omega
  · rw [if_neg (by omega)]
    omega
  iterate 3
    · rw [if_pos (by omega)]
      omega

theorem FieldSet.resolveInstant (hlenient : c.lenient = true) {zone : Option LcZone} (hz : NoCallbacks zone) (hv : 0 ≤ v)
    (hv' : v < cycleLength field) {m : Int}
    (hm : (day - lcEpochJd) * lcDay + (tod + (v - timeDigit field tod) * unitMillis field) = m) (hl : lcMinMs ≤ m)
    (hu : m ≤ lcMaxMs) : resolveInstant zone c = .ok m := by
  obtain ⟨hb, hb'⟩ := setTod_bounds hf h.tod_low h.tod_high hv hv'
  have hmax : lcMaxMs = 183882168921600000 := by decide
  have hclamp : clamp c m = .ok m := by
    rw [clamp, if_neg]
    omega
  have hdays : -2140000000 ≤ day ∧ day ≤ 2140000000 := by
    rw [hmax] at hu
    unfold lcMinMs at hl
    unfold lcEpochJd lcDay at hm
    omega
  have hwall := wallOf_eq hdays.1 hdays.2 hb hb'
  rw [hm] at hwall
  have hinstant := h.instantOf (ne_of_mem_of_not_mem hf (by decide)).symm (ne_of_mem_of_not_mem hf (by decide)).symm hz m
  rw [Calendar.resolveInstant, hlenient, h.dayOf hf hlenient, h.timeOfDay hf]
  simp only [Bool.not_true, Bool.false_and, Bool.false_eq_true, if_false, Except.bind, hwall, hinstant, hclamp]

end

end

/-! ### Calendars without callbacks -/

def instantFields (c : LcCalendar) : Field → Int :=
  fieldsOf c (c.millis / lcDay + lcEpochJd) (c.millis % lcDay) 0 0

/-- While the fields count as read, they are those of the instant. -/
structure Coherent (c : LcCalendar) : Prop where
  cutover : c.cutover = 2299161
  stamped : c.Stamped
  read : c.fieldsValid = true →
    c.timeValid = true ∧ c.virtualFields = false ∧ c.stamps = (fun _ => 1) ∧ c.fields = instantFields c

/-- Calendars that read a day and a time of day alike. -/
structure Alike (c c' : LcCalendar) : Prop where
  icu : c'.icu = c.icu
  buddhist : c'.buddhist = c.buddhist
  lenient : c'.lenient = c.lenient
  cutover : c'.cutover = c.cutover
  fieldsOf : Calendar.fieldsOf c' = Calendar.fieldsOf c

section
variable {zone : Option LcZone} {c c' : LcCalendar}

theorem Alike.refl (c : LcCalendar) : Alike c c := ⟨rfl, rfl, rfl, rfl, rfl⟩

theorem Alike.trans {c₁ : LcCalendar} (h : Alike c c₁) (h' : Alike c₁ c') : Alike c c' :=
  ⟨h'.icu.trans h.icu, h'.buddhist.trans h.buddhist, h'.lenient.trans h.lenient, h'.cutover.trans h.cutover,
    h'.fieldsOf.trans h.fieldsOf⟩

theorem computeFields_alike (hf : c' = c ∨ computeFields zone c = .ok c') : Alike c c' := by
  rcases hf with rfl | hf
  · exact Alike.refl c'
  · rw [computeFields] at hf
    obtain ⟨offsets, -, ⟨⟩⟩ := ok_of_bind hf
    exact ⟨rfl, rfl, rfl, rfl, rfl⟩

theorem lcSetMillis_spec {millis : Int} (h : lcSetMillis c millis = .ok c') : ∃ m, c' = atInstant c m := by
  rw [lcSetMillis] at h
  obtain ⟨m, -, ⟨⟩⟩ := ok_of_bind h
  exact ⟨m, rfl⟩

variable {sets : Bool}

theorem Move.alike (h : Move zone sets c c') : Alike c c' := by
  cases h with
  | solve hv => exact ⟨rfl, rfl, rfl, rfl, rfl⟩
  | read hv hf => exact computeFields_alike (.inr hf)
  | setMillis hs =>
    obtain ⟨m, rfl⟩ := lcSetMillis_spec hs
    exact ⟨rfl, rfl, rfl, rfl, rfl⟩
  | @clear _ _ field hc =>
    cases field with
    | none =>
      cases hc
      exact ⟨rfl, rfl, rfl, rfl, rfl⟩
    | some field =>
      obtain ⟨c₁, hstart, rfl⟩ := lcClear_spec hc
      exact (computeFields_alike hstart).trans ⟨rfl, rfl, rfl, rfl, rfl⟩
  | set hs =>
    obtain ⟨c₁, hstart, rfl⟩ := lcSet_spec hs
    exact (computeFields_alike hstart).trans ⟨rfl, rfl, rfl, rfl, rfl⟩

theorem Moves.alike (h : Moves zone sets c c') : Alike c c' := by
  induction h with
  | refl => exact Alike.refl c
  | tail _ hmove ih =>
    obtain ⟨_, -, hmove⟩ := hmove
    exact ih.trans hmove.alike

theorem Move.coherent (h : Coherent c) (hz : NoCallbacks zone) (hmove : Move zone sets c c') : Coherent c' := by
  refine ⟨hmove.alike.cutover.trans h.cutover, h.stamped.move hmove, fun hread => ?_⟩
  cases hmove with
  | solve hv =>
    obtain ⟨hv', -⟩ := h.read hread
    rw [hv] at hv'
    cases hv'
  | read hv hf =>
    rw [computeFields_eq hz] at hf
    cases hf
    exact ⟨hv, rfl, rfl, rfl⟩
  | setMillis hs =>
    obtain ⟨m, rfl⟩ := lcSetMillis_spec hs
    cases hread
  | @clear _ _ field hc =>
    cases field with
    | none =>
      cases hc
      cases hread
    | some field =>
      obtain ⟨c₁, -, rfl⟩ := lcClear_spec hc
      cases hread
  | set hs =>
    obtain ⟨c₁, -, rfl⟩ := lcSet_spec hs
    cases hread

theorem Moves.coherent (h : Coherent c) (hz : NoCallbacks zone) (hmoves : Moves zone sets c c') : Coherent c' := by
  induction hmoves with
  | refl => exact h
  | tail _ hmove ih =>
    obtain ⟨_, -, hmove⟩ := hmove
    exact hmove.coherent ih hz

end

/-- The calendars that calls and settings lead to, in zones without callbacks. -/
inductive Reached : LcCalendar → Prop
  | init (icu buddhist : Bool) (first minimal : Nat) : Reached (lcInit icu buddhist first minimal)
  | call {c : LcCalendar} (h : Reached c) (call : CalendarCall) (hz : NoCallbacks call.zone) : Reached (call.run c)
  | lenient {c : LcCalendar} (h : Reached c) (lenient : Bool) : Reached { c with lenient := lenient }
  | wallTime {c : LcCalendar} (h : Reached c) (repeated skipped : Int) :
      Reached { c with repeated := repeated, skipped := skipped }
  | week {c : LcCalendar} (h : Reached c) (first minimal : Nat) :
      Reached { c with firstDay := first, minDays := minimal, fieldsValid := false }

theorem Reached.coherent (h : Reached c) : Coherent c := by
  induction h with
  | init icu buddhist first minimal => exact ⟨rfl, lcInit_stamped icu buddhist first minimal, fun hread => (nomatch hread)⟩
  | @call c h call hz ih => exact (call.moves c).coherent ih hz
  | lenient h lenient ih => exact ⟨ih.cutover, ih.stamped, ih.read⟩
  | wallTime h repeated skipped ih => exact ⟨ih.cutover, ih.stamped, ih.read⟩
  | week h first minimal ih => exact ⟨ih.cutover, ih.stamped, fun hread => (nomatch hread)⟩

section
variable {c : LcCalendar} (h : Coherent c) {zone : Option LcZone} (hz : NoCallbacks zone) {m : Int}
  (hm : (lcGetMillis zone c).1 = .ok m)
include h hz hm

theorem complete_instant : ∃ c₁, complete zone c = (.ok (), c₁) ∧ Coherent c₁ ∧ Alike c c₁ ∧ c₁.fieldsValid = true ∧
    c₁.millis = m := by
  have hmoves := complete_moves zone false c
  have hget := lcGetMillis_moves zone false c
  have hcoherent := hmoves.coherent h hz
  have halike := hmoves.alike
  cases hg : lcGetMillis zone c with
  | mk r c₁ =>
    rw [hg] at hm hget
    dsimp only at hm
    subst hm
    obtain ⟨hv, hmillis⟩ := lcGetMillis_valid hg
    rw [complete, hg] at hcoherent halike ⊢
    dsimp only at hcoherent halike ⊢
    split
    · rename_i hread
      rw [if_pos hread] at hcoherent halike
      exact ⟨c₁, rfl, hcoherent, halike, hread, hmillis⟩
    · rename_i hread
      rw [if_neg hread, computeFields_eq hz] at hcoherent halike
      rw [computeFields_eq hz]
      exact ⟨_, rfl, hcoherent, halike, rfl, hmillis⟩

theorem lcGet_instant (field : Field) : (lcGet zone field c).1 =
    if fieldOk c field then .ok (fieldsOf c (m / lcDay + lcEpochJd) (m % lcDay) 0 0 field) else .error .field := by
  obtain ⟨c₁, hc₁, hcoherent, halike, hread, hmillis⟩ := complete_instant h hz hm
  obtain ⟨-, -, -, hfields⟩ := hcoherent.read hread
  rw [instantFields, hmillis, halike.fieldsOf] at hfields
  rw [lcGet, hc₁]
  cases fieldOk c field with
  | true => exact congrArg Except.ok (congrFun hfields field)
  | false => rfl

end

/-! ### Rolling -/

/-- The fields that go around in a cycle. -/
def cyclic : List Field := [.date, .dayOfYear] ++ timeFields

def dayAt (m : Int) : Int := m / lcDay + lcEpochJd

def rolledInstant (field : Field) (m a : Int) : Int :=
  match field with
  | .date => (rollDay false (dayAt m) a - lcEpochJd) * lcDay + m % lcDay
  | .dayOfYear => (rollDay true (dayAt m) a - lcEpochJd) * lcDay + m % lcDay
  | field => m / lcDay * lcDay + rollTod field (m % lcDay) a

/-- How many values the field has: the days of the month or of the year, or those of a field of the time. -/
def cycleOf (field : Field) (m : Int) : Int :=
  match field with
  | .date => cycleEnd false (dayAt m) - cycleStart false (dayAt m)
  | .dayOfYear => cycleEnd true (dayAt m) - cycleStart true (dayAt m)
  | field => cycleLength field

/-- The month, the year or the day that the field is rolled in is in the range of all calendars. -/
def AwayFromClamp (field : Field) (m : Int) : Prop :=
  match field with
  | .date => lcMinMs ≤ (cycleStart false (dayAt m) - lcEpochJd) * lcDay ∧
    (cycleEnd false (dayAt m) - lcEpochJd) * lcDay ≤ lcMaxMs
  | .dayOfYear => lcMinMs ≤ (cycleStart true (dayAt m) - lcEpochJd) * lcDay ∧
    (cycleEnd true (dayAt m) - lcEpochJd) * lcDay ≤ lcMaxMs
  | _ => lcMinMs ≤ m / lcDay * lcDay ∧ m / lcDay * lcDay + lcDay ≤ lcMaxMs

theorem tod_bounds (m : Int) : 0 ≤ m % lcDay ∧ m % lcDay < 86400000 :=
  ⟨emod_nonneg m (by decide), emod_lt_of_pos m (by decide)⟩

theorem instant_parts {day tod : Int} (hl : 0 ≤ tod) (hh : tod < 86400000) :
    dayAt ((day - lcEpochJd) * lcDay + tod) = day ∧ ((day - lcEpochJd) * lcDay + tod) % lcDay = tod := by
  unfold dayAt lcEpochJd lcDay
  omega

theorem instant_eq (m : Int) : (dayAt m - lcEpochJd) * lcDay + m % lcDay = m := by
  unfold dayAt lcEpochJd lcDay
  omega

theorem cyclic_cases (h : field ∈ cyclic) :
    (∃ yearly : Bool, field = if yearly then .dayOfYear else .date) ∨ field ∈ timeFields := by
  rcases mem_append.1 h with h | h
  · simp only [mem_cons, not_mem_nil, or_false] at h
    rcases h with rfl | rfl
    · exact .inl ⟨false, rfl⟩
    · exact .inl ⟨true, rfl⟩
  · exact .inr h

section
variable (yearly : Bool) (m : Int)

theorem rolledInstant_days (a : Int) : rolledInstant (if yearly then .dayOfYear else .date) m a =
    (rollDay yearly (dayAt m) a - lcEpochJd) * lcDay + m % lcDay := by
  cases yearly <;> rfl

theorem cycleOf_days :
    cycleOf (if yearly then .dayOfYear else .date) m = cycleEnd yearly (dayAt m) - cycleStart yearly (dayAt m) := by
  cases yearly <;> rfl

theorem awayFromClamp_days : AwayFromClamp (if yearly then .dayOfYear else .date) m ↔
    lcMinMs ≤ (cycleStart yearly (dayAt m) - lcEpochJd) * lcDay ∧
      (cycleEnd yearly (dayAt m) - lcEpochJd) * lcDay ≤ lcMaxMs := by
  cases yearly <;> rfl

end

section
variable {field : Field} (hf : field ∈ timeFields) (m : Int)
include hf

theorem rolledInstant_time (a : Int) :
    rolledInstant field m a = (dayAt m - lcEpochJd) * lcDay + rollTod field (m % lcDay) a := by
  have hday : dayAt m - lcEpochJd = m / lcDay := Int.add_sub_cancel _ _
  rw [hday]
  rcases timeFields_cases hf with rfl | rfl | rfl | rfl | rfl | rfl <;> rfl

theorem cycleOf_time : cycleOf field m = cycleLength field := by
  rcases timeFields_cases hf with rfl | rfl | rfl | rfl | rfl | rfl <;> rfl

theorem awayFromClamp_time : AwayFromClamp field m ↔
    lcMinMs ≤ (dayAt m - lcEpochJd) * lcDay ∧ (dayAt m - lcEpochJd) * lcDay + lcDay ≤ lcMaxMs := by
  have hday : dayAt m - lcEpochJd = m / lcDay := Int.add_sub_cancel _ _
  rw [hday]
  rcases timeFields_cases hf with rfl | rfl | rfl | rfl | rfl | rfl <;> rfl

end

section
variable {field : Field} (hf : field ∈ cyclic) (m : Int)
include hf

theorem rolledInstant_parts (a : Int) :
    (∃ yearly : Bool, field = (if yearly then .dayOfYear else .date) ∧
      dayAt (rolledInstant field m a) = rollDay yearly (dayAt m) a ∧ rolledInstant field m a % lcDay = m % lcDay) ∨
    (field ∈ timeFields ∧ dayAt (rolledInstant field m a) = dayAt m ∧
      rolledInstant field m a % lcDay = rollTod field (m % lcDay) a) := by
  obtain ⟨hlow, hhigh⟩ := tod_bounds m
  rcases cyclic_cases hf with ⟨yearly, rfl⟩ | ht
  · refine .inl ⟨yearly, rfl, ?_⟩
    rw [rolledInstant_days]
    exact instant_parts hlow hhigh
  · obtain ⟨hl, hh⟩ := rollTod_bounds ht hlow hhigh a
    refine .inr ⟨ht, ?_⟩
    rw [rolledInstant_time ht]
    exact instant_parts hl hh

theorem rolledInstant_add (a b : Int) :
    rolledInstant field (rolledInstant field m a) b = rolledInstant field m (a + b) := by
  rcases rolledInstant_parts hf m a with ⟨yearly, rfl, hday, htod⟩ | ⟨ht, hday, htod⟩
  · rw [rolledInstant_days, hday, htod, rollDay_add, ← rolledInstant_days]
  · rw [rolledInstant_time ht, hday, htod, rollTod_add ht, ← rolledInstant_time ht]

theorem rolledInstant_cycle (k : Int) : rolledInstant field m (k * cycleOf field m) = m := by
  rcases cyclic_cases hf with ⟨yearly, rfl⟩ | ht
  · rw [rolledInstant_days, cycleOf_days, rollDay_cycle, instant_eq]
  · rw [rolledInstant_time ht, cycleOf_time ht, rollTod_cycle ht, instant_eq]

theorem rolledInstant_away (h : AwayFromClamp field m) (a : Int) : AwayFromClamp field (rolledInstant field m a) := by
  rcases rolledInstant_parts hf m a with ⟨yearly, rfl, hday, -⟩ | ⟨ht, hday, -⟩
  · obtain ⟨hl, hh⟩ := rollDay_mem yearly (dayAt m) a
    obtain ⟨hs, he⟩ := cycle_eq hl hh
    rw [awayFromClamp_days] at h ⊢
    rw [hday, hs, he]
    exact h
  · rw [awayFromClamp_time ht] at h ⊢
    rw [hday]
    exact h

theorem AwayFromClamp.range (h : AwayFromClamp field m) : lcMinMs ≤ m ∧ m ≤ lcMaxMs := by
  obtain ⟨hlow, hhigh⟩ := tod_bounds m
  have hm := instant_eq m
  unfold lcDay at hm hlow hhigh
  rcases cyclic_cases hf with ⟨yearly, rfl⟩ | ht
  · obtain ⟨hl, hh⟩ := mem_cycle yearly (dayAt m)
    rw [awayFromClamp_days] at h
    unfold lcDay at h
    omega
  · rw [awayFromClamp_time ht] at h
    unfold lcDay at h
    omega

end

/-! ### Larger fields -/

def larger : Field → List Field
  | .date => [.era, .year, .extendedYear, .month]
  | .dayOfYear => [.era, .year, .extendedYear]
  | .hour => dateFields ++ [.julianDay, .amPm]
  | .minute => dateFields ++ [.julianDay, .amPm, .hour, .hourOfDay]
  | .second => dateFields ++ [.julianDay, .amPm, .hour, .hourOfDay, .minute]
  | .millisecond => dateFields ++ [.julianDay, .amPm, .hour, .hourOfDay, .minute, .second]
  | _ => dateFields ++ [.julianDay]

theorem fieldsOf_day (c : LcCalendar) (day tod tod' : Int) :
    ∀ f ∈ dateFields ++ [.julianDay], fieldsOf c day tod 0 0 f = fieldsOf c day tod' 0 0 f := by
  intro f hf
  simp only [dateFields, cons_append, nil_append, mem_cons, not_mem_nil, or_false] at hf
  rcases hf with rfl | rfl | rfl | rfl | rfl | rfl | rfl | rfl | rfl | rfl | rfl | rfl | rfl <;> rfl

section
variable {c : LcCalendar} (hcut : c.cutover = 2299161)
include hcut

theorem dateOf_eq (day : Int) : lcDayCivil day (c.cutover ≤ day) = dateOf day := by
  rw [dateOf, cutoverDay, hcut]

variable {day day' : Int}

theorem fieldsOf_year (hy : (dateOf day').year = (dateOf day).year) (tod : Int) :
    ∀ f ∈ [.era, .year, .extendedYear], fieldsOf c day' tod 0 0 f = fieldsOf c day tod 0 0 f := by
  rw [← dateOf_eq hcut, ← dateOf_eq hcut] at hy
  intro f hf
  simp only [mem_cons, not_mem_nil, or_false] at hf
  rcases hf with rfl | rfl | rfl
  · show (if c.buddhist then 0 else if 1 ≤ (lcDayCivil day' (c.cutover ≤ day')).year then 1 else 0 : Int) = _
    rw [hy]
    rfl
  · show i32 (if c.buddhist then (lcDayCivil day' (c.cutover ≤ day')).year + 543
      else if 1 ≤ (lcDayCivil day' (c.cutover ≤ day')).year then (lcDayCivil day' (c.cutover ≤ day')).year
      else 1 - (lcDayCivil day' (c.cutover ≤ day')).year) = _
    rw [hy]
    rfl
  · show i32 (lcDayCivil day' (c.cutover ≤ day')).year = _
    rw [hy]
    rfl

theorem fieldsOf_month (hmonth : (dateOf day').month = (dateOf day).month) (tod : Int) :
    fieldsOf c day' tod 0 0 .month = fieldsOf c day tod 0 0 .month := by
  rw [← dateOf_eq hcut, ← dateOf_eq hcut] at hmonth
  show i32 ((lcDayCivil day' (c.cutover ≤ day')).month : Int) - 1 = _
  rw [hmonth]
  rfl

end

theorem rollTod_larger (hf : field ∈ timeFields) {tod : Int} (a : Int) :
    ∀ f ∈ timeFields, f ∈ larger field → timeDigit f (rollTod field tod a) = timeDigit f tod := by
  obtain ⟨hv, hv'⟩ := @rollTod_value field hf tod a
  intro f hfield hlarger
  rw [rollTod]
  generalize (timeDigit field tod + a) % cycleLength field = v at hv hv'
  rcases timeFields_cases hf with rfl | rfl | rfl | rfl | rfl | rfl
  all_goals
    simp only [larger, dateFields, cons_append, nil_append, mem_cons, not_mem_nil, or_false] at hlarger
    simp only [timeDigit, unitMillis, cycleLength] at hv hv' ⊢
    rcases timeFields_cases hfield with rfl | rfl | rfl | rfl | rfl | rfl <;>
      simp only [reduceCtorEq, or_false, or_true, or_self] at hlarger
  all_goals
    dsimp only
    omega

theorem larger_time : ∀ field ∈ timeFields, ∀ f ∈ larger field, f ∉ timeFields → f ∈ dateFields ++ [.julianDay] := by
  decide

theorem larger_same (hcut : c.cutover = 2299161) (hf : field ∈ cyclic) (m a : Int) :
    ∀ f ∈ larger field, fieldsOf c (dayAt (rolledInstant field m a)) (rolledInstant field m a % lcDay) 0 0 f =
      fieldsOf c (dayAt m) (m % lcDay) 0 0 f := by
  intro f hlarger
  rcases rolledInstant_parts hf m a with ⟨yearly, rfl, hday, htod⟩ | ⟨ht, hday, htod⟩
  · obtain ⟨hyear, hmonth⟩ := rollDay_same yearly (dayAt m) a
    rw [hday, htod]
    cases yearly with
    | true => exact fieldsOf_year hcut hyear _ f hlarger
    | false =>
      rcases mem_append.1 (show f ∈ [.era, .year, .extendedYear] ++ [.month] from hlarger) with hf | hf
      · exact fieldsOf_year hcut hyear _ f hf
      · obtain rfl := mem_singleton.1 hf
        exact fieldsOf_month hcut (hmonth rfl) _
  · obtain ⟨hlow, hhigh⟩ := tod_bounds m
    obtain ⟨hlow', hhigh'⟩ := rollTod_bounds ht hlow hhigh a
    rw [hday, htod]
    by_cases htime : f ∈ timeFields
    · rw [fieldsOf_time htime hlow' hhigh', fieldsOf_time htime hlow hhigh, rollTod_larger ht a f htime hlarger]
    · exact fieldsOf_day c _ _ _ f (larger_time field ht f hlarger htime)

/-! ### The calls -/

section
variable {c : LcCalendar} (hcut : c.cutover = 2299161)
include hcut

theorem civil_first (year : Int) {month : Nat} (hl : 1 ≤ month) (hh : month ≤ 12) :
    civil c year ((month : Int) - 1) 1 = firstDayOf ⟨year, month, 1⟩ := by
  have hfloor : lcFloor ((month : Int) - 1) 12 = 0 := by
    rw [lcFloor_eq _ (by decide)]
    omega
  have hmod : mod ((month : Int) - 1) 12 = month - 1 := by
    rw [mod_eq _ (by decide)]
    omega
  have hu : u32 ((month : Int) - 1) + 1 = month := by
    have := @u32_eq ((month : Int) - 1) (by omega) (by omega)
    omega
  rw [civil, hfloor, hmod, hu, Int.add_zero, Int.add_sub_cancel, Int.add_sub_cancel, hcut]
  rfl

theorem civil_next (year : Int) : civil c year 12 1 = firstDayOf ⟨year + 1, 1, 1⟩ := by
  have hfloor : lcFloor 12 12 = 1 := by decide
  have hmod : mod 12 12 = 0 := by decide
  have hu : u32 0 + 1 = 1 := by decide
  rw [civil, hfloor, hmod, hu, Int.add_sub_cancel, Int.add_sub_cancel, hcut]
  rfl

theorem civil_cycle (yearly : Bool) (day : Int) :
    civil c (dateOf day).year (if yearly then 0 else ((dateOf day).month : Int) - 1) 1 = cycleStart yearly day ∧
    civil c ((dateOf day).year + if yearly then 1 else 0) (if yearly then 0 else ((dateOf day).month : Int) - 1 + 1) 1 =
      cycleEnd yearly day := by
  obtain ⟨hl, hh, -⟩ := dateOf_month day
  have hjan := fun year => civil_first hcut year (Nat.le_refl 1) (Nat.le_add_left 1 11)
  cases yearly with
  | true => exact ⟨hjan _, hjan _⟩
  | false =>
    simp only [Bool.false_eq_true, if_false, Int.add_zero, Int.sub_add_cancel, cycleStart, cycleEnd, Date.cycleFirst,
      Date.cycleNext]
    refine ⟨civil_first hcut _ hl hh, ?_⟩
    split
    · rename_i hdec
      rw [hdec]
      exact civil_next hcut _
    · have hnext := civil_first hcut (dateOf day).year (Nat.le_add_left 1 (dateOf day).month) (by omega)
      push_cast at hnext
      rw [Int.add_sub_cancel] at hnext
      exact hnext

end

theorem dayAt_bounds {m : Int} (hl : lcMinMs ≤ m) (hu : m ≤ lcMaxMs) : -2140000000 ≤ dayAt m ∧ dayAt m ≤ 2140000000 := by
  have hmax : lcMaxMs = 183882168921600000 := by decide
  rw [hmax] at hu
  unfold lcMinMs at hl
  unfold dayAt lcEpochJd lcDay
  omega

theorem setWallDay_eq {zone : Option LcZone} (hz : NoCallbacks zone) (c : LcCalendar) {day tod m : Int}
    (hm : (day - lcEpochJd) * lcDay + tod = m) (hlow : 0 ≤ tod) (hhigh : tod < 86400000) (hl : lcMinMs ≤ m)
    (hu : m ≤ lcMaxMs) :
    setWallDay zone day tod c = .ok (atInstant c m) := by
  have hresolve : zone.bind (·.resolve) = none := by
    cases zone with
    | none => rfl
    | some z => exact (hz z rfl).2
  have hmax : lcMaxMs = 183882168921600000 := by decide
  have hmin64 : int64Min.tdiv lcDay = -106751991167 := by decide
  have hmax64 : int64Max.tdiv lcDay = 106751991167 := by decide
  have hwrap : i64 m = m := by
    rw [hmax] at hu
    unfold lcMinMs at hl
    rw [i64, bmod_def]
    omega
  have hset := lcSetMillis_eq (c := c) hl hu
  rw [hmax] at hu
  unfold lcMinMs at hl
  rw [setWallDay, hmin64, hmax64, if_neg, hm, hwrap, hresolve]
  · exact hset
  · unfold lcDay at hm
    omega

theorem cyclic_ok (hf : field ∈ cyclic) (c : LcCalendar) : fieldOk c field = true := by
  have hall : ∀ icu : Bool, ∀ f ∈ cyclic, f ∈ if icu then Field.all else Field.all.take 17 := by decide
  exact decide_eq_true (hall c.icu field hf)
theorem rerank_one : rerank (fun _ => 1) = fun _ => 1 := (rfl)

section
variable {c : LcCalendar} (h : Coherent c) (hread : c.fieldsValid = true) (hdl : -120000000000 ≤ dayAt c.millis)
  (hdu : dayAt c.millis ≤ 120000000000)
include h hread hdl hdu

theorem Coherent.date : c.fields .extendedYear = (dateOf (dayAt c.millis)).year ∧
    c.fields .month = (dateOf (dayAt c.millis)).month - 1 ∧ c.fields .date = (dateOf (dayAt c.millis)).day ∧
    c.fields .millisecondsInDay = c.millis % lcDay := by
  obtain ⟨-, -, -, hfields⟩ := h.read hread
  obtain ⟨htl, hth⟩ := tod_bounds c.millis
  have hdate := dateOf_eq h.cutover (dayAt c.millis)
  obtain ⟨hyl, hyu⟩ := year_bounds (c.cutover ≤ dayAt c.millis) hdl hdu
  obtain ⟨hml, hmh, hnl, hnh⟩ := date_bounds (dayAt c.millis) (c.cutover ≤ dayAt c.millis)
  rw [hdate] at hyl hyu hml hmh hnl hnh
  rw [hfields, instantFields]
  refine ⟨?_, ?_, ?_, i32_eq (by omega) (by omega)⟩
  · show i32 (lcDayCivil (dayAt c.millis) (c.cutover ≤ dayAt c.millis)).year = _
    rw [hdate, i32_eq (by omega) (by omega)]
  · show i32 ((lcDayCivil (dayAt c.millis) (c.cutover ≤ dayAt c.millis)).month : Int) - 1 = _
    rw [hdate, i32_eq (by omega) (by omega)]
  · show i32 ((lcDayCivil (dayAt c.millis) (c.cutover ≤ dayAt c.millis)).day : Int) = _
    rw [hdate, i32_eq (by omega) (by omega)]

theorem Coherent.set (zone : Option LcZone) {field : Field} (hok : fieldOk c field = true) (v : Int) :
    ∃ c₁ n, lcSet zone field v c = .ok c₁ ∧ FieldSet c₁ field (dayAt c.millis) (c.millis % lcDay) v n ∧ Alike c c₁ ∧
      c₁.timeValid = false := by
  obtain ⟨-, hvirtual, hstamps, hfields⟩ := h.read hread
  obtain ⟨htl, hth⟩ := tod_bounds c.millis
  set n := if c.nextStamp = 0xffffffff then Field.all.length + 2 else c.nextStamp with hn
  have htwo : 2 ≤ n := by
    have := h.stamped.low
    rw [hn]
    split
    · decide
    · exact this
  refine ⟨{ c with
    fields := update c.fields field v
    stamps := update (fun _ => 1) field n, nextStamp := n + 1
    timeValid := false, fieldsValid := false, virtualFields := false }, n, ?_, ?_, ⟨rfl, rfl, rfl, rfl, rfl⟩, rfl⟩
  · simp only [lcSet, hok, hvirtual, bind, Except.bind, Bool.not_true, Bool.false_eq_true, if_false, hn]
    split
    · simp only [hstamps, rerank_one]
    · simp only [hstamps]
  · refine ⟨h.cutover, ?_, rfl, htwo, hdl, hdu, htl, hth⟩
    simp only [hfields, instantFields]
    rfl

theorem Coherent.rollDays {zone : Option LcZone} {c₀ : LcCalendar} (hc : complete zone c₀ = (.ok (), c))
    (yearly : Bool) {a : Int} (ha : a ≠ 0) : lcRoll zone (if yearly then .dayOfYear else .date) a c₀ =
      settle c (setWallDay zone (rollDay yearly (dayAt c.millis) a) (c.millis % lcDay) c) := by
  obtain ⟨hyear, hmonth, hday, htod⟩ := h.date hread hdl hdu
  have hback := civil_dayCivil h.cutover (dayAt c.millis)
  rw [dateOf_eq h.cutover] at hback
  obtain ⟨hfirst, hlast⟩ := civil_cycle h.cutover yearly (dayAt c.millis)
  obtain ⟨hsl, hsh⟩ := mem_cycle yearly (dayAt c.millis)
  have hmod := mod_eq (dayAt c.millis - cycleStart yearly (dayAt c.millis) + a)
    (show 0 < cycleEnd yearly (dayAt c.millis) - cycleStart yearly (dayAt c.millis) by omega)
  rw [lcRoll, cyclic_ok (by cases yearly <;> decide) c₀, Bool.not_true, if_neg Bool.false_ne_true, if_neg ha, hc]
  dsimp only
  cases yearly with
  | true =>
    simp only [if_true] at hfirst hlast ⊢
    rw [hyear, hmonth, hday, htod, hback, hfirst, hlast, hmod]
    rfl
  | false =>
    simp only [Bool.false_eq_true, if_false, Int.add_zero] at hfirst hlast ⊢
    rw [hyear, hmonth, hday, htod, hback, hfirst, hlast, hmod]
    rfl

end

section
variable {c : LcCalendar} (h : Coherent c) {zone : Option LcZone} (hz : NoCallbacks zone) {m : Int}
  (hm : (lcGetMillis zone c).1 = .ok m) (hl : lcMinMs ≤ m) (hu : m ≤ lcMaxMs)
include h hz hm hl hu

theorem lcRoll_days (yearly : Bool) {a : Int} (ha : a ≠ 0)
    (hrange : lcMinMs ≤ rolledInstant (if yearly then .dayOfYear else .date) m a ∧
      rolledInstant (if yearly then .dayOfYear else .date) m a ≤ lcMaxMs) :
    ∃ c₁, lcRoll zone (if yearly then .dayOfYear else .date) a c =
      (.ok (), atInstant c₁ (rolledInstant (if yearly then .dayOfYear else .date) m a)) := by
  obtain ⟨c₁, hc₁, hcoherent, -, hread, rfl⟩ := complete_instant h hz hm
  obtain ⟨hdl, hdu⟩ := dayAt_bounds hl hu
  obtain ⟨htl, hth⟩ := tod_bounds c₁.millis
  refine ⟨c₁, ?_⟩
  rw [hcoherent.rollDays hread (by omega) (by omega) hc₁ yearly ha,
    setWallDay_eq hz c₁ (rolledInstant_days yearly c₁.millis a).symm htl hth hrange.1 hrange.2]
  rfl

variable {field : Field}

theorem lcRoll_time (hlenient : c.lenient = true) (hf : field ∈ timeFields) {a : Int} (ha : a ≠ 0)
    (hrange : lcMinMs ≤ rolledInstant field m a ∧ rolledInstant field m a ≤ lcMaxMs) :
    ∃ c₁, lcRoll zone field a c = (.ok (), c₁) ∧ (lcGetMillis zone c₁).1 = .ok (rolledInstant field m a) := by
  obtain ⟨c₁, hc₁, hcoherent, halike, hread, rfl⟩ := complete_instant h hz hm
  obtain ⟨-, -, -, hfields⟩ := hcoherent.read hread
  obtain ⟨hdl, hdu⟩ := dayAt_bounds hl hu
  obtain ⟨htl, hth⟩ := tod_bounds c₁.millis
  obtain ⟨hv, hv'⟩ := @rollTod_value field hf (c₁.millis % lcDay) a
  obtain ⟨hpos, hlen⟩ := cycleLength_pos hf
  have hvalue : i32 (mod (c₁.fields field + a) (cycleLength field)) =
      (timeDigit field (c₁.millis % lcDay) + a) % cycleLength field := by
    rw [hfields, instantFields, fieldsOf_time hf htl hth, mod_eq _ hpos, i32_eq (by omega) (by omega)]
  obtain ⟨c₂, n, hset, htime, halike₂, hvalid⟩ := hcoherent.set hread (by omega) (by omega) zone
    (cyclic_ok (mem_append_right _ hf) c₁) ((timeDigit field (c₁.millis % lcDay) + a) % cycleLength field)
  have hinstant := htime.resolveInstant hf (halike₂.lenient.trans (halike.lenient.trans hlenient)) hz hv hv'
    (rolledInstant_time hf c₁.millis a).symm hrange.1 hrange.2
  have hget : lcGetMillis zone c₂ = (.ok (rolledInstant field c₁.millis a),
      { c₂ with millis := rolledInstant field c₁.millis a, timeValid := true, virtualFields := false }) := by
    rw [lcGetMillis, hvalid, if_neg Bool.false_ne_true, computeTime_eq, hinstant]
    rfl
  have hboth : setAndGet zone field (i32 (mod (c₁.fields field + a) (cycleLength field))) c₁ =
      (.ok (), { c₂ with millis := rolledInstant field c₁.millis a, timeValid := true, virtualFields := false }) := by
    rw [setAndGet, hvalue, hset]
    dsimp only
    rw [hget]
  refine ⟨{ c₂ with millis := rolledInstant field c₁.millis a, timeValid := true, virtualFields := false }, ?_, rfl⟩
  rw [lcRoll, cyclic_ok (mem_append_right _ hf) c, Bool.not_true, if_neg Bool.false_ne_true, if_neg ha, hc₁]
  dsimp only
  rcases timeFields_cases hf with rfl | rfl | rfl | rfl | rfl | rfl <;> exact hboth

theorem lcRoll_instant (hlenient : c.lenient = true) (hf : field ∈ cyclic) (a : Int)
    (hrange : lcMinMs ≤ rolledInstant field m a ∧ rolledInstant field m a ≤ lcMaxMs) :
    (lcRoll zone field a c).1 = .ok () ∧
    (lcGetMillis zone (lcRoll zone field a c).2).1 = .ok (rolledInstant field m a) := by
  by_cases ha : a = 0
  · have hzero := rolledInstant_cycle hf m 0
    rw [Int.zero_mul] at hzero
    rw [lcRoll, cyclic_ok hf c, Bool.not_true, if_neg Bool.false_ne_true, if_pos ha, ha, hzero]
    exact ⟨rfl, hm⟩
  · rcases cyclic_cases hf with ⟨yearly, rfl⟩ | ht
    · obtain ⟨c₁, hc₁⟩ := lcRoll_days h hz hm hl hu yearly ha hrange
      rw [hc₁]
      exact ⟨rfl, rfl⟩
    · obtain ⟨c₁, hc₁, hget⟩ := lcRoll_time h hz hm hl hu hlenient ht ha hrange
      rw [hc₁]
      exact ⟨rfl, hget⟩

end

/-- Away from the range's ends, rolling is an action of the amounts on the instants: two rolls are one roll by the sum, a
    roll by the length of the cycle leaves the instant, and no roll changes a larger field. -/
theorem roll_cyclic {c : LcCalendar} (hreached : Reached c) (hlenient : c.lenient = true) {zone : Option LcZone}
    (hz : NoCallbacks zone) {m : Int} (hm : (lcGetMillis zone c).1 = .ok m) {field : Field} (hf : field ∈ cyclic)
    (haway : AwayFromClamp field m) :
    (∀ a, (lcRoll zone field a c).1 = .ok ()) ∧
    (∀ a b, (lcRoll zone field b (lcRoll zone field a c).2).1 = .ok () ∧
      (lcGetMillis zone (lcRoll zone field b (lcRoll zone field a c).2).2).1 =
        (lcGetMillis zone (lcRoll zone field (a + b) c).2).1) ∧
    (∀ k, (lcGetMillis zone (lcRoll zone field (k * cycleOf field m) c).2).1 = .ok m) ∧
    ∀ a, ∀ f ∈ larger field, (lcGet zone f (lcRoll zone field a c).2).1 = (lcGet zone f c).1 := by
  have h := hreached.coherent
  obtain ⟨hl, hu⟩ := haway.range hf
  have haway' := rolledInstant_away hf m haway
  have hroll := fun a => lcRoll_instant h hz hm hl hu hlenient hf a ((haway' a).range hf)
  have hnext : ∀ a, Coherent (lcRoll zone field a c).2 ∧ Alike c (lcRoll zone field a c).2 := fun a =>
    ⟨(lcRoll_moves field a).coherent h hz, (lcRoll_moves field a).alike⟩
  refine ⟨fun a => (hroll a).1, fun a b => ?_, fun k => ?_, fun a f hlarger => ?_⟩
  · obtain ⟨hl', hu'⟩ := (haway' a).range hf
    obtain ⟨hcoherent, halike⟩ := hnext a
    have hadd := rolledInstant_add hf m a b
    obtain ⟨hok, hget⟩ := lcRoll_instant hcoherent hz (hroll a).2 hl' hu' (halike.lenient.trans hlenient) hf b
      ((rolledInstant_away hf _ (haway' a) b).range hf)
    refine ⟨hok, ?_⟩
    rw [hget, hadd, (hroll (a + b)).2]
  · rw [(hroll _).2, rolledInstant_cycle hf]
  · obtain ⟨hcoherent, halike⟩ := hnext a
    have hok : fieldOk (lcRoll zone field a c).2 f = fieldOk c f := by
      rw [fieldOk, fieldOk, validFields, validFields, halike.icu]
    rw [lcGet_instant hcoherent hz (hroll a).2, lcGet_instant h hz hm, hok, halike.fieldsOf]
    have hsame := larger_same h.cutover hf m a f hlarger
    rw [dayAt, dayAt] at hsame
    rw [hsame]

/-- The month of the cutover has 21 days. -/
theorem roll_cyclic_cutover :
    (lcGetMillis none (lcRoll none .date 21 (CalendarCall.run (lcInit false false 1 1)
      (.setMillis (-12219292800000)))).2).1 = .ok (-12219292800000) := by
  have hz : NoCallbacks none := fun _ hzone => (nomatch hzone)
  have haway : AwayFromClamp .date (-12219292800000) := by
    rw [AwayFromClamp]
    decide
  have hreached : Reached (CalendarCall.run (lcInit false false 1 1) (.setMillis (-12219292800000))) :=
    (Reached.init false false 1 1).call (.setMillis (-12219292800000)) hz
  have hget : (lcGetMillis none (CalendarCall.run (lcInit false false 1 1) (.setMillis (-12219292800000)))).1 =
      .ok (-12219292800000) := rfl
  have hcycle : (1 : Int) * cycleOf .date (-12219292800000) = 21 := by decide
  have hroll := (roll_cyclic hreached rfl hz hget (by decide) haway).2.2.1 1
  rw [hcycle] at hroll
  exact hroll

end Lunaria.Dvm.Calendar
