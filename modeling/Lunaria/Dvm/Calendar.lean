import Mathlib.Algebra.Group.Int.Defs
import Mathlib.Algebra.Group.Nat.Defs
import Mathlib.Logic.Function.Basic

/-! The calendar of `dvm/calendar.c`: an instant, the fields it is read through, and for each field when it was set.
    Setting a field leaves the instant to be worked out from the fields that were set last. The 64-bit numbers of the
    source are integers here, as days and instants stay far below where they overflow; the two functions between days and
    dates stand beside this in 64 bits too (`lcCivilDay64`, `lcDayCivil64`). What the source casts to 32 bits is cast. -/

namespace Lunaria.Dvm.Calendar

def lcDay : Int := 86400000

/-- The julian day of the epoch. -/
def lcEpochJd : Int := 2440588

def lcMinMs : Int := -184303902528000000

def lcMaxMs : Int := (0x7f000000 - lcEpochJd) * lcDay

def int64Min : Int := -9223372036854775808

def int64Max : Int := 9223372036854775807

/-- A 64-bit number. -/
def i64 (x : Int) : Int := x.bmod (2 ^ 64)

/-- A cast to `int32_t`. -/
def i32 (x : Int) : Int := x.bmod (2 ^ 32)

/-- A cast to `unsigned`. -/
def u32 (x : Int) : Nat := (x % 2 ^ 32).toNat

def lcFloor (n d : Int) : Int :=
  let q := n.tdiv d
  q - (if n.tmod d < 0 then 1 else 0)

def mod (n d : Int) : Int := n - lcFloor n d * d

/-! ### Days and dates -/

def lcCivilDay (year : Int) (month day : Nat) (gregorian : Bool) : Int :=
  let a := (14 - (month : Int)).tdiv 12
  let y := year + 4800 - a
  let m := month + 12 * a - 3
  let jd := day + (153 * m + 2).tdiv 5 + 365 * y + lcFloor y 4
  if gregorian then jd - lcFloor y 100 + lcFloor y 400 - 32045 else jd - 32083

structure Date where
  year : Int
  month : Nat
  day : Nat
  deriving DecidableEq

def lcDayCivil (jd : Int) (gregorian : Bool) : Date :=
  let a := jd + 32044
  let b := if gregorian then lcFloor (4 * a + 3) 146097 else 0
  let c := if gregorian then a - lcFloor (146097 * b) 4 else jd + 32082
  let d := lcFloor (4 * c + 3) 1461
  let e := c - lcFloor (1461 * d) 4
  let m := (5 * e + 2).tdiv 153
  { year := 100 * b + d - 4800 + m.tdiv 10
    month := u32 (m + 3 - 12 * m.tdiv 10)
    day := u32 (e - (153 * m + 2).tdiv 5 + 1) }

/-- `lc_civil_day` in 64 bits. -/
def lcCivilDay64 (year : Int) (month day : Nat) (gregorian : Bool) : Int :=
  let a := (14 - (month : Int)).tdiv 12
  let y := i64 (i64 (year + 4800) - a)
  let m := month + 12 * a - 3
  let jd := i64 (i64 (day + (153 * m + 2).tdiv 5 + i64 (365 * y)) + lcFloor y 4)
  if gregorian then i64 (i64 (i64 (jd - lcFloor y 100) + lcFloor y 400) - 32045) else i64 (jd - 32083)

/-- `lc_day_civil` in 64 bits. -/
def lcDayCivil64 (jd : Int) (gregorian : Bool) : Date :=
  let a := i64 (jd + 32044)
  let b := if gregorian then lcFloor (i64 (i64 (4 * a) + 3)) 146097 else 0
  let c := if gregorian then i64 (a - lcFloor (i64 (146097 * b)) 4) else i64 (jd + 32082)
  let d := lcFloor (i64 (i64 (4 * c) + 3)) 1461
  let e := i64 (c - lcFloor (i64 (1461 * d)) 4)
  let m := (i64 (5 * e + 2)).tdiv 153
  { year := i64 (i64 (i64 (i64 (100 * b) + d) - 4800) + m.tdiv 10)
    month := u32 (m + 3 - 12 * m.tdiv 10)
    day := u32 (e - (153 * m + 2).tdiv 5 + 1) }

inductive Field
  | era | year | month | weekOfYear | weekOfMonth | date | dayOfYear | dayOfWeek | dayOfWeekInMonth | amPm | hour
  | hourOfDay | minute | second | millisecond | zoneOffset | dstOffset | yearWoy | dowLocal | extendedYear | julianDay
  | millisecondsInDay | isLeapMonth
  deriving DecidableEq

/-- All fields, in the order of their numbers. -/
def Field.all : List Field :=
  [.era, .year, .month, .weekOfYear, .weekOfMonth, .date, .dayOfYear, .dayOfWeek, .dayOfWeekInMonth, .amPm, .hour,
    .hourOfDay, .minute, .second, .millisecond, .zoneOffset, .dstOffset, .yearWoy, .dowLocal, .extendedYear, .julianDay,
    .millisecondsInDay, .isLeapMonth]

structure LcCalendar where
  fields : Field → Int
  stamps : Field → Nat
  nextStamp : Nat
  millis : Int
  cutover : Int
  firstDay : Nat
  minDays : Nat
  repeated : Int
  skipped : Int
  icu : Bool
  buddhist : Bool
  lenient : Bool
  timeValid : Bool
  fieldsValid : Bool
  virtualFields : Bool

/-- The callbacks of a zone, each of which may be missing and may fail. -/
structure LcZone where
  offset : Option (Int → Option (Int × Int))
  resolve : Option (Int → Int → Int → Bool → Option Int)

inductive LcError
  | field | range | zone | unsupported
  deriving DecidableEq

section
variable (c : LcCalendar)

/-- The fields of the calendar: those from `yearWoy` on are of ICU calendars only. -/
def validFields : List Field := if c.icu then Field.all else Field.all.take 17

def fieldOk (field : Field) : Bool := field ∈ validFields c

def civil (year month day : Int) : Int :=
  let year := year + lcFloor month 12
  let month := mod month 12
  let g := lcCivilDay year (u32 month + 1) 1 true + day - 1
  if c.cutover ≤ g then g else lcCivilDay year (u32 month + 1) 1 false + day - 1

def monthDays : List Nat := [31, 28, 31, 30, 31, 30, 31, 31, 30, 31, 30, 31]

def monthLength (year month : Int) : Nat :=
  let year := year + lcFloor month 12
  let month := mod month 12
  let gregorian := c.cutover ≤ lcCivilDay year (u32 month + 1) 1 true
  let leap := mod year 4 = 0 ∧ (¬gregorian ∨ mod year 100 ≠ 0 ∨ mod year 400 = 0)
  monthDays.getD month.toNat 0 + if month = 1 ∧ leap then 1 else 0

def dow (day : Int) : Nat := u32 (mod (day + 1) 7) + 1

def weekStart (start : Int) : Int :=
  let before := u32 (mod ((dow start : Int) - c.firstDay) 7)
  start - before + if 7 - before < c.minDays then 7 else 0

end

def lcInit (icu buddhist : Bool) (first minimal : Nat) : LcCalendar where
  fields _ := 0
  stamps _ := 0
  nextStamp := 2
  millis := 0
  cutover := 2299161
  firstDay := first
  minDays := minimal
  repeated := 0
  skipped := 0
  icu := icu
  buddhist := buddhist
  lenient := true
  timeValid := false
  fieldsValid := false
  virtualFields := false

/-- What an ICU calendar makes of an instant outside its range. -/
def clamp (c : LcCalendar) (millis : Int) : Except LcError Int :=
  if c.icu ∧ (millis < lcMinMs ∨ lcMaxMs < millis) then
    if !c.lenient then .error .range else .ok (if millis < lcMinMs then lcMinMs else lcMaxMs)
  else .ok millis

def lcSetMillis (c : LcCalendar) (millis : Int) : Except LcError LcCalendar := do
  let millis ← clamp c millis
  .ok { c with
    millis := millis, timeValid := true, fieldsValid := false, virtualFields := true, nextStamp := 2
    fields := fun _ => 0, stamps := fun _ => 0 }

/-! ### From the instant to the fields -/

/-- The raw and the daylight offset. -/
def zoneOffsets (zone : Option LcZone) (millis : Int) : Except LcError (Int × Int) :=
  match zone.bind (·.offset) with
  | none => .ok (0, 0)
  | some offset =>
    match offset millis with
    | none => .error .zone
    | some offsets => .ok offsets

/-- The week year of a day and the start of its first week. -/
def weekYear (c : LcCalendar) (year day : Int) : Int × Int :=
  let start := weekStart c (civil c year 0 1)
  let next := civil c (year + 1) 0 1
  if day < start then (year - 1, weekStart c (civil c (year - 1) 0 1))
  else if weekStart c next ≤ day then (year + 1, weekStart c next)
  else (year, start)

def fieldsOf (c : LcCalendar) (day wall raw dst : Int) : Field → Int :=
  let date := lcDayCivil day (c.cutover ≤ day)
  let year := date.year
  let (woy, start) := weekYear c year day
  let hourOfDay := i32 (wall.tdiv 3600000)
  fun
  | .era => if c.buddhist then 0 else if 1 ≤ year then 1 else 0
  | .year => i32 (if c.buddhist then year + 543 else if 1 ≤ year then year else 1 - year)
  | .month => i32 date.month - 1
  | .date => i32 date.day
  | .extendedYear => i32 year
  | .dayOfYear => i32 (day - civil c year 0 1 + 1)
  | .dayOfWeek => i32 (dow day)
  | .weekOfYear => i32 ((day - start).tdiv 7 + 1)
  | .yearWoy => i32 woy
  | .weekOfMonth => i32 (lcFloor (day - weekStart c (civil c year (date.month - 1) 1)) 7 + 1)
  | .dayOfWeekInMonth => (i32 date.day - 1).tdiv 7 + 1
  | .dowLocal => i32 (mod ((dow day : Int) - c.firstDay) 7) + 1
  | .millisecondsInDay => i32 wall
  | .hourOfDay => hourOfDay
  | .hour => hourOfDay.tmod 12
  | .amPm => hourOfDay.tdiv 12
  | .minute => i32 ((wall.tdiv 60000).tmod 60)
  | .second => i32 ((wall.tdiv 1000).tmod 60)
  | .millisecond => i32 (wall.tmod 1000)
  | .zoneOffset => raw
  | .dstOffset => dst
  | .julianDay => i32 day
  | .isLeapMonth => 0

def computeFields (zone : Option LcZone) (c : LcCalendar) : Except LcError LcCalendar := do
  let (raw, dst) ← zoneOffsets zone c.millis
  let wall := mod c.millis lcDay + raw + dst
  let day := lcFloor c.millis lcDay + lcFloor wall lcDay + lcEpochJd
  .ok { c with
    fields := fieldsOf c day (mod wall lcDay) raw dst, stamps := fun _ => 1, fieldsValid := true, virtualFields := false }

/-! ### From the fields to the instant -/

/-- The rows of `resolve_date`: the field that decides, one that has to be there, and the one whose age counts. -/
def rows : List (Field × Option Field × Field) :=
  [(.date, none, .date), (.weekOfYear, some .dayOfWeek, .weekOfYear), (.weekOfMonth, some .dayOfWeek, .weekOfMonth),
    (.dayOfWeekInMonth, some .dayOfWeek, .dayOfWeekInMonth), (.weekOfYear, some .dowLocal, .weekOfYear),
    (.weekOfMonth, some .dowLocal, .weekOfMonth), (.dayOfWeekInMonth, some .dowLocal, .dayOfWeekInMonth),
    (.dayOfYear, none, .dayOfYear), (.date, some .year, .year), (.weekOfYear, some .yearWoy, .yearWoy)]

/-- The fields that decide when no row is there. -/
def fallback : List (Field × Field) :=
  [(.weekOfYear, .weekOfYear), (.weekOfMonth, .weekOfMonth), (.dayOfWeekInMonth, .dayOfWeekInMonth),
    (.dayOfWeek, .dayOfWeekInMonth), (.dowLocal, .dayOfWeekInMonth)]

/-- Which way the date is worked out: the newest row, and the first one of the same age. -/
def resolveDate (stamps : Field → Nat) : Field :=
  let (best, result) := rows.foldl (fun (best, result) (a, b, by') =>
    let rank := stamps by'
    if rank = 0 ∨ b.any (stamps · = 0) then (best, result)
    else
      let rank := (b.map stamps).elim rank (max rank)
      if best < rank then (rank, a) else (best, result)) (0, Field.date)
  if best ≠ 0 then result
  else (fallback.foldl (fun (best, result) (a, b) =>
    if best < stamps a then (stamps a, b) else (best, result)) (best, result)).2

/-- `limit_value` for the lowest and the highest value there is. -/
def limitValue (c : LcCalendar) (field : Field) : Int × Int :=
  match field with
  | .era => (0, if c.buddhist then 0 else 1)
  | .year => (1, 5838270)
  | .month => (0, 11)
  | .weekOfYear => (1, 53)
  | .weekOfMonth => (0, 6)
  | .date => (1, 31)
  | .dayOfYear => (1, 366)
  | .dayOfWeek => (1, 7)
  | .dayOfWeekInMonth => (-1, 5)
  | .amPm => (0, 1)
  | .hour => (0, 11)
  | .hourOfDay => (0, 23)
  | .minute => (0, 59)
  | .second => (0, 59)
  | .millisecond => (0, 999)
  | .zoneOffset => (-57600000, 108000000)
  | .dstOffset => (-3600000, 7200000)
  | .yearWoy => (-5838269, 5828963)
  | .dowLocal => (1, 7)
  | .extendedYear => (-5838269, 5828963)
  | .julianDay => (-2130706432, 2130706432)
  | .millisecondsInDay => (0, 86399999)
  | .isLeapMonth => (0, 0)

section
variable (c : LcCalendar)

/-- A field that was set is checked when the calendar is not lenient. -/
def inLimits : Bool :=
  (validFields c).all fun field =>
    c.stamps field < 2 || ((limitValue c field).1 ≤ c.fields field && c.fields field ≤ (limitValue c field).2)

def value (field : Field) (fallback : Int) : Int := if c.stamps field ≠ 0 then c.fields field else fallback

def newest (fields : List Field) : Nat := fields.foldl (fun stamp field => max stamp (c.stamps field)) 0

def yearOf (best : Field) : Int :=
  let year :=
    if c.stamps .year < c.stamps .extendedYear then value c .extendedYear 1970
    else
      let year := value c .year (if c.buddhist then 2513 else 1970)
      if c.buddhist then year - 543 else if value c .era 1 = 0 then 1 - year else year
  if best = .weekOfYear ∧ c.stamps .year < c.stamps .yearWoy then value c .yearWoy 1970 else year

/-- The fields whose age is compared with that of the julian day. -/
def dateFields : List Field :=
  [.era, .year, .month, .weekOfYear, .weekOfMonth, .date, .dayOfYear, .dayOfWeek, .dayOfWeekInMonth, .yearWoy, .dowLocal,
    .extendedYear]

def dayOf (best : Field) : Except LcError Int :=
  let year := yearOf c best
  let month := value c .month 0
  if 2 ≤ c.stamps .julianDay ∧ newest c dateFields ≤ c.stamps .julianDay then .ok (c.fields .julianDay)
  else if best = .dayOfYear then .ok (civil c year 0 1 + value c .dayOfYear 1 - 1)
  else if best = .date then
    let date := value c .date 1
    let day := civil c year month date
    let back := lcDayCivil day (c.cutover ≤ day)
    if !c.lenient ∧ ((monthLength c year month : Int) < date ∨
        back.year ≠ year ∨ (back.month : Int) ≠ month + 1 ∨ back.day ≠ u32 date) then .error .range
    else .ok day
  else
    let localDow :=
      if c.stamps .dayOfWeek < c.stamps .dowLocal then value c .dowLocal 1 - 1
      else mod (value c .dayOfWeek c.firstDay - c.firstDay) 7
    let start := civil c year (if best = .weekOfYear then 0 else month) 1
    if best = .dayOfWeekInMonth then
      let ordinal := value c .dayOfWeekInMonth 1
      if 0 ≤ ordinal then
        .ok (start + mod (localDow - mod ((dow start : Int) - c.firstDay) 7) 7 + 7 * (ordinal - 1))
      else
        let last := start + monthLength c year month - 1
        .ok (last - mod (mod ((dow last : Int) - c.firstDay) 7 - localDow) 7 + 7 * (ordinal + 1))
    else .ok (weekStart c start + 7 * (value c best 1 - 1) + localDow)

def timeOfDay : Int :=
  let hourStamp := max (c.stamps .hour) (c.stamps .amPm)
  let hour :=
    if hourStamp ≤ c.stamps .hourOfDay then value c .hourOfDay 0 else value c .hour 0 + 12 * value c .amPm 0
  if 2 ≤ c.stamps .millisecondsInDay ∧
      newest c [.hour, .amPm, .hourOfDay, .minute, .second, .millisecond] ≤ c.stamps .millisecondsInDay then
    c.fields .millisecondsInDay
  else ((hour * 60 + value c .minute 0) * 60 + value c .second 0) * 1000 + value c .millisecond 0

/-- The wall time in milliseconds, when it has 64 bits. -/
def wallOf (day tod : Int) : Except LcError Int :=
  let days := day + lcFloor tod lcDay - lcEpochJd
  let tod := mod tod lcDay
  if days < int64Min.tdiv lcDay ∨ int64Max.tdiv lcDay < days ∨
      (days = int64Max.tdiv lcDay ∧ int64Max.tmod lcDay < tod) then .error .range
  else .ok (days * lcDay + tod)

def instantOf (zone : Option LcZone) (wall : Int) : Except LcError Int :=
  if 2 ≤ c.stamps .zoneOffset ∨ 2 ≤ c.stamps .dstOffset then
    let off := value c .zoneOffset 0 + value c .dstOffset 0
    if (0 < off ∧ wall < int64Min + off) ∨ (off < 0 ∧ int64Max + off < wall) then .error .range else .ok (wall - off)
  else
    match zone.bind (·.resolve) with
    | none => .ok wall
    | some resolve =>
      match resolve wall c.repeated c.skipped c.lenient with
      | none => .error .zone
      | some millis => .ok millis

end

def computeTime (zone : Option LcZone) (c : LcCalendar) : Except LcError LcCalendar := do
  if !c.lenient && !inLimits c then .error .range
  let day ← dayOf c (resolveDate c.stamps)
  let wall ← wallOf day (timeOfDay c)
  let millis ← instantOf c zone wall
  let millis ← clamp c millis
  .ok { c with millis := millis, timeValid := true, virtualFields := false }

/-! ### Reading and setting. A failed call keeps what it had worked out before. -/

def lcGetMillis (zone : Option LcZone) (c : LcCalendar) : Except LcError Int × LcCalendar :=
  if c.timeValid then (.ok c.millis, c)
  else
    match computeTime zone c with
    | .error err => (.error err, c)
    | .ok c => (.ok c.millis, c)

def complete (zone : Option LcZone) (c : LcCalendar) : Except LcError Unit × LcCalendar :=
  match lcGetMillis zone c with
  | (.error err, c) => (.error err, c)
  | (.ok _, c) =>
    if c.fieldsValid then (.ok (), c)
    else
      match computeFields zone c with
      | .error err => (.error err, c)
      | .ok c => (.ok (), c)

def lcGet (zone : Option LcZone) (field : Field) (c : LcCalendar) : Except LcError Int × LcCalendar :=
  if !fieldOk c field then (.error .field, c)
  else
    match complete zone c with
    | (.error err, c) => (.error err, c)
    | (.ok _, c) => (.ok (c.fields field), c)

/-- The stamps with the same order among those that were set, from 2 on. -/
def rerank (stamps : Field → Nat) (field : Field) : Nat :=
  if 2 ≤ stamps field then 2 + Field.all.countP (fun f => 2 ≤ stamps f ∧ stamps f < stamps field) else stamps field

def lcSet (zone : Option LcZone) (field : Field) (val : Int) (c : LcCalendar) : Except LcError LcCalendar := do
  if !fieldOk c field then .error .field
  let c ← (if c.virtualFields then computeFields zone c else .ok c)
  let c := if c.nextStamp = 0xffffffff then { c with stamps := rerank c.stamps, nextStamp := Field.all.length + 2 } else c
  .ok { c with
    fields := Function.update c.fields field val
    stamps := Function.update c.stamps field c.nextStamp
    nextStamp := c.nextStamp + 1
    timeValid := false, fieldsValid := false, virtualFields := false }

end Lunaria.Dvm.Calendar
