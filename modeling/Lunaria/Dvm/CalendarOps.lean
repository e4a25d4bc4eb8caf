import Mathlib.Logic.Relation
import Lunaria.Dvm.Calendar

/-! What is done to a calendar besides setting it: a field is cleared, added to or rolled. An addition goes to a day and a
    time of day, whose instant is a 64-bit number; a field that is rolled leaves the larger ones. -/

namespace Lunaria.Dvm.Calendar

open Function

/-- No field means all of them. -/
def lcClear (zone : Option LcZone) (field : Option Field) (c : LcCalendar) : Except LcError LcCalendar :=
  match field with
  | none =>
    .ok { c with
      fields := fun _ => 0, stamps := fun _ => 0, nextStamp := 2, timeValid := false, fieldsValid := false
      virtualFields := false }
  | some field => do
    if !fieldOk c field then .error .field
    let c ← (if c.virtualFields then computeFields zone c else .ok c)
    .ok { c with
      fields := update c.fields field 0, stamps := update c.stamps field 0
      timeValid := false, fieldsValid := false, virtualFields := false }

def setWallDay (zone : Option LcZone) (day tod : Int) (c : LcCalendar) : Except LcError LcCalendar :=
  if day - lcEpochJd < int64Min.tdiv lcDay ∨ int64Max.tdiv lcDay < day - lcEpochJd then .error .range
  else
    let wall := i64 ((day - lcEpochJd) * lcDay + tod)
    match zone.bind (·.resolve) with
    | none => lcSetMillis c wall
    | some resolve =>
      match resolve wall c.repeated c.skipped c.lenient with
      | none => .error .zone
      | some millis => lcSetMillis c millis

/-- The outcome of a call and the calendar after it, where the call changes it only if it does not fail. -/
def settle (c : LcCalendar) : Except LcError LcCalendar → Except LcError Unit × LcCalendar
  | .error err => (.error err, c)
  | .ok c => (.ok (), c)

/-- A field is set and the instant worked out. -/
def setAndGet (zone : Option LcZone) (field : Field) (val : Int) (c : LcCalendar) : Except LcError Unit × LcCalendar :=
  match lcSet zone field val c with
  | .error err => (.error err, c)
  | .ok c =>
    match lcGetMillis zone c with
    | (.error err, c) => (.error err, c)
    | (.ok _, c) => (.ok (), c)

section
variable (c : LcCalendar)

/-- A date, or the last day of its month where the month is too short. -/
def pinned (year month date : Int) : Int :=
  civil c year month (if (monthLength c year month : Int) < date then monthLength c year month else date)

end

/-- The fields that can be added to. -/
def addable : List Field := Field.all.take 15

/-- How many milliseconds a unit of a time field has. -/
def unitMillis : Field → Int
  | .amPm => 43200000
  | .hour | .hourOfDay => 3600000
  | .minute => 60000
  | .second => 1000
  | _ => 1

def lcAdd (zone : Option LcZone) (field : Field) (amount : Int) (c : LcCalendar) : Except LcError Unit × LcCalendar :=
  if !fieldOk c field || field ∉ addable then (.error .field, c)
  else if amount = 0 then (.ok (), c)
  else
    match complete zone c with
    | (.error err, c) => (.error err, c)
    | (.ok _, c) =>
      let year := c.fields .extendedYear
      let month := c.fields .month
      let date := c.fields .date
      let tod := c.fields .millisecondsInDay
      match field with
      | .year =>
        let year := if !c.buddhist ∧ c.fields .era = 0 then year - amount else year + amount
        settle c (setWallDay zone (pinned c year month date) tod c)
      | .month => settle c (setWallDay zone (pinned c year (month + amount) date) tod c)
      | .date | .dayOfYear | .dayOfWeek => settle c (setWallDay zone (civil c year month date + amount) tod c)
      | .weekOfYear | .weekOfMonth | .dayOfWeekInMonth =>
        settle c (setWallDay zone (civil c year month date + amount * 7) tod c)
      | .era =>
        let era := c.fields .era + amount
        setAndGet zone .era (if era < 0 then 0 else if 1 < era then 1 else era) c
      | _ =>
        let delta := amount * unitMillis field
        if (0 < delta ∧ int64Max - delta < c.millis) ∨ (delta < 0 ∧ c.millis < int64Min - delta) then (.error .range, c)
        else settle c (lcSetMillis c (c.millis + delta))

/-- How many values a time field has. -/
def cycleLength : Field → Int
  | .hour => 12
  | .hourOfDay => 24
  | .amPm => 2
  | .millisecond => 1000
  | _ => 60

def lcRoll (zone : Option LcZone) (field : Field) (amount : Int) (c : LcCalendar) : Except LcError Unit × LcCalendar :=
  if !fieldOk c field then (.error .field, c)
  else if amount = 0 then (.ok (), c)
  else
    match complete zone c with
    | (.error err, c) => (.error err, c)
    | (.ok _, c) =>
      let year := c.fields .extendedYear
      let month := c.fields .month
      let date := c.fields .date
      let tod := c.fields .millisecondsInDay
      match field with
      | .date =>
        let first := civil c year month 1
        let last := civil c year (month + 1) 1
        settle c (setWallDay zone (first + mod (civil c year month date - first + amount) (last - first)) tod c)
      | .dayOfYear =>
        let first := civil c year 0 1
        let last := civil c (year + 1) 0 1
        settle c (setWallDay zone (first + mod (civil c year month date - first + amount) (last - first)) tod c)
      | .month => settle c (setWallDay zone (pinned c year (mod (month + amount) 12) date) tod c)
      | .hour | .hourOfDay | .amPm | .minute | .second | .millisecond =>
        setAndGet zone field (i32 (mod (c.fields field + amount) (cycleLength field))) c
      | _ => (.error .unsupported, c)

/-- The instant that the fields stand for. -/
def resolveInstant (zone : Option LcZone) (c : LcCalendar) : Except LcError Int :=
  if !c.lenient && !inLimits c then .error .range
  else (dayOf c (resolveDate c.stamps)).bind fun day => (wallOf day (timeOfDay c)).bind fun wall =>
    (instantOf c zone wall).bind (clamp c)

theorem ok_of_bind {α β : Type} {r : Except LcError α} {next : α → Except LcError β} {b : β} :
    r.bind next = .ok b → ∃ a, r = .ok a ∧ next a = .ok b := by
  cases r with
  | error err =>
    intro h
    cases h
  | ok a => exact fun h => ⟨a, rfl, h⟩

theorem computeTime_eq (zone : Option LcZone) (c : LcCalendar) : computeTime zone c =
    (resolveInstant zone c).map fun millis => { c with millis := millis, timeValid := true, virtualFields := false } := by
  rw [computeTime, resolveInstant]
  split
  · rfl
  · cases dayOf c (resolveDate c.stamps) with
    | error err => rfl
    | ok day =>
      change (wallOf day (timeOfDay c)).bind _ = ((wallOf day (timeOfDay c)).bind _).map _
      cases wallOf day (timeOfDay c) with
      | error err => rfl
      | ok wall =>
        change (instantOf c zone wall).bind _ = ((instantOf c zone wall).bind _).map _
        cases instantOf c zone wall with
        | error err => rfl
        | ok millis =>
          change (clamp c millis).bind _ = (clamp c millis).map _
          cases clamp c millis with
          | error err => rfl
          | ok millis => rfl

/-! ### Runs -/

/-- The calls that change a calendar, with the zone they are made with. -/
inductive CalendarCall
  | setMillis (millis : Int)
  | set (zone : Option LcZone) (field : Field) (val : Int)
  | clear (zone : Option LcZone) (field : Option Field)
  | get (zone : Option LcZone) (field : Field)
  | getMillis (zone : Option LcZone)
  | add (zone : Option LcZone) (field : Field) (amount : Int)
  | roll (zone : Option LcZone) (field : Field) (amount : Int)

/-- The calendar after a call, whether it failed or not. -/
def CalendarCall.run (c : LcCalendar) : CalendarCall → LcCalendar
  | .setMillis millis => (settle c (lcSetMillis c millis)).2
  | .set zone field val => (settle c (lcSet zone field val c)).2
  | .clear zone field => (settle c (lcClear zone field c)).2
  | .get zone field => (lcGet zone field c).2
  | .getMillis zone => (lcGetMillis zone c).2
  | .add zone field amount => (lcAdd zone field amount c).2
  | .roll zone field amount => (lcRoll zone field amount c).2

def runCalls (c : LcCalendar) (calls : List CalendarCall) : LcCalendar := calls.foldl CalendarCall.run c

def CalendarCall.zone : CalendarCall → Option LcZone
  | .setMillis _ => none
  | .set zone .. | .clear zone _ | .get zone _ | .getMillis zone | .add zone .. | .roll zone .. => zone

def CalendarCall.sets : CalendarCall → Bool
  | .set .. => true
  | .add _ field _ => field = .era
  | .roll _ field _ => field ∈ [.hour, .hourOfDay, .amPm, .minute, .second, .millisecond]
  | _ => false

/-! ### What calls are made of -/

/-- One change of a calendar, and whether it sets a field. -/
inductive Move (zone : Option LcZone) : Bool → LcCalendar → LcCalendar → Prop
  | solve {c : LcCalendar} {millis : Int} (h : c.timeValid = false) :
      Move zone false c { c with millis := millis, timeValid := true, virtualFields := false }
  | read {c c' : LcCalendar} (hv : c.timeValid = true) (h : computeFields zone c = .ok c') : Move zone false c c'
  | setMillis {c c' : LcCalendar} {millis : Int} (h : lcSetMillis c millis = .ok c') : Move zone false c c'
  | clear {c c' : LcCalendar} {field : Option Field} (h : lcClear zone field c = .ok c') : Move zone false c c'
  | set {c c' : LcCalendar} {field : Field} {val : Int} (h : lcSet zone field val c = .ok c') : Move zone true c c'

/-- Any number of them, which set a field only if that is allowed. -/
def Moves (zone : Option LcZone) (sets : Bool) : LcCalendar → LcCalendar → Prop :=
  Relation.ReflTransGen fun c c' => ∃ b, (b = true → sets = true) ∧ Move zone b c c'

section
variable {zone : Option LcZone} {sets : Bool} {c c' : LcCalendar}

theorem Move.moves (h : Move zone false c c') : Moves zone sets c c' :=
  .single ⟨false, fun hb => (nomatch hb), h⟩

theorem Moves.settle {r : Except LcError LcCalendar} (h : ∀ c', r = .ok c' → Moves zone sets c c') :
    Moves zone sets c (settle c r).2 := by
  cases r with
  | error err => exact .refl
  | ok c' => exact h c' rfl

theorem lcSet_spec {field : Field} {val : Int} (h : lcSet zone field val c = .ok c') :
    ∃ c₁ : LcCalendar, (c₁ = c ∨ computeFields zone c = .ok c₁) ∧ c' = { c₁ with
      fields := update c₁.fields field val
      stamps := update (if c₁.nextStamp = 0xffffffff then rerank c₁.stamps else c₁.stamps) field
        (if c₁.nextStamp = 0xffffffff then Field.all.length + 2 else c₁.nextStamp)
      nextStamp := (if c₁.nextStamp = 0xffffffff then Field.all.length + 2 else c₁.nextStamp) + 1
      timeValid := false, fieldsValid := false, virtualFields := false } := by
  rw [lcSet] at h
  split at h
  · cases h
  · obtain ⟨c₁, hc, ⟨⟩⟩ := ok_of_bind h
    refine ⟨c₁, ?_, ?_⟩
    · split at hc
      · exact .inr hc
      · exact .inl (Except.ok.inj hc).symm
    · split <;> rfl

theorem lcClear_spec {field : Field} (h : lcClear zone (some field) c = .ok c') :
    ∃ c₁ : LcCalendar, (c₁ = c ∨ computeFields zone c = .ok c₁) ∧ c' = { c₁ with
      fields := update c₁.fields field 0, stamps := update c₁.stamps field 0
      timeValid := false, fieldsValid := false, virtualFields := false } := by
  rw [lcClear] at h
  split at h
  · cases h
  · obtain ⟨c₁, hc, ⟨⟩⟩ := ok_of_bind h
    refine ⟨c₁, ?_, rfl⟩
    split at hc
    · exact .inr hc
    · exact .inl (Except.ok.inj hc).symm

theorem lcGetMillis_moves (zone : Option LcZone) (sets : Bool) (c : LcCalendar) :
    Moves zone sets c (lcGetMillis zone c).2 := by
  rw [lcGetMillis, computeTime_eq]
  split
  · exact .refl
  · rename_i hv
    cases resolveInstant zone c with
    | error err => exact .refl
    | ok millis => exact (Move.solve (Bool.not_eq_true _ ▸ hv)).moves

theorem lcGetMillis_valid {millis : Int} (h : lcGetMillis zone c = (.ok millis, c')) :
    c'.timeValid = true ∧ c'.millis = millis := by
  rw [lcGetMillis, computeTime_eq] at h
  split at h
  · cases h
    exact ⟨‹_›, rfl⟩
  · cases hr : resolveInstant zone c with
    | error err =>
      rw [hr] at h
      cases h
    | ok millis =>
      rw [hr] at h
      cases h
      exact ⟨rfl, rfl⟩

theorem complete_moves (zone : Option LcZone) (sets : Bool) (c : LcCalendar) : Moves zone sets c (complete zone c).2 := by
  have hget := lcGetMillis_moves zone sets c
  rw [complete]
  cases hm : lcGetMillis zone c with
  | mk r c₁ =>
    rw [hm] at hget
    cases r with
    | error err => exact hget
    | ok millis =>
      dsimp only
      split
      · exact hget
      · cases hf : computeFields zone c₁ with
        | error err => exact hget
        | ok c₂ => exact hget.trans (Move.read (lcGetMillis_valid hm).1 hf).moves

theorem setWallDay_moves (zone : Option LcZone) (sets : Bool) (day tod : Int) (c : LcCalendar) :
    Moves zone sets c (settle c (setWallDay zone day tod c)).2 := by
  refine Moves.settle fun c' h => ?_
  rw [setWallDay] at h
  split at h
  · cases h
  · dsimp only at h
    split at h
    · exact (Move.setMillis h).moves
    · split at h
      · cases h
      · exact (Move.setMillis h).moves

theorem setAndGet_moves (hsets : sets = true) (field : Field) (val : Int) :
    Moves zone sets c (setAndGet zone field val c).2 := by
  rw [setAndGet]
  cases hs : lcSet zone field val c with
  | error err => exact .refl
  | ok c₁ =>
    have hset : Moves zone sets c c₁ := .single ⟨true, fun _ => hsets, .set hs⟩
    have hget := hset.trans (lcGetMillis_moves zone sets c₁)
    dsimp only
    cases hm : lcGetMillis zone c₁ with
    | mk r c₂ =>
      rw [hm] at hget
      cases r <;> exact hget

theorem lcAdd_moves (field : Field) (amount : Int) : Moves zone (field = .era) c (lcAdd zone field amount c).2 := by
  have hcomplete := complete_moves zone (field = .era) c
  rw [lcAdd]
  split
  · exact .refl
  · split
    · exact .refl
    · cases hm : complete zone c with
      | mk r c₁ =>
        rw [hm] at hcomplete
        cases r with
        | error err => exact hcomplete
        | ok _ =>
          refine hcomplete.trans ?_
          dsimp only
          split
          iterate 8 exact setWallDay_moves ..
          · exact setAndGet_moves rfl .era _
          · split
            · exact .refl
            · exact Moves.settle fun _ h => (Move.setMillis h).moves

theorem lcRoll_moves (field : Field) (amount : Int) :
    Moves zone (field ∈ [Field.hour, .hourOfDay, .amPm, .minute, .second, .millisecond]) c
      (lcRoll zone field amount c).2 := by
  have hcomplete := complete_moves zone (field ∈ [Field.hour, .hourOfDay, .amPm, .minute, .second, .millisecond]) c
  rw [lcRoll]
  split
  · exact .refl
  · split
    · exact .refl
    · cases hm : complete zone c with
      | mk r c₁ =>
        rw [hm] at hcomplete
        cases r with
        | error err => exact hcomplete
        | ok _ =>
          refine hcomplete.trans ?_
          dsimp only
          split
          iterate 3 exact setWallDay_moves ..
          iterate 6 exact setAndGet_moves rfl _ _
          · exact .refl

theorem CalendarCall.moves (c : LcCalendar) (call : CalendarCall) : Moves call.zone call.sets c (call.run c) := by
  cases call with
  | setMillis millis => exact Moves.settle fun _ h => (Move.setMillis h).moves
  | set zone field val => exact Moves.settle fun _ h => .single ⟨true, fun _ => rfl, .set h⟩
  | clear zone field => exact Moves.settle fun _ h => (Move.clear h).moves
  | get zone field =>
    have hcomplete := complete_moves zone false c
    rw [CalendarCall.run, lcGet]
    split
    · exact .refl
    · cases hm : complete zone c with
      | mk r c₁ =>
        rw [hm] at hcomplete
        cases r <;> exact hcomplete
  | getMillis zone => exact lcGetMillis_moves zone false c
  | add zone field amount => exact lcAdd_moves field amount
  | roll zone field amount => exact lcRoll_moves field amount

end

end Lunaria.Dvm.Calendar
