import Lunaria.Dvm.CalendarCivil
import Lunaria.Lib.Returns

/-! The zones of the calendar, `dvm_time.h`: the offset the C library has at an instant, and the instant of a wall time. -/

namespace Lunaria.Dvm.Calendar
open Checked List

/-- A broken-down time: its date and time of day as a count of seconds, and what `localtime` says of the zone. -/
structure Tm where
  clock : Int
  gmtoff : Int
  isdst : Int

/-- What is outside: the zone of the device, `localtime_r` and `mktime` under a value of `TZ`. No time stands for
    `EOVERFLOW` and for a copy of the old value that could not be made. -/
structure ZoneHost where
  deviceTimezone : String
  localtime : String → Int → Tm
  mktime : String → Tm → Option Int

/-- `struct cal_zone_context` -/
structure CalZoneContext where
  id : String
  fixed : Bool
  offset : Int

def int32Min : Int := -2147483648

def int32Max : Int := 2147483647

def Int64 (x : Int) : Prop := int64Min ≤ x ∧ x ≤ int64Max

instance (x : Int) : Decidable (Int64 x) := inferInstanceAs (Decidable (_ ∧ _))

def timeBreak (host : ZoneHost) (ms : Int) (zone : String) : Tm :=
  let secs := ms.tdiv 1000 - if ms < 0 ∧ ms.tmod 1000 ≠ 0 then 1 else 0
  let zone := if zone = "" then host.deviceTimezone else zone
  if zone = "UTC" ∨ zone = "GMT" then { clock := secs, gmtoff := 0, isdst := 0 } else host.localtime zone secs

def calHostOffset (host : ZoneHost) (z : CalZoneContext) (millis : Int) : Option (Int × Int) :=
  if z.fixed then some (z.offset, 0)
  else do
    let tm := timeBreak host millis z.id
    let total := tm.gmtoff
    -- with no daylight saving `mktime` takes the clock for standard time
    let standard ← (
      if 0 < tm.isdst then (host.mktime z.id { tm with isdst := 0 }).map fun time => total - (time - lcFloor millis 1000)
      else some total)
    if standard < int32Min.tdiv 1000 ∨ int32Max.tdiv 1000 < standard ∨
        total - standard < int32Min.tdiv 1000 ∨ int32Max.tdiv 1000 < total - standard then none
    else some (standard * 1000, (total - standard) * 1000)

/-- `cal_host_offset` where it is called; `false` ends the caller. -/
def offsetAt (host : ZoneHost) (z : CalZoneContext) (millis : Int) : Checked (Int × Int) :=
  match calHostOffset host z millis with
  | some offsets => .ok offsets
  | none => .fail

/-- One turn of the first loop: the offset at the sample, and whether the wall time less that offset is an instant with it. -/
def calSample (host : ZoneHost) (z : CalZoneContext) (wall i : Int) : Checked (Int × Bool) := do
  let sample := wall + (i - 1) * 172800000
  assert (Int64 sample)
  let (raw, dst) ← offsetAt host z sample
  let offset := raw + dst
  assert (int32Min ≤ offset ∧ offset ≤ int32Max ∧ Int64 (wall - offset))
  let (raw, dst) ← offsetAt host z (wall - offset)
  return (offset, raw + dst == offset)

/-- A candidate that is valid, where it is not there already. -/
def addCandidate (wall : Int) (cs : List Int) (s : Int × Bool) : List Int :=
  if s.2 ∧ wall - s.1 ∉ cs then cs ++ [wall - s.1] else cs

def candidates (wall : Int) (samples : List (Int × Bool)) : List Int := samples.foldl (addCandidate wall) []

/-- Whether a candidate takes the place of the one that was chosen. -/
def Better (repeated c chosen : Int) : Prop := if repeated ≠ 0 then c < chosen else chosen < c

instance (repeated c chosen : Int) : Decidable (Better repeated c chosen) :=
  inferInstanceAs (Decidable (if repeated ≠ 0 then c < chosen else chosen < c))

def choose (repeated first : Int) (rest : List Int) : Int :=
  rest.foldl (fun chosen c => if Better repeated c chosen then c else chosen) first

/-- The search for the transition in a gap. -/
def calSearch (host : ZoneHost) (z : CalZoneContext) (wall start stop : Int) : Checked Int := do
  assert (Int64 (start + 1))
  if start + 1 < stop then
    assert (Int64 (stop - start))
    let mid := start + (stop - start) / 2
    let (raw, dst) ← offsetAt host z mid
    assert (Int64 (mid + raw) ∧ Int64 (mid + raw + dst))
    if mid + raw + dst < wall then calSearch host z wall mid stop else calSearch host z wall start mid
  else return stop
termination_by (stop - start).toNat

/-- The end of `cal_host_resolve`, where there is no candidate. -/
def gapInstant (host : ZoneHost) (z : CalZoneContext) (wall o₀ o₁ o₂ skipped : Int) (lenient : Bool) : Checked Int := do
  require lenient
  let low := min (min o₀ o₁) o₂
  let high := max (max o₀ o₁) o₂
  assert (Int64 (wall - low) ∧ Int64 (wall - high))
  if skipped ≠ 2 then return wall - if skipped ≠ 0 then high else low
  else calSearch host z wall (wall - high) (wall - low)

def calHostResolve (host : ZoneHost) (z : CalZoneContext) (wall repeated skipped : Int) (lenient : Bool) : Checked Int :=
  if z.fixed then
    if (0 < z.offset ∧ wall < int64Min + z.offset) ∨ (z.offset < 0 ∧ int64Max + z.offset < wall) then .fail
    else return wall - z.offset
  else do
    let s₀ ← calSample host z wall 0
    let s₁ ← calSample host z wall 1
    let s₂ ← calSample host z wall 2
    match candidates wall [s₀, s₁, s₂] with
    | first :: rest => return choose repeated first rest
    | [] => gapInstant host z wall s₀.1 s₁.1 s₂.1 skipped lenient

/-! ### The candidates -/

section
variable {host : ZoneHost} {z : CalZoneContext} {off : Int → Int} {wall T b a repeated skipped : Int}
    {lenient : Bool} {t : Int}

theorem mem_addCandidate {cs : List Int} {s : Int × Bool} :
    t ∈ addCandidate wall cs s ↔ t ∈ cs ∨ s.2 ∧ t = wall - s.1 := by
  rw [addCandidate]
  by_cases hadd : s.2 ∧ wall - s.1 ∉ cs
  · rw [if_pos hadd, mem_append, mem_singleton, and_iff_right hadd.1]
  · rw [if_neg hadd, iff_self_or]
    rintro ⟨hvalid, rfl⟩
    by_contra hnot
    exact hadd ⟨hvalid, hnot⟩

theorem mem_candidates {samples : List (Int × Bool)} :
    t ∈ candidates wall samples ↔ ∃ s ∈ samples, s.2 ∧ t = wall - s.1 := by
  have hfold : ∀ (samples : List (Int × Bool)) (cs : List Int),
      t ∈ samples.foldl (addCandidate wall) cs ↔ t ∈ cs ∨ ∃ s ∈ samples, s.2 ∧ t = wall - s.1 := by
    intro samples
    induction samples with
    | nil => simp
    | cons s samples ih =>
      intro cs
      simp [ih, mem_addCandidate, or_assoc]
  rw [candidates, hfold]
  simp

theorem better_irrefl (repeated c : Int) : ¬Better repeated c c := by
  unfold Better
  split_ifs <;> exact lt_irrefl c

theorem not_better_trans {repeated c d e : Int} (hcd : ¬Better repeated c d) (hde : ¬Better repeated d e) :
    ¬Better repeated c e := by
  unfold Better at *
  split_ifs at * <;> omega

theorem choose_spec (repeated : Int) : ∀ (rest : List Int) (first : Int),
    choose repeated first rest ∈ first :: rest ∧ ∀ t ∈ first :: rest, ¬Better repeated t (choose repeated first rest)
  | [], first => by simpa [choose] using better_irrefl repeated first
  | c :: rest, first => by
    have hstep :
      choose repeated first (c :: rest) = choose repeated (if Better repeated c first then c else first) rest := rfl
    rw [hstep]
    by_cases hc : Better repeated c first
    · rw [if_pos hc]
      obtain ⟨hmem, hbest⟩ := choose_spec repeated rest c
      refine ⟨mem_cons_of_mem _ hmem, fun t ht => ?_⟩
      rcases mem_cons.1 ht with rfl | ht
      · have hfirst : ¬Better repeated t c := by
          unfold Better at *
          split_ifs at * <;> omega
        exact not_better_trans hfirst (hbest c (mem_cons_self ..))
      · exact hbest t ht
    · rw [if_neg hc]
      obtain ⟨hmem, hbest⟩ := choose_spec repeated rest first
      refine ⟨?_, fun t ht => ?_⟩
      · rcases mem_cons.1 hmem with heq | hmem
        · exact mem_cons.2 (.inl heq)
        · exact mem_cons_of_mem _ (mem_cons_of_mem _ hmem)
      · rcases mem_cons.1 ht with rfl | ht
        · exact hbest t (mem_cons_self ..)
        · rcases mem_cons.1 ht with rfl | ht
          · exact not_better_trans hc (hbest first (mem_cons_self ..))
          · exact hbest t (mem_cons_of_mem _ ht)

/-! ### One transition -/

variable (host z off wall T b a) in
/-- What is known of a zone around a wall time: `cal_host_offset` gives its offsets within three days, they are 18 hours
    at most, and among those days there is one transition at most, at `T` from `b` to `a`. The wall time is fifty days
    from the limits. -/
structure OneTransition : Prop where
  fixed : z.fixed = false
  given : ∀ t, wall - 259200000 ≤ t → t ≤ wall + 259200000 →
    ∃ raw dst, calHostOffset host z t = some (raw, dst) ∧ raw + dst = off t
  bounded : ∀ t, -64800000 ≤ off t ∧ off t ≤ 64800000
  once : ∀ t, wall - 259200000 ≤ t → t ≤ wall + 259200000 → off t = if t < T then b else a
  lower : int64Min + 2 ^ 32 ≤ wall
  upper : wall ≤ int64Max - 2 ^ 32

theorem calHostOffset_raw {t raw dst : Int} (hfixed : z.fixed = false) (h : calHostOffset host z t = some (raw, dst)) :
    -2147483000 ≤ raw ∧ raw ≤ 2147483000 := by
  rw [calHostOffset, if_neg (by rw [hfixed]; exact Bool.false_ne_true)] at h
  obtain ⟨standard, -, h⟩ := Option.bind_eq_some_iff.1 h
  split_ifs at h with hrange
  cases h
  have hmin : int32Min.tdiv 1000 = -2147483 := by decide
  have hmax : int32Max.tdiv 1000 = 2147483 := by decide
  rw [hmin, hmax] at hrange
  omega

theorem OneTransition.int64 (h : OneTransition host z off wall T b a) {d : Int} (hd : -2 ^ 32 ≤ d) (hd' : d ≤ 2 ^ 32) :
    Int64 (wall + d) := by
  have := h.lower
  have := h.upper
  exact ⟨by omega, by omega⟩

theorem OneTransition.offsetAt (h : OneTransition host z off wall T b a) (ht : wall - 259200000 ≤ t)
    (ht' : t ≤ wall + 259200000) : ∃ raw dst, offsetAt host z t = .ok (raw, dst) ∧ raw + dst = off t ∧
      -2147483000 ≤ raw ∧ raw ≤ 2147483000 := by
  obtain ⟨raw, dst, hgiven, hsum⟩ := h.given t ht ht'
  refine ⟨raw, dst, ?_, hsum, calHostOffset_raw h.fixed hgiven⟩
  rw [Calendar.offsetAt, hgiven]

/-- What the first loop keeps of a sample. -/
def sampleOf (off : Int → Int) (wall i : Int) : Int × Bool :=
  (off (wall + (i - 1) * 172800000), off (wall - off (wall + (i - 1) * 172800000)) == off (wall + (i - 1) * 172800000))

theorem OneTransition.calSample (h : OneTransition host z off wall T b a) {i : Int} (hi : 0 ≤ i) (hi' : i ≤ 2) :
    calSample host z wall i = .ok (sampleOf off wall i) := by
  obtain ⟨raw, dst, hat, hsum, -⟩ := h.offsetAt (t := wall + (i - 1) * 172800000) (by omega) (by omega)
  have hb := h.bounded (wall + (i - 1) * 172800000)
  rw [← hsum] at hb
  obtain ⟨raw', dst', hat', hsum', -⟩ := h.offsetAt (t := wall - (raw + dst)) (by omega) (by omega)
  have hint : Int64 (wall + (i - 1) * 172800000) := h.int64 (by omega) (by omega)
  have hint' : Int64 (wall - (raw + dst)) := by
    rw [Int.sub_eq_add_neg]
    exact h.int64 (by omega) (by omega)
  have h32 : int32Min ≤ raw + dst ∧ raw + dst ≤ int32Max ∧ Int64 (wall - (raw + dst)) := by
    refine ⟨?_, ?_, hint'⟩
    · rw [int32Min]
      omega
    · rw [int32Max]
      omega
  rw [Calendar.calSample]
  simp only [assert, if_pos hint, hat, bind_ok, if_pos h32, hat', pure_eq, hsum']
  rw [sampleOf, ← hsum]

theorem OneTransition.mem_candidates (h : OneTransition host z off wall T b a) :
    t ∈ candidates wall [sampleOf off wall 0, sampleOf off wall 1, sampleOf off wall 2] ↔ t + off t = wall := by
  rw [Calendar.mem_candidates]
  constructor
  · rintro ⟨s, hs, hvalid, rfl⟩
    obtain ⟨i, rfl⟩ : ∃ i, s = sampleOf off wall i := by
      rcases mem_cons.1 hs with rfl | hs
      · exact ⟨0, rfl⟩
      rcases mem_cons.1 hs with rfl | hs
      · exact ⟨1, rfl⟩
      · exact ⟨2, mem_singleton.1 hs⟩
    have hoff := beq_iff_eq.1 hvalid
    rw [sampleOf] at *
    rw [hoff]
    omega
  · intro ht
    have hb := h.bounded t
    have hother : ∀ i : Int, 0 ≤ i → i ≤ 2 → off (wall + (i - 1) * 172800000) = off t →
        (sampleOf off wall i).2 = true ∧ t = wall - (sampleOf off wall i).1 := by
      intro i hi hi' hoff
      have heq : t = wall - off t := by omega
      rw [sampleOf, hoff, ← heq]
      exact ⟨beq_self_eq_true _, rfl⟩
    have hoff := h.once t (by omega) (by omega)
    by_cases hbefore : t < T
    · have hzero := h.once (wall + (0 - 1) * 172800000) (by omega) (by omega)
      rw [if_pos hbefore] at hoff
      rw [if_pos (by omega)] at hzero
      exact ⟨_, by simp, hother 0 (by omega) (by omega) (hzero.trans hoff.symm)⟩
    · have htwo := h.once (wall + (2 - 1) * 172800000) (by omega) (by omega)
      rw [if_neg hbefore] at hoff
      rw [if_neg (by omega)] at htwo
      exact ⟨_, by simp, hother 2 (by omega) (by omega) (htwo.trans hoff.symm)⟩

theorem OneTransition.calSearch (h : OneTransition host z off wall T b a) (hgap : wall - a < T) (hgap' : T ≤ wall - b)
    (ha : a ≤ 64800000) (hb : -64800000 ≤ b) {start stop : Int} (hstart : wall - a ≤ start) (hstop : stop ≤ wall - b)
    (hT : start < T) (hT' : T ≤ stop) : calSearch host z wall start stop = .ok T := by
  have hint : ∀ t, wall - 2 ^ 32 ≤ t → t ≤ wall + 2 ^ 32 → Int64 t := fun t ht ht' => by
    have := h.int64 (d := t - wall) (by omega) (by omega)
    rwa [show wall + (t - wall) = t by omega] at this
  have hnext : Int64 (start + 1) := hint _ (by omega) (by omega)
  rw [Calendar.calSearch, assert, if_pos hnext]
  by_cases hdone : start + 1 < stop
  · obtain ⟨raw, dst, hat, hsum, hraw, hraw'⟩ := h.offsetAt (t := start + (stop - start) / 2) (by omega) (by omega)
    have honce := h.once (start + (stop - start) / 2) (by omega) (by omega)
    have hbound := h.bounded (start + (stop - start) / 2)
    have hwidth : Int64 (stop - start) := by
      refine ⟨?_, ?_⟩
      · rw [int64Min]
        omega
      · rw [int64Max]
        omega
    have hmid : Int64 (start + (stop - start) / 2 + raw) ∧ Int64 (start + (stop - start) / 2 + raw + dst) :=
      ⟨hint _ (by omega) (by omega), hint _ (by omega) (by omega)⟩
    simp only [assert, bind_ok, if_pos hdone, if_pos hwidth, hat, if_pos hmid]
    by_cases hbefore : start + (stop - start) / 2 < T
    · rw [if_pos hbefore] at honce
      rw [if_pos (by omega)]
      exact h.calSearch hgap hgap' ha hb (by omega) hstop hbefore hT'
    · rw [if_neg hbefore] at honce
      rw [if_neg (by omega)]
      exact h.calSearch hgap hgap' ha hb hstart (by omega) hT (Int.not_lt.1 hbefore)
  · rw [bind_ok, if_neg hdone, pure_eq]
    congr 1
    omega
termination_by (stop - start).toNat

theorem OneTransition.gap (h : OneTransition host z off wall T b a) (hnone : ∀ t, t + off t ≠ wall) :
    wall - a < T ∧ T ≤ wall - b ∧ a ≤ 64800000 ∧ -64800000 ≤ b ∧ off (wall - 172800000) = b ∧
      off (wall + 172800000) = a := by
  have hlow := h.once (wall - 172800000) (by omega) (by omega)
  have hhigh := h.once (wall + 172800000) (by omega) (by omega)
  have hbl := h.bounded (wall - 172800000)
  have hbh := h.bounded (wall + 172800000)
  -- an offset at both samples is that of all days between, so that one of the instants would have it
  have hT : wall - 172800000 < T := by
    by_contra hle
    rw [if_neg (by omega)] at hlow
    have honce := h.once (wall - a) (by omega) (by omega)
    rw [if_neg (by omega)] at honce
    exact hnone (wall - a) (by omega)
  have hT' : ¬wall + 172800000 < T := by
    intro hlt
    rw [if_pos hlt] at hhigh
    have honce := h.once (wall - b) (by omega) (by omega)
    rw [if_pos (by omega)] at honce
    exact hnone (wall - b) (by omega)
  rw [if_pos hT] at hlow
  rw [if_neg hT'] at hhigh
  have hbefore := h.once (wall - b) (by omega) (by omega)
  have hafter := h.once (wall - a) (by omega) (by omega)
  refine ⟨?_, ?_, by omega, by omega, hlow, hhigh⟩
  · by_contra hle
    rw [if_neg (by omega)] at hafter
    exact hnone (wall - a) (by omega)
  · by_contra hlt
    rw [if_pos (by omega)] at hbefore
    exact hnone (wall - b) (by omega)

theorem OneTransition.calHostResolve (h : OneTransition host z off wall T b a) :
    calHostResolve host z wall repeated skipped lenient =
    match candidates wall [sampleOf off wall 0, sampleOf off wall 1, sampleOf off wall 2] with
    | first :: rest => .ok (choose repeated first rest)
    | [] => gapInstant host z wall (sampleOf off wall 0).1 (sampleOf off wall 1).1 (sampleOf off wall 2).1
      skipped lenient := by
  have hfixed : ¬z.fixed = true := by
    rw [h.fixed]
    exact Bool.false_ne_true
  rw [Calendar.calHostResolve, if_neg hfixed, h.calSample (by omega) (by omega), h.calSample (by omega) (by omega),
    h.calSample (by omega) (by omega)]
  rfl

theorem OneTransition.resolves (h : OneTransition host z off wall T b a) (hsome : ∃ t, t + off t = wall) :
    ∃ m, (if repeated = 0 then IsGreatest {t | t + off t = wall} m else IsLeast {t | t + off t = wall} m) ∧
      Calendar.calHostResolve host z wall repeated skipped lenient = .ok m := by
  rw [h.calHostResolve]
  obtain ⟨t, ht⟩ := hsome
  cases hcs : candidates wall [sampleOf off wall 0, sampleOf off wall 1, sampleOf off wall 2] with
  | nil =>
    have hmem := h.mem_candidates.2 ht
    rw [hcs] at hmem
    cases hmem
  | cons first rest =>
    refine ⟨choose repeated first rest, ?_, rfl⟩
    obtain ⟨hmem, hbest⟩ := choose_spec repeated rest first
    rw [← hcs, h.mem_candidates] at hmem
    have hbest' : ∀ t, t + off t = wall → ¬Better repeated t (choose repeated first rest) := fun t ht =>
      hbest t (hcs ▸ h.mem_candidates.2 ht)
    unfold Better at hbest'
    by_cases hr : repeated = 0
    · rw [if_pos hr]
      refine ⟨hmem, fun t ht => ?_⟩
      have := hbest' t ht
      rw [if_neg fun h => h hr] at this
      exact Int.not_lt.1 this
    · rw [if_neg hr]
      refine ⟨hmem, fun t ht => ?_⟩
      have := hbest' t ht
      rw [if_pos hr] at this
      exact Int.not_lt.1 this

theorem OneTransition.resolves_gap (h : OneTransition host z off wall T b a) (hnone : ∀ t, t + off t ≠ wall) :
    b < a ∧ Calendar.calHostResolve host z wall repeated skipped lenient =
      if lenient = false then .fail else if skipped = 0 then .ok (wall - b) else if skipped = 2 then .ok T else .ok
        (wall - a) := by
  obtain ⟨hgap, hgap', ha, hb, hfirst, hlast⟩ := h.gap hnone
  have hlt : b < a := by omega
  refine ⟨hlt, ?_⟩
  rw [h.calHostResolve]
  cases hcs : candidates wall [sampleOf off wall 0, sampleOf off wall 1, sampleOf off wall 2] with
  | cons first rest =>
    have hmem := h.mem_candidates.1 (hcs ▸ mem_cons_self .. : first ∈ _)
    exact absurd hmem (hnone first)
  | nil =>
    have h₀ : (sampleOf off wall 0).1 = b := by
      rw [sampleOf, show wall + (0 - 1) * 172800000 = wall - 172800000 by omega]
      exact hfirst
    have h₂ : (sampleOf off wall 2).1 = a := by
      rw [sampleOf, show wall + (2 - 1) * 172800000 = wall + 172800000 by omega]
      exact hlast
    have h₁ : (sampleOf off wall 1).1 = b ∨ (sampleOf off wall 1).1 = a := by
      have honce := h.once (wall + (1 - 1) * 172800000) (by omega) (by omega)
      rw [sampleOf, honce]
      by_cases hbefore : wall + (1 - 1) * 172800000 < T
      · exact .inl (if_pos hbefore)
      · exact .inr (if_neg hbefore)
    have hlow : min (min (sampleOf off wall 0).1 (sampleOf off wall 1).1) (sampleOf off wall 2).1 = b := by
      rw [h₀, h₂]
      rcases h₁ with h₁ | h₁ <;> rw [h₁] <;> omega
    have hhigh : max (max (sampleOf off wall 0).1 (sampleOf off wall 1).1) (sampleOf off wall 2).1 = a := by
      rw [h₀, h₂]
      rcases h₁ with h₁ | h₁ <;> rw [h₁] <;> omega
    have hint : Int64 (wall - b) ∧ Int64 (wall - a) := by
      have hlow := h.bounded (wall - 172800000)
      have hhigh := h.bounded (wall + 172800000)
      rw [Int.sub_eq_add_neg, Int.sub_eq_add_neg]
      exact ⟨h.int64 (by omega) (by omega), h.int64 (by omega) (by omega)⟩
    dsimp only
    rw [gapInstant, hlow, hhigh]
    cases lenient with
    | false => rfl
    | true =>
      simp only [require, assert, if_pos hint, bind_ok, if_true, pure_eq, Bool.true_eq_false, if_false]
      by_cases hskip : skipped = 2
      · rw [if_neg (not_not.2 hskip), h.calSearch hgap hgap' ha hb (Int.le_refl _) (Int.le_refl _) hgap hgap', hskip]
        rfl
      · rw [if_pos hskip]
        by_cases hzero : skipped = 0
        · rw [if_neg (not_not.2 hzero), if_pos hzero]
        · rw [if_pos hzero, if_neg hzero, if_neg hskip]

/-- In a zone with a fixed offset a wall time has one instant, unless that is out of range. -/
theorem calHostResolve_fixed (hfixed : z.fixed = true) (hwall : Int64 wall) :
    calHostResolve host z wall repeated skipped lenient = if Int64 (wall - z.offset) then .ok
      (wall - z.offset) else .fail := by
  obtain ⟨hmin, hmax⟩ := hwall
  rw [calHostResolve, if_pos hfixed]
  by_cases hint : Int64 (wall - z.offset)
  · obtain ⟨hlow, hhigh⟩ := hint
    rw [if_neg (by omega), if_pos ⟨hlow, hhigh⟩, pure_eq]
  · rw [if_pos ?_, if_neg hint]
    by_contra hnot
    exact hint ⟨by omega, by omega⟩

/-- The instant a wall time resolves to: in a zone with a fixed offset the wall time less the offset; in a zone with one
    transition around it the latest or the earliest instant with that wall time, and in a gap an instant by the way it is
    skipped. -/
theorem calHostResolve_spec (host : ZoneHost) (z : CalZoneContext) (off : Int → Int) (wall T b a repeated skipped : Int)
    (lenient : Bool) :
    (z.fixed = true → Int64 wall → calHostResolve host z wall repeated skipped lenient =
      if Int64 (wall - z.offset) then .ok (wall - z.offset) else .fail) ∧
    (OneTransition host z off wall T b a →
      ((∃ t, t + off t = wall) → ∃ m,
        (if repeated = 0 then IsGreatest {t | t + off t = wall} m else IsLeast {t | t + off t = wall} m) ∧
        calHostResolve host z wall repeated skipped lenient = .ok m) ∧
      ((∀ t, t + off t ≠ wall) → b < a ∧ calHostResolve host z wall repeated skipped lenient =
        if lenient = false then .fail
        else if skipped = 0 then .ok (wall - b) else if skipped = 2 then .ok T else .ok (wall - a))) :=
  ⟨calHostResolve_fixed, fun h => ⟨h.resolves, h.resolves_gap⟩⟩

theorem floor_seconds (ms : Int) : (ms.tdiv 1000 - if ms < 0 ∧ ms.tmod 1000 ≠ 0 then 1 else 0) = ms / 1000 := by
  by_cases hneg : ms < 0
  · obtain ⟨n, hn, rfl⟩ : ∃ n : Int, 0 ≤ n ∧ ms = -n := ⟨-ms, by omega, by omega⟩
    rw [Int.neg_tdiv, Int.neg_tmod, Int.tdiv_eq_ediv_of_nonneg hn, Int.tmod_eq_emod_of_nonneg hn]
    by_cases hzero : n % 1000 = 0
    · rw [if_neg fun h => h.2 (by omega)]
      omega
    · rw [if_pos ⟨hneg, by omega⟩]
      omega
  · rw [if_neg fun h => hneg h.1, Int.tdiv_eq_ediv_of_nonneg (by omega), Int.sub_zero]

/-- A zone that goes forward by an hour at the epoch. -/
def forward : ZoneHost where
  deviceTimezone := "UTC"
  localtime _ secs :=
    if secs < 0 then { clock := secs, gmtoff := 0, isdst := 0 } else { clock := secs + 3600, gmtoff := 3600, isdst := 0 }
  mktime _ _ := none

theorem forward_offset (t : Int) :
    ∃ raw dst, calHostOffset forward ⟨"Zone", false, 0⟩ t = some (raw, dst) ∧ raw + dst = if t < 0 then 0 else 3600000 := by
  have hbreak : timeBreak forward t "Zone" = forward.localtime "Zone" (t / 1000) := by
    rw [timeBreak, floor_seconds]
    rfl
  have hmin : int32Min.tdiv 1000 = -2147483 := by decide
  have hmax : int32Max.tdiv 1000 = 2147483 := by decide
  rw [calHostOffset, hbreak, hmin, hmax, forward]
  by_cases hneg : t < 0
  · have hsecs : t / 1000 < 0 := by omega
    simp [hneg, hsecs]
  · have hsecs : ¬t / 1000 < 0 := by omega
    simp [hneg, hsecs]

theorem forward_oneTransition {wall : Int} (hl : int64Min + 2 ^ 32 ≤ wall) (hu : wall ≤ int64Max - 2 ^ 32) :
    OneTransition forward ⟨"Zone", false, 0⟩ (fun t => if t < 0 then 0 else 3600000) wall 0 0 3600000 where
  fixed := rfl
  given t _ _ := forward_offset t
  bounded t := by
    split_ifs <;> omega
  once _ _ _ := rfl
  lower := hl
  upper := hu

/-- A zone with a fixed offset, the two ends of the hour that is skipped, the transition, and a time after it. -/
theorem calHostResolve_forward :
    calHostResolve forward ⟨"GMT+1", true, 3600000⟩ 0 0 0 true = .ok (-3600000) ∧
    calHostResolve forward ⟨"Zone", false, 0⟩ 1800000 0 0 true = .ok 1800000 ∧
    calHostResolve forward ⟨"Zone", false, 0⟩ 1800000 0 1 true = .ok (-1800000) ∧
    calHostResolve forward ⟨"Zone", false, 0⟩ 1800000 0 2 true = .ok 0 ∧
    calHostResolve forward ⟨"Zone", false, 0⟩ 7200000 0 0 true = .ok 3600000 := by
  have hnone : ∀ t : Int, (t + if t < 0 then 0 else 3600000) ≠ 1800000 := fun t => by
    split_ifs <;> omega
  have hgap : ∀ skipped lenient, _ := fun skipped lenient =>
    (((calHostResolve_spec forward ⟨"Zone", false, 0⟩ (fun t => if t < 0 then 0 else 3600000) 1800000 0 0 3600000 0 skipped
      lenient).2 (forward_oneTransition (by decide) (by decide))).2 hnone).2
  refine ⟨?_, hgap 0 true, hgap 1 true, hgap 2 true, ?_⟩
  · exact (calHostResolve_spec forward ⟨"GMT+1", true, 3600000⟩ (fun _ => 0) 0 0 0 0 0 0 true).1 rfl (by decide)
  · obtain ⟨m, hm, hres⟩ :=
      ((calHostResolve_spec forward ⟨"Zone", false, 0⟩ (fun t => if t < 0 then 0 else 3600000) 7200000 0 0 3600000 0 0
        true).2 (forward_oneTransition (by decide) (by decide))).1 ⟨3600000, rfl⟩
    rw [if_pos rfl] at hm
    have hmem : (m + if m < 0 then 0 else 3600000) = 7200000 := hm.1
    have : m = 3600000 := by
      split_ifs at hmem <;> omega
    rw [hres, this]

end

end Lunaria.Dvm.Calendar
