import Mathlib.Data.List.Count
import Lunaria.Dvm.CalendarOps

/-! The stamps of the fields keep their order. Every call resets them, takes the fields as computed, clears one of them or
    gives one the next stamp, and the renumbering before the counter runs out keeps every comparison that is made of
    them. -/

namespace Lunaria.Dvm.Calendar
open List Function

/-! ### What calls do to the stamps -/

/-- The stamps and the counter. A field that was set has a stamp of its own. -/
structure Stamped (stamps : Field → Nat) (next : Nat) : Prop where
  low : 2 ≤ next
  high : next ≤ 0xffffffff
  below : ∀ f, stamps f < next
  apart : ∀ f g, 2 ≤ stamps f → stamps f = stamps g → f = g

theorem stamped_reset : Stamped (fun _ => 0) 2 :=
  ⟨Nat.le_refl 2, by decide, fun _ => by decide, fun _ _ h => absurd h (by decide)⟩

section
variable {stamps : Field → Nat} {next : Nat} (h : Stamped stamps next)
include h

theorem Stamped.computed : Stamped (fun _ => 1) next :=
  ⟨h.low, h.high, fun _ => h.low, fun _ _ h => absurd h (by decide)⟩

theorem Stamped.clear (field : Field) : Stamped (update stamps field 0) next := by
  refine ⟨h.low, h.high, fun f => ?_, fun f g hf heq => ?_⟩
  · rw [update_apply]
    split
    · exact Nat.lt_of_lt_of_le (by decide) h.low
    · exact h.below f
  · rw [update_apply, update_apply] at heq
    rw [update_apply] at hf
    split at hf
    · cases hf
    · rename_i hfield
      rw [if_neg hfield] at heq
      split at heq
      · omega
      · exact h.apart f g hf heq

theorem Stamped.set (hnext : next ≠ 0xffffffff) (field : Field) : Stamped (update stamps field next) (next + 1) := by
  have hlow := h.low
  have hhigh := h.high
  refine ⟨by omega, by omega, fun f => ?_, fun f g hf heq => ?_⟩
  · rw [update_apply]
    split
    · exact Nat.lt_succ_self next
    · exact Nat.lt_succ_of_lt (h.below f)
  · rw [update_apply, update_apply] at heq
    rw [update_apply] at hf
    have hbf := h.below f
    have hbg := h.below g
    split at hf
    · rename_i hfield
      rw [if_pos hfield] at heq
      split at heq
      · rename_i hgield
        rw [hfield, hgield]
      · omega
    · rename_i hfield
      rw [if_neg hfield] at heq
      split at heq
      · omega
      · exact h.apart f g hf heq

end

/-! ### The renumbering -/

theorem Field.mem_all (f : Field) : f ∈ Field.all := by
  cases f <;> decide

/-- The new number of a stamp. -/
def regrade (stamps : Field → Nat) (x : Nat) : Nat :=
  if 2 ≤ x then 2 + Field.all.countP (fun f => 2 ≤ stamps f ∧ stamps f < x) else x

theorem rerank_eq (stamps : Field → Nat) : rerank stamps = fun f => regrade stamps (stamps f) := rfl

theorem countP_lt {p q : Field → Bool} {l : List Field} (hpq : ∀ f, p f = true → q f = true) {a : Field} (ha : a ∈ l)
    (hp : p a = false) (hq : q a = true) : l.countP p < l.countP q := by
  induction l with
  | nil => cases ha
  | cons f l ih =>
    rw [countP_cons, countP_cons]
    have hle : l.countP p ≤ l.countP q := countP_mono_left fun x _ => hpq x
    rcases mem_cons.1 ha with rfl | ha
    · rw [hp, hq]
      simp only [Bool.false_eq_true, if_false, if_true]
      omega
    · have hlt := ih ha
      by_cases hpf : p f = true
      · rw [if_pos hpf, if_pos (hpq f hpf)]
        omega
      · rw [if_neg hpf]
        split <;> omega

/-- Numbers of stamps that keep the order: those that stamps have keep it strictly. -/
structure Regrades (stamps : Field → Nat) (φ : Nat → Nat) : Prop where
  mono : ∀ x y, x ≤ y → φ x ≤ φ y
  strict : ∀ x y, (x = 0 ∨ ∃ f, x = stamps f) → x < y → φ x < φ y
  set : ∀ x, 2 ≤ φ x ↔ 2 ≤ x
  zero : ∀ x, φ x = 0 ↔ x = 0

theorem regrade_two (stamps : Field → Nat) (x : Nat) : 2 ≤ regrade stamps x ↔ 2 ≤ x := by
  rw [regrade]
  split <;> omega

theorem regrades (stamps : Field → Nat) : Regrades stamps (regrade stamps) := by
  refine ⟨fun x y hxy => ?_, fun x y hx hxy => ?_, regrade_two stamps, fun x => ?_⟩
  · rw [regrade, regrade]
    split
    · rw [if_pos (by omega)]
      refine Nat.add_le_add_left (countP_mono_left fun f _ hf => ?_) 2
      rw [decide_eq_true_eq] at hf ⊢
      omega
    · split <;> omega
  · by_cases h2 : 2 ≤ x
    · obtain rfl | ⟨f, rfl⟩ := hx
      · omega
      · rw [regrade, regrade, if_pos h2, if_pos (by omega)]
        refine Nat.add_lt_add_left (countP_lt (fun g hg => ?_) (Field.mem_all f) ?_ ?_) 2
        · rw [decide_eq_true_eq] at hg ⊢
          omega
        · rw [decide_eq_false_iff_not]
          omega
        · rw [decide_eq_true_eq]
          omega
    · rw [regrade, regrade, if_neg h2]
      split <;> omega
  · rw [regrade]
    split <;> omega

theorem Stamped.rerank {stamps : Field → Nat} {next : Nat} (h : Stamped stamps next) :
    Stamped (rerank stamps) (Field.all.length + 2) := by
  rw [rerank_eq]
  refine ⟨by decide, by decide, fun f => ?_, fun f g hf heq => ?_⟩
  · rw [regrade]
    split
    · have hlt : Field.all.countP (fun g => 2 ≤ stamps g ∧ stamps g < stamps f) < Field.all.length := by
        refine countP_lt_length_iff.2 ⟨f, Field.mem_all f, ?_⟩
        simp
      omega
    · have : Field.all.length + 2 = 25 := rfl
      omega
  · have hr := regrades stamps
    have h2 : 2 ≤ stamps f := (hr.set _).1 hf
    have hle := h.apart f g h2
    rcases Nat.lt_trichotomy (stamps f) (stamps g) with hlt | heq' | hlt
    · exact absurd heq (Nat.ne_of_lt (hr.strict _ _ (.inr ⟨f, rfl⟩) hlt))
    · exact hle heq'
    · exact absurd heq (Nat.ne_of_gt (hr.strict _ _ (.inr ⟨g, rfl⟩) hlt))

/-! ### What is made of regraded stamps -/

def IsStamp (stamps : Field → Nat) (x : Nat) : Prop := x = 0 ∨ ∃ f, x = stamps f

section
variable {stamps : Field → Nat} {φ : Nat → Nat} (h : Regrades stamps φ)
include h

theorem Regrades.lt_iff {x : Nat} (hx : IsStamp stamps x) (y : Nat) : φ x < φ y ↔ x < y := by
  constructor
  · intro hlt
    by_contra hge
    exact Nat.not_lt.2 (h.mono y x (Nat.not_lt.1 hge)) hlt
  · exact h.strict x y hx

theorem Regrades.le_iff (x : Nat) {y : Nat} (hy : IsStamp stamps y) : φ x ≤ φ y ↔ x ≤ y := by
  rw [← Nat.not_lt, h.lt_iff hy, Nat.not_lt]

theorem Regrades.max_eq (x y : Nat) : φ (max x y) = max (φ x) (φ y) := by
  rcases Nat.le_total x y with hxy | hxy
  · rw [Nat.max_eq_right hxy, Nat.max_eq_right (h.mono x y hxy)]
  · rw [Nat.max_eq_left hxy, Nat.max_eq_left (h.mono y x hxy)]

omit h in
theorem IsStamp.max_stamp {x y : Nat} (hx : IsStamp stamps x) (hy : IsStamp stamps y) : IsStamp stamps (max x y) := by
  rcases Nat.le_total x y with hxy | hxy
  · rw [Nat.max_eq_right hxy]
    exact hy
  · rw [Nat.max_eq_left hxy]
    exact hx

omit h in
/-- A choice of the newest among some rows, where the order decides. -/
theorem Regrades.foldl {α β : Type} {step step' : Nat × β → α → Nat × β} {l : List α}
    (hstep : ∀ best result, IsStamp stamps best → ∀ a ∈ l, IsStamp stamps (step (best, result) a).1 ∧
      step' (φ best, result) a = (φ (step (best, result) a).1, (step (best, result) a).2)) :
    ∀ best result, IsStamp stamps best → IsStamp stamps (l.foldl step (best, result)).1 ∧
      l.foldl step' (φ best, result) = (φ (l.foldl step (best, result)).1, (l.foldl step (best, result)).2) := by
  induction l with
  | nil => exact fun best result hbest => ⟨hbest, rfl⟩
  | cons a l ih =>
    intro best result hbest
    obtain ⟨hstamp, heq⟩ := hstep best result hbest a mem_cons_self
    have hl := ih (fun best result hbest b hb => hstep best result hbest b (mem_cons_of_mem a hb))
      (step (best, result) a).1 (step (best, result) a).2 hstamp
    rw [foldl_cons, foldl_cons, heq]
    exact hl

def rowStep (stamps : Field → Nat) (best : Nat × Field) (row : Field × Option Field × Field) : Nat × Field :=
  if stamps row.2.2 = 0 ∨ row.2.1.any (stamps · = 0) then best
  else
    let rank := (row.2.1.map stamps).elim (stamps row.2.2) (Nat.max (stamps row.2.2))
    if best.1 < rank then (rank, row.1) else best

def fallbackStep (stamps : Field → Nat) (best : Nat × Field) (row : Field × Field) : Nat × Field :=
  if best.1 < stamps row.1 then (stamps row.1, row.2) else best

omit h in
theorem resolveDate_eq : resolveDate stamps =
    let best := rows.foldl (rowStep stamps) (0, .date)
    if best.1 ≠ 0 then best.2 else (fallback.foldl (fallbackStep stamps) best).2 := by
  unfold resolveDate
  generalize rows = rows
  generalize fallback = fallback
  rfl

theorem Regrades.resolveDate : resolveDate (fun f => φ (stamps f)) = resolveDate stamps := by
  have hφ0 : φ 0 = 0 := (h.zero 0).2 rfl
  have hstamp : ∀ f, IsStamp stamps (stamps f) := fun f => .inr ⟨f, rfl⟩
  have hrow : ∀ best result, IsStamp stamps best → ∀ row ∈ rows, IsStamp stamps (rowStep stamps (best, result) row).1 ∧
      rowStep (fun f => φ (stamps f)) (φ best, result) row =
        (φ (rowStep stamps (best, result) row).1, (rowStep stamps (best, result) row).2) := by
    rintro best result hbest ⟨a, b, by'⟩ -
    have hrank : IsStamp stamps ((b.map stamps).elim (stamps by') (Nat.max (stamps by'))) := by
      cases b with
      | none => exact hstamp by'
      | some f => exact (hstamp by').max_stamp (hstamp f)
    have hmax : (b.map fun f => φ (stamps f)).elim (φ (stamps by')) (Nat.max (φ (stamps by'))) =
        φ ((b.map stamps).elim (stamps by') (Nat.max (stamps by'))) := by
      cases b with
      | none => rfl
      | some f => exact (h.max_eq _ _).symm
    simp only [rowStep, h.zero, hmax, h.lt_iff hbest]
    split
    · exact ⟨hbest, rfl⟩
    · split
      · exact ⟨hrank, rfl⟩
      · exact ⟨hbest, rfl⟩
  have hfallback : ∀ best result, IsStamp stamps best → ∀ row ∈ fallback,
      IsStamp stamps (fallbackStep stamps (best, result) row).1 ∧
      fallbackStep (fun f => φ (stamps f)) (φ best, result) row =
        (φ (fallbackStep stamps (best, result) row).1, (fallbackStep stamps (best, result) row).2) := by
    rintro best result hbest ⟨a, b⟩ -
    simp only [fallbackStep, h.lt_iff hbest]
    split
    · exact ⟨hstamp a, rfl⟩
    · exact ⟨hbest, rfl⟩
  have hrows := Regrades.foldl hrow 0 .date (.inl rfl)
  rw [hφ0] at hrows
  have hlast := Regrades.foldl hfallback (rows.foldl (rowStep stamps) (0, .date)).1
    (rows.foldl (rowStep stamps) (0, .date)).2 hrows.1
  rw [resolveDate_eq, resolveDate_eq, hrows.2]
  dsimp only
  rw [hlast.2]
  simp only [ne_eq, h.zero]

end

def withStamps (c : LcCalendar) (φ : Nat → Nat) : LcCalendar := { c with stamps := fun f => φ (c.stamps f) }

section
variable {c : LcCalendar} {φ : Nat → Nat} (h : Regrades c.stamps φ)
include h

theorem Regrades.value (f : Field) (x : Int) : Calendar.value (withStamps c φ) f x = Calendar.value c f x := by
  rw [Calendar.value, Calendar.value]
  simp only [withStamps, ne_eq, h.zero]

theorem Regrades.newest (fields : List Field) :
    IsStamp c.stamps (newest c fields) ∧ Calendar.newest (withStamps c φ) fields = φ (newest c fields) := by
  have hfold : ∀ best, IsStamp c.stamps best →
      IsStamp c.stamps (fields.foldl (fun stamp f => max stamp (c.stamps f)) best) ∧
      fields.foldl (fun stamp f => max stamp (φ (c.stamps f))) (φ best) =
        φ (fields.foldl (fun stamp f => max stamp (c.stamps f)) best) := by
    induction fields with
    | nil => exact fun best hbest => ⟨hbest, rfl⟩
    | cons f fields ih =>
      intro best hbest
      rw [foldl_cons, foldl_cons, ← h.max_eq]
      exact ih _ (hbest.max_stamp (.inr ⟨f, rfl⟩))
  have hnewest := hfold 0 (.inl rfl)
  rw [(h.zero 0).2 rfl] at hnewest
  exact hnewest

theorem Regrades.yearOf (best : Field) : Calendar.yearOf (withStamps c φ) best = Calendar.yearOf c best := by
  have hlt : ∀ f g, (withStamps c φ).stamps f < (withStamps c φ).stamps g ↔ c.stamps f < c.stamps g :=
    fun f g => h.lt_iff (.inr ⟨f, rfl⟩) _
  simp only [Calendar.yearOf, hlt, h.value]
  rfl

theorem Regrades.dayOf (best : Field) : Calendar.dayOf (withStamps c φ) best = Calendar.dayOf c best := by
  have hlt : ∀ f g, (withStamps c φ).stamps f < (withStamps c φ).stamps g ↔ c.stamps f < c.stamps g :=
    fun f g => h.lt_iff (.inr ⟨f, rfl⟩) _
  have hset : ∀ f, 2 ≤ (withStamps c φ).stamps f ↔ 2 ≤ c.stamps f := fun f => h.set _
  have hnew : Calendar.newest (withStamps c φ) dateFields ≤ (withStamps c φ).stamps .julianDay ↔
      Calendar.newest c dateFields ≤ c.stamps .julianDay := by
    rw [(h.newest dateFields).2]
    exact h.le_iff _ (.inr ⟨_, rfl⟩)
  simp only [Calendar.dayOf, hlt, hset, hnew, h.value, h.yearOf]
  rfl

theorem Regrades.timeOfDay : Calendar.timeOfDay (withStamps c φ) = Calendar.timeOfDay c := by
  have hset : ∀ f, 2 ≤ (withStamps c φ).stamps f ↔ 2 ≤ c.stamps f := fun f => h.set _
  have hhour : max ((withStamps c φ).stamps .hour) ((withStamps c φ).stamps .amPm) ≤ (withStamps c φ).stamps .hourOfDay ↔
      max (c.stamps .hour) (c.stamps .amPm) ≤ c.stamps .hourOfDay := by
    change max (φ _) (φ _) ≤ φ _ ↔ _
    rw [← h.max_eq]
    exact h.le_iff _ (.inr ⟨_, rfl⟩)
  have hnew : ∀ l, Calendar.newest (withStamps c φ) l ≤ (withStamps c φ).stamps .millisecondsInDay ↔
      Calendar.newest c l ≤ c.stamps .millisecondsInDay := by
    intro l
    rw [(h.newest l).2]
    exact h.le_iff _ (.inr ⟨_, rfl⟩)
  simp only [Calendar.timeOfDay, hset, hhour, hnew, h.value]
  rfl

theorem Regrades.instantOf (zone : Option LcZone) (wall : Int) :
    Calendar.instantOf (withStamps c φ) zone wall = Calendar.instantOf c zone wall := by
  have hset : ∀ f, 2 ≤ (withStamps c φ).stamps f ↔ 2 ≤ c.stamps f := fun f => h.set _
  simp only [Calendar.instantOf, hset, h.value]
  rfl

theorem Regrades.inLimits : Calendar.inLimits (withStamps c φ) = Calendar.inLimits c := by
  have hset : ∀ f, (withStamps c φ).stamps f < 2 ↔ c.stamps f < 2 := by
    intro f
    have := h.set (c.stamps f)
    change φ _ < 2 ↔ _
    omega
  simp only [Calendar.inLimits, hset]
  rfl

/-- The instant that the fields stand for does not depend on the numbers. -/
theorem Regrades.resolveInstant (zone : Option LcZone) :
    Calendar.resolveInstant zone (withStamps c φ) = Calendar.resolveInstant zone c := by
  have hbest : Calendar.resolveDate (withStamps c φ).stamps = Calendar.resolveDate c.stamps := h.resolveDate
  simp only [Calendar.resolveInstant, h.inLimits, hbest, h.dayOf, h.timeOfDay, h.instantOf]
  rfl

end

/-! ### Calls -/

def LcCalendar.Stamped (c : LcCalendar) : Prop := Calendar.Stamped c.stamps c.nextStamp

section
variable {zone : Option LcZone} {c c' : LcCalendar}

theorem computeFields_stamps (h : computeFields zone c = .ok c') : c'.stamps = (fun _ => 1) ∧
    c'.nextStamp = c.nextStamp := by
  rw [computeFields] at h
  obtain ⟨offsets, -, ⟨⟩⟩ := ok_of_bind h
  exact ⟨rfl, rfl⟩

theorem lcSetMillis_stamps {millis : Int} (h : lcSetMillis c millis = .ok c') : c'.stamps = (fun _ => 0) ∧
    c'.nextStamp = 2 := by
  rw [lcSetMillis] at h
  obtain ⟨millis, -, ⟨⟩⟩ := ok_of_bind h
  exact ⟨rfl, rfl⟩

theorem LcCalendar.Stamped.fields (h : c.Stamped) (hf : computeFields zone c = .ok c') : c'.Stamped := by
  obtain ⟨hs, hn⟩ := computeFields_stamps hf
  rw [LcCalendar.Stamped, hs, hn]
  exact Stamped.computed h

theorem LcCalendar.Stamped.start (h : c.Stamped) (hf : c' = c ∨ computeFields zone c = .ok c') : c'.Stamped := by
  rcases hf with rfl | hf
  · exact h
  · exact h.fields hf

theorem LcCalendar.Stamped.set (h : c.Stamped) {field : Field} {val : Int} (hset : lcSet zone field val c = .ok c') :
    c'.Stamped ∧ 2 ≤ c'.stamps field ∧ ∀ g, g ≠ field → c'.stamps g < c'.stamps field := by
  obtain ⟨c₁, hstart, rfl⟩ := lcSet_spec hset
  have h₁ := h.start hstart
  have hnext : ∀ {stamps : Field → Nat} {next : Nat}, Calendar.Stamped stamps next → next ≠ 0xffffffff →
      Calendar.Stamped (update stamps field next) (next + 1) ∧
        2 ≤ update stamps field next field ∧
        ∀ g, g ≠ field → update stamps field next g < update stamps field next field := by
    intro stamps next hs hn
    rw [update_self]
    refine ⟨hs.set hn field, hs.low, fun g hg => ?_⟩
    rw [update_of_ne hg]
    exact hs.below g
  by_cases hlast : c₁.nextStamp = 0xffffffff
  · simp only [LcCalendar.Stamped, if_pos hlast]
    exact hnext h₁.rerank (by decide)
  · simp only [LcCalendar.Stamped, if_neg hlast]
    exact hnext h₁ hlast

theorem LcCalendar.Stamped.move (h : c.Stamped) {sets : Bool} (hmove : Move zone sets c c') : c'.Stamped := by
  cases hmove with
  | solve hv => exact h
  | read hv hf => exact h.fields hf
  | setMillis hs =>
    obtain ⟨hs, hn⟩ := lcSetMillis_stamps hs
    rw [LcCalendar.Stamped, hs, hn]
    exact stamped_reset
  | @clear _ _ field hc =>
    cases field with
    | none =>
      cases hc
      exact stamped_reset
    | some field =>
      obtain ⟨c₁, hstart, rfl⟩ := lcClear_spec hc
      exact Calendar.Stamped.clear (h.start hstart) field
  | set hs => exact (h.set hs).1

theorem LcCalendar.Stamped.call (h : c.Stamped) (call : CalendarCall) : (call.run c).Stamped := by
  have hmoves := call.moves c
  generalize call.run c = last at hmoves ⊢
  induction hmoves with
  | refl => exact h
  | tail _ hmove ih =>
    obtain ⟨_, -, hmove⟩ := hmove
    exact ih.move hmove

end

theorem runCalls_stamped {c : LcCalendar} (h : c.Stamped) (calls : List CalendarCall) : (runCalls c calls).Stamped := by
  induction calls generalizing c with
  | nil => exact h
  | cons call calls ih => exact ih (h.call call)

/-! ### The latest field -/

/-- A stamp is kept, or the field is not set any more. -/
def Fades (c c' : LcCalendar) : Prop := ∀ f, c'.stamps f = c.stamps f ∨ c'.stamps f ≤ 1

section
variable {zone : Option LcZone} {c c' : LcCalendar}

theorem Fades.refl (c : LcCalendar) : Fades c c := fun _ => .inl rfl

theorem Fades.trans {c₁ : LcCalendar} (h : Fades c c₁) (h' : Fades c₁ c') : Fades c c' := by
  intro f
  rcases h' f with heq | hle
  · rw [heq]
    exact h f
  · exact .inr hle

theorem fades_of_eq {x : Nat} (hx : x ≤ 1) (h : c'.stamps = fun _ => x) : Fades c c' := by
  intro f
  rw [h]
  exact .inr hx

theorem Move.fades (h : Move zone false c c') : Fades c c' := by
  have hread : ∀ {c₁ : LcCalendar}, c₁ = c ∨ computeFields zone c = .ok c₁ → Fades c c₁ := by
    rintro c₁ (rfl | hf)
    · exact Fades.refl c₁
    · exact fades_of_eq (Nat.le_refl 1) (computeFields_stamps hf).1
  cases h with
  | solve hv => exact fun f => .inl rfl
  | read hv hf => exact hread (.inr hf)
  | setMillis hs => exact fades_of_eq (Nat.zero_le 1) (lcSetMillis_stamps hs).1
  | @clear _ _ field hc =>
    cases field with
    | none =>
      cases hc
      exact fades_of_eq (Nat.zero_le 1) rfl
    | some field =>
      obtain ⟨c₁, hstart, rfl⟩ := lcClear_spec hc
      refine (hread hstart).trans fun f => ?_
      dsimp only
      rw [update_apply]
      split
      · exact .inr (Nat.zero_le 1)
      · exact .inl rfl

theorem fades_call {call : CalendarCall} (h : call.sets = false) : Fades c (call.run c) := by
  have hmoves := call.moves c
  rw [h] at hmoves
  generalize call.run c = last at hmoves ⊢
  induction hmoves with
  | refl => exact Fades.refl c
  | tail _ hmove ih =>
    obtain ⟨sets, hsets, hmove⟩ := hmove
    cases sets with
    | true => exact absurd (hsets rfl) (by decide)
    | false => exact ih.trans hmove.fades

end

theorem runCalls_fades {c : LcCalendar} {calls : List CalendarCall} (h : ∀ call ∈ calls, call.sets = false) :
    Fades c (runCalls c calls) := by
  induction calls generalizing c with
  | nil => exact Fades.refl c
  | cons call calls ih =>
    exact (fades_call (h call mem_cons_self)).trans (ih fun x hx => h x (mem_cons_of_mem call hx))

theorem lcInit_stamped (icu buddhist : Bool) (first minimal : Nat) : (lcInit icu buddhist first minimal).Stamped :=
    stamped_reset

/-- After any calls, the stamp of every field that was set is below the counter and no other field's; a field that was set
    last has the greatest stamp, for as long as it counts as set; and the renumbering keeps all comparisons, the row that
    decides the date and the instant that the fields stand for. -/
theorem stamps_in_order (icu buddhist : Bool) (first minimal : Nat) (calls : List CalendarCall) :
    let c := runCalls (lcInit icu buddhist first minimal) calls
    (c.nextStamp ≤ 0xffffffff ∧ ∀ f, c.stamps f < c.nextStamp) ∧
    (∀ f g, 2 ≤ c.stamps f → c.stamps f = c.stamps g → f = g) ∧
    (∀ zone field val c₁ later, lcSet zone field val c = .ok c₁ → (∀ call ∈ later, CalendarCall.sets call = false) →
      2 ≤ c₁.stamps field ∧
      (2 ≤ (runCalls c₁ later).stamps field → ∀ g, g ≠ field →
        (runCalls c₁ later).stamps g < (runCalls c₁ later).stamps field)) ∧
    (∀ f g, (rerank c.stamps f < rerank c.stamps g ↔ c.stamps f < c.stamps g) ∧ (rerank c.stamps f = 0 ↔ c.stamps f = 0) ∧
      (2 ≤ rerank c.stamps f ↔ 2 ≤ c.stamps f)) ∧
    resolveDate (rerank c.stamps) = resolveDate c.stamps ∧
    ∀ zone, resolveInstant zone { c with stamps := rerank c.stamps } = resolveInstant zone c := by
  intro c
  have h : c.Stamped := runCalls_stamped (lcInit_stamped icu buddhist first minimal) calls
  have hr := regrades c.stamps
  refine ⟨⟨h.high, h.below⟩, h.apart, fun zone field val c₁ later hset hlater => ?_, fun f g => ?_, ?_, fun zone => ?_⟩
  · obtain ⟨-, hown, hlast⟩ := h.set hset
    refine ⟨hown, fun htwo g hg => ?_⟩
    have hfade := runCalls_fades (c := c₁) hlater
    rcases hfade field with heq | hle
    · rcases hfade g with hgeq | hgle
      · rw [heq, hgeq]
        exact hlast g hg
      · exact Nat.lt_of_le_of_lt hgle htwo
    · omega
  · exact ⟨hr.lt_iff (.inr ⟨f, rfl⟩) _, hr.zero _, hr.set _⟩
  · exact hr.resolveDate
  · exact hr.resolveInstant zone

/-- The date is set, and stays the latest field while the instant is read. -/
theorem stamps_in_order_date : ∃ c₁, lcSet none .date 5 (lcInit false false 1 1) = .ok c₁ ∧
    ∀ g, g ≠ .date → (runCalls c₁ [.getMillis none]).stamps g < (runCalls c₁ [.getMillis none]).stamps .date := by
  refine ⟨_, rfl, ?_⟩
  have hsets : ∀ call ∈ [CalendarCall.getMillis none], call.sets = false := by
    intro call hcall
    obtain rfl := mem_singleton.1 hcall
    rfl
  have hlatest := (stamps_in_order false false 1 1 []).2.2.1 none .date 5 _ [.getMillis none] rfl hsets
  refine hlatest.2 ?_
  decide +kernel

end Lunaria.Dvm.Calendar
