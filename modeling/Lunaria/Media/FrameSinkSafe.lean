import Lunaria.Media.FrameSink

/-! The three buffers stay apart, the producer writes only `back` and the consumer reads only `front`, in any order of steps. -/

namespace Lunaria.Media
open Function List

/-- A buffer shows a frame: its pixels are in memory, and its fields are those of the frame. -/
def Shows (mem : Nat → Nat → UInt8) (b : SinkBuf) (f : SinkFrame) : Prop :=
  ∃ p, b.rgba = some p ∧ (b.w, b.h, b.ts) = (f.w, f.h, f.ts) ∧ 0 < f.w ∧ 0 < f.h ∧
    (List.range (frameBytes f.w f.h)).map (mem p) = f.pixels

namespace SinkState

/-- The number of the last frame that was taken, or 0. -/
def lastTaken (s : SinkState) : Nat := s.taken.getLast?.getD 0

def FrontShows (s : SinkState) : Prop :=
  if s.lastTaken = 0 then s.front.rgba = none else ∃ f, s.commits[s.lastTaken - 1]? = some f ∧ Shows s.mem s.front f

/-- What the producer does is with `back`. -/
def ProducerOk (s : SinkState) : Prop :=
  match s.producer with
  | .idle => True
  | .growing _ _ => True
  | .committing w h ts => s.back.rgba ≠ none ∧ (s.back.w, s.back.h, s.back.ts) = (w, h, ts) ∧ 0 < w ∧ 0 < h

/-- What the consumer has read is in `front`, and what it was handed too, except inside a take that succeeds. -/
def ConsumerOk (s : SinkState) : Prop :=
  match s.consumer with
  | .idle => s.handed = s.peek
  | .unlocked false => s.handed = s.peek
  | .unlocked true => s.front.rgba ≠ none
  | .rgbaRead p => s.front.rgba = some p
  | .widthRead p w => s.front.rgba = some p ∧ s.front.w = w

structure Inv (s : SinkState) : Prop where
  frontMid : ∀ p, s.front.rgba = some p → s.mid.rgba ≠ some p
  frontBack : ∀ p, s.front.rgba = some p → s.back.rgba ≠ some p
  midBack : ∀ p, s.mid.rgba = some p → s.back.rgba ≠ some p
  producer : s.ProducerOk
  pointer : ∀ p n, s.pointer = some (p, n) → s.back.rgba = some p ∧ n ≤ s.back.cap
  consumer : s.ConsumerOk
  front : s.FrontShows
  mid : s.pending = true → ∃ f, s.commits.getLast? = some f ∧ Shows s.mem s.mid f
  pending : s.pending = true ↔ s.abandoned = false ∧ s.lastTaken < s.commits.length
  increasing : s.taken.Pairwise (· < ·)
  taken : ∀ n ∈ s.taken, 0 < n ∧ n ≤ s.lastTaken
  last : s.lastTaken ≤ s.commits.length

end SinkState

open SinkState

section Steps
variable {s s' : SinkState} {f : SinkFrame} {b : SinkBuf} {mem mem' : Nat → Nat → UInt8}

/-- Memory of other buffers does not matter. -/
theorem Shows.congr (h : Shows mem b f) (hsame : ∀ p, b.rgba = some p → mem' p = mem p) : Shows mem' b f := by
  obtain ⟨p, hp, hrest⟩ := h
  exact ⟨p, hp, by rw [hsame p hp]; exact hrest⟩

theorem step_write {off : Nat} {b : UInt8} (hs : s.step (.write off b) = some s') :
    ∃ p n, s.pointer = some (p, n) ∧ s' = { s with mem := update s.mem p (update (s.mem p) off b) } := by
  unfold SinkState.step at hs
  dsimp only at hs
  split at hs
  · next p n _ hpointer =>
    split_ifs at hs
    cases hs
    exact ⟨p, n, hpointer, rfl⟩
  · cases hs

theorem inv_new (mem : Nat → Nat → UInt8) : (lmSinkNew mem).Inv where
  frontMid := fun _ hp => nomatch hp
  frontBack := fun _ hp => nomatch hp
  midBack := fun _ hp => nomatch hp
  producer := trivial
  pointer := fun _ _ hp => nomatch hp
  consumer := rfl
  front := rfl
  mid := fun hp => nomatch hp
  pending := iff_of_false Bool.false_ne_true fun hp => Nat.not_lt_zero _ hp.2
  increasing := List.Pairwise.nil
  taken := fun _ hn => nomatch hn
  last := Nat.le_refl 0

section
variable (h : s.Inv)
include h

theorem SinkState.Inv.of_producer {p : Producer} (hp : ({ s with producer := p } : SinkState).ProducerOk) :
    ({ s with producer := p } : SinkState).Inv :=
  { h with producer := hp }

theorem SinkState.Inv.of_consumer {c : Consumer} {r : Option (Nat × Int × Int)}
    (hc : ({ s with consumer := c, handed := r } : SinkState).ConsumerOk) :
    ({ s with consumer := c, handed := r } : SinkState).Inv :=
  { h with consumer := hc }

/-- What is done to `back` and its memory does not concern the other buffers. -/
theorem SinkState.Inv.of_back {back : SinkBuf} {mem : Nat → Nat → UInt8} {p : Producer} {pointer : Option (Nat × Nat)}
    (hfront : ∀ q, s.front.rgba = some q → back.rgba ≠ some q) (hmid : ∀ q, s.mid.rgba = some q → back.rgba ≠ some q)
    (hmem : ∀ q, s.front.rgba = some q ∨ s.mid.rgba = some q → mem q = s.mem q)
    (hp : ({ s with back, mem, producer := p } : SinkState).ProducerOk)
    (hpointer : ∀ p n, pointer = some (p, n) → back.rgba = some p ∧ n ≤ back.cap) :
    ({ s with back, mem, producer := p, pointer } : SinkState).Inv where
  frontMid := h.frontMid
  frontBack := hfront
  midBack := hmid
  producer := hp
  pointer := hpointer
  consumer := h.consumer
  front := by
    have hfront := h.front
    unfold FrontShows at hfront ⊢
    by_cases hlast : s.lastTaken = 0
    · rw [if_pos hlast] at hfront
      exact (if_pos hlast).mpr hfront
    · rw [if_neg hlast] at hfront
      obtain ⟨f, hf, hshows⟩ := hfront
      exact (if_neg hlast).mpr ⟨f, hf, hshows.congr fun q hq => hmem q (.inl hq)⟩
  mid := fun hpending => by
    obtain ⟨f, hf, hshows⟩ := h.mid hpending
    exact ⟨f, hf, hshows.congr fun q hq => hmem q (.inr hq)⟩
  pending := h.pending
  increasing := h.increasing
  taken := h.taken
  last := h.last

theorem inv_grow {w h' : Int} {fresh : Option Nat} {bytes : Nat → UInt8}
    (hfresh : ∀ p, fresh = some p → s.front.rgba ≠ some p ∧ s.mid.rgba ≠ some p) : (s.grow w h' fresh bytes).Inv := by
  have hidle : ({ s with producer := .idle } : SinkState).Inv := h.of_producer trivial
  unfold grow
  by_cases hfits : ¬frameFits w h'
  · rw [if_pos hfits]
    exact hidle
  rw [if_neg hfits]
  dsimp only
  by_cases hneed : frameBytes w h' > s.back.cap
  · rw [if_pos hneed]
    cases fresh with
    | none => exact hidle
    | some p =>
      obtain ⟨hfront, hmid⟩ := hfresh p rfl
      refine h.of_back (fun q hq heq => hfront (hq.trans heq.symm)) (fun q hq heq => hmid (hq.trans heq.symm))
        (fun q hq => ?_) trivial fun p n hp => ?_
      swap
      · cases hp
        exact ⟨rfl, le_rfl⟩
      have hne : q ≠ p := by
        rintro rfl
        exact hq.elim hfront hmid
      exact update_of_ne hne _ _
  · rw [if_neg hneed]
    cases hp : s.back.rgba with
    | none => exact hidle
    | some p =>
      refine { hidle with pointer := fun p' n heq => ?_ }
      cases heq
      exact ⟨hp, Nat.le_of_not_lt hneed⟩

theorem inv_commit {w h' ts : Int} : (s.commit w h' ts).Inv := by
  unfold SinkState.commit
  split_ifs with hbad
  · exact h.of_producer trivial
  · simp only [not_or, Int.not_le] at hbad
    exact h.of_back h.frontBack h.midBack (fun _ _ => rfl) ⟨hbad.1, rfl, hbad.2.1, hbad.2.2.1⟩ h.pointer

theorem inv_commitSection {w h' ts : Int} (hp : s.producer = .committing w h' ts) : (s.commitSection w h' ts).Inv := by
  have hcommit := h.producer
  unfold ProducerOk at hcommit
  rw [hp] at hcommit
  obtain ⟨hsome, hfields, hw, hh⟩ := hcommit
  unfold SinkState.commitSection
  split_ifs with habandoned
  · exact h.of_producer trivial
  refine
    { frontMid := h.frontBack
      frontBack := h.frontMid
      midBack := fun p hback hmid => h.midBack p hmid hback
      producer := trivial
      pointer := fun _ _ hp => nomatch hp
      consumer := h.consumer
      front := ?_
      mid := fun _ => ⟨⟨s.drawn w h', w, h', ts⟩, getLast?_concat, ?_⟩
      pending := ?_
      increasing := h.increasing
      taken := h.taken
      last := ?_ }
  · have hfront := h.front
    have hlast := h.last
    unfold FrontShows at hfront
    by_cases hzero : s.lastTaken = 0
    · rw [if_pos hzero] at hfront
      exact (if_pos hzero).mpr hfront
    · rw [if_neg hzero] at hfront
      obtain ⟨f, hf, hshows⟩ := hfront
      have hlt : s.lastTaken - 1 < s.commits.length := by omega
      exact (if_neg hzero).mpr ⟨f, (getElem?_append_left hlt).trans hf, hshows⟩
  · obtain ⟨p, hback⟩ := Option.ne_none_iff_exists'.1 hsome
    refine ⟨p, hback, hfields, hw, hh, ?_⟩
    dsimp only
    unfold drawn
    rw [hback]
  · have hnew : s.lastTaken < (s.commits ++ [(⟨s.drawn w h', w, h', ts⟩ : SinkFrame)]).length := by
      rw [length_append]
      exact Nat.lt_succ_of_le h.last
    exact iff_of_true rfl ⟨Bool.eq_false_iff.2 habandoned, hnew⟩
  · rw [length_append]
    exact h.last.trans (Nat.le_add_right _ _)

theorem inv_takeSection (hc : s.consumer = .idle) : s.takeSection.Inv := by
  have hconsumer := h.consumer
  unfold ConsumerOk at hconsumer
  rw [hc] at hconsumer
  unfold SinkState.takeSection
  by_cases hgot : ¬(s.pending = true ∧ ¬s.abandoned = true)
  · rw [if_neg hgot]
    exact h.of_consumer hconsumer
  rw [not_not] at hgot
  rw [if_pos hgot]
  obtain ⟨f, hf, hshows⟩ := h.mid hgot.1
  have hlt := (h.pending.1 hgot.1).2
  have hlast : (s.taken ++ [s.commits.length]).getLast?.getD 0 = s.commits.length := by
    rw [getLast?_concat, Option.getD_some]
  refine
    { frontMid := fun p hmid hfront => h.frontMid p hfront hmid
      frontBack := h.midBack
      midBack := h.frontBack
      producer := h.producer
      pointer := h.pointer
      consumer := ?_
      front := ?_
      mid := fun hfalse => nomatch hfalse
      pending := ?_
      increasing := ?_
      taken := ?_
      last := hlast.le }
  · obtain ⟨p, hp, -⟩ := hshows
    exact fun hnone => nomatch hp.symm.trans hnone
  · have hpos : (s.taken ++ [s.commits.length]).getLast?.getD 0 ≠ 0 := by
      rw [hlast]
      omega
    refine (if_neg hpos).mpr ⟨f, ?_, hshows⟩
    unfold lastTaken
    dsimp only
    rw [hlast, ← hf, getLast?_eq_getElem?]
  · refine iff_of_false Bool.false_ne_true fun hmore => ?_
    have := hmore.2
    unfold lastTaken at this
    dsimp only at this
    omega
  · refine pairwise_append.2 ⟨h.increasing, pairwise_singleton _ _, fun n hn m hm => ?_⟩
    rw [mem_singleton.1 hm]
    exact (h.taken n hn).2.trans_lt hlt
  · intro n hn
    unfold lastTaken
    dsimp only at hn ⊢
    rw [hlast]
    rcases mem_append.1 hn with hn | hn
    · exact ⟨(h.taken n hn).1, (h.taken n hn).2.trans h.last⟩
    · rw [mem_singleton.1 hn]
      exact ⟨by omega, le_rfl⟩

theorem inv_abandon : ({ s with abandoned := true, pending := false } : SinkState).Inv :=
  { h with
    mid := fun hfalse => nomatch hfalse
    pending := iff_of_false Bool.false_ne_true fun hfalse => nomatch hfalse.1 }

theorem SinkState.Inv.size_pos {p : Nat} (hp : s.front.rgba = some p) : 0 < s.front.w ∧ 0 < s.front.h := by
  have hfront := h.front
  unfold FrontShows at hfront
  split_ifs at hfront
  · exact nomatch hp.symm.trans hfront
  · obtain ⟨f, -, q, -, hfields, hw, hh, -⟩ := hfront
    simp only [Prod.mk.injEq] at hfields
    rw [hfields.1, hfields.2.1]
    exact ⟨hw, hh⟩

end

theorem peek_eq {p : Nat} (hp : s.front.rgba = some p) (hw : 0 < s.front.w) (hh : 0 < s.front.h) :
    s.peek = some (p, s.front.w, s.front.h) := by
  unfold peek
  rw [hp]
  exact if_neg fun hor => hor.elim (fun hle => absurd hw (Int.not_lt.2 hle)) fun hle => absurd hh (Int.not_lt.2 hle)

theorem inv_step (h : s.Inv) {e : SinkEvent} (hallowed : s.Allowed e) (hs : s.step e = some s') : s'.Inv := by
  have hproducer := h.producer
  have hconsumer := h.consumer
  unfold ProducerOk at hproducer
  unfold ConsumerOk at hconsumer
  unfold SinkState.step at hs
  cases e with
  | begin w h' =>
    have hgo : ({ s with producer := if w ≤ 0 ∨ h' ≤ 0 ∨ s.abandoned then .idle else .growing w h' } : SinkState).Inv := by
      refine h.of_producer ?_
      unfold ProducerOk
      dsimp only
      split_ifs <;> trivial
    cases hp : s.producer <;> rw [hp] at hs <;> cases hs
    exact hgo
  | grow fresh bytes =>
    cases hp : s.producer <;> rw [hp] at hs <;> cases hs
    exact inv_grow h hallowed
  | write off b =>
    obtain ⟨p, n, hpointer, rfl⟩ := step_write hs
    obtain ⟨hback, -⟩ := h.pointer p n hpointer
    refine h.of_back h.frontBack h.midBack (fun q hq => update_of_ne ?_ _ _) h.producer h.pointer
    rintro rfl
    exact hq.elim (fun hq => h.frontBack _ hq hback) fun hq => h.midBack _ hq hback
  | commit w h' ts =>
    cases hp : s.producer <;> rw [hp] at hs <;> cases hs
    exact inv_commit h
  | commitSection =>
    cases hp : s.producer <;> rw [hp] at hs <;> cases hs
    exact inv_commitSection h hp
  | takeSection =>
    cases hc : s.consumer <;> rw [hc] at hs <;> cases hs
    exact inv_takeSection h hc
  | takeRgba =>
    cases hc : s.consumer <;> rw [hc] at hs hconsumer <;> try cases hs
    case unlocked got =>
      cases got with
      | false =>
        cases hs
        exact h.of_consumer hconsumer
      | true =>
        obtain ⟨p, hp⟩ := Option.ne_none_iff_exists'.1 hconsumer
        dsimp only at hs
        rw [hp] at hs
        cases hs
        exact h.of_consumer hp
  | takeWidth =>
    cases hc : s.consumer <;> rw [hc] at hs hconsumer <;> cases hs
    exact h.of_consumer ⟨hconsumer, rfl⟩
  | takeHeight =>
    cases hc : s.consumer <;> rw [hc] at hs hconsumer <;> cases hs
    obtain ⟨hp, rfl⟩ := hconsumer
    obtain ⟨hw, hh⟩ := h.size_pos hp
    exact h.of_consumer (peek_eq hp hw hh).symm
  | abandon =>
    cases hs
    exact inv_abandon h

theorem SinkReach.inv (h : SinkReach s) : s.Inv := by
  induction h with
  | new mem => exact inv_new mem
  | step _ hallowed hs ih => exact inv_step ih hallowed hs

end Steps

end Lunaria.Media
