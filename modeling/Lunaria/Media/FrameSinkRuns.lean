import Lunaria.Media.FrameSinkSafe

/-! What a consumer gets over a whole run: whole frames, each newer than the one before, and the newest. -/

namespace Lunaria.Media
open SinkState Function

section Runs
variable {s s' : SinkState}

/-- A step that is no take leaves the front buffer as it is, with its pixels. -/
theorem step_front (h : s.Inv) {e : SinkEvent} (hallowed : s.Allowed e) (hs : s.step e = some s') :
    s.commits <+: s'.commits ∧ (∀ q, s.front.rgba = some q → s'.mem q = s.mem q) ∧
      ((e = .takeSection → s.takeSection.consumer = .unlocked false) → s'.taken = s.taken ∧ s'.front = s.front) := by
  have hsame : ∀ {t : SinkState} {Q : Prop}, t.commits = s.commits → t.mem = s.mem → t.taken = s.taken → t.front = s.front →
      s.commits <+: t.commits ∧ (∀ q, s.front.rgba = some q → t.mem q = s.mem q) ∧
        (Q → t.taken = s.taken ∧ t.front = s.front) := by
    intro t Q h1 h2 h3 h4
    exact ⟨h1 ▸ List.prefix_refl _, fun q _ => congrFun h2 q, fun _ => ⟨h3, h4⟩⟩
  unfold SinkState.step at hs
  cases e with
  | begin w h' =>
    cases hp : s.producer <;> rw [hp] at hs <;> cases hs
    exact hsame rfl rfl rfl rfl
  | grow fresh bytes =>
    cases hp : s.producer <;> rw [hp] at hs <;> cases hs
    rename_i w h'
    unfold SinkState.grow
    by_cases hfits : ¬frameFits w h'
    · rw [if_pos hfits]
      exact hsame rfl rfl rfl rfl
    rw [if_neg hfits]
    dsimp only
    by_cases hneed : frameBytes w h' > s.back.cap
    · rw [if_pos hneed]
      cases fresh with
      | none => exact hsame rfl rfl rfl rfl
      | some p =>
        refine ⟨List.prefix_refl _, fun q hq => update_of_ne ?_ _ _, fun _ => ⟨rfl, rfl⟩⟩
        rintro rfl
        exact (hallowed _ rfl).1 hq
    · rw [if_neg hneed]
      cases s.back.rgba <;> exact hsame rfl rfl rfl rfl
  | write off b =>
    obtain ⟨p, n, hpointer, rfl⟩ := step_write hs
    refine ⟨List.prefix_refl _, fun q hq => update_of_ne ?_ _ _, fun _ => ⟨rfl, rfl⟩⟩
    rintro rfl
    exact h.frontBack _ hq (h.pointer _ n hpointer).1
  | commit w h' ts =>
    cases hp : s.producer <;> rw [hp] at hs <;> cases hs
    unfold SinkState.commit
    split_ifs <;> exact hsame rfl rfl rfl rfl
  | commitSection =>
    cases hp : s.producer <;> rw [hp] at hs <;> cases hs
    unfold SinkState.commitSection
    split_ifs
    · exact hsame rfl rfl rfl rfl
    · exact ⟨List.prefix_append _ _, fun _ _ => rfl, fun _ => ⟨rfl, rfl⟩⟩
  | takeSection =>
    cases hc : s.consumer <;> rw [hc] at hs <;> cases hs
    unfold SinkState.takeSection
    split_ifs
    · exact ⟨List.prefix_refl _, fun _ _ => rfl, fun hfalse => nomatch hfalse rfl⟩
    · exact hsame rfl rfl rfl rfl
  | takeRgba =>
    cases hc : s.consumer <;> rw [hc] at hs <;> try cases hs
    case unlocked got =>
      have hmove : ∃ c, s' = { s with consumer := c } := by
        cases got <;> cases hp : s.front.rgba <;> rw [hp] at hs <;> cases hs <;> exact ⟨_, rfl⟩
      obtain ⟨c, rfl⟩ := hmove
      exact hsame rfl rfl rfl rfl
  | takeWidth =>
    cases hc : s.consumer <;> rw [hc] at hs <;> cases hs
    exact hsame rfl rfl rfl rfl
  | takeHeight =>
    cases hc : s.consumer <;> rw [hc] at hs <;> cases hs
    exact hsame rfl rfl rfl rfl
  | abandon =>
    cases hs
    exact hsame rfl rfl rfl rfl

theorem SinkState.Inv.peek (h : s.Inv) {p : Nat} {w h' : Int} (hpeek : s.peek = some (p, w, h')) :
    ∃ f, s.commits[s.lastTaken - 1]? = some f ∧ 0 < s.lastTaken ∧ (w, h', s.acquiredTimestamp) = (f.w, f.h, f.ts) ∧
      (List.range (frameBytes w h')).map (s.mem p) = f.pixels := by
  unfold SinkState.peek at hpeek
  cases hp : s.front.rgba with
  | none =>
    rw [hp] at hpeek
    cases hpeek
  | some q =>
    rw [hp] at hpeek
    dsimp only at hpeek
    split_ifs at hpeek
    cases hpeek
    have hfront := h.front
    unfold FrontShows at hfront
    split_ifs at hfront with hzero
    · exact nomatch hp.symm.trans hfront
    · obtain ⟨f, hf, q, hq, hfields, -, -, hpixels⟩ := hfront
      cases hp.symm.trans hq
      simp only [Prod.mk.injEq] at hfields
      refine ⟨f, hf, Nat.pos_of_ne_zero hzero, ?_, ?_⟩
      · rw [hfields.1, hfields.2.1]
        exact congrArg (fun t => (f.w, f.h, t)) hfields.2.2
      · rw [hfields.1, hfields.2.1]
        exact hpixels

/-- In every state that is reached the three buffers are different, the producer has a pointer only to `back` and the
    consumer only to `front`; what the consumer was handed is a committed frame, whole; the numbers of the frames that
    were taken increase; a step keeps the frame in front, with its pixels, unless it is a take that gets one; and a take
    gets the newest frame, if and only if the sink is not abandoned and there was a commit since the last take. -/
theorem frame_sink_whole (h : SinkReach s) :
    ((∀ p, s.front.rgba = some p → s.mid.rgba ≠ some p ∧ s.back.rgba ≠ some p) ∧ ∀ p, s.mid.rgba = some p →
      s.back.rgba ≠ some p) ∧
    (∀ p n, s.pointer = some (p, n) → s.back.rgba = some p ∧ n ≤ s.back.cap) ∧
    ((∀ p, s.consumer = .rgbaRead p → s.front.rgba = some p) ∧ (s.consumer = .idle ∨ s.consumer = .unlocked false →
      s.handed = s.peek)) ∧
    (∀ (p : Nat) (w h : Int), s.peek = some (p, w, h) → ∃ f, s.commits[s.lastTaken - 1]? = some f ∧ 0 < s.lastTaken ∧
      (w, h, s.acquiredTimestamp) = (f.w, f.h, f.ts) ∧ (List.range (frameBytes w h)).map (s.mem p) = f.pixels) ∧
    s.taken.Pairwise (· < ·) ∧
    (∀ e s', s.Allowed e → s.step e = some s' → s.commits <+: s'.commits ∧ (∀ q, s.front.rgba = some q →
      s'.mem q = s.mem q) ∧
      ((e = .takeSection → s.takeSection.consumer = .unlocked false) → s'.taken = s.taken ∧ s'.front = s.front)) ∧
    (∀ s', s.step .takeSection = some s' →
      if s.abandoned = false ∧ s.lastTaken < s.commits.length then
        s'.consumer = .unlocked true ∧ s'.taken = s.taken ++ [s.commits.length] ∧ (s'.step .takeRgba).isSome ∧
          ∀ s'', s'.step .takeRgba = some s'' → s''.consumer ≠ .idle
      else s'.consumer = .unlocked false ∧ ∀ s'', s'.step .takeRgba = some s'' → s''.consumer = .idle ∧
        s''.handed = s.handed) := by
  have hinv := h.inv
  have hconsumer := hinv.consumer
  unfold ConsumerOk at hconsumer
  refine ⟨⟨fun p hp => ⟨hinv.frontMid p hp, hinv.frontBack p hp⟩, hinv.midBack⟩, hinv.pointer, ⟨fun p hp => ?_, ?_⟩,
    fun p w h' hpeek => hinv.peek hpeek, hinv.increasing, fun e s' hallowed hs => step_front hinv hallowed hs,
      fun s' hs => ?_⟩
  · rw [hp] at hconsumer
    exact hconsumer
  · rintro (hc | hc) <;> rw [hc] at hconsumer <;> exact hconsumer
  · have hinv' := inv_step hinv (e := .takeSection) trivial hs
    have hconsumer' := hinv'.consumer
    have hgot : s.pending = true ∧ ¬s.abandoned = true ↔ s.abandoned = false ∧ s.lastTaken < s.commits.length := by
      rw [hinv.pending]
      exact ⟨fun hboth => hboth.1, fun hboth => ⟨hboth, Bool.eq_false_iff.1 hboth.1⟩⟩
    unfold SinkState.step at hs
    cases hc : s.consumer <;> rw [hc] at hs <;> cases hs
    unfold SinkState.takeSection at hconsumer' ⊢
    by_cases hnew : s.abandoned = false ∧ s.lastTaken < s.commits.length
    · rw [if_pos (hgot.2 hnew)] at hconsumer' ⊢
      rw [if_pos hnew]
      obtain ⟨p, hp⟩ := Option.ne_none_iff_exists'.1 hconsumer'
      refine ⟨rfl, rfl, ?_, fun s'' hs'' => ?_⟩
      · unfold SinkState.step
        dsimp only at hp ⊢
        rw [hp]
        rfl
      · unfold SinkState.step at hs''
        dsimp only at hp hs''
        rw [hp] at hs''
        cases hs''
        exact fun hidle => nomatch hidle
    · rw [if_neg (mt hgot.1 hnew), if_neg hnew]
      refine ⟨rfl, fun s'' hs'' => ?_⟩
      cases hs''
      exact ⟨rfl, rfl⟩

end Runs

/-- Of three frames the first is taken, then the newest, whose commit first fails and is done again after more is drawn. -/
theorem frame_sink_three : ∃ s, SinkReach s ∧ s.taken = [1, 3] ∧ s.handed = some (2, 2, 1) ∧
    ∃ f, s.commits[2]? = some f ∧ (List.range 8).map (s.mem 2) = f.pixels := by
  have h1 := (SinkReach.new fun _ _ => 0).step (e := .begin 1 1) trivial rfl
  have h2 := h1.step (e := .grow (some 0) fun _ => 7) (fun _ _ => ⟨nofun, nofun⟩) rfl
  have h3 := h2.step (e := .write 2 9) trivial rfl
  have h4 := h3.step (e := .commit 1 1 5) trivial rfl
  have h5 := h4.step (e := .commitSection) trivial rfl
  have h6 := h5.step (e := .takeSection) trivial rfl
  have h7 := h6.step (e := .takeRgba) trivial rfl
  -- A second frame, while the consumer is still reading the fields of the first.
  have h8 := h7.step (e := .begin 2 1) trivial rfl
  have h9 := h8.step (e := .grow (some 1) fun _ => 3) (fun p hp => by cases hp; exact ⟨by decide, nofun⟩) rfl
  have h10 := h9.step (e := .commit 2 1 6) trivial rfl
  have h11 := h10.step (e := .takeWidth) trivial rfl
  have h12 := h11.step (e := .commitSection) trivial rfl
  have h13 := h12.step (e := .takeHeight) trivial rfl
  -- A third, whose first commit is too large.
  have h14 := h13.step (e := .begin 2 1) trivial rfl
  have h15 := h14.step (e := .grow (some 2) fun _ => 4) (fun p hp => by cases hp; exact ⟨by decide, by decide⟩) rfl
  have h16 := h15.step (e := .commit 2 9 8) trivial rfl
  have h17 := h16.step (e := .write 7 1) trivial rfl
  have h18 := h17.step (e := .commit 2 1 8) trivial rfl
  have h19 := h18.step (e := .commitSection) trivial rfl
  have h20 := h19.step (e := .takeSection) trivial rfl
  have h21 := h20.step (e := .takeRgba) trivial rfl
  have h22 := h21.step (e := .takeWidth) trivial rfl
  have h23 := h22.step (e := .takeHeight) trivial rfl
  obtain ⟨f, hf, -, -, hpixels⟩ := (frame_sink_whole h23).2.2.2.1 2 2 1 rfl
  exact ⟨_, h23, rfl, rfl, f, hf, hpixels⟩

end Lunaria.Media
