import Lunaria.Linker.Init

/-! Every entry is called at most once, and the entries of an image in their order, in any run: an image has one call that
    goes through its entries, and the flag is set before it. -/

namespace Lunaria.Linker
open BreadthFirst List Function Nat

/-- `DT_INIT` is before the array, and that in its order. -/
def Entry.rank : Entry → Nat
  | .init => 0
  | .slot offset => offset + 1

/-- Below which rank the entries have been called. -/
def Place.bound : Place → Nat
  | .initRunning => 1
  | .table => 1
  | .array offset => offset + 1
  | .arrayRunning offset => offset + 2
  | _ => 0

/-- The entries that an image has. -/
def HasEntry (H : Host) (m : Module) : Entry → Prop
  | .init => m.initFn ≠ 0
  | .slot offset => m.initArray ≠ 0 ∧ stride m ∣ offset ∧ offset + stride m ≤ m.initArraySize.toNat ∧
      slotAt H m offset = .call

/-- An offset of the array is a whole number of elements. -/
def Place.Aligned (m : Module) : Place → Prop
  | .array offset => m.initArray ≠ 0 ∧ stride m ∣ offset
  | .arrayRunning offset => m.initArray ≠ 0 ∧ stride m ∣ offset
  | _ => True

/-- An event that is no call of a constructor. -/
def Event.quiet : Event → Bool
  | .invoked _ _ => false
  | _ => true

theorem Entry.rank_inj {e e' : Entry} (h : e.rank = e'.rank) : e = e' := by
  cases e <;> cases e' <;> simp_all [Entry.rank]

section Once
variable (H : Host) (r : Registry) {e : Entry}

/-- All entries of an image have been called. -/
def Complete (lg : List Event) (m : Nat) : Prop := ∀ e, HasEntry H (r.module m) e → .invoked m e ∈ lg

/-- A call has gone through the entries below its place. -/
structure FrameOk (lg : List Event) (f : Frame) : Prop where
  below : ∀ e, .invoked f.image e ∈ lg → e.rank < f.place.bound
  aligned : f.place.Aligned (r.module f.image)
  upto : ∀ e, HasEntry H (r.module f.image) e → e.rank < f.place.bound → .invoked f.image e ∈ lg

structure Once (s : Calls) : Prop where
  nodup : (s.stack.map Frame.image).Nodup
  flagged : ∀ f ∈ s.stack, s.flags f.image = true
  entered : ∀ m e, .invoked m e ∈ s.log → s.flags m = true
  frames : ∀ f ∈ s.stack, FrameOk H r s.log f
  order : s.log.Pairwise fun a b => ∀ m e e', a = .invoked m e → b = .invoked m e' → e'.rank < e.rank
  gone : ∀ m, s.flags m = true → m ∉ s.stack.map Frame.image → .returned m false ∈ s.log ∨ Complete H r s.log m

variable {H r} {fl : Nat → Bool} {st : List Frame} {res res' : Option Bool} {lg evs : List Event} {m : Nat} {p p' : Place}

theorem mem_quiet (hq : ∀ ev ∈ evs, ev.quiet = true) {m : Nat} :
    .invoked m e ∈ evs ++ lg ↔ .invoked m e ∈ lg := by
  rw [mem_append]
  exact or_iff_right fun h => Bool.false_ne_true (hq _ h)

theorem Complete.more (evs : List Event) (h : Complete H r lg m) : Complete H r (evs ++ lg) m :=
  fun e he => mem_append_right _ (h e he)

theorem FrameOk.quiet {f : Frame} (h : FrameOk H r lg f) (hq : ∀ ev ∈ evs, ev.quiet = true) :
    FrameOk H r (evs ++ lg) f where
  below e he := h.below e ((mem_quiet hq).1 he)
  aligned := h.aligned
  upto e he hb := (mem_quiet hq).2 (h.upto e he hb)

theorem order_quiet (h : lg.Pairwise fun a b => ∀ m e e', a = .invoked m e → b = .invoked m e' → e'.rank < e.rank)
    (hq : ∀ ev ∈ evs, ev.quiet = true) :
    (evs ++ lg).Pairwise fun a b => ∀ m e e', a = .invoked m e → b = .invoked m e' → e'.rank < e.rank := by
  refine pairwise_append.2 ⟨?_, h, fun a ha b _ m e e' hm => ?_⟩
  · refine List.Pairwise.imp_of_mem (R := fun _ _ => True) (fun ha _ _ m e e' hm => ?_)
      (pairwise_of_forall fun _ _ => trivial)
    exact absurd (hq _ ha) (by rw [hm]; exact Bool.false_ne_true)
  · exact absurd (hq _ ha) (by rw [hm]; exact Bool.false_ne_true)

/-- Nothing is called, and the stack stays. -/
theorem Once.quiet (evs : List Event) (res' : Option Bool) (h : Once H r ⟨fl, st, res, lg⟩)
    (hq : ∀ ev ∈ evs, ev.quiet = true) : Once H r ⟨fl, st, res', evs ++ lg⟩ where
  nodup := h.nodup
  flagged := h.flagged
  entered m e he := h.entered m e ((mem_quiet hq).1 he)
  frames f hf := (h.frames f hf).quiet hq
  order := order_quiet h.order hq
  gone m hm hst := (h.gone m hm hst).imp (mem_append_right _) (Complete.more evs)

theorem Once.top {f : Frame} (h : Once H r ⟨fl, f :: st, res, lg⟩) : FrameOk H r lg f := h.frames f mem_cons_self

theorem Once.move (p' : Place) (res' : Option Bool) (h : Once H r ⟨fl, ⟨m, p⟩ :: st, res, lg⟩)
    (hp : FrameOk H r lg ⟨m, p'⟩) : Once H r ⟨fl, ⟨m, p'⟩ :: st, res', lg⟩ where
  nodup := h.nodup
  flagged f hf := by
    rcases mem_cons.1 hf with rfl | hf
    · exact h.flagged ⟨m, p⟩ mem_cons_self
    · exact h.flagged f (mem_cons_of_mem _ hf)
  entered := h.entered
  frames f hf := by
    rcases mem_cons.1 hf with rfl | hf
    · exact hp
    · exact h.frames f (mem_cons_of_mem _ hf)
  order := h.order
  gone := h.gone

theorem Once.pop (h : Once H r ⟨fl, ⟨m, p⟩ :: st, res, lg⟩) (hm : .returned m false ∈ lg ∨ Complete H r lg m) :
    Once H r ⟨fl, st, res', lg⟩ where
  nodup := (nodup_cons.1 h.nodup).2
  flagged f hf := h.flagged f (mem_cons_of_mem _ hf)
  entered := h.entered
  frames f hf := h.frames f (mem_cons_of_mem _ hf)
  order := h.order
  gone n hn hst := by
    by_cases hnm : n = m
    · subst hnm
      exact hm
    · refine h.gone n hn fun hmem => ?_
      rcases mem_cons.1 hmem with h | h
      · exact hnm h
      · exact hst h

theorem Once.push (h : Once H r ⟨fl, st, res, lg⟩) (hm : fl m = false) :
    Once H r ⟨update fl m true, ⟨m, .deps 0⟩ :: st, res', lg⟩ where
  nodup := by
    refine nodup_cons.2 ⟨fun hmem => ?_, h.nodup⟩
    obtain ⟨f, hf, rfl⟩ := List.mem_map.1 hmem
    exact Bool.false_ne_true (hm.symm.trans (h.flagged f hf))
  flagged f hf := by
    dsimp only
    by_cases hfm : f.image = m
    · rw [hfm, update_self]
    · rw [update_of_ne hfm]
      rcases mem_cons.1 hf with rfl | hf
      · exact absurd rfl hfm
      · exact h.flagged f hf
  entered n e he := by
    dsimp only
    by_cases hnm : n = m
    · rw [hnm, update_self]
    · rw [update_of_ne hnm]
      exact h.entered n e he
  frames f hf := by
    rcases mem_cons.1 hf with rfl | hf
    · exact ⟨fun e he => absurd (hm.symm.trans (h.entered m e he)) Bool.false_ne_true, trivial, fun _ _ => nofun⟩
    · exact h.frames f hf
  order := h.order
  gone n hn hst := by
    have hnm : n ≠ m := fun h => hst (h ▸ mem_cons_self)
    dsimp only at hn
    rw [update_of_ne hnm] at hn
    exact h.gone n hn fun hmem => hst (mem_cons_of_mem _ hmem)

theorem Once.invoke (h : Once H r ⟨fl, ⟨m, p⟩ :: st, res, lg⟩) (hrank : e.rank = p.bound)
    (hbound : p'.bound = e.rank + 1) (haligned : p'.Aligned (r.module m)) :
    Once H r ⟨fl, ⟨m, p'⟩ :: st, res, .invoked m e :: lg⟩ where
  nodup := h.nodup
  flagged f hf := by
    rcases mem_cons.1 hf with rfl | hf
    · exact h.flagged ⟨m, p⟩ mem_cons_self
    · exact h.flagged f (mem_cons_of_mem _ hf)
  entered n e' he := by
    rcases mem_cons.1 he with he | he
    · cases he
      exact h.flagged ⟨m, p⟩ mem_cons_self
    · exact h.entered n e' he
  frames f hf := by
    have htop := h.top
    rcases mem_cons.1 hf with rfl | hf
    · refine ⟨fun e' he => ?_, haligned, fun e' he hb => ?_⟩
      · rw [hbound]
        rcases mem_cons.1 he with he | he
        · cases he
          exact lt_succ_self _
        · exact lt_succ_of_lt (hrank ▸ htop.below e' he)
      · rw [hbound] at hb
        rcases Nat.lt_succ_iff_lt_or_eq.1 hb with hlt | heq
        · exact mem_cons_of_mem _ (htop.upto e' he (hrank ▸ hlt))
        · rw [Entry.rank_inj heq]
          exact mem_cons_self
    · have hne : f.image ≠ m := by
        intro hfm
        exact (nodup_cons.1 h.nodup).1 (List.mem_map.2 ⟨f, hf, hfm⟩)
      have hold := h.frames f (mem_cons_of_mem _ hf)
      refine ⟨fun e' he => ?_, hold.aligned, fun e' he hb => mem_cons_of_mem _ (hold.upto e' he hb)⟩
      rcases mem_cons.1 he with he | he
      · cases he
        exact absurd rfl hne
      · exact hold.below e' he
  order := by
    refine pairwise_cons.2 ⟨fun b hb n e₁ e₂ h1 h2 => ?_, h.order⟩
    cases h1
    subst h2
    exact hrank ▸ h.top.below e₂ hb
  gone n hn hst := (h.gone n hn hst).imp (mem_cons_of_mem _) fun hc e' he' => mem_cons_of_mem _ (hc e' he')

theorem FrameOk.place (h : FrameOk H r lg ⟨m, p⟩) (hbound : p'.bound = p.bound) (haligned : p'.Aligned (r.module m)) :
    FrameOk H r lg ⟨m, p'⟩ where
  below e he := hbound ▸ h.below e he
  aligned := haligned
  upto e he hb := h.upto e he (hbound ▸ hb)

theorem FrameOk.noInit (h : FrameOk H r lg ⟨m, .init⟩) (hno : (r.module m).initFn = 0) :
    FrameOk H r lg ⟨m, .table⟩ where
  below e he := absurd (h.below e he) (Nat.not_lt_zero _)
  aligned := trivial
  upto e he hb := by
    cases e with
    | init => exact absurd hno he
    | slot o => exact absurd (Nat.lt_one_iff.1 hb) (succ_ne_zero o)

theorem stride_pos (m : Module) : 0 < stride m := by
  unfold stride
  split <;> decide

/-- Past an element that has no constructor, or whose constructor has been called. -/
theorem FrameOk.next {o : Nat} (hbelow : ∀ e, .invoked m e ∈ lg → e.rank < o + stride (r.module m) + 1)
    (haligned : (r.module m).initArray ≠ 0 ∧ stride (r.module m) ∣ o)
    (hupto : ∀ e, HasEntry H (r.module m) e → e.rank ≤ o + 1 → .invoked m e ∈ lg) :
    FrameOk H r lg ⟨m, .array (o + stride (r.module m))⟩ where
  below := hbelow
  aligned := ⟨haligned.1, Nat.dvd_add_self_right.2 haligned.2⟩
  upto e he hb := by
    refine hupto e he ?_
    cases e with
    | init => exact Nat.zero_le _
    | slot o' =>
      -- Two offsets are the same element, or differ by a whole one.
      have hlt : o' < o + stride (r.module m) := lt_of_succ_lt_succ hb
      obtain ⟨a, rfl⟩ := haligned.2
      obtain ⟨b, rfl⟩ := he.2.1
      refine succ_le_succ (Nat.mul_le_mul_left _ ?_)
      rw [← mul_succ] at hlt
      exact le_of_lt_succ (Nat.lt_of_mul_lt_mul_left hlt)

theorem FrameOk.skip {o : Nat} (h : FrameOk H r lg ⟨m, .array o⟩) (hskip : slotAt H (r.module m) o = .skip) :
    FrameOk H r lg ⟨m, .array (o + stride (r.module m))⟩ := by
  refine FrameOk.next (fun e he => ?_) h.aligned fun e he hb => ?_
  · exact lt_of_lt_of_le (h.below e he) (succ_le_succ (Nat.le_add_right _ _))
  · rcases Nat.lt_or_eq_of_le hb with hlt | heq
    · exact h.upto e he hlt
    · cases e with
      | init => cases heq
      | slot o' =>
        cases Nat.succ.inj heq
        cases hskip.symm.trans he.2.2.2

theorem FrameOk.after (h : FrameOk H r lg ⟨m, p⟩) (hp : p.running = some e) :
    FrameOk H r lg ⟨m, p.after (r.module m)⟩ := by
  cases p with
  | initRunning => exact h.place rfl trivial
  | arrayRunning o =>
    refine FrameOk.next (fun e he => ?_) h.aligned fun e he hb => h.upto e he (lt_succ_of_le hb)
    exact lt_of_lt_of_le (h.below e he) (succ_le_succ (Nat.add_le_add_left (stride_pos _) o))
  | deps i => cases hp
  | dep i => cases hp
  | init => cases hp
  | table => cases hp
  | array o => cases hp

/-- Where the array ends, or there is none, all entries have been called. -/
theorem FrameOk.complete (h : FrameOk H r lg ⟨m, p⟩) (hend : (p = .table ∧ (r.module m).initArray = 0) ∨
    ∃ o, p = .array o ∧ ¬ o + stride (r.module m) ≤ (r.module m).initArraySize.toNat) : Complete H r lg m := by
  intro e he
  refine h.upto e he ?_
  rcases hend with ⟨rfl, hno⟩ | ⟨o, rfl, hover⟩
  · cases e with
    | init => exact Nat.one_pos
    | slot o => exact absurd hno he.1
  · cases e with
    | init => exact succ_pos o
    | slot o' =>
      refine succ_lt_succ ?_
      have := he.2.2.1
      omega

theorem Move.once {s s' : Calls} {a : Action} (hmove : Move H r s a s') (h : Once H r s) : Once H r s' := by
  cases hmove with
  | @callAgain fl st lg m => exact h.quiet [.returned m true, .called m] _ (by simp [Event.quiet])
  | @call fl st lg m _ hm => exact (h.quiet [.called m] none (by simp [Event.quiet])).push hm
  | @depAgain fl st lg m i d =>
    exact (h.move (.dep i) none (h.top.place rfl trivial)).quiet
      [.returned d true, .called d] _ (by simp [Event.quiet])
  | @dep fl st lg m i d _ hd =>
    exact ((h.move (.dep i) none (h.top.place rfl trivial)).quiet
      [.called d] none (by simp [Event.quiet])).push hd
  | depsOver => exact h.move _ _ (h.top.place rfl trivial)
  | depTrue => exact h.move _ _ (h.top.place rfl trivial)
  | @depFalse fl st lg m =>
    exact (h.quiet [.returned m false] none (by simp [Event.quiet])).pop (.inl mem_cons_self)
  | received => exact h.quiet [] _ nofun
  | invokeInit => exact h.invoke rfl rfl trivial
  | noInit hno => exact h.move _ _ (h.top.noInit hno)
  | @noArray fl st lg m hno =>
    have hc := h.top.complete (.inl ⟨rfl, hno⟩)
    exact (h.quiet [.returned m true] none (by simp [Event.quiet])).pop (.inr (hc.more [_]))
  | array harr => exact h.move _ _ (h.top.place rfl ⟨harr, Nat.dvd_zero _⟩)
  | @arrayOver fl st lg m o hover =>
    have hc := h.top.complete (.inr ⟨o, rfl, hover⟩)
    exact (h.quiet [.returned m true] none (by simp [Event.quiet])).pop (.inr (hc.more [_]))
  | @slotFail fl st lg m =>
    exact (h.quiet [.returned m false] none (by simp [Event.quiet])).pop (.inl mem_cons_self)
  | slotSkip _ hskip => exact h.move _ _ (h.top.skip hskip)
  | invokeSlot => exact h.invoke rfl rfl h.top.aligned
  | @finishTrue fl st lg m p e hp =>
    exact (h.move _ none (h.top.after hp)).quiet [.finished m e true] _
      (by simp [Event.quiet])
  | @finishFalse fl st lg m p e hp =>
    exact (h.quiet [.returned m false, .finished m e false] none (by simp [Event.quiet])).pop
      (.inl mem_cons_self)

/-- In every run, every entry is called at most once, and those of an image in their order. -/
theorem Runs.once {ok : Calls → Action → Prop} {s : Calls} (h : Runs H r ok s) : Once H r s := by
  induction h with
  | start => exact ⟨nodup_nil, nofun, nofun, nofun, .nil, nofun⟩
  | step _ _ hstep ih => exact (step_move hstep).once ih

end Once

end Lunaria.Linker
