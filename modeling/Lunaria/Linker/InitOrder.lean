import Mathlib
import Lunaria.Linker.InitOnce

/-! When a failure is not forgotten, and the constructors of what an image depends on have run before its own. The flag
    says that a call has begun, not how it ended, so a later call of an image that failed, or of one that depends on it,
    succeeds: the results are right in runs where no such call is made and no constructor hides a failure from the calls
    it is part of. -/

namespace Lunaria.Linker
open BreadthFirst List Function

/-- A failure of an image: of a constructor, or of the call. -/
def Failure (m : Nat) : Event → Prop
  | .returned n ok => n = m ∧ ok = false
  | .finished n _ ok => n = m ∧ ok = false
  | _ => False

/-- The calls that wait for the one above, up to a constructor that made one of them. -/
def waiting (st : List Frame) : List Frame := st.takeWhile fun f => f.place.running.isNone

/-- The calls that go on when the constructor of the uppermost returns. -/
def going : List Frame → List Frame
  | [] => []
  | f :: st => f :: waiting st

section Order
variable (H : Host) (r : Registry)

/-- Nothing that an image depends on has failed, nor the image. -/
def Clean (lg : List Event) (m : Nat) : Prop := ∀ x, Reaches r.deps m x → ∀ ev ∈ lg, ¬ Failure x ev

/-- No call is made of an image that depends on one that has failed, and a constructor does not report success while
    something has failed that the images depend on whose calls go on in it. -/
def Heeds (s : Calls) : Action → Prop
  | .call m => Clean r s.log m
  | .finish true => ∀ f ∈ going s.stack, Clean r s.log f.image
  | _ => True

/-- Nothing is called from inside a constructor. -/
def Alone (s : Calls) : Action → Prop
  | .call _ => s.stack = []
  | _ => True

/-- What a call that succeeds says of what happened before. -/
def Remembered (lg : List Event) : Prop :=
  lg.Pairwise fun a b => ∀ m, a = .returned m true → ∀ x, Reaches r.deps m x → ¬ Failure x b

structure Heeded (s : Calls) : Prop where
  clean : s.result = some false ∨ ∀ f ∈ waiting s.stack, Clean r s.log f.image
  remembered : Remembered r s.log

variable {H r} {fl : Nat → Bool} {st : List Frame} {lg : List Event} {m : Nat}

theorem Clean.cons {ev : Event} (h : Clean r lg m) (hev : ∀ x, ¬ Failure x ev) : Clean r (ev :: lg) m := by
  intro x hx b hb
  rcases mem_cons.1 hb with rfl | hb
  · exact hev x
  · exact h x hx b hb

theorem Clean.dep {d : Nat} (h : Clean r lg m) (hd : d ∈ r.deps m) : Clean r lg d :=
  fun x hx => h x (.head hd hx)

theorem Remembered.cons {ev : Event} (h : Remembered r lg) (hev : ∀ m, ev = .returned m true → Clean r lg m) :
    Remembered r (ev :: lg) :=
  pairwise_cons.2 ⟨fun b hb m hm x hx => hev m hm x hx b hb, h⟩

theorem Remembered.other {ev : Event} (h : Remembered r lg) (hev : ∀ m, ev ≠ .returned m true) : Remembered r (ev :: lg) :=
  h.cons fun m hm => absurd hm (hev m)

theorem waiting_idle (h : idle st = true) : waiting st = [] := by
  cases st with
  | nil => rfl
  | cons f st =>
    simp only [idle] at h
    rw [waiting, takeWhile_cons, Option.isNone_eq_false_iff.2 h]
    rfl

theorem waiting_cons {f : Frame} (h : f.place.running = none) : waiting (f :: st) = f :: waiting st := by
  rw [waiting, takeWhile_cons, h]
  rfl

theorem waiting_running {f : Frame} (h : f.place.running.isSome) : waiting (f :: st) = [] := waiting_idle h

theorem mem_deps {i d : Nat} (hd : (r.deps m)[i]? = some d) : d ∈ r.deps m := mem_of_getElem? hd

theorem Place.after_running {p : Place} {e : Entry} {x : Module} (h : p.running = some e) : (p.after x).running = none := by
  cases p with
  | initRunning => rfl
  | arrayRunning o => rfl
  | deps i => cases h
  | dep i => cases h
  | init => cases h
  | table => cases h
  | array o => cases h

/-- The uppermost call, in a place where the program goes on, and those that wait for it. -/
theorem Heeded.top {p : Place} (h : Heeded r ⟨fl, ⟨m, p⟩ :: st, none, lg⟩) (hp : p.running = none) :
    Clean r lg m ∧ ∀ f ∈ waiting st, Clean r lg f.image := by
  have hclean := h.clean.resolve_left nofun
  rw [waiting_cons hp, forall_mem_cons] at hclean
  exact hclean

/-- The uppermost call gets to another place of the same kind. -/
theorem Heeded.place {p : Place} (p' : Place) (h : Heeded r ⟨fl, ⟨m, p⟩ :: st, none, lg⟩) (hp : p.running = none)
    (hp' : p'.running = none) : Heeded r ⟨fl, ⟨m, p'⟩ :: st, none, lg⟩ := by
  refine ⟨.inr ?_, h.remembered⟩
  rw [waiting_cons hp', forall_mem_cons]
  exact h.top hp

theorem failure_called {n x : Nat} : ¬ Failure x (.called n) := nofun

theorem failure_succeeded {n x : Nat} : ¬ Failure x (.returned n true) := fun h => Bool.noConfusion h.2

theorem Move.heeded {s s' : Calls} {a : Action} (hmove : Move H r s a s') (hheed : Heeds r s a) (h : Heeded r s) :
    Heeded r s' := by
  cases hmove with
  | @callAgain fl st lg m hidle hm =>
    have hcalled : Remembered r (.called m :: lg) := h.remembered.other nofun
    refine ⟨.inr ?_, hcalled.cons ?_⟩
    · rw [waiting_idle hidle]
      nofun
    · rintro n ⟨⟩
      exact Clean.cons hheed fun _ => failure_called
  | call hidle hm =>
    refine ⟨.inr ?_, h.remembered.other nofun⟩
    rw [waiting_cons rfl, waiting_idle hidle, forall_mem_singleton]
    exact Clean.cons hheed fun _ => failure_called
  | @depAgain fl st lg m i d hd hfl =>
    obtain ⟨hm, hst⟩ := h.top rfl
    have hgrow : ∀ n, Clean r lg n → Clean r (.returned d true :: .called d :: lg) n :=
      fun n hn => (hn.cons fun _ => failure_called).cons fun _ => failure_succeeded
    have hcalled : Remembered r (.called d :: lg) := h.remembered.other nofun
    refine ⟨.inr ?_, hcalled.cons ?_⟩
    · rw [waiting_cons rfl, forall_mem_cons]
      exact ⟨hgrow m hm, fun f hf => hgrow _ (hst f hf)⟩
    · rintro n ⟨⟩
      exact (hm.dep (mem_deps hd)).cons fun _ => failure_called
  | @dep fl st lg m i d hd hfl =>
    obtain ⟨hm, hst⟩ := h.top rfl
    refine ⟨.inr ?_, h.remembered.other nofun⟩
    rw [waiting_cons rfl, waiting_cons rfl, forall_mem_cons, forall_mem_cons]
    exact ⟨(hm.dep (mem_deps hd)).cons fun _ => failure_called, hm.cons fun _ => failure_called,
      fun f hf => (hst f hf).cons fun _ => failure_called⟩
  | depsOver hd => exact h.place _ rfl rfl
  | depTrue =>
    have hclean := h.clean.resolve_left nofun
    rw [waiting_cons rfl, forall_mem_cons] at hclean
    refine ⟨.inr ?_, h.remembered⟩
    rw [waiting_cons rfl, forall_mem_cons]
    exact hclean
  | depFalse => exact ⟨.inl rfl, h.remembered.other nofun⟩
  | received hidle =>
    refine ⟨.inr ?_, h.remembered⟩
    rw [waiting_idle hidle]
    nofun
  | invokeInit _ =>
    refine ⟨.inr ?_, h.remembered.other nofun⟩
    rw [waiting_running rfl]
    nofun
  | noInit _ => exact h.place _ rfl rfl
  | noArray _ =>
    obtain ⟨hm, hst⟩ := h.top rfl
    refine ⟨.inr fun f hf => (hst f hf).cons fun _ => failure_succeeded, h.remembered.cons ?_⟩
    rintro n ⟨⟩
    exact hm
  | array _ => exact h.place _ rfl rfl
  | arrayOver _ =>
    obtain ⟨hm, hst⟩ := h.top rfl
    refine ⟨.inr fun f hf => (hst f hf).cons fun _ => failure_succeeded, h.remembered.cons ?_⟩
    rintro n ⟨⟩
    exact hm
  | slotFail _ _ => exact ⟨.inl rfl, h.remembered.other nofun⟩
  | slotSkip _ _ => exact h.place _ rfl rfl
  | invokeSlot _ _ =>
    refine ⟨.inr ?_, h.remembered.other nofun⟩
    rw [waiting_running rfl]
    nofun
  | @finishTrue fl st lg m p e hp =>
    refine ⟨.inr ?_, h.remembered.other nofun⟩
    have hgoing : ∀ f ∈ (⟨m, p⟩ : Frame) :: waiting st, Clean r lg f.image := hheed
    rw [forall_mem_cons] at hgoing
    rw [waiting_cons (Place.after_running hp), forall_mem_cons]
    exact ⟨hgoing.1.cons fun x hx => Bool.noConfusion hx.2,
      fun f hf => (hgoing.2 f hf).cons fun x hx => Bool.noConfusion hx.2⟩
  | @finishFalse fl st lg m p e hp =>
    have hfinished : Remembered r (.finished m e false :: lg) := h.remembered.other nofun
    exact ⟨.inl rfl, hfinished.other nofun⟩

/-! Acyclic graphs, without calls from inside a constructor. -/

/-- The entries of an image have been called, and those of all it depends on. -/
def Done (H : Host) (r : Registry) (lg : List Event) (m : Nat) : Prop := ∀ x, Reaches r.deps m x → Complete H r lg x

/-- How many of the dependencies a call is through with. -/
def Place.through (n : Nat) : Place → Nat
  | .deps i => i
  | .dep i => i
  | _ => n

/-- When a constructor is called, those of all that its image depends on have been. -/
def InOrder (H : Host) (r : Registry) (lg : List Event) : Prop :=
  ∀ later m e earlier, lg = later ++ .invoked m e :: earlier → ∀ x, Reaches r.deps m x → x ≠ m → Complete H r earlier x

/-- A call is a dependency that the one below waits for. -/
def Waits (r : Registry) (f g : Frame) : Prop := ∃ i, g.place = .dep i ∧ (r.deps g.image)[i]? = some f.image

structure Ordered (H : Host) (r : Registry) (s : Calls) : Prop where
  path : s.stack.IsChain (Waits r)
  through : ∀ f ∈ s.stack, ∀ j d, j < f.place.through (r.deps f.image).length → (r.deps f.image)[j]? = some d →
    Done H r s.log d
  returned : s.result = some true → ∀ m i st, s.stack = ⟨m, .dep i⟩ :: st → ∀ d, (r.deps m)[i]? = some d →
    Done H r s.log d
  gone : ∀ m, s.flags m = true → m ∉ s.stack.map Frame.image → .returned m false ∈ s.log ∨ Done H r s.log m
  inOrder : InOrder H r s.log

theorem Done.more (evs : List Event) (h : Done H r lg m) : Done H r (evs ++ lg) m := fun x hx => (h x hx).more evs

theorem InOrder.cons {ev : Event} (h : InOrder H r lg)
    (hev : ∀ m e, ev = .invoked m e → ∀ x, Reaches r.deps m x → x ≠ m → Complete H r lg x) : InOrder H r (ev :: lg) := by
  intro later m e earlier hlg
  cases later with
  | nil =>
    cases hlg
    exact hev m e rfl
  | cons b later =>
    obtain ⟨rfl, hrest⟩ := List.cons.inj hlg
    exact h later m e earlier hrest

theorem InOrder.quiet (evs : List Event) (h : InOrder H r lg) (hq : ∀ ev ∈ evs, ev.quiet = true) :
    InOrder H r (evs ++ lg) := by
  induction evs with
  | nil => exact h
  | cons ev evs ih =>
    rw [forall_mem_cons] at hq
    refine InOrder.cons (ih hq.2) fun m e he => ?_
    rw [he] at hq
    cases hq.1

theorem path_reaches {f : Frame} : ∀ {st : List Frame}, (f :: st).IsChain (Waits r) → ∀ g ∈ st,
    Relation.TransGen (fun a b => b ∈ r.deps a) g.image f.image
  | [], _, _, hg => nomatch hg
  | g :: st, hpath, g', hg => by
    obtain ⟨⟨i, -, hi⟩, hrest⟩ := isChain_cons_cons.1 hpath
    rcases mem_cons.1 hg with rfl | hg
    · exact .single (mem_deps hi)
    · exact (path_reaches hrest g' hg).tail (mem_deps hi)

/-- An image whose dependencies are done is done when its own entries have been called. -/
theorem Done.of_deps (hdeps : ∀ d ∈ r.deps m, Done H r lg d) (hm : Complete H r lg m) : Done H r lg m := by
  intro x hx
  rcases hx.cases_head with rfl | ⟨d, hd, hx⟩
  · exact hm
  · exact hdeps d hd x hx

section Alone
variable {H : Host} {r : Registry} {fl : Nat → Bool} {st : List Frame} {res : Option Bool} {lg : List Event} {m : Nat}
  {p : Place}

/-- The dependencies of the uppermost call, where it is through with all of them. -/
theorem Ordered.deps_done (h : Ordered H r ⟨fl, ⟨m, p⟩ :: st, res, lg⟩)
    (hp : p.through (r.deps m).length = (r.deps m).length) : ∀ d ∈ r.deps m, Done H r lg d := by
  intro d hd
  obtain ⟨j, hj⟩ := mem_iff_getElem?.1 hd
  refine h.through ⟨m, p⟩ mem_cons_self j d ?_ hj
  rw [hp]
  exact (List.getElem?_eq_some_iff.1 hj).1

/-- The stack stays, and no call has succeeded. -/
theorem Ordered.quiet (evs : List Event) (res' : Option Bool) (h : Ordered H r ⟨fl, st, res, lg⟩) (hres : res' ≠ some true)
    (hq : ∀ ev ∈ evs, ev.quiet = true) : Ordered H r ⟨fl, st, res', evs ++ lg⟩ where
  path := h.path
  through f hf j d hj hd := (h.through f hf j d hj hd).more evs
  returned hsome := absurd hsome hres
  gone n hn hst := (h.gone n hn hst).imp (mem_append_right _) (Done.more evs)
  inOrder := h.inOrder.quiet evs hq

theorem Ordered.again {i d : Nat} (evs : List Event) (h : Ordered H r ⟨fl, ⟨m, .dep i⟩ :: st, res, lg⟩)
    (hd : (r.deps m)[i]? = some d) (hdone : Done H r lg d) (hq : ∀ ev ∈ evs, ev.quiet = true) :
    Ordered H r ⟨fl, ⟨m, .dep i⟩ :: st, some true, evs ++ lg⟩ where
  path := h.path
  through f hf j d hj hd := (h.through f hf j d hj hd).more evs
  returned := by
    rintro - n j st' hst d' hd'
    cases hst
    cases hd.symm.trans hd'
    exact hdone.more evs
  gone n hn hst := (h.gone n hn hst).imp (mem_append_right _) (Done.more evs)
  inOrder := h.inOrder.quiet evs hq

theorem Ordered.move (p' : Place) (h : Ordered H r ⟨fl, ⟨m, p⟩ :: st, res, lg⟩)
    (hp : ∀ j d, j < p'.through (r.deps m).length → (r.deps m)[j]? = some d → Done H r lg d) :
    Ordered H r ⟨fl, ⟨m, p'⟩ :: st, none, lg⟩ where
  path := by
    cases st with
    | nil => exact .singleton _
    | cons g st =>
      obtain ⟨hw, hrest⟩ := isChain_cons_cons.1 h.path
      exact isChain_cons_cons.2 ⟨hw, hrest⟩
  through f hf := by
    rcases mem_cons.1 hf with rfl | hf
    · exact hp
    · exact h.through f (mem_cons_of_mem _ hf)
  returned := nofun
  gone := h.gone
  inOrder := h.inOrder

theorem Ordered.pop (ok : Bool) (h : Ordered H r ⟨fl, ⟨m, p⟩ :: st, res, lg⟩)
    (hm : (ok = false ∧ .returned m false ∈ lg) ∨ Done H r lg m) : Ordered H r ⟨fl, st, some ok, lg⟩ where
  path := by
    cases st with
    | nil => exact .nil
    | cons g st => exact (isChain_cons_cons.1 h.path).2
  through f hf := h.through f (mem_cons_of_mem _ hf)
  returned := by
    rintro ⟨⟩ n i st' rfl d hd
    obtain ⟨⟨i', hi', hm'⟩, -⟩ := isChain_cons_cons.1 h.path
    cases hi'
    cases hd.symm.trans hm'
    exact hm.resolve_left fun h => Bool.noConfusion h.1
  gone n hn hst := by
    by_cases hnm : n = m
    · subst hnm
      exact hm.imp And.right id
    · refine h.gone n hn fun hmem => ?_
      rcases mem_cons.1 hmem with h | h
      · exact hnm h
      · exact hst h
  inOrder := h.inOrder

/-- A new call, from outside or for a dependency. -/
theorem Ordered.push (h : Ordered H r ⟨fl, st, res, lg⟩)
    (hpath : ((⟨m, .deps 0⟩ : Frame) :: st).IsChain (Waits r)) :
    Ordered H r ⟨update fl m true, ⟨m, .deps 0⟩ :: st, none, lg⟩ where
  path := hpath
  through f hf := by
    rcases mem_cons.1 hf with rfl | hf
    · intro j d hj
      exact absurd hj (Nat.not_lt_zero j)
    · exact h.through f hf
  returned := nofun
  gone n hn hst := by
    have hnm : n ≠ m := fun h => hst (h ▸ mem_cons_self)
    dsimp only at hn
    rw [update_of_ne hnm] at hn
    exact h.gone n hn fun hmem => hst (mem_cons_of_mem _ hmem)
  inOrder := h.inOrder

/-- The uppermost call calls a constructor. -/
theorem Ordered.invoke (p' : Place) (e : Entry) (h : Ordered H r ⟨fl, ⟨m, p⟩ :: st, res, lg⟩)
    (hp : p.through (r.deps m).length = (r.deps m).length) :
    Ordered H r ⟨fl, ⟨m, p'⟩ :: st, none, .invoked m e :: lg⟩ := by
  have hdeps := h.deps_done hp
  have hmoved : Ordered H r ⟨fl, ⟨m, p'⟩ :: st, none, lg⟩ := h.move p' fun j d _ hd => hdeps d (mem_deps hd)
  refine ⟨hmoved.path, fun f hf j d hj hd => (hmoved.through f hf j d hj hd).more [_], nofun, fun n hn hst => ?_, ?_⟩
  · exact (hmoved.gone n hn hst).imp (mem_cons_of_mem _) (Done.more [_])
  · refine h.inOrder.cons ?_
    rintro n e' ⟨⟩ x hx hne
    rcases hx.cases_head with rfl | ⟨d, hd, hx⟩
    · exact absurd rfl hne
    · exact hdeps d hd x hx

end Alone

theorem Move.ordered {s s' : Calls} {a : Action} (hmove : Move H r s a s') (halone : Alone s a)
    (hacyclic : ∀ x, ¬ Relation.TransGen (fun a b => b ∈ r.deps a) x x) (honce : Once H r s) (hheeded : Heeded r s)
    (h : Ordered H r s) : Ordered H r s' := by
  cases hmove with
  | @callAgain fl st lg m hidle hm =>
    have hst : st = [] := halone
    subst hst
    have hquiet := h.quiet [.returned m true, .called m] none (by simp) (by simp [Event.quiet])
    exact ⟨hquiet.path, hquiet.through, fun _ _ _ _ => (by simp), hquiet.gone, hquiet.inOrder⟩
  | @call fl st lg m hidle hm =>
    have hst : st = [] := halone
    subst hst
    exact (h.quiet [.called m] none (by simp) (by simp [Event.quiet])).push (.singleton _)
  | @depAgain fl st lg m i d hd hfl =>
    -- What was called before is done: it does not wait for this call, and has not failed.
    have hnot : d ∉ ((⟨m, .deps i⟩ : Frame) :: st).map Frame.image := by
      intro hmem
      rcases mem_cons.1 hmem with rfl | hmem
      · exact hacyclic d (.single (mem_deps hd))
      · obtain ⟨g, hg, rfl⟩ := List.mem_map.1 hmem
        exact hacyclic g.image ((path_reaches h.path g hg).tail (mem_deps hd))
    have hdone : Done H r lg d := by
      refine (h.gone d hfl hnot).resolve_left fun hfailed => ?_
      exact (hheeded.top rfl).1 d (.single (mem_deps hd)) _ hfailed ⟨rfl, rfl⟩
    exact (h.move (.dep i) (h.through _ mem_cons_self)).again [.returned d true, .called d] hd hdone
      (by simp [Event.quiet])
  | @dep fl st lg m i d hd hfl =>
    have hmoved := (h.move (.dep i) (h.through _ mem_cons_self)).quiet [.called d] none (by simp) (by simp [Event.quiet])
    exact hmoved.push (isChain_cons_cons.2 ⟨⟨i, rfl, hd⟩, hmoved.path⟩)
  | @depsOver fl st lg m i hd =>
    refine h.move .init fun j d hj hjd => h.through _ mem_cons_self j d ?_ hjd
    exact lt_of_lt_of_le (List.getElem?_eq_some_iff.1 hjd).1 (List.getElem?_eq_none_iff.1 hd)
  | @depTrue fl st lg m i =>
    refine h.move (.deps (i + 1)) fun j d hj hjd => ?_
    rcases Nat.lt_succ_iff_lt_or_eq.1 hj with hlt | rfl
    · exact h.through _ mem_cons_self j d hlt hjd
    · exact h.returned rfl m j st rfl d hjd
  | @depFalse fl st lg m i =>
    exact (h.quiet [.returned m false] none (by simp) (by simp [Event.quiet])).pop false (.inl ⟨rfl, mem_cons_self⟩)
  | received => exact h.quiet [] _ (by simp) (by simp)
  | invokeInit => exact h.invoke _ _ rfl
  | noInit => exact h.move _ fun j d _ hd => h.deps_done rfl d (mem_deps hd)
  | @noArray fl st lg m hno =>
    have hdone : Done H r lg m := .of_deps (h.deps_done rfl) (honce.top.complete (.inl ⟨rfl, hno⟩))
    exact (h.quiet [.returned m true] none (by simp) (by simp [Event.quiet])).pop true (.inr (hdone.more [_]))
  | array => exact h.move _ fun j d _ hd => h.deps_done rfl d (mem_deps hd)
  | @arrayOver fl st lg m o hover =>
    have hdone : Done H r lg m :=
      .of_deps (h.deps_done rfl) (honce.top.complete (.inr ⟨o, rfl, hover⟩))
    exact (h.quiet [.returned m true] none (by simp) (by simp [Event.quiet])).pop true (.inr (hdone.more [_]))
  | @slotFail fl st lg m o =>
    exact (h.quiet [.returned m false] none (by simp) (by simp [Event.quiet])).pop false (.inl ⟨rfl, mem_cons_self⟩)
  | slotSkip => exact h.move _ fun j d _ hd => h.deps_done rfl d (mem_deps hd)
  | invokeSlot => exact h.invoke _ _ rfl
  | @finishTrue fl st lg m p e hp =>
    have hthrough : p.through (r.deps m).length = (r.deps m).length := by
      cases p <;> first | rfl | cases hp
    exact (h.move _ fun j d _ hd => h.deps_done hthrough d (mem_deps hd)).quiet [.finished m e true] _ (by simp)
      (by simp [Event.quiet])
  | @finishFalse fl st lg m p e hp =>
    exact (h.quiet [.returned m false, .finished m e false] none (by simp) (by simp [Event.quiet])).pop false
      (.inl ⟨rfl, mem_cons_self⟩)

/-! The runs. -/

theorem Runs.heeded {ok : Calls → Action → Prop} {s : Calls} (h : Runs H r ok s) (hok : ∀ s a, ok s a → Heeds r s a) :
    Heeded r s := by
  induction h with
  | start => exact ⟨.inr nofun, .nil⟩
  | step _ hs hstep ih => exact (step_move hstep).heeded (hok _ _ hs) ih

theorem Runs.ordered {ok : Calls → Action → Prop} {s : Calls} (h : Runs H r ok s) (hok : ∀ s a, ok s a → Heeds r s a)
    (halone : ∀ s a, ok s a → Alone s a) (hacyclic : ∀ x, ¬ Relation.TransGen (fun a b => b ∈ r.deps a) x x) :
    Ordered H r s := by
  induction h with
  | start => exact ⟨.nil, nofun, nofun, nofun, fun later m e earlier h => by cases later <;> cases h⟩
  | step hs hstep hmove ih =>
    exact (step_move hmove).ordered (halone _ _ hstep) hacyclic hs.once (hs.heeded hok) ih

/-- In every run an entry is called at most once, and the entries of an image in their order. In every run that heeds
    failures, a call succeeds only where nothing has failed that the image depends on; and where the graph is acyclic and
    nothing is called from inside a constructor, the entries of all that an image depends on are called before its own. -/
theorem call_init_runs (H : Host) (r : Registry) :
    (∀ s, Runs H r (fun _ _ => True) s →
      s.log.Pairwise fun a b => ∀ m e e', a = .invoked m e → b = .invoked m e' → e'.rank < e.rank) ∧
    (∀ s, Runs H r (Heeds r) s → Remembered r s.log) ∧
    ((∀ x, ¬ Relation.TransGen (fun a b => b ∈ r.deps a) x x) →
      ∀ s, Runs H r (fun s a => Heeds r s a ∧ Alone s a) s → InOrder H r s.log) :=
  ⟨fun _ h => h.once.order, fun _ h => (h.heeded fun _ _ => id).remembered,
    fun hacyclic _ h => (h.ordered (fun _ _ => And.left) (fun _ _ => And.right) hacyclic).inOrder⟩

end Order

/-! An image that depends on two others, of which one depends on the other. -/

def threeImages : Registry where
  mods := [0, 1, 2]
  module i :=
    if i = 0 then { (default : Module) with initFn := 100 }
    else if i = 1 then { (default : Module) with elf32 := true, initArray := 4, initArraySize := 8 }
    else { (default : Module) with elf32 := true, initFn := 200, initArray := 8, initArraySize := 8 }
  deps i := if i = 0 then [1, 2] else if i = 1 then [2] else []
  next := 3

theorem threeImages_acyclic (x : Nat) : ¬ Relation.TransGen (fun a b => b ∈ threeImages.deps a) x x := by
  have hlater : ∀ a b, b ∈ threeImages.deps a → a < b := by
    intro a b hb
    simp only [threeImages] at hb
    split_ifs at hb with h0 h1
    · rcases mem_pair.1 hb with rfl | rfl <;> omega
    · rw [mem_singleton.1 hb]
      omega
    · cases hb
  intro hx
  have hlt : Relation.TransGen (fun a b : Nat => a < b) x x := hx.lift id hlater
  rw [Relation.transGen_eq_self] at hlt
  exact Nat.lt_irrefl x hlt

/-- The first slot of the second image is empty. -/
def threeArrays : Host := .ofWords [0, 0, 300, 400]

def Event.invocation : Event → Option (Nat × Entry)
  | .invoked m e => some (m, e)
  | _ => none

def Event.succeeded : Event → Bool
  | .returned _ ok => ok
  | .finished _ _ ok => ok
  | _ => true

/-- Nothing has failed so far, and nothing is called from inside a constructor. -/
def calm (s : Calls) (a : Action) : Bool :=
  s.log.all Event.succeeded && match a with
    | .call _ => s.stack.isEmpty
    | _ => true

theorem calm_ok {r : Registry} (s : Calls) (a : Action) (h : calm s a = true) : Heeds r s a ∧ Alone s a := by
  obtain ⟨hlog, hcall⟩ := Bool.and_eq_true_iff.1 h
  have hclean : ∀ m, Clean r s.log m := by
    intro m x _ ev hev hfailure
    have hsucceeded := all_eq_true.1 hlog ev hev
    cases ev with
    | called n => exact hfailure
    | invoked n e => exact hfailure
    | returned n ok => exact Bool.noConfusion (hfailure.2.symm.trans hsucceeded)
    | finished n e ok => exact Bool.noConfusion (hfailure.2.symm.trans hsucceeded)
  cases a with
  | call m => exact ⟨hclean m, isEmpty_iff.1 hcall⟩
  | go => exact ⟨trivial, trivial⟩
  | finish ok =>
    cases ok with
    | false => exact ⟨trivial, trivial⟩
    | true => exact ⟨fun f _ => hclean f.image, trivial⟩

/-- The first image is called twice, and all constructors succeed. -/
def succeeding : List Action :=
  [.call 0, .go, .go, .go, .go, .finish true, .go, .go, .finish true, .go, .finish true, .go, .go, .go, .go, .go, .go, .go,
    .finish true, .go, .go, .go, .go, .go, .go, .finish true, .go, .go, .call 0]

theorem call_init_runs_succeeding : ∃ s, Runs threeArrays threeImages (fun s a => Heeds threeImages s a ∧ Alone s a) s ∧
    s.log.reverse.filterMap Event.invocation =
      [(2, .init), (2, .slot 0), (2, .slot 4), (1, .slot 4), (0, .init)] ∧
    (s.log.Pairwise fun a b => ∀ m e e', a = .invoked m e → b = .invoked m e' → e'.rank < e.rank) ∧
    Remembered threeImages s.log ∧ InOrder threeArrays threeImages s.log := by
  have hlog :
      (steps threeArrays threeImages calm .start succeeding).map (fun s => s.log.reverse.filterMap Event.invocation) =
      some [(2, .init), (2, .slot 0), (2, .slot 4), (1, .slot 4), (0, .init)] := by rfl
  obtain ⟨s, hs, hlog⟩ := Option.map_eq_some_iff.1 hlog
  have hruns : ∀ ok : Calls → Action → Prop, (∀ s a, calm s a = true → ok s a) → Runs threeArrays threeImages ok s :=
    fun ok hok => Runs.steps _ _ hok .start hs
  obtain ⟨honce, hheeded, hinOrder⟩ := call_init_runs threeArrays threeImages
  exact ⟨s, hruns _ calm_ok, hlog, honce s (hruns _ fun _ _ _ => trivial),
    hheeded s (hruns _ fun s a h => (calm_ok s a h).1), hinOrder threeImages_acyclic s (hruns _ calm_ok)⟩

/-! An image that depends on another one, which has a constructor. -/

def twoImages : Registry where
  mods := [0, 1]
  module i := if i = 1 then { (default : Module) with initFn := 100 } else default
  deps i := if i = 0 then [1] else []
  next := 2

/-- The constructor fails, and the first image is called after that. -/
def forgetting : List Action := [.call 1, .go, .go, .finish false, .go, .call 0, .go, .go, .go, .go, .go]

theorem failure_forgotten : ¬ ∀ s, Runs (.ofWords []) twoImages (fun _ _ => True) s → Remembered twoImages s.log := by
  intro hall
  have hlog : (steps (.ofWords []) twoImages (fun _ _ => true) .start forgetting).map Calls.log =
      some [.returned 0 true, .returned 1 true, .called 1, .called 0, .returned 1 false,
        .finished 1 .init false, .invoked 1 .init, .called 1] := by rfl
  obtain ⟨s, hs, hlog⟩ := Option.map_eq_some_iff.1 hlog
  have hremembered := hall s (Runs.steps _ _ (fun _ _ _ => trivial) .start hs)
  rw [hlog] at hremembered
  refine (pairwise_cons.1 hremembered).1 (.finished 1 .init false) (by decide) 0 rfl 1 ?_ ⟨rfl, rfl⟩
  exact .single (by decide : 1 ∈ twoImages.deps 0)

end Lunaria.Linker
