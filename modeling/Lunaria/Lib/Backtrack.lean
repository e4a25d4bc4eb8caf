import Mathlib.Logic.Basic

/-! Attempts: computations on a state that fail or give a value. A backtracking search is made of them, and what it has to
    do when one fails is to leave a part of the state as it was. An attempt that gives nothing at all was cut off. -/

namespace Lunaria.Backtrack

def Attempt (σ α : Type) : Type := σ → Option (Option α × σ)

namespace Attempt
variable {σ α β γ : Type} {f : Option α → Attempt σ β} {ms : List (Attempt σ α)}

def fail : Attempt σ α := fun s => some (none, s)

def give (a : α) : Attempt σ α := fun s => some (some a, s)

/-- Go on with either outcome. -/
def after (m : Attempt σ α) (f : Option α → Attempt σ β) : Attempt σ β := fun s =>
  match m s with
  | none => none
  | some (r, s') => f r s'

/-- Try the second where the first fails. -/
def orElse (m m' : Attempt σ α) : Attempt σ α := m.after fun
  | some a => give a
  | none => m'

/-- Go on where the first gives a value. -/
def andThen (m : Attempt σ α) (f : α → Attempt σ β) : Attempt σ β := m.after fun
  | some a => f a
  | none => fail

def first : List (Attempt σ α) → Attempt σ α
  | [] => fail
  | m :: ms => m.orElse (first ms)

/-- Change the state before. -/
def change (f : σ → σ) (m : Attempt σ α) : Attempt σ α := fun s => m (f s)

/-- Change the state after, whatever comes out. -/
def lastly (f : σ → σ) (m : Attempt σ α) : Attempt σ α := fun s => (m s).map fun (r, s') => (r, f s')

/-- Change the state back after a failure, from the state before. -/
def undoing (undo : σ → σ → σ) (m : Attempt σ α) : Attempt σ α := fun s =>
  match m s with
  | some (none, s') => some (none, undo s s')
  | r => r

/-- Look at the state. -/
def reading (f : σ → Attempt σ α) : Attempt σ α := fun s => f s s

theorem first_singleton (m : Attempt σ α) (s : σ) : first [m] s = m s := by
  rw [first, orElse, after]
  cases h : m s with
  | none => rfl
  | some r =>
    obtain ⟨r, s'⟩ := r
    cases r <;> rfl

/-! ### What a failure leaves -/

theorem after_eq_some {m : Attempt σ α} {s s' : σ} {r : Option β}
    (h : m.after f s = some (r, s')) : ∃ r₁ s₁, m s = some (r₁, s₁) ∧ f r₁ s₁ = some (r, s') := by
  rw [after] at h
  split at h
  · cases h
  · exact ⟨_, _, ‹_›, h⟩

theorem lastly_eq_some {m : Attempt σ α} {f : σ → σ} {s s' : σ} {r : Option α} (h : lastly f m s = some (r, s')) :
    ∃ s₁, m s = some (r, s₁) ∧ f s₁ = s' := by
  obtain ⟨⟨r₁, s₁⟩, h₁, ⟨⟩⟩ := Option.map_eq_some_iff.1 h
  exact ⟨s₁, h₁, rfl⟩

/-- A failure leaves a part of the state as it was. -/
def Restores (view : σ → γ) (m : Attempt σ α) : Prop := ∀ s s', m s = some (none, s') → view s' = view s

section
variable {view : σ → γ} {m : Attempt σ α}

theorem restores_fail : Restores view (fail : Attempt σ α) := by
  intro s s' h
  cases h
  rfl

theorem restores_give (a : α) : Restores view (give a : Attempt σ α) := by
  intro s s' h
  cases h

theorem Restores.orElse {m m' : Attempt σ α} (hm : Restores view m) (hm' : Restores view m') :
    Restores view (m.orElse m') := by
  intro s s' h
  obtain ⟨r₁, s₁, h₁, h₂⟩ := after_eq_some h
  cases r₁ with
  | some a => cases h₂
  | none => exact (hm' s₁ s' h₂).trans (hm s s₁ h₁)

theorem Restores.first (h : ∀ m ∈ ms, Restores view m) : Restores view (first ms) := by
  induction ms with
  | nil => exact restores_fail
  | cons m ms ih => exact (h m List.mem_cons_self).orElse (ih fun m' hm' => h m' (List.mem_cons_of_mem _ hm'))

theorem Restores.around {f g : σ → σ} (hf : ∀ s, view (f s) = view s) (hg : ∀ s, view (g s) = view s)
    (h : Restores view m) : Restores view (change f (lastly g m)) := by
  intro s s' h'
  obtain ⟨s₁, h₁, rfl⟩ := lastly_eq_some h'
  rw [hg, h (f s) s₁ h₁, hf]

theorem Restores.undoing {f : σ → σ} {undo : σ → σ → σ} (hu : ∀ s s', view s' = view (f s) → view (undo s s') = view s)
    (h : Restores view m) : Restores view (undoing undo (change f m)) := by
  intro s s' h'
  rw [Attempt.undoing] at h'
  split at h'
  · rename_i s₁ h₁
    cases h'
    exact hu s s₁ (h (f s) s₁ h₁)
  · rename_i hne
    exact absurd h' (hne s')

theorem restores_undoing {undo : σ → σ → σ} (hu : ∀ s s', view (undo s s') = view s) (m : Attempt σ α) :
    Restores view (undoing undo m) := by
  intro s s' h'
  rw [Attempt.undoing] at h'
  split at h'
  · cases h'
    exact hu ..
  · rename_i hne
    exact absurd h' (hne s')

theorem Restores.reading {f : σ → Attempt σ α} (h : ∀ s, Restores view (f s)) : Restores view (reading f) := fun s => h s s

end

/-! ### Attempts that are cut off -/

section
variable [DecidableEq γ] (view : σ → γ)

/-- Cut off where a failure leaves the part changed. -/
def sure (m : Attempt σ α) : Attempt σ α := fun s =>
  match m s with
  | some (none, s') => if view s' = view s then some (none, s') else none
  | r => r

/-- Cut off where the part has changed since, and there is a failure. -/
def bound (old : σ) (m : Attempt σ α) : Attempt σ α := fun s =>
  match m s with
  | some (none, s') => if view s = view old then some (none, s') else none
  | r => r

/-- Go on where the first gives a value; if that has changed the part, what goes on must not fail. -/
def committing (m : Attempt σ α) (f : α → Attempt σ β) : Attempt σ β :=
  reading fun old => m.andThen fun a => bound view old (f a)

variable {view}

theorem sure_of_some {m : Attempt σ α} {s s' : σ} {r : Option α} (h : sure view m s = some (r, s')) :
    m s = some (r, s') := by
  rw [sure] at h
  split at h
  · split at h
    · cases h
      assumption
    · cases h
  · exact h

theorem restores_sure (m : Attempt σ α) : Restores view (sure view m) := by
  intro s s' h
  rw [sure, sure_of_some h] at h
  dsimp only at h
  split at h
  · assumption
  · cases h

theorem Restores.sure_eq {m : Attempt σ α} (h : Restores view m) : sure view m = m := by
  funext s
  rw [sure]
  split
  · rename_i s' hm
    rw [if_pos (h s s' hm), hm]
  · rfl

/-- A failure after the value shows what the value came with. -/
theorem sure_andThen {m : Attempt σ α} {f : α → Attempt σ β} (hm : Restores view m) (hf : ∀ a, Restores view (f a)) :
    sure view (m.andThen f) = committing view m f := by
  funext s
  rw [sure, committing, reading, andThen, andThen, after, after]
  cases h₁ : m s with
  | none => rfl
  | some p =>
    obtain ⟨r, s₁⟩ := p
    cases r with
    | none =>
      dsimp only [fail]
      rw [if_pos (hm s s₁ h₁)]
    | some a =>
      dsimp only
      rw [bound]
      cases h₂ : f a s₁ with
      | none => rfl
      | some q =>
        obtain ⟨r, s₂⟩ := q
        cases r with
        | none =>
          dsimp only
          rw [hf a s₁ s₂ h₂]
        | some b => rfl

end

/-! ### Attempts that end -/

/-- From a state that allows it, an attempt is not cut off, and it gets to a later state. -/
def Ends (P : σ → Prop) (later : σ → σ → Prop) (m : Attempt σ α) : Prop :=
  ∀ s, P s → ∃ r s', m s = some (r, s') ∧ later s s'

section
variable {P : σ → Prop} {later : σ → σ → Prop} (hrefl : ∀ s, later s s) {m : Attempt σ α}

include hrefl in
theorem ends_fail : Ends P later (fail : Attempt σ α) := fun s _ => ⟨none, s, rfl, hrefl s⟩

include hrefl in
theorem ends_give (a : α) : Ends P later (give a : Attempt σ α) := fun s _ => ⟨some a, s, rfl, hrefl s⟩

theorem Ends.reading {f : σ → Attempt σ α} (h : ∀ s, Ends P later (f s)) : Ends P later (reading f) := fun s => h s s

theorem Ends.undoing {undo : σ → σ → σ} (hu : ∀ s s', later s s' → later s (undo s s')) {m : Attempt σ α}
    (h : Ends P later m) : Ends P later (undoing undo m) := by
  intro s hs
  obtain ⟨r, s', hm, hlater⟩ := h s hs
  cases r with
  | none => exact ⟨none, undo s s', by rw [Attempt.undoing, hm], hu s s' hlater⟩
  | some a => exact ⟨some a, s', by rw [Attempt.undoing, hm], hlater⟩

variable (htrans : ∀ s s₁ s₂, later s s₁ → later s₁ s₂ → later s s₂) (hclosed : ∀ s s', P s → later s s' → P s')

include htrans hclosed

theorem Ends.after (hm : Ends P later m) (hf : ∀ r, Ends P later (f r)) :
    Ends P later (m.after f) := by
  intro s hs
  obtain ⟨r₁, s₁, hm₁, h₁⟩ := hm s hs
  obtain ⟨r, s', hf₁, h₂⟩ := hf r₁ s₁ (hclosed s s₁ hs h₁)
  exact ⟨r, s', by rw [Attempt.after, hm₁]; exact hf₁, htrans s s₁ s' h₁ h₂⟩

include hrefl

theorem Ends.orElse {m m' : Attempt σ α} (hm : Ends P later m) (hm' : Ends P later m') : Ends P later (m.orElse m') := by
  refine Ends.after htrans hclosed hm fun r => ?_
  cases r with
  | some a => exact ends_give hrefl a
  | none => exact hm'

theorem Ends.andThen {f : α → Attempt σ β} (hm : Ends P later m) (hf : ∀ a, Ends P later (f a)) :
    Ends P later (m.andThen f) := by
  refine Ends.after htrans hclosed hm fun r => ?_
  cases r with
  | some a => exact hf a
  | none => exact ends_fail hrefl

theorem Ends.first (h : ∀ m ∈ ms, Ends P later m) : Ends P later (first ms) := by
  induction ms with
  | nil => exact ends_fail hrefl
  | cons m ms ih =>
    exact Ends.orElse hrefl htrans hclosed (h m List.mem_cons_self) (ih fun m' hm' => h m' (List.mem_cons_of_mem _ hm'))

end

/-! ### Attempts that follow each other -/

/-- Where the first attempt is not cut off, the second gives the same, and what it gives is so. -/
def Follows (m m' : Attempt σ α) (s : σ) (Q : Option α → σ → Prop) : Prop :=
  ∀ r s', m s = some (r, s') → m' s = some (r, s') ∧ Q r s'

section
variable {s : σ} {Q : Option α → σ → Prop} {m m' : Attempt σ α}

theorem follows_fail (h : Q none s) : Follows fail fail s Q := by
  intro r s' hrun
  cases hrun
  exact ⟨rfl, h⟩

theorem follows_give {a : α} (h : Q (some a) s) : Follows (give a) (give a) s Q := by
  intro r s' hrun
  cases hrun
  exact ⟨rfl, h⟩

theorem Follows.mono {Q Q' : Option α → σ → Prop} (h : Follows m m' s Q)
    (hQ : ∀ r s', Q r s' → Q' r s') : Follows m m' s Q' := by
  intro r s' hrun
  obtain ⟨hsame, hr⟩ := h r s' hrun
  exact ⟨hsame, hQ r s' hr⟩

theorem Follows.after {f f' : Option α → Attempt σ β}
    {Q' : Option β → σ → Prop} (h : Follows m m' s Q) (hf : ∀ r s', Q r s' → Follows (f r) (f' r) s' Q') :
    Follows (m.after f) (m'.after f') s Q' := by
  intro r s' hrun
  obtain ⟨r₁, s₁, h₁, h₂⟩ := after_eq_some hrun
  obtain ⟨hsame, hr⟩ := h r₁ s₁ h₁
  obtain ⟨hsame', hr'⟩ := hf r₁ s₁ hr r s' h₂
  exact ⟨by rw [Attempt.after, hsame]; exact hsame', hr'⟩

theorem Follows.orElse {m m' n n' : Attempt σ α} {Q Q' : Option α → σ → Prop} (h : Follows m m' s Q)
    (hsome : ∀ a s', Q (some a) s' → Q' (some a) s') (hnone : ∀ s', Q none s' → Follows n n' s' Q') :
    Follows (m.orElse n) (m'.orElse n') s Q' := by
  refine h.after fun r s' hr => ?_
  cases r with
  | some a => exact follows_give (hsome a s' hr)
  | none => exact hnone s' hr

theorem Follows.andThen {f f' : α → Attempt σ β}
    {Q' : Option β → σ → Prop} (h : Follows m m' s Q) (hnone : ∀ s', Q none s' → Q' none s')
    (hsome : ∀ a s', Q (some a) s' → Follows (f a) (f' a) s' Q') : Follows (m.andThen f) (m'.andThen f') s Q' := by
  refine h.after fun r s' hr => ?_
  cases r with
  | some a => exact hsome a s' hr
  | none => exact follows_fail (hnone s' hr)

theorem Follows.first {γ : Type} {f f' : γ → Attempt σ α} {I : σ → Prop} {l : List γ} (hs : I s)
    (h : ∀ x ∈ l, ∀ s, I s → Follows (f x) (f' x) s fun r s' => r.elim (I s') fun a => Q (some a) s')
    (hnone : ∀ s', I s' → Q none s') : Follows (first (l.map f)) (first (l.map f')) s Q := by
  induction l generalizing s with
  | nil => exact follows_fail (hnone s hs)
  | cons x l ih =>
    exact (h x List.mem_cons_self s hs).orElse (fun _ _ ha => ha)
      fun s' hs' => ih hs' fun y hy => h y (List.mem_cons_of_mem _ hy)

theorem Follows.reading {f f' : σ → Attempt σ α} (h : Follows (f s) (f' s) s Q) :
    Follows (reading f) (reading f') s Q := h

theorem Follows.change {f : σ → σ} (h : Follows m m' (f s) Q) :
    Follows (change f m) (change f m') s Q := h

theorem Follows.undoing {Q Q' : Option α → σ → Prop} (h : Follows m m' s Q)
    (hsome : ∀ a s', Q (some a) s' → Q' (some a) s') (hnone : ∀ s', Q none s' → Q' none (undo s s')) :
    Follows (undoing undo m) (undoing undo m') s Q' := by
  intro r s' hrun
  rw [Attempt.undoing] at hrun
  split at hrun
  · rename_i s₁ h₁
    cases hrun
    obtain ⟨hsame, hr⟩ := h none s₁ h₁
    exact ⟨by rw [Attempt.undoing, hsame], hnone s₁ hr⟩
  · rename_i hne
    obtain ⟨hsame, hr⟩ := h r s' hrun
    cases r with
    | none => exact absurd hrun (hne s')
    | some a => exact ⟨by rw [Attempt.undoing, hsame], hsome a s' hr⟩

theorem Follows.lastly {f : σ → σ} {Q Q' : Option α → σ → Prop} (h : Follows m m' s Q)
    (hQ : ∀ r s', Q r s' → Q' r (f s')) : Follows (lastly f m) (lastly f m') s Q' := by
  intro r s' hrun
  obtain ⟨s₁, h₁, rfl⟩ := lastly_eq_some hrun
  obtain ⟨hsame, hr⟩ := h r s₁ h₁
  exact ⟨by rw [Attempt.lastly, hsame]; rfl, hQ r s₁ hr⟩

end

/-- The first attempt is the second, cut off earlier perhaps. -/
def Under (m m' : Attempt σ α) : Prop := ∀ s, Follows m m' s fun _ _ => True

section
variable {m m' : Attempt σ α}

theorem Under.refl (m : Attempt σ α) : Under m m := fun _ _ _ h => ⟨h, trivial⟩

theorem Under.eq (h : Under m m') {s : σ} {p : Option α × σ} (hrun : m s = some p) : m' s = some p := (h s p.1 p.2 hrun).1

theorem Under.after {f f' : Option α → Attempt σ β} (h : Under m m') (hf : ∀ r, Under (f r) (f' r)) :
    Under (m.after f) (m'.after f') := fun s => (h s).after fun r s' _ => hf r s'

theorem Under.orElse {n n' : Attempt σ α} (h : Under m m') (h' : Under n n') : Under (m.orElse n) (m'.orElse n') := fun s =>
  (h s).orElse (fun _ _ _ => trivial) fun s' _ => h' s'

theorem Under.andThen {f f' : α → Attempt σ β} (h : Under m m') (hf : ∀ a, Under (f a) (f' a)) :
    Under (m.andThen f) (m'.andThen f') := fun s => (h s).andThen (fun _ _ => trivial) fun a s' _ => hf a s'

theorem Under.first {γ : Type} {f f' : γ → Attempt σ α} (h : ∀ x, Under (f x) (f' x)) (l : List γ) :
    Under (first (l.map f)) (first (l.map f')) := by
  induction l with
  | nil => exact .refl _
  | cons x l ih => exact (h x).orElse ih

theorem Under.undoing {undo : σ → σ → σ} (h : Under m m') : Under (undoing undo m) (undoing undo m') := fun s =>
  (h s).undoing (fun _ _ _ => trivial) fun _ _ => trivial

theorem Under.lastly {f : σ → σ} (h : Under m m') : Under (lastly f m) (lastly f m') := fun s =>
  (h s).lastly fun _ _ _ => trivial

theorem sure_under [DecidableEq γ] {view : σ → γ} (h : Under m m') : Under (sure view m) m' := fun s r s' hrun =>
  h s r s' (sure_of_some hrun)

end

end Attempt

end Lunaria.Backtrack
