import Mathlib.Logic.Basic

/-! Computations that change a state and either return a value or leave by one of several exits: rules for what holds
    at the return and at each exit, as C code with `return` and `goto` in it needs them. -/

namespace Lunaria.Exits

section Rules
variable {ε σ α β : Type} {m : EStateM ε σ α} {f : α → EStateM ε σ β} {s : σ}
  {Q Q' : α → σ → Prop} {R : β → σ → Prop} {E E' : ε → σ → Prop}

/-- Started in `s`, the computation returns with `Q` or leaves with `E`. -/
def Ends (m : EStateM ε σ α) (s : σ) (Q : α → σ → Prop) (E : ε → σ → Prop) : Prop :=
  match m s with
  | .ok a s' => Q a s'
  | .error e s' => E e s'

theorem Ends.mono (h : Ends m s Q E) (hQ : ∀ a s', Q a s' → Q' a s') (hE : ∀ e s', E e s' → E' e s') :
    Ends m s Q' E' := by
  unfold Ends at h ⊢
  split at h
  · exact hQ _ _ h
  · exact hE _ _ h

@[simp]
theorem ends_pure {a : α} : Ends (pure a : EStateM ε σ α) s Q E ↔ Q a s := Iff.rfl

@[simp]
theorem ends_throw {e : ε} : Ends (throw e : EStateM ε σ α) s Q E ↔ E e s := Iff.rfl

@[simp]
theorem ends_get {Q : σ → σ → Prop} : Ends (get : EStateM ε σ σ) s Q E ↔ Q s s := Iff.rfl

@[simp]
theorem ends_modify {g : σ → σ} {Q : PUnit → σ → Prop} : Ends (modify g : EStateM ε σ PUnit) s Q E ↔ Q ⟨⟩ (g s) := Iff.rfl

@[simp]
theorem ends_modifyGet {g : σ → α × σ} : Ends (modifyGet g : EStateM ε σ α) s Q E ↔ Q (g s).1 (g s).2 := Iff.rfl

@[simp]
theorem ends_bind : Ends (m >>= f) s R E ↔ Ends m s (fun a s' => Ends (f a) s' R E) E := by
  show (match EStateM.bind m f s with | .ok a s' => R a s' | .error e s' => E e s') ↔ _
  unfold EStateM.bind Ends
  cases m s <;> rfl

theorem Ends.ok {a : α} {s' : σ} (h : Ends m s Q E) (heq : m s = .ok a s') : Q a s' := by
  unfold Ends at h
  rwa [heq] at h

theorem Ends.error {e : ε} {s' : σ} (h : Ends m s Q E) (heq : m s = .error e s') : E e s' := by
  unfold Ends at h
  rwa [heq] at h

end Rules

end Lunaria.Exits
