import Lunaria.Lib.BigEndian

/-! Computations that return: they neither fail nor fault, and what they return has a property. -/

namespace Lunaria.Checked
variable {α β : Type} {x y : Checked α} {f : α → Checked β} {a : α} {P P' : α → Prop} {Q : β → Prop}
    {c : Prop} [Decidable c]

/-- The computation returns a value with the property. -/
def Returns (x : Checked α) (P : α → Prop) : Prop := ∃ a, x = .ok a ∧ P a

theorem Returns.mono (h : x.Returns P) (hP : ∀ a, P a → P' a) : x.Returns P' := by
  obtain ⟨a, hx, ha⟩ := h
  exact ⟨a, hx, hP a ha⟩

@[simp] theorem returns_ok : (Checked.ok a).Returns P ↔ P a := by
  constructor
  · rintro ⟨b, hb, h⟩
    cases hb
    exact h
  · exact fun h => ⟨a, rfl, h⟩

@[simp] theorem not_returns_fail : ¬(Checked.fail : Checked α).Returns P := by
  rintro ⟨a, ha, -⟩
  cases ha

@[simp] theorem not_returns_fault : ¬(Checked.fault : Checked α).Returns P := by
  rintro ⟨a, ha, -⟩
  cases ha

theorem returns_bind : (x >>= f).Returns Q ↔ x.Returns fun a => (f a).Returns Q := by
  cases x with
  | ok a => rw [returns_ok, bind_ok]
  | fail => exact iff_of_false not_returns_fail not_returns_fail
  | fault => exact iff_of_false not_returns_fault not_returns_fault

theorem Returns.bind (h : x.Returns P) (hf : ∀ a, P a → (f a).Returns Q) : (x >>= f).Returns Q := returns_bind.2 (h.mono hf)

theorem Returns.ite (hx : c → x.Returns P) (hy : ¬c → y.Returns P) : (if c then x else y).Returns P := by
  by_cases h : c
  · rw [if_pos h]
    exact hx h
  · rw [if_neg h]
    exact hy h

/-- What must hold where the program goes on. -/
theorem returns_assert {g : Unit → Checked β} : (assert c >>= g).Returns Q ↔ c ∧ (g ()).Returns Q := by
  by_cases h : c
  · simp [assert, h]
  · rw [assert, if_neg h]
    exact iff_of_false not_returns_fault fun hc => h hc.1

section Reads
variable {data : List UInt8} {i n : Nat}

theorem readFrom_returns (h : i + n ≤ data.length) : (BigEndian.readFrom data i n 0).Returns fun v =>
    v = BigEndian.word data i n := by
  refine ⟨_, BigEndian.readFrom_eq h, ?_⟩
  rw [Nat.zero_mul, Nat.zero_add]

end Reads

end Lunaria.Checked
