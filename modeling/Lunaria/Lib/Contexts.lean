import Mathlib.Computability.Language

/-! Ordered rules for the places between the elements of a sequence. A rule says what is on the left of the place and on its
    right, as languages, and what follows; the first rule that applies decides. -/

namespace Lunaria.Contexts
open List

open Computability

variable {α β : Type}

/-- One element with a property. -/
def one (P : α → Prop) : Language α := {w | ∃ a, P a ∧ w = [a]}

structure Rule (α β : Type) where
  left : Language α
  right : Language α
  act : β

def Rule.Applies (r : Rule α β) (u v : List α) : Prop := u ∈ r.left ∧ v ∈ r.right

def Decides : List (Rule α β) → List α → List α → β → Prop
  | [], _, _, _ => False
  | r :: rs, u, v, d => r.Applies u v ∧ d = r.act ∨ ¬ r.Applies u v ∧ Decides rs u v d

def Some (rs : List (Rule α β)) (u v : List α) : Prop := ∃ r ∈ rs, r.Applies u v

section Rules
variable {rs rs' : List (Rule α β)} {u v : List α} {d d' : β}

theorem Decides.unique (h : Decides rs u v d) (h' : Decides rs u v d') : d = d' := by
  induction rs with
  | nil => cases h
  | cons r rs ih =>
    rcases h with ⟨ha, rfl⟩ | ⟨hn, h⟩ <;> rcases h' with ⟨ha', rfl⟩ | ⟨hn', h'⟩
    · rfl
    · exact absurd ha hn'
    · exact absurd ha' hn
    · exact ih h h'

theorem Decides.some (h : Decides rs u v d) : Some rs u v := by
  induction rs with
  | nil => cases h
  | cons r rs ih =>
    rcases h with ⟨ha, -⟩ | ⟨-, h⟩
    · exact ⟨r, mem_cons_self .., ha⟩
    · obtain ⟨r', hr', ha⟩ := ih h
      exact ⟨r', mem_cons_of_mem _ hr', ha⟩

theorem decides_append {c : Prop} [Decidable c] (hact : ∀ r ∈ rs, r.act = d) (hc : Some rs u v ↔ c)
    (h : Decides rs' u v d') : Decides (rs ++ rs') u v (if c then d else d') := by
  induction rs generalizing c with
  | nil =>
    have hno : ¬ c := fun h => by
      obtain ⟨r, hr, -⟩ := hc.2 h
      cases hr
    rw [if_neg hno]
    exact h
  | cons r rs ih =>
    by_cases hr : r.Applies u v
    · rw [if_pos (hc.1 ⟨r, mem_cons_self .., hr⟩)]
      exact .inl ⟨hr, (hact r (mem_cons_self ..)).symm⟩
    · refine .inr ⟨hr, ih (fun r' hr' => hact r' (mem_cons_of_mem _ hr')) ⟨fun h => ?_, fun h => ?_⟩⟩
      · obtain ⟨r', hr', ha⟩ := h
        exact hc.1 ⟨r', mem_cons_of_mem _ hr', ha⟩
      · obtain ⟨r', hr', ha⟩ := hc.2 h
        rcases mem_cons.1 hr' with rfl | hr'
        · exact absurd ha hr
        · exact ⟨r', hr', ha⟩

theorem decides_last : Decides [(⟨⊤, ⊤, d⟩ : Rule α β)] u v d := .inl ⟨⟨trivial, trivial⟩, rfl⟩

theorem decides_or_last (h : Decides (rs ++ [(⟨⊤, ⊤, d'⟩ : Rule α β)]) u v d) :
    Decides rs u v d ∨ ¬ Some rs u v ∧ d = d' := by
  induction rs with
  | nil =>
    rcases h with ⟨-, rfl⟩ | ⟨hn, -⟩
    · exact .inr ⟨fun ⟨r, hr, _⟩ => (by cases hr), rfl⟩
    · exact absurd ⟨trivial, trivial⟩ hn
  | cons r rs ih =>
    rcases h with ⟨ha, hd⟩ | ⟨hn, h⟩
    · exact .inl (.inl ⟨ha, hd⟩)
    · rcases ih h with h | ⟨hno, hd⟩
      · exact .inl (.inr ⟨hn, h⟩)
      · refine .inr ⟨fun ⟨r', hr', ha⟩ => ?_, hd⟩
        rcases mem_cons.1 hr' with rfl | hr'
        · exact hn ha
        · exact hno ⟨r', hr', ha⟩

@[simp] theorem some_nil : Some ([] : List (Rule α β)) u v ↔ False := by simp [Some]

@[simp] theorem some_cons {r : Rule α β} : Some (r :: rs) u v ↔ r.Applies u v ∨ Some rs u v := by simp [Some]

@[simp] theorem some_append : Some (rs ++ rs') u v ↔ Some rs u v ∨ Some rs' u v := by
  simp only [Some, mem_append, or_and_right, exists_or]

end Rules

/-! ### The languages of contexts -/

section Languages
variable {L : Language α} {P : α → Prop} {u v : List α} {a : α}

@[simp] theorem mem_top : u ∈ (⊤ : Language α) ↔ True := Iff.rfl

@[simp] theorem concat_mem_mul_one : u ++ [a] ∈ L * one P ↔ u ∈ L ∧ P a := by
  rw [Language.mem_mul]
  constructor
  · rintro ⟨x, hx, y, ⟨b, hb, rfl⟩, h⟩
    obtain ⟨rfl, hba⟩ := append_inj' h rfl
    rw [← singleton_inj.1 hba]
    exact ⟨hx, hb⟩
  · rintro ⟨hu, ha⟩
    exact ⟨u, hu, [a], ⟨a, ha, rfl⟩, rfl⟩

@[simp] theorem nil_mem_mul_one : [] ∈ L * one P ↔ False := by
  rw [Language.mem_mul]
  constructor
  · rintro ⟨x, -, y, ⟨b, -, rfl⟩, h⟩
    simp at h
  · exact False.elim

theorem mem_star : u ∈ (one P)∗ ↔ ∀ b ∈ u, P b := by
  rw [Language.mem_kstar]
  constructor
  · rintro ⟨L, rfl, hL⟩ b hb
    obtain ⟨w, hw, hbw⟩ := mem_flatten.1 hb
    obtain ⟨c, hc, rfl⟩ := hL w hw
    rw [mem_singleton.1 hbw]
    exact hc
  · intro h
    refine ⟨u.map fun b => [b], ?_, fun w hw => ?_⟩
    · induction u with
      | nil => rfl
      | cons b u ih =>
        rw [map_cons, flatten_cons, ← ih fun c hc => h c (mem_cons_of_mem _ hc)]
        rfl
    · obtain ⟨b, hb, rfl⟩ := List.mem_map.1 hw
      exact ⟨b, h b hb, rfl⟩

/-- A run of elements at the end: there is none, or the last is one. -/
@[simp] theorem concat_mem_mul_star : u ++ [a] ∈ L * (one P)∗ ↔ u ++ [a] ∈ L ∨ P a ∧ u ∈ L * (one P)∗ := by
  constructor
  · intro h
    obtain ⟨x, hx, y, hy, heq⟩ := Language.mem_mul.1 h
    rw [mem_star] at hy
    rcases eq_nil_or_concat y with rfl | ⟨z, b, rfl⟩
    · rw [append_nil] at heq
      exact .inl (heq ▸ hx)
    · rw [concat_eq_append, ← append_assoc] at heq
      obtain ⟨hxz, hb⟩ := append_inj' heq rfl
      rw [← singleton_inj.1 hb]
      refine .inr ⟨hy b (by simp), Language.mem_mul.2 ⟨x, hx, z, mem_star.2 fun c hc => hy c (by simp [hc]), hxz⟩⟩
  · rintro (h | ⟨ha, h⟩)
    · exact Language.mem_mul.2 ⟨_, h, [], Language.nil_mem_kstar _, append_nil _⟩
    · obtain ⟨x, hx, y, hy, rfl⟩ := Language.mem_mul.1 h
      rw [mem_star] at hy
      refine Language.mem_mul.2 ⟨x, hx, y ++ [a], mem_star.2 fun c hc => ?_, by rw [append_assoc]⟩
      rcases mem_append.1 hc with hc | hc
      · exact hy c hc
      · rw [mem_singleton.1 hc]
        exact ha

theorem nil_mem_mul_star : [] ∈ L * (one P)∗ ↔ [] ∈ L := by
  constructor
  · intro h
    obtain ⟨x, hx, y, -, heq⟩ := Language.mem_mul.1 h
    obtain ⟨rfl, -⟩ := append_eq_nil_iff.1 heq
    exact hx
  · intro h
    exact Language.mem_mul.2 ⟨[], h, [], Language.nil_mem_kstar _, rfl⟩

@[simp] theorem concat_mem_mul_opt : u ++ [a] ∈ L * (1 + one P) ↔ u ++ [a] ∈ L ∨ u ∈ L ∧ P a := by
  rw [mul_add, mul_one, Language.mem_add, concat_mem_mul_one]

@[simp] theorem cons_mem_one_mul : a :: v ∈ one P * L ↔ P a ∧ v ∈ L := by
  rw [Language.mem_mul]
  constructor
  · rintro ⟨x, ⟨b, hb, rfl⟩, y, hy, h⟩
    cases h
    exact ⟨hb, hy⟩
  · rintro ⟨ha, hv⟩
    exact ⟨[a], ⟨a, ha, rfl⟩, v, hv, rfl⟩

@[simp] theorem nil_mem_one_mul : [] ∈ one P * L ↔ False := by
  rw [Language.mem_mul]
  constructor
  · rintro ⟨x, ⟨b, -, rfl⟩, y, -, h⟩
    cases h
  · exact False.elim

@[simp] theorem cons_mem_opt_mul : a :: v ∈ (1 + one P) * L ↔ a :: v ∈ L ∨ P a ∧ v ∈ L := by
  rw [add_mul, one_mul, Language.mem_add, cons_mem_one_mul]

end Languages

/-! ### The parity of a run -/

section Parity
variable {P : α → Prop} {u : List α} {a : α}

/-- The elements at the end that have the property are of odd number, from the start or from another element on. -/
def Odd (P : α → Prop) (u : List α) : Prop :=
  u ∈ (one P * one P)∗ * one P ∨ u ∈ ⊤ * one (fun a => ¬ P a) * (one P * one P)∗ * one P

def Even (P : α → Prop) (u : List α) : Prop :=
  u ∈ (one P * one P)∗ ∨ u ∈ ⊤ * one (fun a => ¬ P a) * (one P * one P)∗

theorem pairs_eq : (one P * one P)∗ = 1 + (one P * one P)∗ * one P * one P := by
  rw [mul_assoc]
  exact (Language.one_add_kstar_mul_self_eq_kstar _).symm

theorem odd_concat : Odd P (u ++ [a]) ↔ Even P u ∧ P a := by
  rw [Odd, concat_mem_mul_one, concat_mem_mul_one, Even, or_and_right]

theorem even_concat : Even P (u ++ [a]) ↔ ¬ P a ∨ Odd P u ∧ P a := by
  rw [Even, pairs_eq, mul_add, mul_one, Language.mem_add, Language.mem_add, concat_mem_mul_one, concat_mem_mul_one,
    ← mul_assoc, ← mul_assoc, concat_mem_mul_one, Odd]
  have hno : ¬ u ++ [a] ∈ (1 : Language α) := by simp [Language.mem_one]
  simp only [mem_top, true_and]
  tauto

theorem even_iff_not_odd : Even P u ↔ ¬ Odd P u := by
  induction u using List.reverseRecOn with
  | nil =>
    have hodd : ¬ Odd P [] := by simp [Odd]
    exact ⟨fun _ => hodd, fun _ => .inl (Language.nil_mem_kstar _)⟩
  | append_singleton u a ih =>
    rw [even_concat, odd_concat, ih]
    tauto

/-- One more element turns the parity. -/
theorem odd_concat_iff : Odd P (u ++ [a]) ↔ P a ∧ ¬ Odd P u := by
  rw [odd_concat, even_iff_not_odd, and_comm]

theorem not_odd_nil : ¬ Odd P [] := by simp [Odd]

end Parity

end Lunaria.Contexts
