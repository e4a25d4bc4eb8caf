import Lunaria.Unicode.Line

/-! The decision of `uc_grapheme` is that of the rules: the state of its caller knows the emoji sequences and the parity of
    regional indicators. -/

namespace Lunaria.Breaks
open List

open Computability Contexts

/-- The boundaries have the properties of these characters. -/
def Shows (bs : List Boundary) (cs : List Chr) : Prop := (bs.map fun b => (b.gb, b.pict)) = cs.map fun c => (c.gb, c.pict)

/-- The states of the second loop after some boundaries. -/
def epAfter (bs : List Boundary) : Nat := bs.foldl epNext 0

def riAfter (bs : List Boundary) : Nat := bs.foldl riNext 0

def pictures : Language Chr := ⊤ * extPict * (gcb [.extend])∗

def RegionalIndicator (c : Chr) : Prop := c.gb ∈ [Gb.regionalIndicator]

section
variable {bs : List Boundary} {cs : List Chr} {b : Boundary} {c : Chr}

theorem shows_concat (h : Shows bs (cs ++ [c])) : ∃ bs' b, bs = bs' ++ [b] ∧ Shows bs' cs ∧ b.gb = c.gb ∧
    b.pict = c.pict := by
  rw [Shows, map_append] at h
  obtain ⟨bs', l, rfl, h1, h2⟩ := map_eq_append_iff.1 h
  obtain ⟨b, l', rfl, hb, hnil⟩ := map_eq_cons_iff.1 h2
  obtain rfl := map_eq_nil_iff.1 hnil
  obtain ⟨hgb, hpict⟩ := Prod.mk.inj hb
  exact ⟨bs', b, rfl, h1, hgb, hpict⟩

theorem concat_mem_pictures : cs ++ [c] ∈ pictures ↔ c.pict = true ∨ c.gb = .extend ∧ cs ∈ pictures := by
  simp [pictures, extPict, gcb]

theorem epAfter_concat : epAfter (bs ++ [b]) = epNext (epAfter bs) b := by simp [epAfter]

theorem riAfter_concat : riAfter (bs ++ [b]) = riNext (riAfter bs) b := by simp [riAfter]

/-- The state of emoji sequences. The joiner is no pictograph. -/
theorem epAfter_iff (hzwj : ∀ c ∈ cs, c.gb = .zwj → c.pict = false) (h : Shows bs cs) :
    (epAfter bs = 1 ↔ cs ∈ pictures) ∧ (epAfter bs = 2 ↔ cs ∈ pictures * gcb [.zwj]) := by
  induction cs using List.reverseRecOn generalizing bs with
  | nil =>
    obtain rfl := map_eq_nil_iff.1 h
    have hno : [] ∉ pictures := by
      rw [pictures, extPict, gcb, nil_mem_mul_star, nil_mem_mul_one]
      exact id
    have hno' : [] ∉ pictures * gcb [.zwj] := by simp [gcb]
    simp [epAfter, hno, hno']
  | append_singleton cs c ih =>
    obtain ⟨bs, b, rfl, hbs, hgb, hpict⟩ := shows_concat h
    obtain ⟨h1, h2⟩ := ih (fun c hc => hzwj c (by simp [hc])) hbs
    have hz := hzwj c (by simp)
    rw [epAfter_concat, concat_mem_pictures, gcb, concat_mem_mul_one, ← h1, epNext, hgb, hpict, mem_singleton]
    cases hp : c.pict with
    | true =>
      have hno : c.gb ≠ .zwj := fun h => by simp [hz h] at hp
      simp [hno]
    | false =>
      by_cases hj : c.gb = .zwj
      · by_cases he : epAfter bs = 1 <;> simp [hj, he]
      · by_cases hx : c.gb = .extend
        · by_cases he : epAfter bs = 1 <;> simp [hx, he]
        · simp [hj, hx]

theorem riAfter_iff (h : Shows bs cs) : Odd RegionalIndicator cs ↔ riAfter bs % 2 = 1 := by
  induction cs using List.reverseRecOn generalizing bs with
  | nil =>
    obtain rfl := map_eq_nil_iff.1 h
    simp [riAfter, not_odd_nil]
  | append_singleton cs c ih =>
    obtain ⟨bs, b, rfl, hbs, hgb, -⟩ := shows_concat h
    rw [riAfter_concat, odd_concat_iff, ih hbs, riNext, hgb, RegionalIndicator, mem_singleton]
    by_cases hr : c.gb = .regionalIndicator
    · simp only [hr, true_and, ↓reduceIte]
      omega
    · simp [hr]

theorem some_joins {a : Boundary} {u z : List Chr} {d : Chr} {epState ri : Nat} (hleft : ∀ X, u ∈ ⊤ * gcb X ↔ a.gb ∈ X)
    (hb : b.gb = d.gb ∧ b.pict = d.pict) (hep : epState = 2 ↔ u ∈ pictures * gcb [.zwj])
    (hri : Odd RegionalIndicator u ↔ a.gb = .regionalIndicator ∧ ri % 2 = 1) :
    Some graphemeJoins u (d :: z) ↔ (a.gb = .l ∧ (b.gb = .l ∨ b.gb = .v ∨ b.gb = .lv ∨ b.gb = .lvt)) ∨
      ((a.gb = .lv ∨ a.gb = .v) ∧ (b.gb = .v ∨ b.gb = .t)) ∨ ((a.gb = .lvt ∨ a.gb = .t) ∧ b.gb = .t) ∨
      (b.gb = .extend ∨ b.gb = .zwj ∨ b.gb = .spacingMark ∨ a.gb = .prepend) ∨ (epState = 2 ∧ b.pict) ∨
      (a.gb = .regionalIndicator ∧ b.gb = .regionalIndicator ∧ ri % 2 = 1) := by
  have hright : ∀ X, d :: z ∈ gcb X * ⊤ ↔ b.gb ∈ X := by simp [gcb, hb.1]
  have hpict : d :: z ∈ extPict * ⊤ ↔ b.pict = true := by simp [extPict, hb.2]
  have hodd : (u ∈ (gcb [.regionalIndicator] * gcb [.regionalIndicator])∗ * gcb [.regionalIndicator] ∧
      b.gb = .regionalIndicator ∨
      u ∈ ⊤ * noGcb [.regionalIndicator] * (gcb [.regionalIndicator] * gcb [.regionalIndicator])∗ *
        gcb [.regionalIndicator] ∧ b.gb = .regionalIndicator) ↔
      a.gb = .regionalIndicator ∧ b.gb = .regionalIndicator ∧ ri % 2 = 1 := by
    rw [← or_and_right, and_comm (a := b.gb = _), ← and_assoc, ← hri]
    exact Iff.rfl
  rw [pictures] at hep
  simp only [graphemeJoins, some_append, some_cons, some_nil, Rule.Applies, hleft, hright, hpict, ← hep, mem_top, mem_cons,
    not_mem_nil, or_false, true_and, and_true, or_assoc, hodd]

theorem grapheme_iff {a : Boundary} {z : List Chr} {d : Chr} (hzwj : ∀ e ∈ cs ++ [c], e.gb = .zwj → e.pict = false)
    (h : Shows (bs ++ [a]) (cs ++ [c])) (hb : b.gb = d.gb ∧ b.pict = d.pict) :
    ucGrapheme a b (epAfter (bs ++ [a])) (riAfter (bs ++ [a])) = true ↔ GraphemeBreak (cs ++ [c]) (d :: z) := by
  obtain ⟨-, hep⟩ := epAfter_iff hzwj h
  have hgb : a.gb = c.gb := by
    obtain ⟨bs', a', heq, -, hgb, -⟩ := shows_concat h
    obtain ⟨-, hlast⟩ := append_inj' heq rfl
    rw [singleton_inj.1 hlast]
    exact hgb
  have hleft : ∀ X, cs ++ [c] ∈ ⊤ * gcb X ↔ a.gb ∈ X := by simp [gcb, hgb]
  have hri : Odd RegionalIndicator (cs ++ [c]) ↔ a.gb = .regionalIndicator ∧ riAfter (bs ++ [a]) % 2 = 1 := by
    rw [riAfter_iff h, riAfter_concat, riNext]
    split_ifs with hr <;> simp [hr]
  have hcrlf : Some [(⟨⊤ * gcb [.cr], gcb [.lf] * ⊤, false⟩ : Place Bool)] (cs ++ [c]) (d :: z) ↔ a.gb = .cr ∧
      b.gb = .lf := by
    simp [Rule.Applies, gcb, hgb, hb.1]
  have hcontrol : Some [(⟨⊤ * gcb [.control, .cr, .lf], ⊤, true⟩ : Place Bool), ⟨⊤, gcb [.control, .cr, .lf] * ⊤, true⟩]
      (cs ++ [c]) (d :: z) ↔ ucControl a.gb ∨ ucControl b.gb := by
    simp only [some_cons, some_nil, Rule.Applies, gcb, hgb, hb.1, concat_mem_mul_one, cons_mem_one_mul, mem_top, ucControl,
      decide_eq_true_eq, mem_cons, not_mem_nil, or_false, true_and, and_true]
    grind
  have hdec := decides_append (d := false) (by simp) hcrlf (decides_append (d := true) (by simp) hcontrol
    (decides_append (d := false) (by decide) (some_joins (z := z) hleft hb hep hri) (decides_last (d := true))))
  have hcode : Decides graphemeRules (cs ++ [c]) (d :: z) (ucGrapheme a b (epAfter (bs ++ [a])) (riAfter (bs ++ [a]))) := by
    rw [ucGrapheme]
    simp only [ite_or_else] at hdec ⊢
    exact hdec
  have hne : cs ++ [c] ≠ [] := by simp
  constructor
  · intro htrue
    rw [htrue] at hcode
    exact .inr ⟨hne, cons_ne_nil _ _, hcode⟩
  · rintro (⟨hnil | hnil, -⟩ | ⟨-, -, htrue⟩)
    · exact absurd hnil hne
    · cases hnil
    · exact hcode.unique htrue

end

end Lunaria.Breaks
