import Lunaria.Unicode.Uax

/-! What the boundaries of a text say about the characters before them: the classes after marks are attached, the last
    character that is no space, the parity of regional indicators and the numbers. -/

namespace Lunaria.Breaks
open List Option

open Computability Contexts

section
variable (ucBreakProperty : Nat → Property) (lunaUcType : Nat → Nat)

/-- The character of a code point. -/
def chr (cp : Nat) : Chr :=
  let p := ucBreakProperty cp
  ⟨p.lb, p.gb, p.flags &&& 1 ≠ 0, p.flags &&& 2 ≠ 0, lunaUcType cp⟩

/-- A mark is attached to this boundary. -/
def Boundary.takes (q : Boundary) : Bool := !ucHard q.lb ∧ q.lb ≠ .sp ∧ q.lb ≠ .zw

/-- The boundary of a code point at the start. -/
def leading (x : Nat × Nat) : Boundary :=
  let p := ucBreakProperty x.2
  let lb := resolved lunaUcType p.lb x.2
  let lb := if lb = .cm ∨ lb = .zwj then .al else lb
  ⟨x.2, x.1, 0, 0, lb, p.lb, p.gb, p.flags, if lb = .ri then 1 else 0, lb = .nu⟩

/-- The boundary of a code point after another. -/
def following (q : Boundary) (count : Nat) (x : Nat × Nat) : Boundary :=
  let p := ucBreakProperty x.2
  let lb := resolved lunaUcType p.lb x.2
  if lb = .cm ∨ lb = .zwj then
    if q.takes then
      ⟨x.2, x.1, q.base, count, q.lb, p.lb, p.gb, p.flags, if q.lb = .ri then q.ri else 0,
        q.lb = .nu || (q.lb = .sy || q.lb = .is) && q.numeric⟩
    else ⟨x.2, x.1, count, count, .al, p.lb, p.gb, p.flags, 0, false⟩
  else
    ⟨x.2, x.1, count, if lb = .sp then q.nonspace else count, lb, p.lb, p.gb, p.flags,
      if lb = .ri then if q.lb = .ri then q.ri + 1 else 1 else 0, lb = .nu || (lb = .sy || lb = .is) && q.numeric⟩

section Following
variable {q : Boundary} {count : Nat} {x : Nat × Nat}

/-- The code point is a mark. -/
def isMark (x : Nat × Nat) : Prop :=
  resolved lunaUcType (ucBreakProperty x.2).lb x.2 = .cm ∨ resolved lunaUcType (ucBreakProperty x.2).lb x.2 = .zwj

theorem following_attached (hm : isMark ucBreakProperty lunaUcType x) (ht : q.takes = true) :
    following ucBreakProperty lunaUcType q count x =
      ⟨x.2, x.1, q.base, count, q.lb, (ucBreakProperty x.2).lb, (ucBreakProperty x.2).gb, (ucBreakProperty x.2).flags,
        if q.lb = .ri then q.ri else 0, q.lb = .nu || (q.lb = .sy || q.lb = .is) && q.numeric⟩ := by
  unfold isMark at hm
  rw [following, if_pos hm, if_pos ht]

theorem following_alone (hm : isMark ucBreakProperty lunaUcType x) (ht : q.takes = false) :
    following ucBreakProperty lunaUcType q count x =
      ⟨x.2, x.1, count, count, .al, (ucBreakProperty x.2).lb, (ucBreakProperty x.2).gb, (ucBreakProperty x.2).flags, 0,
        false⟩ := by
  unfold isMark at hm
  rw [following, if_pos hm, if_neg (by simp [ht])]

theorem following_other (hm : ¬ isMark ucBreakProperty lunaUcType x) :
    following ucBreakProperty lunaUcType q count x =
      let lb := resolved lunaUcType (ucBreakProperty x.2).lb x.2
      ⟨x.2, x.1, count, if lb = .sp then q.nonspace else count, lb, (ucBreakProperty x.2).lb, (ucBreakProperty x.2).gb,
        (ucBreakProperty x.2).flags, if lb = .ri then if q.lb = .ri then q.ri + 1 else 1 else 0,
        lb = .nu || (lb = .sy || lb = .is) && q.numeric⟩ := by
  unfold isMark at hm
  rw [following, if_neg hm]

theorem following_base_le (hq : q.base ≤ count) : (following ucBreakProperty lunaUcType q count x).base ≤ count := by
  by_cases hm : isMark ucBreakProperty lunaUcType x
  · cases ht : q.takes with
    | true =>
      rw [following_attached _ _ hm ht]
      exact hq
    | false =>
      rw [following_alone _ _ hm ht]
  · rw [following_other _ _ hm]

end Following

/-- The boundaries of the code points after another. -/
def boundaries : Boundary → Nat → List (Nat × Nat) → List Boundary
  | _, _, [] => []
  | q, count, x :: xs =>
    let b := following ucBreakProperty lunaUcType q count x
    b :: boundaries b (count + 1) xs

theorem entry_nil (pos cp : Nat) :
    entry ucBreakProperty lunaUcType [] pos cp = some (leading ucBreakProperty lunaUcType (pos, cp)) := by
  rw [entry, leading]
  dsimp only
  generalize resolved lunaUcType _ _ = lb
  by_cases hm : lb = .cm ∨ lb = .zwj
  · simp [attach, hm, nonspaceOf, riOf, numericOf]
  · simp only [attach, hm, nonspaceOf, riOf, numericOf]
    by_cases hri : lb = .ri <;> by_cases hnu : lb = .nu <;> simp [hri, hnu]

section
variable (s : List Boundary) (q : Boundary)
include s q

theorem attach_concat (lb : Lb) : attach (s ++ [q]) lb =
    some (if lb = .cm ∨
      lb = .zwj then if q.takes then (q.lb, q.base) else (.al, s.length + 1) else (lb, s.length + 1)) := by
  have hlast : (s ++ [q])[s.length]? = some q := by simp
  simp only [attach, length_append, length_singleton, Nat.add_one_ne_zero, ↓reduceIte, Nat.add_sub_cancel, hlast,
    bind_eq_bind, bind_some, Boundary.takes, decide_eq_true_eq]
  split_ifs <;> rfl

theorem nonspaceOf_concat (lb : Lb) :
    nonspaceOf (s ++ [q]) lb = some (if lb = .sp then q.nonspace else s.length + 1) := by
  have hlast : (s ++ [q])[s.length]? = some q := by simp
  by_cases hsp : lb = .sp <;> simp [nonspaceOf, hsp]

theorem riOf_concat (lb : Lb) (base : Nat) : riOf (s ++ [q]) lb base =
    some (if lb = .ri then if base ≠ s.length + 1 then q.ri else if q.lb = .ri then q.ri + 1 else 1 else 0) := by
  by_cases hri : lb = .ri <;> by_cases hb : base = s.length + 1 <;> simp [riOf, hri, hb]

theorem numericOf_concat (lb : Lb) :
    numericOf (s ++ [q]) lb = some (lb = .nu || (lb = .sy || lb = .is) && q.numeric) := by
  by_cases hnu : lb = .nu
  · simp [numericOf, hnu]
  · by_cases hsep : lb = .sy ∨ lb = .is
    · have hb : (decide (lb = .sy) || decide (lb = .is)) = true := by simpa using hsep
      simp [numericOf, hnu, hsep, hb]
    · have hb : (decide (lb = .sy) || decide (lb = .is)) = false := by simpa using hsep
      simp [numericOf, hnu, hsep, hb]

theorem entry_concat (hq : q.base ≤ s.length) (pos cp : Nat) :
    entry ucBreakProperty lunaUcType (s ++ [q]) pos cp =
      some (following ucBreakProperty lunaUcType q (s.length + 1) (pos, cp)) := by
  have hne : q.base ≠ s.length + 1 := by omega
  simp only [entry, attach_concat, bind_eq_bind, bind_some, nonspaceOf_concat, riOf_concat, numericOf_concat]
  rw [following]
  dsimp only
  generalize resolved lunaUcType _ _ = lb
  by_cases hm : lb = .cm ∨ lb = .zwj
  · by_cases ht : q.takes = true
    · have hsp : q.lb ≠ .sp := by
        simp only [Boundary.takes, decide_eq_true_eq] at ht
        exact ht.2.1
      simp [hm, ht, hsp, hne]
    · simp [hm, ht]
  · simp [hm]

end

theorem fill_concat (xs : List (Nat × Nat)) : ∀ (s : List Boundary) (q : Boundary), q.base ≤ s.length →
    fill ucBreakProperty lunaUcType (s ++ [q]) xs = some (s ++ [q] ++
      boundaries ucBreakProperty lunaUcType q (s.length + 1) xs) := by
  induction xs with
  | nil =>
    intro s q _
    simp [fill, boundaries]
  | cons x xs ih =>
    intro s q hq
    have hb := following_base_le ucBreakProperty lunaUcType (x := x) (Nat.le_succ_of_le hq)
    rw [fill, entry_concat _ _ s q hq, bind_eq_bind, bind_some]
    rw [ih (s ++ [q]) _ (by simpa using hb)]
    simp [boundaries]

/-- All boundaries of some code points. -/
def allBoundaries : List (Nat × Nat) → List Boundary
  | [] => []
  | x :: xs =>
    leading ucBreakProperty lunaUcType x :: boundaries ucBreakProperty lunaUcType
      (leading ucBreakProperty lunaUcType x) 1 xs

theorem fill_eq (xs : List (Nat × Nat)) :
    fill ucBreakProperty lunaUcType [] xs = some (allBoundaries ucBreakProperty lunaUcType xs) := by
  cases xs with
  | nil => rfl
  | cons x xs =>
    have h := fill_concat ucBreakProperty lunaUcType xs [] (leading ucBreakProperty lunaUcType x) (by simp [leading])
    rw [fill, entry_nil, bind_eq_bind, bind_some, h]
    rfl

/-- The boundaries of the code points up to a place: all but the last, and the last. -/
inductive Row : List (Nat × Nat) → List Boundary → Boundary → Prop
  | first (x : Nat × Nat) : Row [x] [] (leading ucBreakProperty lunaUcType x)
  | next {u : List (Nat × Nat)} {s : List Boundary} {a : Boundary} (x : Nat × Nat) :
    Row u s a → Row (u ++ [x]) (s ++ [a]) (following ucBreakProperty lunaUcType a (s.length + 1) x)

variable {ucBreakProperty : Nat → Property} {lunaUcType : Nat → Nat}

theorem Row.length {u : List (Nat × Nat)} {s : List Boundary} {a : Boundary} (h : Row ucBreakProperty lunaUcType u s a) :
    u.length = s.length + 1 := by
  induction h with
  | first => rfl
  | next x _ ih => simp [ih]

/-- Some code points, then others. -/
theorem exists_row {u : List (Nat × Nat)} (hu : u ≠ []) : ∃ s a, Row ucBreakProperty lunaUcType u s a ∧
    ∀ v, allBoundaries ucBreakProperty lunaUcType (u ++ v) = s ++ [a] ++
      boundaries ucBreakProperty lunaUcType a u.length v := by
  induction u using List.reverseRecOn with
  | nil => exact absurd rfl hu
  | append_singleton u x ih =>
    by_cases hnil : u = []
    · subst hnil
      exact ⟨[], _, .first x, fun v => rfl⟩
    · obtain ⟨s, a, hrow, hall⟩ := ih hnil
      have hlen := hrow.length
      refine ⟨s ++ [a], _, .next x hrow, fun v => ?_⟩
      rw [append_assoc, hall]
      simp [boundaries, hlen]

end

/-! ### Attached marks -/

section Treat
variable {p : Option Chr} {c : Chr} {u v : List Chr}

/-- The character before a place, of those before or of one further on. -/
def lastOf (p : Option Chr) (u : List Chr) : Option Chr := u.getLast?.or p

theorem treat_append (u v : List Chr) : ∀ p, treat p (u ++ v) = treat p u ++ treat (lastOf p u) v := by
  induction u with
  | nil => exact fun p => rfl
  | cons c u ih =>
    intro p
    have hlast : lastOf (some c) u = lastOf p (c :: u) := by
      cases u with
      | nil => rfl
      | cons d u => simp [lastOf, getLast?_cons]
    rw [cons_append, treat, treat, ih, hlast]
    split_ifs <;> rfl

theorem treat_single (p : Option Chr) (c : Chr) : treat p [c] =
    if c.mark then if p.any fun p => !p.alone then [] else [{ c with lb := .al }] else [c] := by
  simp only [treat]

end Treat

/-! ### What the last boundary says -/

/-- A number that may go on. -/
def number : Language Chr := ⊤ * cls [.nu] * (cls [.nu, .sy, .is])∗

/-- Some class, and spaces. -/
def spaced (X : List Lb) : Language Chr := ⊤ * cls X * (cls [.sp])∗

section Contexts
variable {w : List Chr} {x : Chr}

theorem concat_mem_number : w ++ [x] ∈ number ↔ x.lb = .nu ∨ (x.lb = .sy ∨ x.lb = .is) ∧ w ∈ number := by
  simp only [number, cls, concat_mem_mul_star, concat_mem_mul_one, mem_top, true_and, mem_cons, not_mem_nil, or_false]
  tauto

theorem concat_mem_spaced {X : List Lb} : w ++ [x] ∈ spaced X ↔ x.lb ∈ X ∨ x.lb = .sp ∧ w ∈ spaced X := by
  simp only [spaced, cls, concat_mem_mul_star, concat_mem_mul_one, mem_top, true_and, mem_cons, not_mem_nil, or_false]

theorem nil_not_mem_spaced {X : List Lb} : [] ∉ spaced X := by
  rw [spaced, cls, cls, nil_mem_mul_star, nil_mem_mul_one]
  exact id

theorem nil_not_mem_number : [] ∉ number := by
  rw [number, cls, cls, nil_mem_mul_star, nil_mem_mul_one]
  exact id

end Contexts

def Indicator (c : Chr) : Prop := c.lb ∈ [Lb.ri]

/-- The base of the last boundary: its character, and what stands before it. -/
structure Bases (lunaUcType : Nat → Nat) (t : List Chr) (s : List Boundary) (a : Boundary) (w : List Chr) (x : Chr) : Prop where
  treat : t = w ++ [x]
  lb : a.lb = x.lb
  base : ∃ q, (s ++ [a])[a.base]? = some q ∧ q.wide = x.wide ∧ q.pict = x.pict ∧ lunaUcType q.cp = x.type
  before : a.base = 0 ∧ w = [] ∨ a.base ≠ 0 ∧ ∃ p w' y, (s ++ [a])[a.base - 1]? = some p ∧ w = w' ++ [y] ∧ p.lb = y.lb ∧
    (p.numeric = true ↔ w ∈ number)

/-- What the last boundary says about the characters up to it, those of LB1. -/
structure Tracks (lunaUcType : Nat → Nat) (u : List Chr) (s : List Boundary) (a : Boundary) : Prop where
  base_le : a.base ≤ s.length
  takes : ∃ c, u.getLast? = some c ∧ (a.takes = true ↔ ¬ c.alone)
  bases : ∃ w x, Bases lunaUcType (treat none u) s a w x
  nonspace : ∃ q, (s ++ [a])[a.nonspace]? = some q ∧ (∀ X, .sp ∉ X → (q.lb ∈ X ↔ treat none u ∈ spaced X)) ∧
    (q.lb = .zw ↔ u ∈ spaced [.zw])
  ri : Odd Indicator (treat none u) ↔ a.lb = .ri ∧ a.ri % 2 = 1
  numeric : a.numeric = true ↔ treat none u ∈ number

section Steps
variable {ucBreakProperty : Nat → Property} {lunaUcType : Nat → Nat} {u : List Chr} {s : List Boundary}
    {a : Boundary} {x : Nat × Nat}

theorem resolve_lb (cp : Nat) :
    (chr ucBreakProperty lunaUcType cp).resolve.lb = resolved lunaUcType (ucBreakProperty cp).lb cp := by
  cases h : (ucBreakProperty cp).lb <;> simp [Chr.resolve, chr, resolved, h]

/-- The characters of some code points, after LB1. -/
def chars (ucBreakProperty : Nat → Property) (lunaUcType : Nat → Nat) (xs : List (Nat × Nat)) : List Chr :=
  xs.map fun x => (chr ucBreakProperty lunaUcType x.2).resolve

theorem takes_iff : a.takes = true ↔ a.lb ∉ [Lb.bk, .cr, .lf, .nl, .sp, .zw] := by
  simp only [Boundary.takes, ucHard]
  generalize a.lb = lb
  cases lb <;> decide

theorem isMark_iff : (chr ucBreakProperty lunaUcType x.2).resolve.mark ↔ isMark ucBreakProperty lunaUcType x := by
  rw [Chr.mark, resolve_lb, isMark]

theorem odd_indicator {w : List Chr} {c : Chr} : Odd Indicator (w ++ [c]) ↔ c.lb = .ri ∧ ¬ Odd Indicator w := by
  rw [odd_concat_iff, Indicator, mem_singleton]

theorem getElem?_last (b : Boundary) : ((s ++ [a]) ++ [b])[s.length + 1]? = some b := by simp

/-- A mark is attached. -/
theorem Tracks.attached (h : Tracks lunaUcType u s a) (hm : isMark ucBreakProperty lunaUcType x) (ht : a.takes = true) :
    Tracks lunaUcType (u ++ [(chr ucBreakProperty lunaUcType x.2).resolve]) (s ++ [a])
      (following ucBreakProperty lunaUcType a (s.length + 1) x) := by
  set c := (chr ucBreakProperty lunaUcType x.2).resolve with hc
  have hmark : c.mark := isMark_iff.2 hm
  have hclass := takes_iff.1 ht
  have htreat : treat none (u ++ [c]) = treat none u := by
    obtain ⟨d, hd, hiff⟩ := h.takes
    have halone : ¬ d.alone := hiff.1 ht
    rw [treat_append, treat_single, if_pos hmark, if_pos (by simp [lastOf, hd, halone]), append_nil]
  have hold : ∀ (k : Nat) (q b : Boundary), (s ++ [a])[k]? = some q → ((s ++ [a]) ++ [b])[k]? = some q := by
    intro k q b hk
    rw [getElem?_append_left (List.getElem?_eq_some_iff.1 hk).1]
    exact hk
  obtain ⟨w, y, hb⟩ := h.bases
  have hy := hb.lb
  rw [following_attached _ _ hm ht]
  refine ⟨?_, ⟨c, by simp, ?_⟩, ⟨w, y, ?_⟩, ?_, ?_, ?_⟩
  · have := h.base_le
    simp only [length_append, length_singleton]
    omega
  · have hno : ¬ c.alone := by
      rcases hmark with hmark | hmark <;> simp [Chr.alone, hmark]
    rw [takes_iff]
    exact ⟨fun _ => hno, fun _ => hclass⟩
  · obtain ⟨q, hq, hq'⟩ := hb.base
    refine ⟨htreat.trans hb.treat, hy, ⟨q, hold _ _ _ hq, hq'⟩, ?_⟩
    rcases hb.before with hfirst | ⟨hne, p, w', z, hp, hp'⟩
    · exact .inl hfirst
    · exact .inr ⟨hne, p, w', z, hold _ _ _ hp, hp'⟩
  · refine ⟨_, getElem?_last _, fun X hX => ?_, ?_⟩
    · dsimp only
      rw [htreat, hb.treat, concat_mem_spaced, hy]
      have hsp : y.lb ≠ .sp := by
        intro hsp
        simp [hy, hsp] at hclass
      simp [hsp]
    · have hzw : a.lb ≠ .zw := by
        intro hzw
        simp [hzw] at hclass
      rw [concat_mem_spaced]
      rcases hmark with hmark | hmark <;> simp [hmark, hzw]
  · rw [htreat, h.ri]
    dsimp only
    constructor
    · rintro ⟨h1, h2⟩
      simp [h1, h2]
    · rintro ⟨h1, h2⟩
      simpa [h1] using h2
  · rw [htreat, hb.treat, concat_mem_number, ← hy]
    simp only [Bool.or_eq_true, Bool.and_eq_true, decide_eq_true_eq]
    have hnum := h.numeric
    rw [hb.treat, concat_mem_number, ← hy] at hnum
    rw [hnum]
    constructor
    · rintro (h1 | ⟨h1, h2 | h2⟩)
      · exact .inl h1
      · exact .inl h2
      · exact .inr h2
    · rintro (h1 | h1)
      · exact .inl h1
      · exact .inr ⟨h1.1, .inr h1⟩

/-- A character comes that is not attached: the class is its own, or AL for a mark. -/
theorem Tracks.extend (h : Tracks lunaUcType u s a) {c c' : Chr} {b : Boundary}
    (htreat : treat none (u ++ [c]) = treat none u ++ [c'])
    (hwide : c'.wide = b.wide) (hpict : c'.pict = b.pict) (htype : c'.type = lunaUcType b.cp) (hlb : b.lb = c'.lb)
    (hbase : b.base = s.length + 1) (hns : b.nonspace = if b.lb = .sp then a.nonspace else s.length + 1)
    (hri : b.ri = if b.lb = .ri then if a.lb = .ri then a.ri + 1 else 1 else 0)
    (hnum : b.numeric = (b.lb = .nu || (b.lb = .sy || b.lb = .is) && a.numeric))
    (htakes : b.takes = true ↔ ¬ c.alone) (hsp : c.lb = .sp ↔ b.lb = .sp) (hzw : c.lb = .zw ↔ b.lb = .zw) :
    Tracks lunaUcType (u ++ [c]) (s ++ [a]) b := by
  have hself := getElem?_last (s := s) (a := a) b
  have hprev : ((s ++ [a]) ++ [b])[s.length]? = some a := by simp
  refine ⟨by simp [hbase], ⟨c, by simp, htakes⟩, ⟨treat none u, c', htreat, hlb, ⟨b, hbase ▸ hself, hwide.symm,
    hpict.symm, htype.symm⟩, ?_⟩, ?_, ?_, ?_⟩
  · obtain ⟨w, y, hb⟩ := h.bases
    refine .inr ⟨by omega, a, w, y, ?_, hb.treat, hb.lb, h.numeric⟩
    rw [hbase]
    exact hprev
  · rw [hns]
    split_ifs with hbsp
    · obtain ⟨q, hq, hX, hz⟩ := h.nonspace
      refine ⟨q, ?_, fun X hmem => ?_, ?_⟩
      · rw [getElem?_append_left (List.getElem?_eq_some_iff.1 hq).1]
        exact hq
      · rw [htreat, concat_mem_spaced, ← hlb, hbsp, hX X hmem]
        simp [hmem]
      · rw [concat_mem_spaced, hz]
        have hcsp := hsp.2 hbsp
        simp [hcsp]
    · refine ⟨b, hself, fun X hmem => ?_, ?_⟩
      · rw [htreat, concat_mem_spaced, ← hlb]
        simp [hbsp]
      · rw [concat_mem_spaced, mem_singleton, hzw, hsp]
        simp [hbsp]
  · rw [htreat, odd_indicator, h.ri, ← hlb, hri]
    by_cases hb : b.lb = .ri
    · by_cases ha : a.lb = .ri
      · simp only [hb, ha, true_and, ↓reduceIte]
        omega
      · simp [hb, ha]
    · simp [hb]
  · rw [htreat, concat_mem_number, ← h.numeric, hnum, ← hlb]
    simp only [Bool.or_eq_true, Bool.and_eq_true, decide_eq_true_eq]

theorem Tracks.next (h : Tracks lunaUcType u s a) (x : Nat × Nat) :
    Tracks lunaUcType (u ++ [(chr ucBreakProperty lunaUcType x.2).resolve]) (s ++ [a])
      (following ucBreakProperty lunaUcType a (s.length + 1) x) := by
  by_cases hm : isMark ucBreakProperty lunaUcType x
  · cases ht : a.takes with
    | true => exact h.attached hm ht
    | false =>
      set c := (chr ucBreakProperty lunaUcType x.2).resolve with hc
      have hmark : c.mark := isMark_iff.2 hm
      have htreat : treat none (u ++ [c]) = treat none u ++ [{ c with lb := .al }] := by
        obtain ⟨d, hd, hiff⟩ := h.takes
        have halone : d.alone := by
          by_contra hno
          simp [hiff.2 hno] at ht
        rw [treat_append, treat_single, if_pos hmark, if_neg (by simp [lastOf, hd, halone])]
      have hnot : ¬ c.alone ∧ c.lb ≠ .sp ∧ c.lb ≠ .zw := by
        rcases hmark with hmark | hmark <;> simp [Chr.alone, hmark]
      rw [following_alone _ _ hm ht]
      refine h.extend htreat rfl rfl rfl rfl rfl rfl rfl (by simp) ?_ ?_ ?_
      · rw [takes_iff]
        simp [hnot.1]
      · simp [hnot.2.1]
      · simp [hnot.2.2]
  · set c := (chr ucBreakProperty lunaUcType x.2).resolve with hc
    have hmark : ¬ c.mark := fun h => hm (isMark_iff.1 h)
    have htreat : treat none (u ++ [c]) = treat none u ++ [c] := by rw [treat_append, treat_single, if_neg hmark]
    have hlb : c.lb = resolved lunaUcType (ucBreakProperty x.2).lb x.2 := resolve_lb x.2
    rw [following_other _ _ hm]
    refine h.extend htreat rfl rfl rfl hlb.symm rfl rfl rfl rfl ?_ (by rw [hlb]) (by rw [hlb])
    rw [takes_iff, Chr.alone, hlb]

theorem Tracks.first (x : Nat × Nat) :
    Tracks lunaUcType [(chr ucBreakProperty lunaUcType x.2).resolve] [] (leading ucBreakProperty lunaUcType x) := by
  set c := (chr ucBreakProperty lunaUcType x.2).resolve with hc
  have hlb : c.lb = resolved lunaUcType (ucBreakProperty x.2).lb x.2 := resolve_lb x.2
  -- the character, or AL for a mark
  obtain ⟨c', htreat, hcls, hrest⟩ : ∃ c', treat none [c] = [c'] ∧ (leading ucBreakProperty lunaUcType x).lb = c'.lb ∧
      (c'.wide = c.wide ∧ c'.pict = c.pict ∧ c'.type = c.type) ∧ (c'.lb = c.lb ∨ c.mark ∧ c'.lb = .al) := by
    rw [treat_single]
    by_cases hmark : c.mark
    · refine ⟨{ c with lb := .al }, by simp [hmark], ?_, ⟨rfl, rfl, rfl⟩, .inr ⟨hmark, rfl⟩⟩
      exact if_pos (isMark_iff.1 hmark)
    · refine ⟨c, by simp [hmark], ?_, ⟨rfl, rfl, rfl⟩, .inl rfl⟩
      exact (if_neg fun h => hmark (isMark_iff.2 h)).trans hlb.symm
  obtain ⟨⟨hwide, hpict, htype⟩, hor⟩ := hrest
  generalize hb : leading ucBreakProperty lunaUcType x = b at hcls
  have hbase : b.base = 0 ∧ b.nonspace = 0 := by
    rw [← hb]
    exact ⟨rfl, rfl⟩
  have hfields : b.ri = (if b.lb = .ri then 1 else 0) ∧ b.numeric = decide (b.lb = .nu) ∧ b.wide = c.wide ∧
      b.pict = c.pict ∧ lunaUcType b.cp = c.type := by
    rw [← hb]
    exact ⟨rfl, rfl, rfl, rfl, rfl⟩
  obtain ⟨hri, hnum, hbw, hbp, hbt⟩ := hfields
  have hempty : ∀ {y : Chr} {L : Language Chr}, [y] ∈ L ↔ [] ++ [y] ∈ L := Iff.rfl
  refine ⟨by simp [hbase.1], ⟨c, rfl, ?_⟩, ⟨[], c', htreat, hcls, ⟨b, by simp [hbase.1], ?_⟩, .inl ⟨hbase.1, rfl⟩⟩,
    ⟨b, by simp [hbase.2], fun X hX => ?_, ?_⟩, ?_, ?_⟩
  · rw [takes_iff, hcls, Chr.alone]
    rcases hor with hor | ⟨hmark | hmark, hor⟩
    · rw [hor]
    · simp [hor, hmark]
    · simp [hor, hmark]
  · rw [hbw, hbp, hbt, hwide, hpict, htype]
    exact ⟨rfl, rfl, rfl⟩
  · rw [htreat, hempty, concat_mem_spaced, hcls]
    simp [nil_not_mem_spaced]
  · rw [hempty, concat_mem_spaced, hcls]
    rcases hor with hor | ⟨hmark | hmark, hor⟩
    · simp [hor, nil_not_mem_spaced]
    · simp [hor, hmark]
    · simp [hor, hmark]
  · rw [htreat, show [c'] = [] ++ [c'] from rfl, odd_indicator, hri, hcls]
    by_cases hcri : c'.lb = .ri
    · simp [hcri, not_odd_nil]
    · simp [hcri]
  · rw [htreat, hempty, concat_mem_number, hnum, hcls]
    simp [nil_not_mem_number]

theorem Row.tracks {xs : List (Nat × Nat)} (h : Row ucBreakProperty lunaUcType xs s a) :
    Tracks lunaUcType (chars ucBreakProperty lunaUcType xs) s a := by
  induction h with
  | first x => exact .first x
  | next x _ ih =>
    rw [chars, map_append]
    exact ih.next x

end Steps

end Lunaria.Breaks
