import Lunaria.Unicode.Tracks

/-! The decision of `uc_line` is that of the rules. -/

namespace Lunaria.Breaks
open List

open Computability Contexts Verdict

/-! ### After marks are attached -/

/-- What `uc_line` reads says about the characters on both sides of a place, marks attached. -/
structure View (lunaUcType : Nat → Nat) (t v : List Chr) (a b nonspace base : Boundary) (before : Option Boundary)
    (next : Boundary) : Prop where
  left : ∀ X, t ∈ ⊤ * cls X ↔ a.lb ∈ X
  leftNot : ∀ X, t ∈ ⊤ * noCls X ↔ a.lb ∉ X
  right : ∀ X, v ∈ cls X * ⊤ ↔ b.lb ∈ X
  rightNext : v ∈ (1 + cls [.op, .hy]) * (cls [.nu] * ⊤) ↔ b.lb = .nu ∨ (b.lb = .op ∨ b.lb = .hy) ∧ next.lb = .nu
  spaced : ∀ X, .sp ∉ X → (t ∈ ⊤ * cls X * (cls [.sp])∗ ↔ nonspace.lb ∈ X)
  hebrew : t ∈ ⊤ * cls [.hl] * cls [.hy, .ba] ↔ (a.lb = .hy ∨ a.lb = .ba) ∧ before.any (fun p => p.lb = .hl) = true
  number : t ∈ ⊤ * cls [.nu] * (cls [.nu, .sy, .is])∗ ↔ a.numeric = true
  closed : t ∈ ⊤ * cls [.nu] * (cls [.nu, .sy, .is])∗ * (1 + cls [.cl, .cp]) ↔
    a.numeric = true ∨ (a.lb = .cl ∨ a.lb = .cp) ∧ before.any (fun p => p.numeric) = true
  narrowOpen : v ∈ one (fun c => c.lb = .op ∧ c.wide = false) * ⊤ ↔ b.lb = .op ∧ b.wide = false
  narrowClose : t ∈ ⊤ * one (fun c => c.lb = .cp ∧ c.wide = false) ↔ a.lb = .cp ∧ base.wide = false
  odd : t ∈ (cls [.ri] * cls [.ri])∗ * cls [.ri] ∨ t ∈ ⊤ * noCls [.ri] * (cls [.ri] * cls [.ri])∗ * cls [.ri] ↔
    a.lb = .ri ∧ a.ri % 2 = 1
  pict : t ∈ ⊤ * one (fun c => c.pict = true ∧ c.type = 0) ↔ base.pict = true ∧ lunaUcType base.cp = 0

theorem ite_or_else {α : Type} {p q : Prop} [Decidable p] [Decidable q] (x y : α) :
    (if p ∨ q then x else y) = if p then x else if q then x else y := by
  by_cases p <;> by_cases q <;> simp [*]

def Verdict.bits : Verdict → Nat
  | mandatory => 5
  | allowed => 1
  | prohibited => 0

theorem bits_allowed : allowed.bits = 1 := (rfl)

theorem bits_prohibited : prohibited.bits = 0 := (rfl)

section
variable {lunaUcType : Nat → Nat} {t v : List Chr} {a b nonspace base next : Boundary} {before : Option Boundary}

section
variable (h : View lunaUcType t v a b nonspace base before next)
include h

theorem View.some_spaced : Some lineRulesSpaced t v ↔
    (a.lb = .wj ∨ b.lb = .wj ∨ a.lb = .gl) ∨ (b.lb = .gl ∧ a.lb ≠ .sp ∧ a.lb ≠ .ba ∧ a.lb ≠ .hy) ∨
    (b.lb = .ex ∨ a.lb ≠ .nu ∧ (b.lb = .cl ∨ b.lb = .cp ∨ b.lb = .is ∨ b.lb = .sy)) ∨
    (nonspace.lb = .op ∨ nonspace.lb = .qu ∧ b.lb = .op ∨ (nonspace.lb = .cl ∨ nonspace.lb = .cp) ∧ b.lb = .ns ∨
      nonspace.lb = .b2 ∧ b.lb = .b2) := by
  simp only [lineRulesSpaced, some_append, some_cons, some_nil, Rule.Applies, h.left, h.leftNot, h.right, h.spaced, mem_top,
    mem_cons, not_mem_nil, or_false, and_true, true_and, reduceCtorEq, not_false_eq_true, not_or, ne_eq]
  grind

theorem View.some_words : Some lineRulesWords t v ↔
    (b.lb = .ba ∨ b.lb = .hy ∨ b.lb = .ns ∨ a.lb = .bb) ∨
    ((a.lb = .hy ∨ a.lb = .ba) ∧ before.any (fun p => p.lb = .hl) = true) ∨ (a.lb = .sy ∧ b.lb = .hl) ∨ (b.lb = .in') ∨
    (ucAlpha a.lb ∧ b.lb = .nu ∨ a.lb = .nu ∧ ucAlpha b.lb) ∨
    (a.lb = .pr ∧ (b.lb = .id ∨ b.lb = .eb ∨ b.lb = .em) ∨ (a.lb = .id ∨ a.lb = .eb ∨ a.lb = .em) ∧ b.lb = .po) ∨
    ((a.lb = .pr ∨ a.lb = .po) ∧ ucAlpha b.lb ∨ ucAlpha a.lb ∧ (b.lb = .pr ∨ b.lb = .po)) := by
  simp only [lineRulesWords, some_append, some_cons, some_nil, Rule.Applies, h.left, h.right, h.hebrew, mem_top, ucAlpha,
    decide_eq_true_eq, mem_cons, not_mem_nil, or_false, and_true, true_and, or_assoc]

theorem View.some_numbers : Some lineRulesNumbers t v ↔
    ((a.lb = .pr ∨ a.lb = .po) ∧ (b.lb = .nu ∨ (b.lb = .op ∨ b.lb = .hy) ∧ next.lb = .nu)) ∨
    ((a.lb = .op ∨ a.lb = .hy) ∧ b.lb = .nu) ∨
    (a.numeric ∧ (b.lb = .nu ∨ b.lb = .sy ∨ b.lb = .is ∨ b.lb = .cl ∨ b.lb = .cp ∨ b.lb = .po ∨ b.lb = .pr)) ∨
    ((a.lb = .cl ∨ a.lb = .cp) ∧ before.any (fun p => p.numeric) ∧ (b.lb = .po ∨ b.lb = .pr)) := by
  have hnu : a.lb = .nu → a.numeric = true := by
    intro hnu
    rw [← h.number]
    exact Language.mem_mul.2 ⟨t, (h.left _).2 (by simp [hnu]), [], Language.nil_mem_kstar _, append_nil _⟩
  simp only [lineRulesNumbers, some_cons, some_nil, Rule.Applies, h.left, h.right, h.rightNext, h.number, h.closed,
    mem_cons, not_mem_nil, or_false]
  grind

theorem View.some_pairs : Some lineRulesPairs t v ↔
    (a.lb = .jl ∧ (b.lb = .jl ∨ b.lb = .jv ∨ b.lb = .h2 ∨ b.lb = .h3)) ∨
    ((a.lb = .jv ∨ a.lb = .h2) ∧ (b.lb = .jv ∨ b.lb = .jt)) ∨ ((a.lb = .jt ∨ a.lb = .h3) ∧ b.lb = .jt) ∨
    (ucHangul a.lb ∧ b.lb = .po ∨ a.lb = .pr ∧ ucHangul b.lb) ∨ (ucAlpha a.lb ∧ ucAlpha b.lb) ∨
    (a.lb = .is ∧ ucAlpha b.lb) ∨
    ((ucAlpha a.lb ∨ a.lb = .nu) ∧ b.lb = .op ∧ !b.wide) ∨ (a.lb = .cp ∧ !base.wide ∧ (ucAlpha b.lb ∨ b.lb = .nu)) ∨
    (a.lb = .ri ∧ b.lb = .ri ∧ a.ri % 2 = 1) ∨ (b.lb = .em ∧ (a.lb = .eb ∨ base.pict ∧ lunaUcType base.cp = 0)) := by
  have hodd : (t ∈ (cls [.ri] * cls [.ri])∗ * cls [.ri] ∧ b.lb = .ri ∨
      t ∈ ⊤ * noCls [.ri] * (cls [.ri] * cls [.ri])∗ * cls [.ri] ∧ b.lb = .ri) ↔ a.lb = .ri ∧ b.lb = .ri ∧
        a.ri % 2 = 1 := by
    rw [← or_and_right, h.odd, and_assoc, and_comm (b := b.lb = .ri)]
  have hem : (a.lb = .eb ∧ b.lb = .em ∨ base.pict = true ∧ lunaUcType base.cp = 0 ∧ b.lb = .em) ↔
      b.lb = .em ∧ (a.lb = .eb ∨ base.pict = true ∧ lunaUcType base.cp = 0) := by
    rw [← and_assoc, ← or_and_right, and_comm]
  simp only [lineRulesPairs, some_append, some_cons, some_nil, Rule.Applies, h.left, h.right, h.narrowOpen,
    h.narrowClose, h.pict,
    ucAlpha, ucHangul, decide_eq_true_eq, mem_cons, not_mem_nil, or_false, or_assoc, hodd, hem, Bool.not_eq_true',
    and_assoc]

theorem View.decides {i : Nat} (hcr : ¬ (a.raw = .cr ∧ b.raw = .lf))
    (hhard : ¬ ucHard a.raw = true) (hright : ¬ (ucHard b.raw = true ∨ b.lb = .sp ∨ b.lb = .zw)) (hzw : nonspace.lb ≠ .zw)
    (hzwj : a.raw ≠ .zwj) (hbase : b.base = i) :
    ∃ d, Decides lineRules t v d ∧ ucLineOf lunaUcType i a b nonspace base before next = d.bits := by
  have hsp : Some [(⟨⊤ * cls [.sp], ⊤, allowed⟩ : Place Verdict)] t v ↔ a.lb = .sp := by
    simp [Rule.Applies, h.left]
  have hqu : Some [(⟨⊤ * cls [.qu], ⊤, prohibited⟩ : Place Verdict), ⟨⊤, cls [.qu] * ⊤, prohibited⟩] t v ↔ a.lb = .qu ∨
      b.lb = .qu := by
    simp [Rule.Applies, h.left, h.right]
  have hcb : Some [(⟨⊤ * cls [.cb], ⊤, allowed⟩ : Place Verdict), ⟨⊤, cls [.cb] * ⊤, allowed⟩] t v ↔ a.lb = .cb ∨
      b.lb = .cb := by
    simp [Rule.Applies, h.left, h.right]
  have hdec := decides_append (d := prohibited) (by decide) h.some_spaced (decides_append (d := allowed) (by simp) hsp
    (decides_append (d := prohibited) (by simp) hqu (decides_append (d := allowed) (by simp) hcb
    (decides_append (d := prohibited) (by decide) h.some_words (decides_append (d := prohibited) (by decide) h.some_numbers
    (decides_append (d := prohibited) (by decide) h.some_pairs (decides_last (d := allowed))))))))
  refine ⟨_, hdec, ?_⟩
  rw [ucLineOf]
  rw [if_neg hcr, if_neg hhard, if_neg hright, if_neg hzw, if_neg hzwj, if_neg (by simp [hbase])]
  simp only [apply_ite Verdict.bits, bits_prohibited, bits_allowed, ite_or_else]

end

end

/-! ### A place of a text -/

section
variable {ucBreakProperty : Nat → Property} {lunaUcType : Nat → Nat}

/-- The search for the next base finds the next character after marks are attached, or the end. -/
theorem skip_spec (xs : List (Nat × Nat)) : ∀ (q : Boundary) (k : Nat) (c : Chr), q.base < k →
    (q.takes = true ↔ ¬ c.alone) →
    ∃ n, skipFrom k (boundaries ucBreakProperty lunaUcType q k xs ++ [sentinel (k + xs.length)]) = some n ∧
      (n.lb = .nu ↔ treat (some c) (chars ucBreakProperty lunaUcType xs) ∈ cls [.nu] * ⊤) := by
  induction xs with
  | nil =>
    intro q k c _ _
    refine ⟨sentinel k, by simp [boundaries, skipFrom, sentinel], ?_⟩
    simp [sentinel, chars, treat, cls]
  | cons x xs ih =>
    intro q k c hq hc
    rw [boundaries, cons_append, skipFrom, chars, map_cons, treat]
    by_cases hm : isMark ucBreakProperty lunaUcType x
    · have hmark : (chr ucBreakProperty lunaUcType x.2).resolve.mark := isMark_iff.2 hm
      have hno : ¬ (chr ucBreakProperty lunaUcType x.2).resolve.alone := by
        rcases hmark with h | h <;> simp [Chr.alone, h]
      rw [if_pos hmark]
      cases ht : q.takes with
      | true =>
        have halone := hc.1 ht
        have hfields := @following_attached ucBreakProperty lunaUcType q k x hm ht
        have hbase : (following ucBreakProperty lunaUcType q k x).base = q.base := by rw [hfields]
        have htakes : (following ucBreakProperty lunaUcType q k x).takes = true := by
          rw [hfields, takes_iff]
          exact takes_iff.1 ht
        rw [if_pos (by omega), if_pos (by simp [halone])]
        obtain ⟨n, hn, hnu⟩ := ih (following ucBreakProperty lunaUcType q k x) (k + 1)
          (chr ucBreakProperty lunaUcType x.2).resolve (by omega) (by simp [htakes, hno])
        refine ⟨n, ?_, hnu⟩
        rw [← hn, length_cons]
        congr 4
        omega
      | false =>
        have halone : c.alone := by
          by_contra h
          simp [hc.2 h] at ht
        rw [following_alone _ _ hm ht, if_neg (by simp), if_neg (by simp [halone])]
        exact ⟨_, rfl, by simp [cls]⟩
    · have hmark : ¬ (chr ucBreakProperty lunaUcType x.2).resolve.mark := fun h => hm (isMark_iff.1 h)
      rw [following_other _ _ hm, if_neg (by simp), if_neg hmark]
      refine ⟨_, rfl, ?_⟩
      simp [cls, resolve_lb]

theorem following_own {q : Boundary} {k : Nat} {x : Nat × Nat} (hq : q.base < k)
    (hb : (following ucBreakProperty lunaUcType q k x).base = k) (xs : List (Nat × Nat)) :
    ∃ c, treat none (chars ucBreakProperty lunaUcType (x :: xs)) =
        c :: treat (some (chr ucBreakProperty lunaUcType x.2).resolve) (chars ucBreakProperty lunaUcType xs) ∧
      (following ucBreakProperty lunaUcType q k x).lb = c.lb ∧
        (following ucBreakProperty lunaUcType q k x).wide = c.wide := by
  rw [chars, map_cons, treat]
  by_cases hm : isMark ucBreakProperty lunaUcType x
  · cases ht : q.takes with
    | true =>
      rw [following_attached _ _ hm ht] at hb
      dsimp only at hb
      omega
    | false =>
      rw [following_alone _ _ hm ht, if_pos (isMark_iff.2 hm), if_neg (by simp)]
      exact ⟨_, rfl, rfl, rfl⟩
  · rw [following_other _ _ hm, if_neg fun h => hm (isMark_iff.1 h)]
    exact ⟨_, rfl, (resolve_lb x.2).symm, rfl⟩

variable {s : List Boundary} {a b nonspace base next : Boundary} {before : Option Boundary} {c : Chr} {u : List (Nat × Nat)}

/-- What is read for a place whose right side is its own base. -/
theorem Tracks.view {u : List Chr} {v z : List Chr}
    (h : Tracks lunaUcType u s a) (hnonspace : (s ++ [a])[a.nonspace]? = some nonspace)
    (hbase : (s ++ [a])[a.base]? = some base)
    (hbefore : (if a.base = 0 then some none else ((s ++ [a])[a.base - 1]?).map some) = some before)
    (hv : v = c :: z) (hlb : b.lb = c.lb) (hwide : b.wide = c.wide) (hnext : next.lb = .nu ↔ z ∈ cls [.nu] * ⊤) :
    View lunaUcType (treat none u) v a b nonspace base before next := by
  obtain ⟨w, x, hb⟩ := h.bases
  obtain ⟨q, hq, hqwide, hqpict, hqtype⟩ := hb.base
  cases hbase.symm.trans hq
  obtain ⟨n, hn, hspaced, -⟩ := h.nonspace
  cases hnonspace.symm.trans hn
  have hnum := h.numeric
  have hri := h.ri
  rw [hb.treat] at hspaced hnum hri ⊢
  -- what stands before the base
  have hhebrew : w ∈ ⊤ * cls [.hl] ↔ before.any (fun p => p.lb = .hl) = true := by
    rcases hb.before with ⟨hzero, rfl⟩ | ⟨hne, p, w', y, hp, rfl, hpl, -⟩
    · rw [if_pos hzero] at hbefore
      cases hbefore
      simp [cls]
    · rw [if_neg hne, hp] at hbefore
      cases hbefore
      simp [cls, hpl]
  have hnumber : w ∈ Breaks.number ↔ before.any (fun p => p.numeric) = true := by
    rcases hb.before with ⟨hzero, rfl⟩ | ⟨hne, p, w', y, hp, rfl, -, hpn⟩
    · rw [if_pos hzero] at hbefore
      cases hbefore
      simp [nil_not_mem_number]
    · rw [if_neg hne, hp] at hbefore
      cases hbefore
      simp [hpn]
  subst hv
  refine ⟨fun X => ?_, fun X => ?_, fun X => ?_, ?_, fun X hX => (hspaced X hX).symm, ?_, hnum.symm, ?_, ?_, ?_, hri, ?_⟩
  · simp [cls, hb.lb]
  · simp [noCls, hb.lb]
  · simp [cls, hlb]
  · rw [show cls [.op, .hy] = one fun c => c.lb ∈ [Lb.op, .hy] from rfl, cons_mem_opt_mul, hnext, hlb]
    simp [cls]
  · rw [show cls [.hy, .ba] = one fun c => c.lb ∈ [Lb.hy, .ba] from rfl, concat_mem_mul_one, hhebrew, hb.lb]
    simp [and_comm]
  · rw [show cls [.cl, .cp] = one fun c => c.lb ∈ [Lb.cl, .cp] from rfl, concat_mem_mul_opt, hb.lb, hnum, ← hnumber]
    simp [number, and_comm]
  · simp [hlb, hwide]
  · simp [hb.lb, hqwide]
  · simp [hqpict, hqtype]

theorem resolved_iff (lb : Lb) (cp : Nat) : ∀ X ∈ [Lb.bk, .cr, .lf, .nl, .sp, .zw, .zwj], resolved lunaUcType lb cp = X ↔
    lb = X := by
  by_cases ht : lunaUcType cp = 6 ∨ lunaUcType cp = 8 <;> cases lb <;> simp [resolved, ht]

theorem following_fields (q : Boundary) (k : Nat) (x : Nat × Nat) :
    let b := following ucBreakProperty lunaUcType q k x
    b.cp = x.2 ∧ b.pos = x.1 ∧ b.raw = (ucBreakProperty x.2).lb ∧ b.gb = (ucBreakProperty x.2).gb ∧
      b.flags = (ucBreakProperty x.2).flags := by
  by_cases hm : isMark ucBreakProperty lunaUcType x
  · cases ht : q.takes with
    | true =>
      rw [following_attached _ _ hm ht]
      exact ⟨rfl, rfl, rfl, rfl, rfl⟩
    | false =>
      rw [following_alone _ _ hm ht]
      exact ⟨rfl, rfl, rfl, rfl, rfl⟩
  · rw [following_other _ _ hm]
    exact ⟨rfl, rfl, rfl, rfl, rfl⟩

theorem Row.fields {a : Boundary} (h : Row ucBreakProperty lunaUcType u s a) :
    ∃ u' y, u = u' ++ [y] ∧ a.raw = (ucBreakProperty y.2).lb ∧ a.gb = (ucBreakProperty y.2).gb ∧
      a.flags = (ucBreakProperty y.2).flags := by
  cases h with
  | first x => exact ⟨[], x, rfl, rfl, rfl, rfl⟩
  | next x _ =>
    obtain ⟨-, -, h1, h2, h3⟩ := @following_fields ucBreakProperty lunaUcType _ _ x
    exact ⟨_, x, rfl, h1, h2, h3⟩

theorem Tracks.attached_iff {u : List Chr} {a : Boundary} (h : Tracks lunaUcType (u ++ [c]) s a)
    (x : Nat × Nat) : let b := following ucBreakProperty lunaUcType a (s.length + 1) x
    let d := (chr ucBreakProperty lunaUcType x.2).resolve
    (b.base ≠ s.length + 1 ↔ ¬ c.alone ∧ d.mark) ∧ (b.lb = .sp ↔ d.lb = .sp) ∧ (b.lb = .zw ↔ d.lb = .zw) := by
  have hle := h.base_le
  obtain ⟨c', hc', htakes⟩ := h.takes
  obtain rfl : c = c' := by simpa using hc'
  by_cases hm : isMark ucBreakProperty lunaUcType x
  · have hmark := isMark_iff.2 hm
    have hno : (chr ucBreakProperty lunaUcType x.2).resolve.lb ≠ .sp ∧
        (chr ucBreakProperty lunaUcType x.2).resolve.lb ≠ .zw := by
      rcases hmark with h | h <;> simp [h]
    cases ht : a.takes with
    | true =>
      have hclass := takes_iff.1 ht
      have halone := htakes.1 ht
      rw [following_attached _ _ hm ht]
      refine ⟨⟨fun _ => ⟨halone, hmark⟩, fun _ => ?_⟩, ⟨fun h => ?_, fun h => absurd h hno.1⟩,
        ⟨fun h => ?_, fun h => absurd h hno.2⟩⟩
      · dsimp only
        omega
      · exact absurd (show a.lb ∈ _ by simp [show a.lb = .sp from h]) hclass
      · exact absurd (show a.lb ∈ _ by simp [show a.lb = .zw from h]) hclass
    | false =>
      have halone : c.alone := by
        by_contra h
        simp [htakes.2 h] at ht
      rw [following_alone _ _ hm ht]
      simp [halone, hno]
  · have hmark : ¬ (chr ucBreakProperty lunaUcType x.2).resolve.mark := fun h => hm (isMark_iff.1 h)
    rw [following_other _ _ hm]
    simp [hmark, resolve_lb]

/-- LB4 to LB9 as `uc_line` decides them, with a verdict for the other places. -/
theorem Tracks.decides_first {u : List Chr} {a nonspace : Boundary}
    (h : Tracks lunaUcType (u ++ [c]) s a) (hraw : ∀ X ∈ [Lb.bk, .cr, .lf, .nl, .zwj], c.lb = X ↔ a.raw = X)
    (hnonspace : (s ++ [a])[a.nonspace]? = some nonspace) (x : Nat × Nat) (z : List Chr) (dd : Verdict) :
    let b := following ucBreakProperty lunaUcType a (s.length + 1) x
    let v := (chr ucBreakProperty lunaUcType x.2).resolve :: z
    Decides (lineRulesFirst ++ [⟨⊤, ⊤, dd⟩]) (u ++ [c]) v
      (if a.raw = .bk then mandatory else if a.raw = .cr ∧ b.raw = .lf then prohibited
      else if a.raw = .cr ∨ a.raw = .lf ∨ a.raw = .nl then mandatory
      else if (b.raw = .bk ∨ b.raw = .cr ∨ b.raw = .lf ∨ b.raw = .nl) ∨ b.lb = .sp ∨ b.lb = .zw then prohibited
      else if nonspace.lb = .zw then allowed
      else if a.raw = .zwj ∨ b.base ≠ s.length + 1 then prohibited else dd) ∧
    (Some lineRulesFirst (u ++ [c]) v ↔ a.raw = .bk ∨ (a.raw = .cr ∧ b.raw = .lf) ∨
      (a.raw = .cr ∨ a.raw = .lf ∨ a.raw = .nl) ∨
      ((b.raw = .bk ∨ b.raw = .cr ∨ b.raw = .lf ∨ b.raw = .nl) ∨ b.lb = .sp ∨ b.lb = .zw) ∨ nonspace.lb = .zw ∨
      (a.raw = .zwj ∨ b.base ≠ s.length + 1)) := by
  intro b v
  obtain ⟨n, hn, -, hzw⟩ := h.nonspace
  cases hnonspace.symm.trans hn
  obtain ⟨hbase, hsp, hzwb⟩ := @Tracks.attached_iff ucBreakProperty lunaUcType _ _ _ _ h x
  have hd := @resolved_iff lunaUcType (ucBreakProperty x.2).lb x.2
  have hbraw : b.raw = (ucBreakProperty x.2).lb :=
    (@following_fields ucBreakProperty lunaUcType a (s.length + 1) x).2.2.1
  rw [← @resolve_lb ucBreakProperty, ← hbraw] at hd
  rw [lineRulesFirst]
  simp only [append_assoc, some_append]
  -- the rules one after the other
  have hbk : Some [(⟨⊤ * cls [.bk], ⊤, mandatory⟩ : Place Verdict)] (u ++ [c]) v ↔ a.raw = .bk := by
    simp [Rule.Applies, cls, hraw]
  have hcrlf : Some [(⟨⊤ * cls [.cr], cls [.lf] * ⊤, prohibited⟩ : Place Verdict)] (u ++ [c]) v ↔ a.raw = .cr ∧
      b.raw = .lf := by
    simp [Rule.Applies, cls, hraw, hd, v]
  have hhard : Some [(⟨⊤ * cls [.cr], ⊤, mandatory⟩ : Place Verdict), ⟨⊤ * cls [.lf], ⊤, mandatory⟩,
      ⟨⊤ * cls [.nl], ⊤, mandatory⟩] (u ++ [c]) v ↔ a.raw = .cr ∨ a.raw = .lf ∨ a.raw = .nl := by
    simp [Rule.Applies, cls, hraw]
  have hright : Some [(⟨⊤, cls [.bk, .cr, .lf, .nl] * ⊤, prohibited⟩ : Place Verdict), ⟨⊤, cls [.sp] * ⊤, prohibited⟩,
      ⟨⊤, cls [.zw] * ⊤, prohibited⟩] (u ++ [c]) v ↔
      (b.raw = .bk ∨ b.raw = .cr ∨ b.raw = .lf ∨ b.raw = .nl) ∨ b.lb = .sp ∨ b.lb = .zw := by
    rw [show b.lb = .sp ↔ _ from hsp, show b.lb = .zw ↔ _ from hzwb]
    simp [Rule.Applies, cls, hd, v]
  have hspaced : Some [(⟨⊤ * cls [.zw] * (cls [.sp])∗, ⊤, allowed⟩ : Place Verdict)] (u ++ [c]) v ↔ nonspace.lb = .zw := by
    rw [hzw]
    simp [Rule.Applies, spaced]
  have hattached : Some [(⟨⊤ * cls [.zwj], ⊤, prohibited⟩ : Place Verdict),
      ⟨⊤ * noCls [.bk, .cr, .lf, .nl, .sp, .zw], cls [.cm, .zwj] * ⊤, prohibited⟩] (u ++ [c]) v ↔
      a.raw = .zwj ∨ b.base ≠ s.length + 1 := by
    rw [show b.base ≠ s.length + 1 ↔ _ from hbase]
    simp [Rule.Applies, cls, noCls, hraw, Chr.alone, Chr.mark, v]
  refine ⟨?_, ?_⟩
  · exact decides_append (by simp) hbk (decides_append (by simp) hcrlf (decides_append (by simp) hhard
      (decides_append (by simp) hright (decides_append (by simp) hspaced (decides_append (by simp) hattached
        decides_last)))))
  · rw [hbk, hcrlf, hhard, hright, hspaced, hattached]

theorem ucHard_iff {lb : Lb} : ucHard lb = true ↔ lb = .bk ∨ lb = .cr ∨ lb = .lf ∨ lb = .nl := by simp [ucHard]

theorem ucLineOf_first {i : Nat} {a b nonspace base : Boundary} {next : Boundary} (dd : Verdict)
    (h : a.raw = .bk ∨ (a.raw = .cr ∧ b.raw = .lf) ∨ (a.raw = .cr ∨ a.raw = .lf ∨ a.raw = .nl) ∨
      ((b.raw = .bk ∨ b.raw = .cr ∨ b.raw = .lf ∨ b.raw = .nl) ∨ b.lb = .sp ∨ b.lb = .zw) ∨ nonspace.lb = .zw ∨
      (a.raw = .zwj ∨ b.base ≠ i)) :
    ucLineOf lunaUcType i a b nonspace base before next =
      (if a.raw = .bk then mandatory else if a.raw = .cr ∧ b.raw = .lf then prohibited
      else if a.raw = .cr ∨ a.raw = .lf ∨ a.raw = .nl then mandatory
      else if (b.raw = .bk ∨ b.raw = .cr ∨ b.raw = .lf ∨ b.raw = .nl) ∨ b.lb = .sp ∨ b.lb = .zw then prohibited
      else if nonspace.lb = .zw then allowed
      else if a.raw = .zwj ∨ b.base ≠ i then prohibited else dd).bits := by
  rw [ucLineOf]
  simp only [ucHard_iff]
  by_cases hbk : a.raw = .bk
  · rw [if_pos hbk, if_neg (by simp [hbk]), if_pos (.inl hbk)]
    rfl
  rw [if_neg hbk]
  by_cases hcrlf : a.raw = .cr ∧ b.raw = .lf
  · rw [if_pos hcrlf, if_pos hcrlf]
    rfl
  rw [if_neg hcrlf, if_neg hcrlf]
  by_cases hhard : a.raw = .cr ∨ a.raw = .lf ∨ a.raw = .nl
  · rw [if_pos hhard, if_pos (.inr hhard)]
    rfl
  rw [if_neg hhard, if_neg (not_or.2 ⟨hbk, hhard⟩)]
  by_cases hright : (b.raw = .bk ∨ b.raw = .cr ∨ b.raw = .lf ∨ b.raw = .nl) ∨ b.lb = .sp ∨ b.lb = .zw
  · rw [if_pos hright, if_pos hright]
    rfl
  rw [if_neg hright, if_neg hright]
  by_cases hzw : nonspace.lb = .zw
  · rw [if_pos hzw, if_pos hzw]
    rfl
  rw [if_neg hzw, if_neg hzw]
  by_cases hzwj : a.raw = .zwj
  · rw [if_pos hzwj, if_pos (.inl hzwj)]
    rfl
  rw [if_neg hzwj]
  have hbase : b.base ≠ i := by
    rcases h with h | h | h | h | h | h | h
    · exact absurd h hbk
    · exact absurd h hcrlf
    · exact absurd h hhard
    · exact absurd h hright
    · exact absurd h hzw
    · exact absurd h hzwj
    · exact h
  rw [if_pos hbase, if_pos (.inr hbase)]
  rfl

theorem ucLine_eq {s rest : List Boundary}
    (hnonspace : (s ++ [a])[a.nonspace]? = some nonspace) (hbase : (s ++ [a])[a.base]? = some base)
    (hbefore : (if a.base = 0 then some none else ((s ++ [a])[a.base - 1]?).map some) = some before)
    (hnext : skipFrom (s.length + 2) rest = some next) :
    ucLine lunaUcType (s ++ [a] ++ b :: rest) (s.length + 1) =
      some (ucLineOf lunaUcType (s.length + 1) a b nonspace base before next) := by
  have hold : ∀ {k : Nat} {q : Boundary}, (s ++ [a])[k]? = some q → (s ++ [a] ++ b :: rest)[k]? = some q := by
    intro k q hk
    rw [getElem?_append_left (List.getElem?_eq_some_iff.1 hk).1]
    exact hk
  have ha : (s ++ [a] ++ b :: rest)[s.length + 1 - 1]? = some a := hold (by simp)
  have hb : (s ++ [a] ++ b :: rest)[s.length + 1]? = some b := by simp
  have hdrop : (s ++ [a] ++ b :: rest).drop (s.length + 1 + 1) = rest := by
    rw [show s ++ [a] ++ b :: rest = (s ++ [a] ++ [b]) ++ rest by simp]
    exact drop_left' (by simp)
  have hprev : (if a.base = 0 then some none else ((s ++ [a] ++ b :: rest)[a.base - 1]?).map some) = some before := by
    split_ifs at hbefore ⊢ with hzero
    · exact hbefore
    · obtain ⟨p, hp, hpb⟩ := Option.map_eq_some_iff.1 hbefore
      rw [hold hp, Option.map_some, hpb]
  simp only [ucLine, ha, hb, hold hnonspace, hold hbase, hdrop, hnext, Option.bind_eq_bind, Option.bind_some,
    Option.pure_def]
  split_ifs at hprev ⊢
  · cases hprev
    rfl
  · rw [hprev]
    rfl

/-- The verdict of a place, and the bits of `uc_line`. -/
theorem Row.line {a : Boundary} (h : Row ucBreakProperty lunaUcType u s a)
    (x : Nat × Nat) (xs : List (Nat × Nat)) :
    ∃ d, LineBreak (u.map fun x => chr ucBreakProperty lunaUcType x.2) ((x :: xs).map
      fun x => chr ucBreakProperty lunaUcType x.2) d ∧
      ucLine lunaUcType (s ++ [a] ++ boundaries ucBreakProperty lunaUcType a u.length (x :: xs) ++
        [sentinel (u.length + (x :: xs).length)]) u.length = some d.bits := by
  have hlen := h.length
  have htracks := h.tracks
  obtain ⟨u', y, hu, hraw, -, -⟩ := h.fields
  set b := following ucBreakProperty lunaUcType a (s.length + 1) x with hbdef
  -- what is read
  obtain ⟨nonspace, hnonspace, -⟩ := htracks.nonspace
  obtain ⟨w, e, hbases⟩ := htracks.bases
  obtain ⟨base, hbase, -⟩ := hbases.base
  obtain ⟨before, hbefore⟩ :
      ∃ before, (if a.base = 0 then some none else ((s ++ [a])[a.base - 1]?).map some) = some before := by
    rcases hbases.before with ⟨hzero, -⟩ | ⟨hne, p, _, _, hp, -⟩
    · exact ⟨none, if_pos hzero⟩
    · exact ⟨some p, by rw [if_neg hne, hp, Option.map_some]⟩
  have hble : b.base ≤ s.length + 1 := following_base_le _ _ (Nat.le_succ_of_le htracks.base_le)
  have htakes : b.takes = true ↔ ¬ (chr ucBreakProperty lunaUcType x.2).resolve.alone := by
    obtain ⟨c, hc, hiff⟩ := (htracks.next x).takes
    obtain rfl : (chr ucBreakProperty lunaUcType x.2).resolve = c := by simpa using hc
    exact hiff
  obtain ⟨next, hnext, hnu⟩ := @skip_spec ucBreakProperty lunaUcType xs b (s.length + 2)
    (chr ucBreakProperty lunaUcType x.2).resolve (by omega) htakes
  have hread : ucLine lunaUcType (s ++ [a] ++ boundaries ucBreakProperty lunaUcType a u.length (x :: xs) ++
      [sentinel (u.length + (x :: xs).length)]) u.length =
      some (ucLineOf lunaUcType (s.length + 1) a b nonspace base before next) := by
    rw [hlen, boundaries, ← hbdef, append_assoc, cons_append, length_cons,
      show s.length + 1 + (xs.length + 1) = s.length + 2 + xs.length by omega]
    exact ucLine_eq hnonspace hbase hbefore hnext
  rw [hread]
  -- the characters of both sides after LB1
  set c := (chr ucBreakProperty lunaUcType y.2).resolve with hcdef
  have hcu : chars ucBreakProperty lunaUcType u = chars ucBreakProperty lunaUcType u' ++ [c] := by simp [hu, chars, hcdef]
  have hc : ∀ X ∈ [Lb.bk, .cr, .lf, .nl, .zwj], c.lb = X ↔ a.raw = X := by
    intro X hX
    rw [hcdef, resolve_lb, hraw]
    exact resolved_iff _ _ X (by revert X; decide)
  have hleft :
      (u.map fun x => chr ucBreakProperty lunaUcType x.2).map Chr.resolve = chars ucBreakProperty lunaUcType u := by
    simp [chars]
  have hright : ((x :: xs).map fun x => chr ucBreakProperty lunaUcType x.2).map Chr.resolve =
      chars ucBreakProperty lunaUcType (x :: xs) := by simp [chars]
  rw [hcu] at htracks
  have hfirst :=
    @Tracks.decides_first ucBreakProperty lunaUcType _ _ _ _ _ htracks hc hnonspace x (chars ucBreakProperty lunaUcType xs)
  rw [← hcu] at htracks hfirst
  have hsomeIff : Some lineRulesFirst (chars ucBreakProperty lunaUcType u) (chars ucBreakProperty lunaUcType (x :: xs)) ↔ _ :=
    (hfirst allowed).2
  -- the verdict of the other rules, where none of the first applies
  obtain ⟨dd, hdd⟩ : ∃ dd, ¬ Some lineRulesFirst (chars ucBreakProperty lunaUcType u)
      (chars ucBreakProperty lunaUcType (x :: xs)) →
      Decides lineRules (treat none (chars ucBreakProperty lunaUcType u))
        (treat none (chars ucBreakProperty lunaUcType (x :: xs))) dd ∧
      ucLineOf lunaUcType (s.length + 1) a b nonspace base before next = dd.bits := by
    by_cases hsome : Some lineRulesFirst (chars ucBreakProperty lunaUcType u) (chars ucBreakProperty lunaUcType (x :: xs))
    · exact ⟨allowed, fun hno => absurd hsome hno⟩
    · have hnot := hsome
      rw [hsomeIff] at hnot
      simp only [not_or] at hnot
      obtain ⟨hbk, hcrlf, ⟨hcr, hlf, hnl⟩, ⟨hraw4, hsp, hzw⟩, hns, hzwj, hown⟩ := hnot
      have hown : b.base = s.length + 1 := by simpa using hown
      obtain ⟨c', htreat, hlb, hwide⟩ := following_own (q := a) (by have := htracks.base_le; omega) hown xs
      have hview := htracks.view hnonspace hbase hbefore htreat hlb hwide hnu
      have hhard : ¬ ucHard a.raw = true := by
        rw [ucHard_iff]
        exact not_or.2 ⟨hbk, not_or.2 ⟨hcr, not_or.2 ⟨hlf, hnl⟩⟩⟩
      have hplain : ¬ (ucHard b.raw = true ∨ b.lb = .sp ∨ b.lb = .zw) := by
        rw [ucHard_iff]
        simp only [not_or]
        exact ⟨hraw4, hsp, hzw⟩
      obtain ⟨d, hd, hbits⟩ := hview.decides hcrlf hhard hplain hns hzwj hown
      exact ⟨d, fun _ => ⟨hd, hbits⟩⟩
  have hdec : Decides (lineRulesFirst ++ [⟨⊤, ⊤, dd⟩]) (chars ucBreakProperty lunaUcType u)
    (chars ucBreakProperty lunaUcType (x :: xs)) _ := (hfirst dd).1
  rcases decides_or_last hdec with hd | ⟨hno, -⟩
  · refine ⟨_, .inl (by rw [hleft, hright]; exact hd), congrArg some ?_⟩
    exact ucLineOf_first dd (hsomeIff.1 hd.some)
  · obtain ⟨hd, hbits⟩ := hdd hno
    exact ⟨dd, .inr ⟨by rw [hleft, hright]; exact hno, by rw [hleft, hright]; exact hd⟩, congrArg some hbits⟩

end

end Lunaria.Breaks
