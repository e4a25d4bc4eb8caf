import Lunaria.Regex.Class
import Mathlib.Order.Interval.Set.Basic

/-! The sets that lists of ranges stand for, and what the operations of `dvm/regex.c` on them do to the sets. -/

namespace Lunaria.Regex
open List

/-- A code point is in one of the ranges. -/
def Covers (rs : List (Nat × Nat)) (cp : Nat) : Prop := ∃ r ∈ rs, r.1 ≤ cp ∧ cp ≤ r.2

section
variable {rs as bs : List (Nat × Nat)} {r w a b : Nat × Nat} {cp lo hi next : Nat} {c dst src : Cls}

theorem covers_nil : ¬ Covers [] cp := by
  rintro ⟨r, hr, -⟩
  cases hr

theorem covers_cons : Covers (r :: rs) cp ↔ (r.1 ≤ cp ∧ cp ≤ r.2) ∨ Covers rs cp := by
  constructor
  · rintro ⟨s, hs, hcp⟩
    rcases mem_cons.1 hs with rfl | hs
    · exact .inl hcp
    · exact .inr ⟨s, hs, hcp⟩
  · rintro (hcp | ⟨s, hs, hcp⟩)
    · exact ⟨r, mem_cons_self, hcp⟩
    · exact ⟨s, mem_cons_of_mem _ hs, hcp⟩

theorem covers_append : Covers (as ++ bs) cp ↔ Covers as cp ∨ Covers bs cp := by
  induction as with
  | nil => simp [covers_nil]
  | cons a as ih => rw [cons_append, covers_cons, covers_cons, ih, or_assoc]

theorem covers_single (p : Prop) [Decidable p] : Covers (if p then [(lo, hi)] else []) cp ↔ p ∧ lo ≤ cp ∧ cp ≤ hi := by
  split_ifs with hp
  · simp [covers_cons, covers_nil, hp]
  · simp [covers_nil, hp]

theorem Covers.perm (h : as.Perm bs) : Covers as cp ↔ Covers bs cp := by
  simp only [Covers, h.mem_iff]

theorem clsHas_iff : clsHas c cp = true ↔ Covers c.ranges cp := by
  simp [clsHas, Covers]

theorem Covers.le_of_sorted (h : (w :: rs).Pairwise clsCmp) (hcp : Covers rs cp) : w.1 ≤ cp := by
  obtain ⟨r, hr, hle, -⟩ := hcp
  exact (rel_of_pairwise_cons h hr).trans hle

/-! ### The operations -/

theorem pairwise_merged (h : (w :: r :: rs).Pairwise clsCmp) (hi : Nat) : ((w.1, hi) :: rs).Pairwise clsCmp := by
  obtain ⟨hw, hrs⟩ := pairwise_cons.1 h
  exact pairwise_cons.2 ⟨fun s hs => hw s (mem_cons_of_mem _ hs), (pairwise_cons.1 hrs).2⟩

theorem covers_mergeRanges : ∀ {rs : List (Nat × Nat)} {w : Nat × Nat}, (w :: rs).Pairwise clsCmp →
    (Covers (mergeRanges w rs) cp ↔ Covers (w :: rs) cp)
  | [], _, _ => Iff.rfl
  | r :: rs, w, h => by
    obtain ⟨hw, hrs⟩ := pairwise_cons.1 h
    have hwr : w.1 ≤ r.1 := hw r mem_cons_self
    rw [mergeRanges, covers_cons, covers_cons]
    by_cases hnear : r.1 ≤ (w.2 + 1) % 2 ^ 32
    · have hle : r.1 ≤ w.2 + 1 := hnear.trans (Nat.mod_le _ _)
      rw [if_pos hnear, covers_mergeRanges (pairwise_merged h _), covers_cons, ← or_assoc]
      refine or_congr_left ?_
      split_ifs <;> omega
    · rw [if_neg hnear, covers_cons, covers_mergeRanges hrs, covers_cons]

theorem sorted_mergeRanges : ∀ {rs : List (Nat × Nat)} {w : Nat × Nat}, (w :: rs).Pairwise clsCmp →
    (mergeRanges w rs).Pairwise clsCmp ∧ ∀ s ∈ mergeRanges w rs, w.1 ≤ s.1
  | [], w, _ => ⟨pairwise_singleton _ _, fun s hs => by rw [mem_singleton.1 hs]⟩
  | r :: rs, w, h => by
    obtain ⟨hw, hrs⟩ := pairwise_cons.1 h
    have hwr : w.1 ≤ r.1 := hw r mem_cons_self
    rw [mergeRanges]
    by_cases hnear : r.1 ≤ (w.2 + 1) % 2 ^ 32
    · rw [if_pos hnear]
      exact sorted_mergeRanges (pairwise_merged h _)
    · rw [if_neg hnear]
      obtain ⟨hsorted, hlow⟩ := sorted_mergeRanges hrs
      refine ⟨pairwise_cons.2 ⟨fun s hs => hwr.trans (hlow s hs), hsorted⟩, fun s hs => ?_⟩
      rcases mem_cons.1 hs with rfl | hs
      · exact le_rfl
      · exact hwr.trans (hlow s hs)

instance : Std.Total clsCmp := ⟨fun x y => Nat.le_total x.1 y.1⟩

instance : IsTrans (Nat × Nat) clsCmp := ⟨fun _ _ _ h h' => Nat.le_trans h h'⟩

theorem clsNormalize_spec : (clsNormalize c).ranges.Pairwise clsCmp ∧
    ∀ cp, Covers (clsNormalize c).ranges cp ↔ Covers c.ranges cp := by
  rw [clsNormalize]
  split_ifs with hshort
  · refine ⟨?_, fun _ => Iff.rfl⟩
    match hc : c.ranges, hshort with
    | [], _ => exact List.Pairwise.nil
    | [r], _ => exact pairwise_singleton _ _
    | _ :: _ :: rs, h => exact absurd h (by simp)
  · have hsorted := pairwise_insertionSort clsCmp c.ranges
    have hperm := perm_insertionSort clsCmp c.ranges
    generalize c.ranges.insertionSort clsCmp = rs at hsorted hperm
    cases rs with
    | nil => exact ⟨List.Pairwise.nil, fun cp => Covers.perm hperm⟩
    | cons r rs => exact ⟨(sorted_mergeRanges hsorted).1, fun cp => (covers_mergeRanges hsorted).trans (Covers.perm hperm)⟩

theorem covers_gaps (hcp : cp ≤ rxCpMax) : ∀ {rs : List (Nat × Nat)} {next : Nat}, rs.Pairwise clsCmp →
    (Covers (gaps next rs) cp ↔ next ≤ cp ∧ ¬ Covers rs cp)
  | [], next, _ => by
    rw [gaps, covers_single]
    simp only [covers_nil, not_false_iff, and_true]
    omega
  | r :: rs, next, h => by
    have hlow : Covers rs cp → r.1 ≤ cp := Covers.le_of_sorted h
    rw [gaps, covers_append, covers_single, covers_cons]
    by_cases hlast : rxCpMax ≤ r.2
    · rw [if_pos hlast]
      simp only [covers_nil, or_false]
      by_cases hrs : Covers rs cp
      · have := hlow hrs
        simp only [hrs, or_true, not_true_eq_false, and_false, iff_false]
        omega
      · simp only [hrs, or_false]
        omega
    · have hwrap : (r.2 + 1) % 2 ^ 32 = r.2 + 1 := Nat.mod_eq_of_lt (by unfold rxCpMax at hlast; omega)
      rw [if_neg hlast, hwrap, covers_gaps hcp (pairwise_cons.1 h).2]
      by_cases hrs : Covers rs cp
      · have := hlow hrs
        simp only [hrs, or_true, not_true_eq_false, and_false, iff_false, or_false]
        omega
      · simp only [hrs, or_false, not_false_iff, and_true]
        split_ifs <;> omega

theorem has_complement (hcp : cp ≤ rxCpMax) : clsHas (clsComplement c) cp = !clsHas c cp := by
  rw [Bool.eq_iff_iff, Bool.not_eq_true', ← Bool.not_eq_true, clsHas_iff, clsHas_iff]
  exact (covers_gaps hcp clsNormalize_spec.1).trans (by simp [clsNormalize_spec.2])

/-- What a class stands for without folding is what a union or an intersection takes from it. -/
theorem has_positive (hcp : cp ≤ rxCpMax) : clsHas (clsPositive c) cp = clsTest c cp false := by
  rw [clsPositive, clsTest]
  by_cases hneg : c.negate = true
  · rw [if_pos hneg, Bool.false_and, Bool.or_false, if_pos hneg]
    exact has_complement hcp
  · rw [if_neg hneg, Bool.false_and, Bool.or_false, if_neg hneg]

theorem has_add : clsHas (clsAdd c lo hi) cp = true ↔ clsHas c cp = true ∨ min lo hi ≤ cp ∧ cp ≤ max lo hi := by
  rw [clsHas_iff, clsHas_iff, clsAdd, covers_append, covers_cons]
  simp only [covers_nil, or_false]
  split_ifs with h
  · rw [min_eq_right h.le, max_eq_left h.le]
  · rw [min_eq_left (Nat.le_of_not_lt h), max_eq_right (Nat.le_of_not_lt h)]

theorem has_addAll : clsHas (rs.foldl (fun c r => clsAdd c r.1 r.2) c) cp = true ↔
    clsHas c cp = true ∨ ∃ r ∈ rs, min r.1 r.2 ≤ cp ∧ cp ≤ max r.1 r.2 := by
  induction rs generalizing c with
  | nil => simp
  | cons r rs ih => rw [foldl_cons, ih, has_add, or_assoc, exists_mem_cons_iff]

theorem covers_meetRanges {as bs : List (Nat × Nat)} (ha : as.Pairwise clsCmp) (hb : bs.Pairwise clsCmp) :
    Covers (meetRanges as bs) cp ↔ Covers as cp ∧ Covers bs cp := by
  fun_induction meetRanges as bs with
  | case1 bs => simp [covers_nil]
  | case2 a as => simp [covers_nil]
  | case3 a as b bs lo hi ih ih' =>
    rw [covers_append, covers_single]
    have hpiece : lo ≤ hi ∧ lo ≤ cp ∧ cp ≤ hi ↔ (a.1 ≤ cp ∧ cp ≤ a.2) ∧ (b.1 ≤ cp ∧ cp ≤ b.2) := by
      unfold lo hi
      split_ifs <;> omega
    have hlowa : Covers as cp → a.1 ≤ cp := Covers.le_of_sorted ha
    have hlowb : Covers bs cp → b.1 ≤ cp := Covers.le_of_sorted hb
    rw [hpiece]
    split_ifs with hlt
    · rw [ih (pairwise_cons.1 ha).2 hb, covers_cons (r := a), covers_cons (r := b)]
      -- what the rest of `bs` has in common with `a` lies before the end of `b` too
      have hcommon : a.1 ≤ cp ∧ cp ≤ a.2 → Covers bs cp → b.1 ≤ cp ∧ cp ≤ b.2 := fun h hbs => ⟨hlowb hbs, by omega⟩
      constructor
      · rintro (⟨hin, hin'⟩ | ⟨has, h⟩)
        · exact ⟨.inl hin, .inl hin'⟩
        · exact ⟨.inr has, h⟩
      · rintro ⟨hin | has, h⟩
        · exact .inl ⟨hin, h.elim id (hcommon hin)⟩
        · exact .inr ⟨has, h⟩
    · rw [ih' ha (pairwise_cons.1 hb).2, covers_cons (r := a), covers_cons (r := b)]
      have hcommon : b.1 ≤ cp ∧ cp ≤ b.2 → Covers as cp → a.1 ≤ cp ∧ cp ≤ a.2 := fun h has => ⟨hlowa has, by omega⟩
      constructor
      · rintro (⟨hin, hin'⟩ | ⟨h, hbs⟩)
        · exact ⟨.inl hin, .inl hin'⟩
        · exact ⟨h, .inr hbs⟩
      · rintro ⟨h, hin | hbs⟩
        · exact .inl ⟨h.elim id (hcommon hin), hin⟩
        · exact .inr ⟨h, hbs⟩

/-! ### Ranges that start before they end -/

def Proper (rs : List (Nat × Nat)) : Prop := ∀ r ∈ rs, r.1 ≤ r.2

theorem proper_append (ha : Proper as) (hb : Proper bs) : Proper (as ++ bs) := fun r hr =>
  (mem_append.1 hr).elim (ha r) (hb r)

theorem proper_single {p : Prop} [Decidable p] (h : p → lo ≤ hi) : Proper (if p then [(lo, hi)] else []) := by
  split_ifs with hp
  · intro r hr
    rw [mem_singleton.1 hr]
    exact h hp
  · exact fun r hr => absurd hr not_mem_nil

theorem proper_add (h : Proper c.ranges) : Proper (clsAdd c lo hi).ranges := by
  refine proper_append h fun r hr => ?_
  rw [mem_singleton.1 hr]
  split_ifs <;> dsimp only <;> omega

theorem proper_addAll (h : Proper c.ranges) : Proper (rs.foldl (fun c r => clsAdd c r.1 r.2) c).ranges := by
  induction rs generalizing c with
  | nil => exact h
  | cons r rs ih => exact ih (proper_add h)

theorem proper_mergeRanges : ∀ {rs : List (Nat × Nat)} {w : Nat × Nat}, w.1 ≤ w.2 → Proper rs → Proper (mergeRanges w rs)
  | [], w, hw, _ => fun r hr => by rwa [mem_singleton.1 hr]
  | r :: rs, w, hw, h => by
    have hrs : Proper rs := fun s hs => h s (mem_cons_of_mem _ hs)
    rw [mergeRanges]
    split_ifs
    · exact proper_mergeRanges (by dsimp only; omega) hrs
    · exact proper_mergeRanges hw hrs
    · intro s hs
      rcases mem_cons.1 hs with rfl | hs
      · exact hw
      · exact proper_mergeRanges (h r mem_cons_self) hrs s hs

theorem proper_normalize (h : Proper c.ranges) : Proper (clsNormalize c).ranges := by
  rw [clsNormalize]
  split_ifs
  · exact h
  · have hsorted : Proper (c.ranges.insertionSort clsCmp) := fun r hr => h r ((mem_insertionSort clsCmp).1 hr)
    generalize c.ranges.insertionSort clsCmp = rs at hsorted
    cases rs with
    | nil => exact hsorted
    | cons r rs => exact proper_mergeRanges (hsorted r mem_cons_self) fun s hs => hsorted s (mem_cons_of_mem _ hs)

theorem proper_gaps : ∀ {rs : List (Nat × Nat)} {next : Nat}, Proper (gaps next rs)
  | [], _ => proper_single id
  | r :: rs, next => by
    refine proper_append (proper_single fun h => by omega) ?_
    split_ifs
    · exact fun s hs => absurd hs not_mem_nil
    · exact proper_gaps
    · exact proper_gaps

theorem proper_positive (h : Proper c.ranges) : Proper (clsPositive c).ranges := by
  rw [clsPositive]
  split_ifs
  · exact proper_gaps
  · exact h

theorem proper_union (h : Proper dst.ranges) : Proper (clsUnion dst src).ranges := proper_addAll h

theorem proper_meetRanges {as bs : List (Nat × Nat)} : Proper (meetRanges as bs) := by
  fun_induction meetRanges as bs with
  | case1 bs => exact fun s hs => absurd hs not_mem_nil
  | case2 a as => exact fun s hs => absurd hs not_mem_nil
  | case3 a as b bs lo hi ih ih' =>
    refine proper_append (proper_single id) ?_
    split_ifs
    · exact ih
    · exact ih'

/-! ### Sets -/

theorem has_union (hcp : cp ≤ rxCpMax) (h : Proper src.ranges) :
    clsHas (clsUnion dst src) cp = true ↔ clsHas dst cp = true ∨ clsTest src cp false = true := by
  rw [clsUnion, has_addAll, ← has_positive hcp, clsHas_iff, clsHas_iff, Covers, Covers]
  refine or_congr_right (exists_congr fun r => and_congr_right fun hr => ?_)
  have hle := proper_positive h r hr
  rw [min_eq_left hle, max_eq_right hle]

theorem has_intersect (hcp : cp ≤ rxCpMax) :
    clsHas (clsIntersect dst src) cp = true ↔ clsHas dst cp = true ∧ clsTest src cp false = true := by
  rw [← has_positive hcp, clsHas_iff, clsHas_iff, clsHas_iff, clsIntersect,
    covers_meetRanges clsNormalize_spec.1 clsNormalize_spec.1, clsNormalize_spec.2, clsNormalize_spec.2]

theorem has_normalize : clsHas (clsNormalize c) cp = clsHas c cp := by
  rw [Bool.eq_iff_iff, clsHas_iff, clsHas_iff, clsNormalize_spec.2]

theorem test_eq_has (h : c.negate = false) : clsTest c cp false = clsHas c cp := by
  simp [clsTest, h]

/-- Folding the case of a code point leads to members and non-members alike. -/
def FoldClosed (s : Set Nat) : Prop := ∀ cp ≤ rxCpMax, (rxLower cp ∈ s ↔ cp ∈ s) ∧ (rxUpper cp ∈ s ↔ cp ∈ s)

theorem rxLower_le (h : cp ≤ rxCpMax) : rxLower cp ≤ rxCpMax := by
  unfold rxCpMax at *
  unfold rxLower
  split_ifs <;> omega

theorem rxUpper_le (h : cp ≤ rxCpMax) : rxUpper cp ≤ rxCpMax := by
  unfold rxCpMax at *
  unfold rxUpper
  split_ifs <;> omega

/-- A class in brackets of its own. -/
def bracketed (c : Cls) : Cls := { clsNormalize (clsUnion ⟨[], false⟩ c) with negate := false }

theorem has_bracketed (hcp : cp ≤ rxCpMax) (h : Proper c.ranges) : clsHas (bracketed c) cp = clsTest c cp false := by
  have hhas : clsHas (bracketed c) cp = clsHas (clsUnion ⟨[], false⟩ c) cp := has_normalize
  rw [hhas, Bool.eq_iff_iff, has_union hcp h]
  simp [clsHas]

/-- Brackets do not change a class, unless case is ignored, the class is negated, and folding leaves the set it is the
    complement of: the brackets take the complement before the folding. -/
theorem bracketed_same_iff {icase : Bool} (h : Proper c.ranges) :
    (∀ cp ≤ rxCpMax, clsTest (bracketed c) cp icase = clsTest c cp icase) ↔
      (icase = true → c.negate = true → FoldClosed {cp | clsHas c cp = true}) := by
  have hbracketed : ∀ cp ≤ rxCpMax, clsTest (bracketed c) cp icase = (clsTest c cp false ||
      (icase && (clsTest c (rxLower cp) false || clsTest c (rxUpper cp) false))) := fun cp hcp => by
    have htest : clsTest (bracketed c) cp icase = (clsHas (bracketed c) cp ||
      (icase && (clsHas (bracketed c) (rxLower cp) || clsHas (bracketed c) (rxUpper cp)))) := rfl
    rw [htest, has_bracketed hcp h, has_bracketed (rxLower_le hcp) h, has_bracketed (rxUpper_le hcp) h]
  cases icase with
  | false => simp +contextual [hbracketed]
  | true =>
    cases hneg : c.negate with
    | false =>
      refine iff_of_true (fun cp hcp => ?_) fun _ h => nomatch h
      rw [hbracketed cp hcp]
      simp [clsTest, hneg]
    | true =>
      simp only [true_imp_iff, FoldClosed, Set.mem_ofPred_eq]
      refine forall₂_congr fun cp hcp => ?_
      rw [hbracketed cp hcp]
      simp only [clsTest, hneg]
      cases clsHas c cp <;> cases clsHas c (rxLower cp) <;> cases clsHas c (rxUpper cp) <;> simp

end

end Lunaria.Regex
