import Lunaria.Regex.ClassSets

/-! What a character class in a pattern means. A class expression is a union of terms and the operands of `&&` after it,
    perhaps negated; a pattern spells it out. The compiler builds the class of its set, except where an operand begins
    with a bracket and goes on after it: that it refuses. -/

namespace Lunaria.Regex

mutual

inductive ClassExpr
  | mk (negate : Bool) (first : Terms) (rest : Operands)

/-- The terms of a union. A class escape is given with what it matches alone. -/
inductive Terms
  | nil
  | char (cp : Nat) (rest : Terms)
  | range (lo hi : Nat) (le : lo ≤ hi) (rest : Terms)
  | esc (sub : Cls) (proper : Proper sub.ranges) (rest : Terms)
  | nested (e : ClassExpr) (rest : Terms)

/-- The operands after the first; `mixed` is one that begins with a bracket and goes on after it. -/
inductive Operands
  | nil
  | nested (e : ClassExpr) (rest : Operands)
  | union (u : Terms) (rest : Operands)
  | mixed (e : ClassExpr) (u : Terms) (rest : Operands)

end

/-! ### Sets -/

mutual

def ClassExpr.denote : ClassExpr → Set Nat
  | .mk negate first rest => if negate then (first.denote ∩ rest.denote)ᶜ else first.denote ∩ rest.denote

def Terms.denote : Terms → Set Nat
  | .nil => ∅
  | .char cp rest => {cp} ∪ rest.denote
  | .range lo hi _ rest => Set.Icc lo hi ∪ rest.denote
  | .esc sub _ rest => {cp | clsTest sub cp false = true} ∪ rest.denote
  | .nested e rest => e.denote ∪ rest.denote

def Operands.denote : Operands → Set Nat
  | .nil => Set.univ
  | .nested e rest => e.denote ∩ rest.denote
  | .union u rest => u.denote ∩ rest.denote
  | .mixed e u rest => (e.denote ∪ u.denote) ∩ rest.denote

end

namespace ClassExpr

def negate : ClassExpr → Bool
  | mk negate _ _ => negate

/-- The set before a negation. -/
def body : ClassExpr → Set Nat
  | mk _ first rest => first.denote ∩ rest.denote

/-- The expression in one more pair of brackets. -/
def wrap (e : ClassExpr) : ClassExpr := mk false (.nested e .nil) .nil

end ClassExpr

mutual

/-- No operand begins with a bracket and goes on after it. -/
def ClassExpr.plain : ClassExpr → Bool
  | .mk _ first rest => first.plain && rest.plain

def Terms.plain : Terms → Bool
  | .nil => true
  | .char _ rest | .range _ _ _ rest | .esc _ _ rest => rest.plain
  | .nested e rest => e.plain && rest.plain

def Operands.plain : Operands → Bool
  | .nil => true
  | .nested e rest => e.plain && rest.plain
  | .union u rest => u.plain && rest.plain
  | .mixed _ _ _ => false

end

/-! ### The class that is built -/

mutual

def ClassExpr.build : ClassExpr → Cls
  | .mk negate first rest => { clsNormalize (rest.build (first.build ⟨[], false⟩)) with negate := negate }

def Terms.build : Terms → Cls → Cls
  | .nil, c => c
  | .char cp rest, c => rest.build (clsAdd c cp cp)
  | .range lo hi _ rest, c => rest.build (clsAdd c lo hi)
  | .esc sub _ rest, c => rest.build (clsUnion c sub)
  | .nested e rest, c => rest.build (clsUnion c e.build)

def Operands.build : Operands → Cls → Cls
  | .nil, c => c
  | .nested e rest, c => rest.build (clsIntersect c e.build)
  | .union u rest, c => rest.build (clsIntersect c (u.build ⟨[], false⟩))
  | .mixed _ _ _, c => c

end

theorem ClassExpr.denote_eq (e : ClassExpr) : e.denote = if e.negate then e.bodyᶜ else e.body := by
  cases e
  rfl

theorem negate_union {dst src : Cls} : (clsUnion dst src).negate = dst.negate := by
  rw [clsUnion]
  generalize (clsPositive src).ranges = rs
  induction rs generalizing dst with
  | nil => rfl
  | cons r rs ih => exact ih

theorem test_of_body {e : ClassExpr} {cp : Nat} (h : clsHas e.build cp = true ↔ cp ∈ e.body) :
    clsTest e.build cp false = true ↔ cp ∈ e.denote := by
  have hneg : e.build.negate = e.negate := by
    cases e
    rw [ClassExpr.build]
    rfl
  rw [ClassExpr.denote_eq, clsTest, hneg, Bool.false_and, Bool.or_false]
  cases e.negate with
  | false => exact h
  | true => simpa using not_congr h

mutual

/-- What is built for an expression has the members of its set. -/
theorem ClassExpr.build_spec {cp : Nat} (hcp : cp ≤ rxCpMax) : ∀ e : ClassExpr,
    e.plain = true → (clsHas e.build cp = true ↔ cp ∈ e.body) ∧ Proper e.build.ranges
  | .mk negate first rest, h => by
    rw [ClassExpr.plain, Bool.and_eq_true] at h
    obtain ⟨hfirst, hproper, -⟩ := first.build_spec hcp h.1 ⟨[], false⟩ (fun r hr => absurd hr List.not_mem_nil) rfl
    obtain ⟨hrest, hproper'⟩ := rest.build_spec hcp h.2 _ hproper
    refine ⟨?_, proper_normalize hproper'⟩
    have hhas : clsHas (ClassExpr.mk negate first rest).build cp =
        clsHas (clsNormalize (rest.build (first.build ⟨[], false⟩))) cp := by rw [ClassExpr.build]; rfl
    rw [hhas, has_normalize, hrest, hfirst]
    simp [clsHas, ClassExpr.body]

theorem Terms.build_spec {cp : Nat} (hcp : cp ≤ rxCpMax) : ∀ u : Terms, u.plain = true →
    ∀ c : Cls, Proper c.ranges → c.negate = false → (clsHas (u.build c) cp = true ↔ clsHas c cp = true ∨ cp ∈ u.denote) ∧
      Proper (u.build c).ranges ∧ (u.build c).negate = false
  | .nil, _, c, hc, hneg => by
    rw [Terms.build, Terms.denote]
    exact ⟨by simp, hc, hneg⟩
  | .char x rest, h, c, hc, hneg => by
    rw [Terms.plain] at h
    obtain ⟨hhas, hspec⟩ := rest.build_spec hcp h (clsAdd c x x) (proper_add hc) hneg
    rw [Terms.build, Terms.denote]
    refine ⟨?_, hspec⟩
    rw [hhas, has_add, or_assoc, Set.mem_union, Set.mem_singleton_iff, min_self, max_self]
    refine or_congr_right (or_congr_left ?_)
    omega
  | .range lo hi le rest, h, c, hc, hneg => by
    rw [Terms.plain] at h
    obtain ⟨hhas, hspec⟩ := rest.build_spec hcp h (clsAdd c lo hi) (proper_add hc) hneg
    rw [Terms.build, Terms.denote]
    refine ⟨?_, hspec⟩
    rw [hhas, has_add, or_assoc, Set.mem_union, Set.mem_Icc, min_eq_left le, max_eq_right le]
  | .esc sub proper rest, h, c, hc, hneg => by
    rw [Terms.plain] at h
    obtain ⟨hhas, hspec⟩ := rest.build_spec hcp h (clsUnion c sub) (proper_union hc) (negate_union.trans hneg)
    rw [Terms.build, Terms.denote]
    refine ⟨?_, hspec⟩
    rw [hhas, has_union hcp proper, or_assoc]
    rfl
  | .nested e rest, h, c, hc, hneg => by
    rw [Terms.plain, Bool.and_eq_true] at h
    obtain ⟨hbody, hproper⟩ := e.build_spec hcp h.1
    obtain ⟨hhas, hspec⟩ := rest.build_spec hcp h.2 (clsUnion c e.build) (proper_union hc) (negate_union.trans hneg)
    rw [Terms.build, Terms.denote]
    refine ⟨?_, hspec⟩
    rw [hhas, has_union hcp hproper, or_assoc, test_of_body hbody]
    rfl

theorem Operands.build_spec {cp : Nat} (hcp : cp ≤ rxCpMax) : ∀ ops : Operands, ops.plain = true →
    ∀ c : Cls, Proper c.ranges → (clsHas (ops.build c) cp = true ↔ clsHas c cp = true ∧ cp ∈ ops.denote) ∧
      Proper (ops.build c).ranges
  | .nil, _, c, hc => by
    rw [Operands.build, Operands.denote]
    exact ⟨by simp, hc⟩
  | .nested e rest, h, c, hc => by
    rw [Operands.plain, Bool.and_eq_true] at h
    obtain ⟨hbody, -⟩ := e.build_spec hcp h.1
    obtain ⟨hhas, hspec⟩ := rest.build_spec hcp h.2 (clsIntersect c e.build) proper_meetRanges
    rw [Operands.build, Operands.denote]
    refine ⟨?_, hspec⟩
    rw [hhas, has_intersect hcp, and_assoc, test_of_body hbody]
    rfl
  | .union u rest, h, c, hc => by
    rw [Operands.plain, Bool.and_eq_true] at h
    obtain ⟨hterms, -, hneg⟩ := u.build_spec hcp h.1 ⟨[], false⟩ (fun r hr => absurd hr List.not_mem_nil) rfl
    obtain ⟨hhas, hspec⟩ := rest.build_spec hcp h.2 (clsIntersect c (u.build ⟨[], false⟩)) proper_meetRanges
    rw [Operands.build, Operands.denote]
    refine ⟨?_, hspec⟩
    rw [hhas, has_intersect hcp, and_assoc, test_eq_has hneg, hterms]
    simp [clsHas]
  | .mixed _ _ _, h, _, _ => by simp [Operands.plain] at h

end

end Lunaria.Regex
