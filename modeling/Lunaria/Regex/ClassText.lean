import Mathlib
import Lunaria.Regex.ClassMeans

/-! How a pattern spells a class expression, and what the compiler makes of it. -/

namespace Lunaria.Regex

open Nat

section
variable (src : List UInt8) (flags : Flags)

mutual

/-- The expression stands at a place of the pattern, brackets included; the place after it. A dash between a character and a
    class escape is not read as anything, as in Java. -/
inductive SpellsClass : ClassExpr → Nat → Nat → Prop
  | mk {negate : Bool} {first : Terms} {rest : Operands} {p q r : Nat} :
      peek src p = 0x5b → negate = decide (peek src (p + 1) = 0x5e) →
      SpellsTerms true first (if negate then p + 2 else p + 1) q → SpellsOperands rest q r → peek src r = 0x5d →
      SpellsClass (.mk negate first rest) p (r + 1)

inductive SpellsTerms : Bool → Terms → Nat → Nat → Prop
  | nil {isFirst : Bool} {p q : Nat} :
      q = skipX src flags p → ¬ atEnd src q = true → termsEnd src isFirst q = true → SpellsTerms isFirst .nil p q
  | nested {isFirst : Bool} {e : ClassExpr} {rest : Terms} {p q r s : Nat} :
      q = skipX src flags p → ¬ atEnd src q = true → ¬ termsEnd src isFirst q = true → byteAt src q = 0x5b →
      SpellsClass e q r → SpellsTerms false rest r s → SpellsTerms isFirst (.nested e rest) p s
  | esc {isFirst : Bool} {sub : Cls} {proper : Proper sub.ranges} {rest : Terms} {p q r s : Nat} :
      q = skipX src flags p → ¬ atEnd src q = true → ¬ termsEnd src isFirst q = true → byteAt src q ≠ 0x5b →
      classTerm src q = .ok (.inl sub, r) → SpellsTerms false rest r s → SpellsTerms isFirst (.esc sub proper rest) p s
  | char {isFirst : Bool} {cp : Nat} {rest : Terms} {p q r s : Nat} :
      q = skipX src flags p → ¬ atEnd src q = true → ¬ termsEnd src isFirst q = true → byteAt src q ≠ 0x5b →
      classTerm src q = .ok (.inr cp, r) → ¬ dashAt src r = true → SpellsTerms false rest r s →
      SpellsTerms isFirst (.char cp rest) p s
  | range {isFirst : Bool} {lo hi : Nat} {le : lo ≤ hi} {rest : Terms} {p q r r' s : Nat} :
      q = skipX src flags p → ¬ atEnd src q = true → ¬ termsEnd src isFirst q = true → byteAt src q ≠ 0x5b →
      classTerm src q = .ok (.inr lo, r) → dashAt src r = true → classTerm src (r + 1) = .ok (.inr hi, r') →
      SpellsTerms false rest r' s → SpellsTerms isFirst (.range lo hi le rest) p s

inductive SpellsOperands : Operands → Nat → Nat → Prop
  | nil {p : Nat} : ¬ intersectAt src p = true → SpellsOperands .nil p p
  | nested {e : ClassExpr} {rest : Operands} {p q r : Nat} :
      intersectAt src p = true → peek src (p + 2) = 0x5b → SpellsClass e (p + 2) q → SpellsOperands rest q r →
      SpellsOperands (.nested e rest) p r
  | union {u : Terms} {rest : Operands} {p q r : Nat} :
      intersectAt src p = true → peek src (p + 2) ≠ 0x5b → SpellsTerms true u (p + 2) q → SpellsOperands rest q r →
      SpellsOperands (.union u rest) p r
  | mixed {e : ClassExpr} {u : Terms} {rest : Operands} {p q r s : Nat} :
      intersectAt src p = true → peek src (p + 2) = 0x5b → SpellsClass e (p + 2) q → SpellsTerms false u q r →
      (u = .nil → q ≠ r) → SpellsOperands rest r s → SpellsOperands (.mixed e u rest) p s

end

end

section
variable {src : List UInt8} {flags : Flags} {p q r : Nat} {α : Type} {P : α → Prop} {e : ClassExpr} {u : Terms}

/-! ### Places -/

theorem atEnd_iff : atEnd src p = true ↔ src.length ≤ p := by simp [atEnd]

theorem peek_eq (h : ¬ atEnd src p = true) : peek src p = byteAt src p := if_neg h

theorem lt_of_peek (h : peek src p ≠ 0) : p < src.length := by
  by_contra hge
  exact h (if_pos (atEnd_iff.2 (Nat.le_of_not_lt hge)))

theorem le_skipLoop : ∀ (fuel : Nat) (inComment : Bool) (p : Nat), p ≤ skipLoop src fuel inComment p
  | 0, _, p => Nat.le_refl p
  | fuel + 1, inComment, p => by
    rw [skipLoop]
    split_ifs
    · exact Nat.le_refl p
    · exact le_skipLoop fuel _ p
    · exact (le_succ p).trans (le_skipLoop fuel _ (p + 1))
    · exact (le_succ p).trans (le_skipLoop fuel _ (p + 1))
    · exact le_skipLoop fuel _ p
    · exact Nat.le_refl p

theorem le_skipX : p ≤ skipX src flags p := by
  rw [skipX]
  split_ifs
  · exact le_skipLoop _ _ p
  · exact Nat.le_refl p

/-- Only whitespace and comments are skipped. -/
theorem skipX_stays (h : isSpace (peek src p) = false) (hash : peek src p ≠ 0x23) : skipX src flags p = p := by
  rw [skipX]
  split_ifs
  · rw [skipLoop]
    by_cases hend : atEnd src p = true
    · rw [if_pos hend]
    · rw [peek_eq hend] at h hash
      rw [if_neg hend, if_neg Bool.false_ne_true, if_neg (by simp [h]), if_neg hash]
  · rfl

theorem pointAt_gt : p < (pointAt src p).2 := by
  have := rxU8_gt (src.drop p) (src.length - p) 0
  unfold pointAt
  dsimp only
  omega

theorem hexDigits_ge : ∀ {k v p : Nat} {w : Nat × Nat}, hexDigits src k v p = .ok w → p ≤ w.2
  | 0, _, _, _, h => by
    rw [hexDigits] at h
    cases h
    exact le_rfl
  | k + 1, v, p, w, h => by
    rw [hexDigits] at h
    split_ifs at h
    split at h
    · cases h
    · exact (le_succ p).trans (hexDigits_ge h)

theorem hexBraced_ge : ∀ {fuel v k p : Nat} {w : Nat × Nat × Nat}, hexBraced src fuel v k p = .ok w → p ≤ w.2.2
  | 0, _, _, _, _, h => by
    rw [hexBraced] at h
    cases h
    exact le_rfl
  | fuel + 1, v, k, p, w, h => by
    rw [hexBraced] at h
    split_ifs at h
    · cases h
      exact le_rfl
    · split at h
      · cases h
      · exact (le_succ p).trans (hexBraced_ge h)

theorem octDigits_ge : ∀ {k v p : Nat}, p ≤ (octDigits src k v p).2
  | 0, _, p => Nat.le_refl p
  | k + 1, v, p => by
    rw [octDigits]
    split_ifs
    · exact (le_succ p).trans octDigits_ge
    · exact Nat.le_refl p

theorem escUnicode_ge {w : Nat × Nat} (h : escUnicode src p = .ok w) : p ≤ w.2 := by
  rw [escUnicode] at h
  split at h
  · cases h
  · rename_i v q hv
    have hq : p ≤ q := hexDigits_ge hv
    split_ifs at h
    · split at h
      · cases h
        exact hq
      · rename_i lo q' hlo
        have hq' : q + 2 ≤ q' := hexDigits_ge hlo
        split_ifs at h
        · obtain rfl := Except.ok.inj h
          dsimp only
          omega
        · cases h
          exact hq
    · cases h
      exact hq

/-- What is read has a property. -/
def Yields {α : Type} (P : α → Prop) (m : Except RxError α) : Prop := ∀ w, m = .ok w → P w

theorem yields_ok {w : α} (h : P w) : Yields P (.ok w) := by
  intro w' hw
  cases hw
  exact h

theorem yields_error (e : RxError) : Yields P (.error e) := fun _ h => nomatch h

theorem Yields.ite {c : Prop} [Decidable c] {m m' : Except RxError α} (h : Yields P m)
    (h' : Yields P m') : Yields P (if c then m else m') := by
  split_ifs
  · exact h
  · exact h'

theorem hexBraced_gt : Yields (p < ·.2) (do
    let (v, k, q) ← hexBraced src src.length 0 0 (p + 2)
    if peek src q ≠ 0x7d then .error ⟨"Unclosed hexadecimal escape sequence", q⟩
    else if k = 0 then .error ⟨"Illegal hexadecimal escape sequence", q + 1⟩
    else .ok (v, q + 1)) := by
  cases hbraced : hexBraced src src.length 0 0 (p + 2) with
  | error e => exact yields_error e
  | ok w =>
    obtain ⟨v, k, q⟩ := w
    have hge : p + 2 ≤ q := hexBraced_ge hbraced
    exact .ite (yields_error _) (.ite (yields_error _) (yields_ok (by dsimp only; omega)))

theorem escChar_gt : Yields (p < ·.2) (escChar src p) := by
  have hone : ∀ v : Nat, Yields (p < ·.2) (.ok (v, p + 1)) := fun v => yields_ok (lt_succ_self p)
  rw [escChar]
  refine .ite (hone _) (.ite (hone _) (.ite (hone _) (.ite (hone _) (.ite (hone _) (.ite (hone _)
    (.ite ?octal (.ite (.ite hexBraced_gt ?hex) (.ite ?unicode (.ite ?control (yields_ok pointAt_gt))))))))))
  case octal =>
    have hge : p + 1 ≤ (octDigits src 3 0 (p + 1)).2 := octDigits_ge
    generalize octDigits src 3 0 (p + 1) = w at hge
    exact .ite (yields_error _) (yields_ok hge)
  case hex =>
    split
    · exact yields_error _
    · rename_i w hw
      exact yields_ok (hexDigits_ge hw)
  case unicode => exact fun w hw => escUnicode_ge hw
  case control => exact .ite (yields_error _) (yields_ok (by dsimp only; omega))

theorem le_familyEnd : ∀ {fuel p : Nat}, p ≤ familyEnd src fuel p
  | 0, p => Nat.le_refl p
  | fuel + 1, p => by
    rw [familyEnd]
    split_ifs
    · exact Nat.le_refl p
    · exact (le_succ p).trans le_familyEnd

theorem proper_predef {c : Cls} (h : Proper c.ranges) (which : Predef) : Proper (clsAddPredef c which).ranges := by
  cases which with
  | lower | upper | digit | ascii => exact proper_add h
  | xdigit | blank | word | number | space | separator | cntrl | other | punct | symbol | mark => exact proper_addAll h
  | alpha | letter => exact proper_union (proper_addAll h)
  | alnum => exact proper_add (proper_union (proper_addAll h))
  | graph | print => exact proper_union (proper_addAll (proper_add h))

theorem proper_nil : Proper [] := fun _ hr => absurd hr List.not_mem_nil

theorem escFamily_spec {negate : Bool} : Yields (fun w => Proper w.1.ranges ∧ p < w.2) (escFamily src negate p) := by
  have hge : p + 2 ≤ familyEnd src src.length (p + 2) := le_familyEnd
  rw [escFamily]
  refine .ite (.ite (yields_error _) (yields_ok ⟨?_, by dsimp only; omega⟩))
    (.ite (yields_error _) (yields_ok ⟨?_, by dsimp only; omega⟩))
  all_goals
    dsimp only
    split
    · exact proper_predef proper_nil _
    · exact proper_nil

theorem escClass_spec : Yields (fun w => ∀ x ∈ w, Proper x.1.ranges ∧ p < x.2) (escClass src p) := by
  have hsome : ∀ {c : Cls}, Proper c.ranges →
      Yields (fun w : Option (Cls × Nat) => ∀ x ∈ w, Proper x.1.ranges ∧ p < x.2) (.ok (some (c, p + 1))) := by
    intro c hc
    refine yields_ok fun x hx => ?_
    cases hx
    exact ⟨hc, lt_succ_self p⟩
  have hpredef := fun which negate => @hsome { clsAddPredef ⟨[], false⟩ which with negate := negate }
    (proper_predef proper_nil which)
  rw [escClass]
  refine .ite (hpredef _ _) (.ite (hpredef _ _) (.ite (hpredef _ _) (.ite (hpredef _ _) (.ite (hpredef _ _)
    (.ite (hpredef _ _) (.ite (hpredef _ _) (.ite (hpredef _ _) (.ite (hsome (proper_addAll proper_nil))
    (.ite ?family (yields_ok ?none))))))))))
  case family =>
    intro w hw x hx
    cases hfamily : escFamily src (peek src p = 0x50) p with
    | error e => simp [hfamily, Except.map] at hw
    | ok y =>
      rw [hfamily] at hw
      cases hw
      cases hx
      exact escFamily_spec _ hfamily
  case none => exact fun x hx => nomatch hx

theorem classTerm_spec : Yields (fun w => (∀ sub, w.1 = .inl sub → Proper sub.ranges) ∧ p < w.2) (classTerm src p) := by
  rw [classTerm]
  refine .ite ?_ (yields_ok ⟨fun _ h => (nomatch h), pointAt_gt⟩)
  cases hclass : escClass src (p + 1) with
  | error e => exact yields_error e
  | ok found =>
    cases found with
    | some x =>
      obtain ⟨hproper, hgt⟩ := escClass_spec _ hclass x rfl
      refine yields_ok ⟨fun sub h => ?_, by dsimp only; omega⟩
      cases h
      exact hproper
    | none =>
      cases hchar : escChar src (p + 1) with
      | error e => exact yields_error e
      | ok x =>
        have hgt : p + 1 < x.2 := escChar_gt x hchar
        exact yields_ok ⟨fun _ h => (nomatch h), by dsimp only; omega⟩

/-! ### What the compiler makes of it -/

def Comes {α : Type} (good : Bool) (a : α) (m : Except RxError α) : Prop :=
  if good then m = .ok a else ∃ e, m = .error e

/-- The same for the operands, which may also stop where no bracket closes the class. -/
def Stops (src : List UInt8) (good : Bool) (w : Cls × Nat) (m : Except RxError (Cls × Nat)) : Prop :=
  if good then m = .ok w else (∃ e, m = .error e) ∨ ∃ c q, m = .ok (c, q) ∧ peek src q ≠ 0x5d

theorem Comes.bind {α β : Type} {good good' : Bool} {a : α} {b : β} {m : Except RxError α} {f : α → Except RxError β}
    (h : Comes good a m) (h' : Comes good' b (f a)) : Comes (good && good') b (m >>= f) := by
  cases good with
  | true =>
    obtain rfl : m = .ok a := h
    exact h'
  | false =>
    obtain ⟨e, rfl⟩ : ∃ e, m = .error e := h
    exact ⟨e, rfl⟩

theorem Comes.stops {good good' : Bool} {a : α} {w : Cls × Nat} {m : Except RxError α}
    {f : α → Except RxError (Cls × Nat)} (h : Comes good a m) (h' : Stops src good' w (f a)) :
    Stops src (good && good') w (m >>= f) := by
  cases good with
  | true =>
    obtain rfl : m = .ok a := h
    exact h'
  | false =>
    obtain ⟨e, rfl⟩ : ∃ e, m = .error e := h
    exact .inl ⟨e, rfl⟩

theorem SpellsTerms.not_end {isFirst : Bool} (h : SpellsTerms src flags isFirst u p q) :
    ¬ atEnd src (skipX src flags p) = true := by
  cases h with
  | nil hskip hend | nested hskip hend | esc hskip hend | char hskip hend | range hskip hend => exact hskip ▸ hend

/-- What stands behind a bracket that is not the whole operand is neither a bracket that closes nor `&&`. -/
theorem SpellsTerms.stuck (h : SpellsTerms src flags false u p q) (hmore : u = .nil → p ≠ q) :
    peek src p ≠ 0x5d ∧ intersectAt src p = false := by
  have hnot : ∀ {x : UInt8}, isSpace x = true ∨ x = 0x23 → x ≠ 0x5d ∧ x ≠ 0x26 := by
    refine fun h => ⟨?_, ?_⟩
    · rintro rfl
      revert h
      decide
    · rintro rfl
      revert h
      decide
  by_cases hskip : skipX src flags p = p
  · have hend := h.not_end
    rw [hskip] at hend
    have hterms : ¬ termsEnd src false p = true := by
      cases h with
      | nil hq => exact absurd (hskip.symm.trans hq.symm) (hmore rfl)
      | nested hq _ hterms | esc hq _ hterms | char hq _ hterms | range hq _ hterms => rwa [← hskip, ← hq]
    rw [peek_eq hend]
    simpa [termsEnd] using hterms
  · have hblank : isSpace (peek src p) = true ∨ peek src p = 0x23 := by
      by_contra hno
      push Not at hno
      exact hskip (skipX_stays (by simpa using hno.1) hno.2)
    obtain ⟨hbracket, hand⟩ := hnot hblank
    exact ⟨hbracket, by simp [intersectAt, hand]⟩

/-- What the three functions make of a text, if they may be nested as deep as it takes. -/
structure Reads (src : List UInt8) (flags : Flags) (fuel : Nat) : Prop where
  union : ∀ {isFirst : Bool} {u : Terms} {p q : Nat}, SpellsTerms src flags isFirst u p q →
    2 * (src.length - p) + 2 ≤ fuel → p ≤ q ∧ ∀ c, Comes u.plain (u.build c, q) (parseClassUnion src flags fuel isFirst c p)
  operands : ∀ {ops : Operands} {p q : Nat}, SpellsOperands src flags ops p q →
    2 * (src.length - p) + 2 ≤ fuel → p ≤ q ∧ ∀ c, Stops src ops.plain (ops.build c, q) (parseOperands src flags fuel c p)
  whole : ∀ {e : ClassExpr} {p q : Nat}, SpellsClass src flags e p q →
    2 * (src.length - p) + 1 ≤ fuel → p < q ∧ Comes e.plain (e.build, q) (parseClassAt src flags fuel p)

variable {fuel : Nat}

theorem Reads.union_succ (ih : Reads src flags fuel) {isFirst : Bool}
    (h : SpellsTerms src flags isFirst u p q) (hfuel : 2 * (src.length - p) + 2 ≤ fuel + 1) :
    p ≤ q ∧ ∀ c, Comes u.plain (u.build c, q) (parseClassUnion src flags (fuel + 1) isFirst c p) := by
  have hle : p ≤ skipX src flags p := le_skipX
  have hend := h.not_end
  have hlt : skipX src flags p < src.length := by simpa [atEnd] using hend
  cases h with
  | nil hskip _ hterms =>
    subst hskip
    refine ⟨hle, fun c => ?_⟩
    rw [parseClassUnion, if_neg hend, if_pos hterms, Terms.plain, Terms.build]
    rfl
  | @nested _ e rest _ _ r _ hskip _ hterms hbyte hclass hrest =>
    subst hskip
    obtain ⟨hr, hwhole⟩ := ih.whole hclass (by omega)
    obtain ⟨hs, hunion⟩ := ih.union hrest (by omega)
    refine ⟨by omega, fun c => ?_⟩
    rw [parseClassUnion, if_neg hend, if_neg hterms, if_pos hbyte, Terms.plain, Terms.build]
    exact hwhole.bind (hunion _)
  | @esc _ sub _ rest _ _ r _ hskip _ hterms hbyte hterm hrest =>
    subst hskip
    have hr := (classTerm_spec _ hterm).2
    obtain ⟨hs, hunion⟩ := ih.union hrest (by dsimp only at hr; omega)
    refine ⟨by dsimp only at hr; omega, fun c => ?_⟩
    rw [parseClassUnion, if_neg hend, if_neg hterms, if_neg hbyte, hterm, Terms.plain, Terms.build]
    exact hunion _
  | @char _ cp rest _ _ r _ hskip _ hterms hbyte hterm hdash hrest =>
    subst hskip
    have hr := (classTerm_spec _ hterm).2
    obtain ⟨hs, hunion⟩ := ih.union hrest (by dsimp only at hr; omega)
    refine ⟨by dsimp only at hr; omega, fun c => ?_⟩
    rw [parseClassUnion, if_neg hend, if_neg hterms, if_neg hbyte, hterm, Terms.plain, Terms.build]
    change Comes _ _ (ite _ _ _)
    rw [if_neg hdash]
    exact hunion _
  | @range _ lo hi le rest _ _ r r' _ hskip _ hterms hbyte hterm hdash hterm' hrest =>
    subst hskip
    have hr := (classTerm_spec _ hterm).2
    have hr' := (classTerm_spec _ hterm').2
    obtain ⟨hs, hunion⟩ := ih.union hrest (by dsimp only at hr hr'; omega)
    refine ⟨by dsimp only at hr hr'; omega, fun c => ?_⟩
    rw [parseClassUnion, if_neg hend, if_neg hterms, if_neg hbyte, hterm, Terms.plain, Terms.build]
    change Comes _ _ (ite _ _ _)
    rw [if_pos hdash, hterm']
    change Comes _ _ (ite _ _ _)
    rw [if_neg (Nat.not_lt.2 le)]
    exact hunion _

theorem lt_of_intersectAt (h : intersectAt src p = true) : p < src.length := by
  refine lt_of_peek fun hzero => ?_
  simp [intersectAt, hzero] at h

theorem Reads.operands_succ (ih : Reads src flags fuel) {ops : Operands} (h : SpellsOperands src flags ops p q)
    (hfuel : 2 * (src.length - p) + 2 ≤ fuel + 1) :
    p ≤ q ∧ ∀ c, Stops src ops.plain (ops.build c, q) (parseOperands src flags (fuel + 1) c p) := by
  cases h with
  | nil hat =>
    refine ⟨Nat.le_refl p, fun c => ?_⟩
    rw [parseOperands, if_neg hat, Operands.plain, Operands.build]
    rfl
  | nested hat hbracket hclass hrest =>
    have hlt := lt_of_intersectAt hat
    obtain ⟨hr, hwhole⟩ := ih.whole hclass (by omega)
    obtain ⟨hs, hops⟩ := ih.operands hrest (by omega)
    refine ⟨by omega, fun c => ?_⟩
    rw [parseOperands, if_pos hat, if_pos hbracket, Operands.plain, Operands.build]
    exact hwhole.stops (hops _)
  | union hat hbracket hterms hrest =>
    have hlt := lt_of_intersectAt hat
    obtain ⟨hr, hunion⟩ := ih.union hterms (by omega)
    obtain ⟨hs, hops⟩ := ih.operands hrest (by omega)
    refine ⟨by omega, fun c => ?_⟩
    rw [parseOperands, if_pos hat, if_neg hbracket, Operands.plain, Operands.build]
    exact (hunion _).stops (hops _)
  | @mixed e u rest _ r r' _ hat hbracket hclass hterms hmore hrest =>
    have hlt := lt_of_intersectAt hat
    obtain ⟨hr, hwhole⟩ := ih.whole hclass (by omega)
    obtain ⟨hr', -⟩ := ih.union hterms (by omega)
    obtain ⟨hs, -⟩ := ih.operands hrest (by omega)
    refine ⟨by omega, fun c => ?_⟩
    obtain ⟨hclose, hnot⟩ := hterms.stuck hmore
    obtain ⟨k, rfl⟩ : ∃ k, fuel = k + 1 := ⟨fuel - 1, by omega⟩
    rw [parseOperands, if_pos hat, if_pos hbracket, Operands.plain, Operands.build]
    -- the class in the brackets is read, and then nothing goes on
    have hstop : Stops src false (c, q) (parseOperands src flags (k + 1) (clsIntersect c e.build) r) := by
      rw [parseOperands, if_neg (by simp [hnot])]
      exact .inr ⟨_, r, rfl, hclose⟩
    have hall := hwhole.stops (f := fun w => parseOperands src flags (k + 1) (clsIntersect c w.1) w.2) hstop
    rwa [Bool.and_false] at hall

theorem Reads.whole_succ (ih : Reads src flags fuel) (h : SpellsClass src flags e p q)
    (hfuel : 2 * (src.length - p) + 1 ≤ fuel + 1) :
    p < q ∧ Comes e.plain (e.build, q) (parseClassAt src flags (fuel + 1) p) := by
  obtain ⟨hopen, hneg, hfirst, hrest, hclose⟩ := h
  rename_i negate first rest r s
  have hlt : p < src.length := lt_of_peek (by rw [hopen]; decide)
  have hstart : p + 1 ≤ if negate then p + 2 else p + 1 := by split_ifs <;> omega
  obtain ⟨hr, hunion⟩ := ih.union hfirst (by omega)
  obtain ⟨hs, hops⟩ := ih.operands hrest (by omega)
  refine ⟨by omega, ?_⟩
  rw [parseClassAt, ← hneg, ClassExpr.plain, ClassExpr.build]
  refine (hunion ⟨[], false⟩).bind ?_
  have hstops := hops (first.build ⟨[], false⟩)
  dsimp only
  cases hplain : rest.plain with
  | true =>
    rw [hplain] at hstops
    have hok : parseOperands src flags fuel (first.build ⟨[], false⟩) r = .ok (rest.build (first.build ⟨[], false⟩), s) :=
      hstops
    rw [hok]
    change Comes _ _ (ite _ _ _)
    rw [if_neg (not_not.2 hclose)]
    rfl
  | false =>
    rw [hplain] at hstops
    obtain ⟨err, herr⟩ | ⟨c, t, hok, hopen'⟩ := hstops
    · rw [herr]
      exact ⟨err, rfl⟩
    · rw [hok]
      change Comes _ _ (ite _ _ _)
      rw [if_pos hopen']
      exact ⟨_, rfl⟩

theorem reads (src : List UInt8) (flags : Flags) (fuel : Nat) : Reads src flags fuel := by
  induction fuel with
  | zero =>
    exact ⟨fun _ h => absurd h (not_succ_le_zero _), fun _ h => absurd h (not_succ_le_zero _),
      fun _ h => absurd h (not_succ_le_zero _)⟩
  | succ fuel ih => exact ⟨ih.union_succ, ih.operands_succ, ih.whole_succ⟩

theorem parseClass_spells (h : SpellsClass src flags e p q) :
    Comes e.plain (e.build, q) (parseClass src flags p) :=
  ((reads src flags _).whole h (by omega)).2

/-- An expression in brackets, where a bracket closes after it, spells the expression with brackets of its own. -/
theorem SpellsClass.wrap (h : SpellsClass src flags e (p + 1) q) (hopen : peek src p = 0x5b)
    (hclose : peek src q = 0x5d) : SpellsClass src flags e.wrap p (q + 1) := by
  have hbracket : peek src (p + 1) = 0x5b := by
    cases h with
    | mk hopen' => exact hopen'
  have hend : ∀ {s : Nat}, peek src s ≠ 0 → ¬ atEnd src s = true := fun h => by
    simpa [atEnd] using lt_of_peek h
  have hend₁ := hend (show peek src (p + 1) ≠ 0 by rw [hbracket]; decide)
  have hend₂ := hend (show peek src q ≠ 0 by rw [hclose]; decide)
  have hskip₁ : skipX src flags (p + 1) = p + 1 := skipX_stays (by rw [hbracket]; decide) (by rw [hbracket]; decide)
  have hskip₂ : skipX src flags q = q := skipX_stays (by rw [hclose]; decide) (by rw [hclose]; decide)
  refine .mk hopen (by simp [hbracket]) (.nested hskip₁.symm hend₁ ?_ ?_ h (.nil hskip₂.symm hend₂ ?_)) (.nil ?_) hclose
  · simp [termsEnd, intersectAt, hbracket]
  · rw [← peek_eq hend₁, hbracket]
  · simp [termsEnd, ← peek_eq hend₂, hclose]
  · simp [intersectAt, hclose]

/-! ### Brackets -/

theorem FoldClosed.congr {s t : Set Nat} (h : ∀ cp ≤ rxCpMax, cp ∈ s ↔ cp ∈ t) : FoldClosed s ↔ FoldClosed t := by
  refine forall₂_congr fun cp hcp => ?_
  rw [h cp hcp, h _ (rxLower_le hcp), h _ (rxUpper_le hcp)]

/-- An expression and the same in brackets: both are built, they accept the same code points, and without folding those of a
    set. -/
def Means (icase : Bool) (s : Set Nat) (m m' : Except RxError (Cls × Nat)) : Prop :=
  ∃ w w', m = .ok w ∧ m' = .ok w' ∧ (∀ cp ≤ rxCpMax, clsTest w.1 cp icase = clsTest w'.1 cp icase) ∧
    (icase = false → ∀ cp ≤ rxCpMax, clsTest w.1 cp false = true ↔ cp ∈ s)

theorem wrap_means_iff (icase : Bool) {src' : List UInt8} {flags' : Flags} {p' q' : Nat}
    (h : SpellsClass src flags e p q) (h' : SpellsClass src' flags' e.wrap p' q') :
    Means icase e.denote (parseClass src flags p) (parseClass src' flags' p') ↔
      e.plain = true ∧ (icase = true → e.negate = true → FoldClosed e.body) := by
  have hbuilt := parseClass_spells h
  have hbuilt' := parseClass_spells h'
  have hwrap : e.wrap.plain = e.plain := by simp [ClassExpr.wrap, ClassExpr.plain, Terms.plain, Operands.plain]
  rw [hwrap] at hbuilt'
  cases hplain : e.plain with
  | false =>
    rw [hplain] at hbuilt
    obtain ⟨err, herr⟩ : ∃ err, parseClass src flags p = .error err := hbuilt
    refine iff_of_false ?_ (by simp)
    rintro ⟨w, -, hok, -⟩
    rw [herr] at hok
    cases hok
  | true =>
    rw [hplain] at hbuilt hbuilt'
    have hok : parseClass src flags p = .ok (e.build, q) := hbuilt
    have hok' : parseClass src' flags' p' = .ok (bracketed e.build, q') := hbuilt'
    have hspec := fun cp (hcp : cp ≤ rxCpMax) => e.build_spec hcp hplain
    have hproper : Proper e.build.ranges := (hspec 0 (Nat.zero_le _)).2
    have hneg : e.build.negate = e.negate := by
      cases e
      rfl
    have hfold : FoldClosed {cp | clsHas e.build cp = true} ↔ FoldClosed e.body := FoldClosed.congr fun cp hcp =>
      (hspec cp hcp).1
    rw [and_iff_right rfl, ← hfold, ← hneg, ← bracketed_same_iff hproper]
    constructor
    · rintro ⟨w, w', hw, hw', heq, -⟩ cp hcp
      cases hok.symm.trans hw
      cases hok'.symm.trans hw'
      exact (heq cp hcp).symm
    · exact fun heq => ⟨_, _, hok, hok', fun cp hcp => (heq cp hcp).symm, fun _ cp hcp => test_of_body (hspec cp hcp).1⟩

/-- A class expression means its set, in brackets of its own or not, just when the compiler takes it, and it is not a
    negated one that is folded to another set; a class escape means the same in brackets, just when it is not such a
    one. -/
theorem class_means_iff (icase : Bool) :
    (∀ (e : ClassExpr) (src src' : List UInt8) (flags flags' : Flags) (p p' q q' : Nat), SpellsClass src flags e p q →
      SpellsClass src' flags' e.wrap p' q' →
      (Means icase e.denote (parseClass src flags p) (parseClass src' flags' p') ↔
        e.plain = true ∧ (icase = true → e.negate = true → FoldClosed e.body))) ∧
    ∀ (src src' : List UInt8) (flags' : Flags) (p p' q q' : Nat) (sub : Cls) (proper : Proper sub.ranges),
      escClass src p = .ok (some (sub, q)) → SpellsClass src' flags' (.mk false (.esc sub proper .nil) .nil) p' q' →
      ((∃ w, parseClass src' flags' p' = .ok w ∧ ∀ cp ≤ rxCpMax, clsTest w.1 cp icase = clsTest sub cp icase) ↔
        (icase = true → sub.negate = true → FoldClosed {cp | clsHas sub cp = true})) := by
  refine ⟨fun e src src' flags flags' p p' q q' h h' => wrap_means_iff icase h h', ?_⟩
  intro src src' flags' p p' q q' sub proper _ h'
  have hok : parseClass src' flags' p' = .ok (bracketed sub, q') := parseClass_spells h'
  rw [← bracketed_same_iff proper]
  constructor
  · rintro ⟨w, hw, heq⟩
    cases hok.symm.trans hw
    exact heq
  · exact fun heq => ⟨_, hok, heq⟩

end

/-- `[[^a]]` -/
def nestedNotA : List UInt8 := [0x5b, 0x5b, 0x5e, 0x61, 0x5d, 0x5d]

def noFlags : Flags := ⟨false, false, false, false, false, false⟩

/-- `[^a]` -/
def exprNotA : ClassExpr := .mk true (.char 0x61 .nil) .nil

theorem spells_notA : SpellsClass nestedNotA noFlags exprNotA 1 5 := by
  have hterms : SpellsTerms nestedNotA noFlags true (.char 0x61 .nil) 3 4 :=
    .char rfl (by decide) (by decide) (by decide) rfl (by decide) (.nil rfl (by decide) (by decide))
  exact .mk rfl rfl hterms (.nil (by decide)) rfl

theorem class_means_notA : SpellsClass nestedNotA noFlags exprNotA 1 5 ∧ SpellsClass nestedNotA noFlags exprNotA.wrap 0 6 ∧
    (Means true exprNotA.denote (parseClass nestedNotA noFlags 1) (parseClass nestedNotA noFlags 0) ↔
      exprNotA.plain = true ∧ (true = true → exprNotA.negate = true → FoldClosed exprNotA.body)) := by
  have hwrap := spells_notA.wrap (by decide) (by decide)
  exact ⟨spells_notA, hwrap, (class_means_iff true).1 exprNotA _ _ _ _ _ _ _ _ spells_notA hwrap⟩

/-- With case ignored `[^a]` does not match `a`, but `[[^a]]` does. -/
theorem notA_in_brackets : SpellsClass nestedNotA noFlags exprNotA 1 5 ∧ SpellsClass nestedNotA noFlags exprNotA.wrap 0 6 ∧
    ∃ w w', parseClass nestedNotA noFlags 1 = .ok w ∧ parseClass nestedNotA noFlags 0 = .ok w' ∧
      clsTest w.1 0x61 true = false ∧ clsTest w'.1 0x61 true = true :=
  ⟨spells_notA, spells_notA.wrap (by decide) (by decide), _, _, rfl, rfl, by decide, by decide⟩

/-- `[b&&[b]b]` -/
def mixedB : List UInt8 := [0x5b, 0x62, 0x26, 0x26, 0x5b, 0x62, 0x5d, 0x62, 0x5d]

theorem mixed_refused : (∃ e, SpellsClass mixedB noFlags e 0 9 ∧ 0x62 ∈ e.denote) ∧
    parseClass mixedB noFlags 0 = .error ⟨"Unclosed character class", 7⟩ := by
  have hterms : ∀ p isFirst, p = 1 ∧ isFirst = true ∨ p = 5 ∧ isFirst = true ∨ p = 7 ∧ isFirst = false →
      SpellsTerms mixedB noFlags isFirst (.char 0x62 .nil) p (p + 1) := by
    rintro p isFirst (⟨rfl, rfl⟩ | ⟨rfl, rfl⟩ | ⟨rfl, rfl⟩) <;>
      exact .char rfl (by decide) (by decide) (by decide) rfl (by decide) (.nil rfl (by decide) (by decide))
  let b : ClassExpr := .mk false (.char 0x62 .nil) .nil
  have hnested : SpellsClass mixedB noFlags b 4 7 := .mk rfl rfl (hterms 5 true (by decide)) (.nil (by decide)) rfl
  refine ⟨⟨.mk false (.char 0x62 .nil) (.mixed b (.char 0x62 .nil) .nil), .mk rfl rfl (hterms 1 true (by decide))
    (.mixed rfl rfl hnested (hterms 7 false (by decide)) (fun h => nomatch h) (.nil (by decide))) rfl, ?_⟩, rfl⟩
  simp [ClassExpr.denote, Terms.denote, Operands.denote]

end Lunaria.Regex
