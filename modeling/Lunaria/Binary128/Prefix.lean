import Mathlib
import Lunaria.Binary128.Correct

/-! Where `luna_binary128_from_string` ends: after the longest prefix that `strtod` would take. -/

namespace Lunaria.Binary128
open List Option
open CText (toLower)
open Trimming (forall_of_all forall_byte)

/-! ### What `strtod` takes -/

def digitIn (hex : Bool) (c : UInt8) : Bool := (digitOf hex c).isSome

/-- Digits with at most one point among them, and at least one digit. -/
def IsMantissa (hex : Bool) (w : List UInt8) : Prop :=
  ∃ whole frac, (∀ c ∈ whole ++ frac, digitIn hex c = true) ∧ whole ++ frac ≠ [] ∧
    (w = whole ∧ frac = [] ∨ w = whole ++ ch '.' :: frac)

def IsMark (hex : Bool) (c : UInt8) : Prop := if hex then c = ch 'p' ∨ c = ch 'P' else c = ch 'e' ∨ c = ch 'E'

/-- No sign, or one. -/
def IsSigns (w : List UInt8) : Prop := w = [] ∨ w = [ch '+'] ∨ w = [ch '-']

def IsExponent (hex : Bool) (w : List UInt8) : Prop :=
  w = [] ∨ ∃ mark sign digits, IsMark hex mark ∧ IsSigns sign ∧ digits ≠ [] ∧ (∀ c ∈ digits, isdigit c = true) ∧
    w = mark :: (sign ++ digits)

/-- A word, in letters of any case. -/
def Spells (w : List UInt8) (word : List Char) : Prop := w.map toLower = word.map ch

/-- The subject of `strtod`, without its sign. -/
inductive Subject : List UInt8 → Prop
  | infinity {w : List UInt8} (h : Spells w ['i', 'n', 'f'] ∨ Spells w ['i', 'n', 'f', 'i', 'n', 'i', 't', 'y']) : Subject w
  | nan {w : List UInt8} (h : Spells w ['n', 'a', 'n']) : Subject w
  | nanChars {w chars : List UInt8} (h : Spells w ['n', 'a', 'n']) (hchars : ∀ c ∈ chars, isalnum c = true ∨ c = ch '_') :
      Subject (w ++ ch '(' :: (chars ++ [ch ')']))
  | decimal {m e : List UInt8} (hm : IsMantissa false m) (he : IsExponent false e) : Subject (m ++ e)
  | hexadecimal {x : UInt8} {m e : List UInt8} (hx : x = ch 'x' ∨ x = ch 'X') (hm : IsMantissa true m)
      (he : IsExponent true e) : Subject (ch '0' :: x :: (m ++ e))

def Accepted (p : List UInt8) : Prop :=
  ∃ spaces sign w, (∀ c ∈ spaces, isspace c = true) ∧ IsSigns sign ∧ Subject w ∧ p = spaces ++ (sign ++ w)

/-- The rest of a string after its longest accepted prefix, or the whole string if it has none. -/
def EndsRight (s rest : List UInt8) : Prop :=
  (∃ p, Accepted p ∧ s = p ++ rest ∧ ∀ q, Accepted q → q <+: s → q.length ≤ p.length) ∨
    (rest = s ∧ ∀ q, Accepted q → ¬ q <+: s)

/-- White space, a sign or none, and the two characters before a hexadecimal numeral, without a digit behind them or behind
    a point. -/
def BareHex (s : List UInt8) : Prop :=
  ∃ spaces sign x t, (∀ c ∈ spaces, isspace c = true) ∧ IsSigns sign ∧ (x = ch 'x' ∨ x = ch 'X') ∧
    s = spaces ++ (sign ++ ch '0' :: x :: t) ∧ digitIn true (head t) = false ∧
      (head t = ch '.' → digitIn true (head t.tail) = false)

/-! ### The scanner by itself -/

def mantissaEnd (hex : Bool) (t : List UInt8) : List UInt8 :=
  let r := t.dropWhile (digitIn hex)
  if head r = ch '.' then r.tail.dropWhile (digitIn hex) else r

/-- There is a digit, in front of the point or behind it. -/
def hasDigit (hex : Bool) (t : List UInt8) : Bool :=
  digitIn hex (head t) || (head t = ch '.' && digitIn hex (head t.tail))

/-- The string without a sign at its start. -/
def unsigned (s : List UInt8) : List UInt8 := if isSign (head s) then s.tail else s

def exponentEnd (hex : Bool) (r : List UInt8) : List UInt8 :=
  if hasExponent hex r then (unsigned r.tail).dropWhile isdigit else r

def startsHex (s : List UInt8) : Bool := head s = ch '0' ∧ (head s.tail = ch 'x' ∨ head s.tail = ch 'X')

/-- Where a numeral ends. -/
def numeralEnd (s : List UInt8) : Option (List UInt8) :=
  let t := if startsHex s then s.tail.tail else s
  if hasDigit (startsHex s) t then some (exponentEnd (startsHex s) (mantissaEnd (startsHex s) t)) else none

section Scan
variable {hex : Bool} {s t u : List UInt8} {m : Mantissa}

theorem digitIn_zero : digitIn hex 0 = false := by
  cases hex <;> decide

theorem digitIn_point : digitIn hex (ch '.') = false := by
  cases hex <;> decide

theorem mantissaLoop_cons {c : UInt8} {d : UInt32} (hd : digitOf hex c = some d) : ∃ m' : Mantissa, m'.dot = m.dot ∧
    m'.any = true ∧ mantissaLoop hex m (c :: s) = mantissaLoop hex m' s :=
  ⟨⟨bigAddSmall (bigMulSmall m.n (radixOf hex)) d, if m.dot then int (m.frac + 1) else m.frac, true, m.dot⟩, rfl, rfl, by
    rw [mantissaLoop, hd]⟩

theorem mantissaLoop_point : ∀ {s : List UInt8} {m : Mantissa}, m.dot = true →
    (mantissaLoop hex m s).2 = s.dropWhile (digitIn hex) ∧ (mantissaLoop hex m s).1.any = (m.any || digitIn hex (head s))
  | [], m, _ => by
    have hnone : digitIn hex (head []) = false := digitIn_zero
    rw [mantissaLoop, hnone, Bool.or_false]
    exact ⟨rfl, rfl⟩
  | c :: s, m, hdot => by
    cases hd : digitOf hex c with
    | some d =>
      have hc : digitIn hex c = true := isSome_iff_exists.2 ⟨d, hd⟩
      have hhead : digitIn hex (head (c :: s)) = true := hc
      obtain ⟨m', hdot', hany', hloop⟩ := mantissaLoop_cons (m := m) (s := s) hd
      obtain ⟨hrest, hany⟩ := mantissaLoop_point (s := s) (hdot'.trans hdot)
      rw [hloop, hrest, hany, hany', hhead, dropWhile_cons_of_pos hc, Bool.or_true, Bool.true_or]
      exact ⟨rfl, rfl⟩
    | none =>
      have hc : digitIn hex c = false := by rw [digitIn, hd]; rfl
      have hhead : digitIn hex (head (c :: s)) = false := hc
      have hloop : mantissaLoop hex m (c :: s) = (m, c :: s) := by
        rw [mantissaLoop, hd]
        exact if_neg fun h => Bool.noConfusion (hdot.symm.trans h.1)
      rw [hloop, hhead, dropWhile_cons_of_neg (by rw [hc]; exact Bool.false_ne_true), Bool.or_false]
      exact ⟨rfl, rfl⟩

theorem mantissaLoop_scan : ∀ {s : List UInt8} {m : Mantissa}, m.dot = false →
    (mantissaLoop hex m s).2 = mantissaEnd hex s ∧ (mantissaLoop hex m s).1.any = (m.any || hasDigit hex s)
  | [], m, _ => by
    have hnone : hasDigit hex [] = false := by cases hex <;> decide
    rw [mantissaLoop, hnone, Bool.or_false]
    exact ⟨rfl, rfl⟩
  | c :: s, m, hdot => by
    cases hd : digitOf hex c with
    | some d =>
      have hc : digitIn hex c = true := isSome_iff_exists.2 ⟨d, hd⟩
      have hhead : digitIn hex (head (c :: s)) = true := hc
      obtain ⟨m', hdot', hany', hloop⟩ := mantissaLoop_cons (m := m) (s := s) hd
      obtain ⟨hrest, hany⟩ := mantissaLoop_scan (s := s) (hdot'.trans hdot)
      have hsome : hasDigit hex (c :: s) = true := by rw [hasDigit, hhead, Bool.true_or]
      rw [hloop, hrest, hany, hany', hsome, mantissaEnd, mantissaEnd, dropWhile_cons_of_pos hc, Bool.true_or, Bool.or_true]
      exact ⟨rfl, rfl⟩
    | none =>
      have hc : digitIn hex c = false := by rw [digitIn, hd]; rfl
      have hhead : digitIn hex (head (c :: s)) = false := hc
      have hdrop : (c :: s).dropWhile (digitIn hex) = c :: s :=
        dropWhile_cons_of_neg (by rw [hc]; exact Bool.false_ne_true)
      rw [mantissaLoop, hd, mantissaEnd, hdrop, hasDigit, hhead, Bool.false_or]
      dsimp only
      by_cases hpoint : c = ch '.'
      · subst hpoint
        have hhead' : head (ch '.' :: s) = ch '.' := rfl
        rw [if_pos ⟨hdot, rfl⟩, if_pos hhead', decide_eq_true hhead', Bool.true_and]
        exact mantissaLoop_point (m := { m with dot := true }) rfl
      · have hhead' : ¬ head (c :: s) = ch '.' := hpoint
        rw [if_neg fun h => hpoint h.2, if_neg hhead', decide_eq_false hhead', Bool.false_and, Bool.or_false]
        exact ⟨rfl, rfl⟩

theorem expLoop_rest : ∀ {s : List UInt8} {v : ℕ}, (expLoop v s).2 = s.dropWhile isdigit
  | [], _ => rfl
  | c :: s, v => by
    rw [expLoop]
    split
    · next hc => rw [dropWhile_cons_of_pos hc, expLoop_rest]
    · next hc => rw [dropWhile_cons_of_neg hc]

theorem parseExp_rest : (parseExp s).2 = (unsigned s).dropWhile isdigit := expLoop_rest

theorem number_rest {fuel : ℕ} {neg : Bool} {r : Option (Bits × List UInt8)} (h : number fuel neg s = some r) :
    r.map Prod.snd = numeralEnd s := by
  unfold number at h
  dsimp only at h
  rw [numeralEnd]
  have hhex : decide (head s = ch '0' ∧ (head s.tail = ch 'x' ∨ head s.tail = ch 'X')) = startsHex s := rfl
  rw [hhex] at h
  obtain ⟨hrest, hany⟩ := mantissaLoop_scan (s := if startsHex s = true then s.tail.tail else s)
    (m := .init) rfl
  rw [hany, hrest] at h
  generalize (if startsHex s = true then s.tail.tail else s) = t at h ⊢
  by_cases hdigit : hasDigit (startsHex s) t = true
  · rw [if_pos hdigit]
    rw [hdigit, Bool.or_true, if_neg Bool.noConfusion] at h
    obtain ⟨r', -, rfl⟩ := map_eq_some_iff.1 h
    rw [map_some, exponentEnd]
    by_cases hexp : hasExponent (startsHex s) (mantissaEnd (startsHex s) t) = true
    · rw [if_pos hexp, if_pos hexp, parseExp_rest]
    · rw [if_neg hexp, if_neg hexp]
  · rw [if_neg hdigit]
    have hinit : Mantissa.init.any = false := rfl
    rw [Bool.eq_false_iff.2 hdigit, hinit, Bool.or_false, if_pos rfl] at h
    cases h
    rfl

theorem number_none {fuel : ℕ} {neg : Bool} (h : numeralEnd s = none) : number fuel neg s = some none := by
  have hnone : hasDigit (startsHex s) (if startsHex s = true then s.tail.tail else s) = false := by
    rw [numeralEnd] at h
    exact Bool.eq_false_iff.2 fun hdigit => nomatch (if_pos hdigit).symm.trans h
  obtain ⟨-, hany⟩ := mantissaLoop_scan (s := if startsHex s = true then s.tail.tail else s)
    (m := .init) rfl
  have hinit : Mantissa.init.any = false := rfl
  rw [hnone, hinit, Bool.or_false] at hany
  exact if_pos hany

end Scan

/-! ### The scan takes the most -/

section Most
variable {hex : Bool} {s t u w : List UInt8} {p : UInt8 → Bool}

theorem dropWhile_of_head (h : p (head u) = false) : u.dropWhile p = u := by
  cases u with
  | nil => rfl
  | cons c u => exact dropWhile_cons_of_neg (by rw [show p c = false from h]; exact Bool.false_ne_true)

theorem length_dropWhile_le : (u.dropWhile p).length ≤ u.length := (dropWhile_suffix p).length_le

theorem head_append (h : w ≠ []) : head (w ++ u) = head w := by
  cases w with
  | nil => exact absurd rfl h
  | cons c w => rfl

theorem head_mem (h : w ≠ []) : head w ∈ w := by
  cases w with
  | nil => exact absurd rfl h
  | cons c w => exact mem_cons_self

theorem mantissaEnd_length : (mantissaEnd hex t).length ≤ t.length := by
  have htail : (t.dropWhile (digitIn hex)).tail.length ≤ t.length := (tail_suffix _).length_le.trans length_dropWhile_le
  rw [mantissaEnd]
  split
  · exact length_dropWhile_le.trans htail
  · exact length_dropWhile_le

theorem mantissaEnd_append (h : IsMantissa hex w) (u : List UInt8) : (mantissaEnd hex (w ++ u)).length ≤ u.length ∧
    (digitIn hex (head u) = false → head u ≠ ch '.' → mantissaEnd hex (w ++ u) = u) := by
  obtain ⟨whole, frac, hdigits, -, hw⟩ := h
  have hwhole : ∀ c ∈ whole, digitIn hex c = true := fun c hc => hdigits c (mem_append_left _ hc)
  have hfrac : ∀ c ∈ frac, digitIn hex c = true := fun c hc => hdigits c (mem_append_right _ hc)
  rcases hw with ⟨rfl, -⟩ | rfl
  · have hsame : mantissaEnd hex (w ++ u) = mantissaEnd hex u := by
      rw [mantissaEnd, mantissaEnd, dropWhile_append_of_pos hwhole]
    rw [hsame]
    refine ⟨mantissaEnd_length, fun hdigit hpoint => ?_⟩
    rw [mantissaEnd, dropWhile_of_head hdigit]
    exact if_neg hpoint
  · have hsame : mantissaEnd hex (whole ++ ch '.' :: frac ++ u) = u.dropWhile (digitIn hex) := by
      have hdrop : (ch '.' :: (frac ++ u)).dropWhile (digitIn hex) = ch '.' :: (frac ++ u) :=
        dropWhile_of_head (p := digitIn hex) digitIn_point
      rw [append_assoc, cons_append, mantissaEnd, dropWhile_append_of_pos hwhole, hdrop]
      exact (if_pos rfl).trans (dropWhile_append_of_pos hfrac)
    rw [hsame]
    exact ⟨length_dropWhile_le, fun hdigit _ => dropWhile_of_head hdigit⟩

theorem hasDigit_append (h : IsMantissa hex w) (u : List UInt8) : hasDigit hex (w ++ u) = true := by
  obtain ⟨whole, frac, hdigits, hne, hw⟩ := h
  rw [hasDigit]
  by_cases hwhole : whole = []
  · subst hwhole
    rw [nil_append] at hdigits hne hw
    obtain rfl : w = ch '.' :: frac := hw.resolve_left fun h => hne h.2
    have hhead : digitIn hex (head (ch '.' :: frac ++ u).tail) = true := by
      have htail : (ch '.' :: frac ++ u).tail = frac ++ u := rfl
      rw [htail, head_append hne]
      exact hdigits _ (head_mem hne)
    have hpoint : head (ch '.' :: frac ++ u) = ch '.' := rfl
    rw [hhead, decide_eq_true hpoint, Bool.and_true, Bool.or_true]
  · have hhead : head (w ++ u) = head whole := by
      rcases hw with ⟨rfl, -⟩ | rfl
      · exact head_append hwhole
      · rw [append_assoc, head_append hwhole]
    rw [hhead, hdigits _ (mem_append_left _ (head_mem hwhole)), Bool.true_or]

theorem isMark_first {c : UInt8} (h : IsMark hex c) : digitIn hex c = false ∧ c ≠ ch '.' := by
  obtain ⟨hnone, hpoint⟩ := digitOf_mark h
  exact ⟨by rw [digitIn, hnone]; rfl, hpoint⟩

theorem unsigned_length : (unsigned s).length ≤ s.length := by
  rw [unsigned]
  split
  · rw [length_tail]
    exact Nat.sub_le _ 1
  · exact le_rfl

theorem unsigned_append {sign : List UInt8} (hsign : IsSigns sign) (h : isSign (head t) = false) :
    unsigned (sign ++ t) = t := by
  rcases hsign with rfl | rfl | rfl
  · rw [nil_append, unsigned, h, if_neg Bool.false_ne_true]
  · rfl
  · rfl

theorem hasExponent_iff : hasExponent hex s = true ↔ IsMark hex (head s) ∧ isdigit (head (unsigned s.tail)) = true := by
  rw [hasExponent, unsigned, IsMark, decide_eq_true_iff]
  cases hex <;> simp

theorem exponentEnd_append {mark : UInt8} {sign digits : List UInt8} (hmark : IsMark hex mark) (hsign : IsSigns sign)
    (hne : digits ≠ []) (hdigits : ∀ c ∈ digits, isdigit c = true) (u : List UInt8) :
    (exponentEnd hex (mark :: (sign ++ digits) ++ u)).length ≤ u.length := by
  have hdigit := hdigits _ (head_mem hne)
  have hplain : unsigned (sign ++ (digits ++ u)) = digits ++ u :=
    unsigned_append hsign (by rw [head_append hne]; exact (isSign_of_isdigit hdigit).1)
  have htail : (mark :: (sign ++ digits) ++ u).tail = sign ++ (digits ++ u) := append_assoc _ _ _
  have hexp : hasExponent hex (mark :: (sign ++ digits) ++ u) = true := by
    rw [hasExponent_iff, htail, hplain, head_append hne]
    exact ⟨hmark, hdigit⟩
  rw [exponentEnd, if_pos hexp, htail, hplain, dropWhile_append_of_pos hdigits]
  exact length_dropWhile_le

theorem exponentEnd_length : (exponentEnd hex s).length ≤ s.length := by
  rw [exponentEnd]
  split
  · refine length_dropWhile_le.trans (unsigned_length.trans ?_)
    rw [length_tail]
    exact Nat.sub_le _ 1
  · exact le_rfl

theorem scan_append {m e : List UInt8} (hm : IsMantissa hex m) (he : IsExponent hex e) (u : List UInt8) :
    (exponentEnd hex (mantissaEnd hex (m ++ e ++ u))).length ≤ u.length := by
  rw [append_assoc]
  rcases he with rfl | ⟨mark, sign, digits, hmark, hsign, hne, hdigits, rfl⟩
  · exact exponentEnd_length.trans (mantissaEnd_append hm u).1
  · obtain ⟨hdigit, hpoint⟩ := isMark_first hmark
    have hmantissa := (mantissaEnd_append hm (mark :: (sign ++ digits) ++ u)).2 hdigit hpoint
    rw [hmantissa]
    exact exponentEnd_append hmark hsign hne hdigits u

end Most

/-! ### What the scan takes is a numeral -/

section Sound
variable {hex : Bool} {s t r : List UInt8}

theorem head_dropWhile {p : UInt8 → Bool} (h0 : p 0 = false) (s : List UInt8) : p (head (s.dropWhile p)) = false := by
  induction s with
  | nil => exact h0
  | cons c s ih =>
    by_cases hc : p c = true
    · rw [dropWhile_cons_of_pos hc]
      exact ih
    · rw [dropWhile_cons_of_neg hc]
      exact Bool.eq_false_iff.2 hc

theorem eq_cons_of_head {c : UInt8} (hc : c ≠ 0) (h : head s = c) : s = c :: s.tail := by
  cases s with
  | nil => exact absurd h.symm hc
  | cons d s => exact congrArg (· :: s) h

theorem head_of_takeWhile {p : UInt8 → Bool} (h0 : p 0 = false) (h : s.takeWhile p = []) : p (head s) = false := by
  cases s with
  | nil => exact h0
  | cons c s =>
    refine Bool.eq_false_iff.2 fun hc => ?_
    have hc : p c = true := hc
    rw [takeWhile_cons_of_pos hc] at h
    exact cons_ne_nil _ _ h

theorem mantissaEnd_split (h : hasDigit hex t = true) : ∃ whole frac dot, (∀ c ∈ whole ++ frac, digitIn hex c = true) ∧
    whole ++ frac ≠ [] ∧ (dot = false → frac = []) ∧
    t = whole ++ ((if dot = true then ch '.' :: frac else []) ++ mantissaEnd hex t) ∧
    digitIn hex (head (mantissaEnd hex t)) = false ∧ (dot = false → head (mantissaEnd hex t) ≠ ch '.') := by
  have hwhole : ∀ c ∈ t.takeWhile (digitIn hex), digitIn hex c = true := fun c hc => mem_takeWhile_imp hc
  have ht := takeWhile_append_dropWhile (p := digitIn hex) (l := t)
  by_cases hpoint : head (t.dropWhile (digitIn hex)) = ch '.'
  · have hend : mantissaEnd hex t = (t.dropWhile (digitIn hex)).tail.dropWhile (digitIn hex) := if_pos hpoint
    have hcons := eq_cons_of_head (by decide) hpoint
    have hfrac := takeWhile_append_dropWhile (p := digitIn hex) (l := (t.dropWhile (digitIn hex)).tail)
    refine ⟨t.takeWhile (digitIn hex), (t.dropWhile (digitIn hex)).tail.takeWhile (digitIn hex), true, ?_, ?_, nofun, ?_,
      ?_, nofun⟩
    · intro c hc
      exact (mem_append.1 hc).elim (hwhole c) mem_takeWhile_imp
    · intro hnil
      obtain ⟨hw, hf⟩ := append_eq_nil_iff.1 hnil
      rw [hw, nil_append] at ht
      rw [ht] at hf
      have hdigit := head_of_takeWhile digitIn_zero hw
      have hdigit' := head_of_takeWhile digitIn_zero hf
      rw [hasDigit, hdigit, hdigit', Bool.and_false, Bool.or_false] at h
      cases h
    · rw [hend, if_pos rfl, cons_append, hfrac, ← hcons, ht]
    · rw [hend]
      exact head_dropWhile digitIn_zero _
  · have hend : mantissaEnd hex t = t.dropWhile (digitIn hex) := if_neg hpoint
    refine ⟨t.takeWhile (digitIn hex), [], false, ?_, ?_, fun _ => rfl, ?_, ?_, fun _ => ?_⟩
    · rwa [append_nil]
    · intro hnil
      rw [append_nil] at hnil
      rw [hnil, nil_append] at ht
      have hdigit := head_dropWhile (p := digitIn hex) digitIn_zero t
      rw [ht] at hdigit hpoint
      rw [hasDigit, hdigit, decide_eq_false hpoint, Bool.false_and, Bool.or_false] at h
      cases h
    · rw [hend, if_neg Bool.false_ne_true, nil_append, ht]
    · rw [hend]
      exact head_dropWhile digitIn_zero _
    · rw [hend]
      exact hpoint

theorem unsigned_split (s : List UInt8) : ∃ sign, s = Numeral.signText sign ++ unsigned s := by
  rw [unsigned]
  split
  · next h =>
    rcases of_decide_eq_true h with h | h
    · exact ⟨some false, eq_cons_of_head (by decide) h⟩
    · exact ⟨some true, eq_cons_of_head (by decide) h⟩
  · exact ⟨none, rfl⟩

theorem exponentEnd_split (s : List UInt8) : ∃ e, s = Numeral.exponentText e ++ exponentEnd hex s ∧
    (∀ mark sign digits, e = some (mark, sign, digits) → IsMark hex mark ∧ digits ≠ [] ∧ ∀ c ∈ digits, isdigit c = true) ∧
    (e = none → hasExponent hex (exponentEnd hex s) = false ∧ exponentEnd hex s = s) ∧
    (e ≠ none → isdigit (head (exponentEnd hex s)) = false) := by
  by_cases h : hasExponent hex s = true
  · have hend : exponentEnd hex s = (unsigned s.tail).dropWhile isdigit := if_pos h
    obtain ⟨hmark, hdigit⟩ := hasExponent_iff.1 h
    obtain ⟨sign, hsign⟩ := unsigned_split s.tail
    have hs : s = head s :: s.tail := by
      refine eq_cons_of_head (fun h0 => ?_) rfl
      rw [h0, IsMark] at hmark
      revert hmark
      cases hex <;> decide
    refine ⟨some (head s, sign, (unsigned s.tail).takeWhile isdigit), ?_, ?_, (by simp), fun _ => ?_⟩
    · have hdigits := takeWhile_append_dropWhile (p := isdigit) (l := unsigned s.tail)
      rw [hend, Numeral.exponentText]
      change s = head s :: (Numeral.signText sign ++ (unsigned s.tail).takeWhile isdigit ++
        (unsigned s.tail).dropWhile isdigit)
      rw [append_assoc, hdigits, ← hsign]
      exact hs
    · rintro _ _ _ ⟨⟩
      refine ⟨hmark, fun hnil => ?_, fun c hc => mem_takeWhile_imp hc⟩
      rw [head_of_takeWhile (by decide) hnil] at hdigit
      cases hdigit
    · rw [hend]
      exact head_dropWhile (by decide) _
  · have hend : exponentEnd hex s = s := if_neg h
    refine ⟨none, by rw [hend]; rfl, (by simp), fun _ => ?_, fun hne => absurd rfl hne⟩
    rw [hend]
    exact ⟨Bool.eq_false_iff.2 h, rfl⟩

/-- What the scan takes is the numeral that it denotes. -/
theorem numeralEnd_numeral (h : numeralEnd s = some r) {spaces : List UInt8} (hspaces : ∀ c ∈ spaces, isspace c = true)
    (sign : Option Bool) : ∃ n : Numeral, n.Ok r ∧ n.spaces = spaces ∧ n.sign = sign ∧ n.body r = s := by
  rw [numeralEnd] at h
  by_cases hdigit : hasDigit (startsHex s) (if startsHex s = true then s.tail.tail else s) = true
  swap
  · cases (if_neg hdigit).symm.trans h
  cases (if_pos hdigit).symm.trans h
  obtain ⟨whole, frac, dot, hdigits, hne, hpoint, ht, hstop, hstop'⟩ := mantissaEnd_split hdigit
  obtain ⟨e, he, hexp, hbare, hended⟩ := exponentEnd_split
    (mantissaEnd (startsHex s) (if startsHex s = true then s.tail.tail else s))
  generalize hr :
    exponentEnd (startsHex s) (mantissaEnd (startsHex s) (if startsHex s = true then s.tail.tail else s)) = r at *
  have hmark : ∃ mark : Option UInt8, mark.isSome = startsHex s ∧ (∀ x, mark = some x → x = ch 'x' ∨ x = ch 'X') ∧
      s = mark.elim (if startsHex s = true then s.tail.tail else s)
        fun x => ch '0' :: x :: (if startsHex s = true then s.tail.tail else s) := by
    by_cases hhex : startsHex s = true
    · obtain ⟨hzero, hx⟩ := of_decide_eq_true hhex
      refine ⟨some (head s.tail), hhex.symm, ?_, ?_⟩
      · rintro x ⟨⟩
        exact hx
      · rw [if_pos hhex, Option.elim_some]
        have htail : s.tail = head s.tail :: s.tail.tail :=
          eq_cons_of_head (by rcases hx with hx | hx <;> rw [hx] <;> decide) rfl
        rw [← htail]
        exact eq_cons_of_head (by decide) hzero
    · exact ⟨none, (Bool.eq_false_iff.2 hhex).symm, (by simp), by rw [if_neg hhex, Option.elim_none]⟩
  obtain ⟨mark, hsome, hx, hs⟩ := hmark
  generalize htt : (if startsHex s = true then s.tail.tail else s) = t at *
  rw [he] at ht hstop hstop'
  have hbody : (⟨spaces, sign, mark, whole, dot, frac, e⟩ : Numeral).body r = s := by
    have htext : (⟨spaces, sign, mark, whole, dot, frac, e⟩ : Numeral).digitsText r = t := ht.symm
    rw [Numeral.body, htext]
    cases mark <;> exact hs.symm
  refine ⟨⟨spaces, sign, mark, whole, dot, frac, e⟩, ?_, rfl, rfl, hbody⟩
  have hhex : (⟨spaces, sign, mark, whole, dot, frac, e⟩ : Numeral).hex = startsHex s := hsome
  constructor
  · exact hspaces
  · exact hx
  · rw [hhex]
    exact hdigits
  · exact hne
  · exact hpoint
  · rw [hhex]
    exact hexp
  · rintro rfl
    rw [hhex]
    refine ⟨?_, hstop', (hbare rfl).1⟩
    rw [← not_isSome_iff_eq_none]
    exact Bool.eq_false_iff.1 hstop
  · exact hended
  · rintro rfl rfl rfl hw
    dsimp only [Option.elim] at hw hs
    rw [hw] at ht
    have hnot : startsHex s = false := hsome.symm
    rw [← hs] at ht
    have hhead : head s = ch '0' := by rw [ht]; rfl
    have htail : s.tail = r := by rw [ht]; rfl
    rw [← htail]
    exact not_or.1 fun hx => of_decide_eq_false hnot ⟨hhead, hx⟩

theorem isSigns_signText (sign : Option Bool) : IsSigns (Numeral.signText sign) := by
  match sign with
  | none => exact .inl rfl
  | some false => exact .inr (.inl rfl)
  | some true => exact .inr (.inr rfl)

theorem Numeral.Ok.subject {n : Numeral} (h : n.Ok r) : ∃ w, Subject w ∧ n.body r = w ++ r := by
  have hm : IsMantissa n.hex (n.whole ++ if n.dot = true then ch '.' :: n.frac else []) := by
    refine ⟨n.whole, n.frac, h.digits, h.digit, ?_⟩
    cases hdot : n.dot with
    | false => exact .inl ⟨append_nil _, h.point hdot⟩
    | true => exact .inr rfl
  have he : IsExponent n.hex (exponentText n.exponent) := by
    cases hexp : n.exponent with
    | none => exact .inl rfl
    | some e =>
      obtain ⟨mark, sign, digits⟩ := e
      obtain ⟨hmark, hne, hdigits⟩ := h.exponent _ _ _ hexp
      exact .inr ⟨mark, _, digits, hmark, isSigns_signText sign, hne, hdigits, rfl⟩
  have htext : n.digitsText r = (n.whole ++ (if n.dot = true then ch '.' :: n.frac else []) ++ exponentText n.exponent) ++
      r := by
    rw [digitsText, append_assoc, append_assoc]
  cases hmark : n.mark with
  | none =>
    have hhex : n.hex = false := by rw [hex, hmark]; rfl
    rw [hhex] at hm he
    exact ⟨_, .decimal hm he, by rw [body, hmark]; exact htext⟩
  | some x =>
    have hhex : n.hex = true := by rw [hex, hmark]; rfl
    rw [hhex] at hm he
    exact ⟨_, .hexadecimal (h.mark x hmark) hm he, by rw [body, hmark]; exact congrArg (fun t => ch '0' :: x :: t) htext⟩

end Sound

/-! ### Words -/

section Words
variable {s t u w p : List UInt8} {word : List Char}

theorem Spells.length (h : Spells w word) : w.length = word.length := by
  have := congrArg List.length h
  rwa [length_map, length_map] at this

theorem ciPrefix_iff (hword : ∀ c ∈ word, ch c ≠ 0) : ciPrefix p word = true ↔ Spells (p.take word.length) word := by
  induction word generalizing p with
  | nil => exact iff_of_true (by cases p <;> rfl) rfl
  | cons c word ih =>
    have hc := hword c mem_cons_self
    rw [ciPrefix, decide_eq_true_iff, ih fun d hd => hword d (mem_cons_of_mem _ hd)]
    cases p with
    | nil =>
      refine iff_of_false (fun h => hc ?_) fun h => ?_
      · exact h.1.symm.trans (by decide)
      · rw [Spells, take_nil] at h
        cases h
    | cons d p =>
      rw [Spells, Spells, length_cons, take_succ_cons, map_cons, map_cons, List.cons.injEq]
      rfl

theorem ciPrefix_append (hword : ∀ c ∈ word, ch c ≠ 0) (h : Spells w word) (u : List UInt8) :
    ciPrefix (w ++ u) word = true := by
  rw [ciPrefix_iff hword, ← h.length, take_left' rfl]
  exact h

theorem letters_inf : ∀ c ∈ ['i', 'n', 'f'], ch c ≠ 0 := forall_of_all (by decide)

theorem letters_inity : ∀ c ∈ ['i', 'n', 'i', 't', 'y'], ch c ≠ 0 := forall_of_all (by decide)

theorem letters_nan : ∀ c ∈ ['n', 'a', 'n'], ch c ≠ 0 := forall_of_all (by decide)

/-- The words that `parse` looks for, and where they end. -/
def subjectEnd (s : List UInt8) : Option (List UInt8) :=
  if ciPrefix s ['i', 'n', 'f'] then
    some (if ciPrefix (s.drop 3) ['i', 'n', 'i', 't', 'y'] then (s.drop 3).drop 5 else s.drop 3)
  else if ciPrefix s ['n', 'a', 'n'] then some (nanEnd (s.drop 3))
  else numeralEnd s

theorem nanEnd_length : (nanEnd s).length ≤ s.length := by
  rw [nanEnd]
  dsimp only
  split
  · split
    · exact (tail_suffix _).length_le.trans (length_dropWhile_le.trans (tail_suffix _).length_le)
    · exact le_rfl
  · exact le_rfl

theorem nanEnd_chars {chars : List UInt8} (h : ∀ c ∈ chars, isalnum c = true ∨ c = ch '_') :
    nanEnd (ch '(' :: (chars ++ [ch ')']) ++ u) = u := by
  have htail : (ch '(' :: (chars ++ [ch ')']) ++ u).tail = chars ++ ch ')' :: u := by simp
  have hdrop : (chars ++ ch ')' :: u).dropWhile (fun c => decide (isalnum c = true ∨ c = ch '_')) = ch ')' :: u := by
    rw [dropWhile_append_of_pos fun c hc => decide_eq_true (h c hc)]
    exact dropWhile_cons_of_neg (by decide)
  have hhead : head (ch '(' :: (chars ++ [ch ')']) ++ u) = ch '(' := rfl
  have hend : head (ch ')' :: u) = ch ')' := rfl
  rw [nanEnd, if_pos hhead]
  dsimp only
  rw [htail, hdrop, if_pos hend, tail_cons]

theorem nanEnd_split (hw : Spells w ['n', 'a', 'n']) : ∃ w', Subject w' ∧ w ++ t = w' ++ nanEnd t := by
  have hplain : ∃ w', Subject w' ∧ w ++ t = w' ++ t := ⟨w, .nan hw, rfl⟩
  rw [nanEnd]
  split
  · next hopen =>
    dsimp only
    split
    · next hclose =>
      have hchars := takeWhile_append_dropWhile (p := fun c => decide (isalnum c = true ∨ c = ch '_')) (l := t.tail)
      have hall : ∀ c ∈ t.tail.takeWhile fun c => decide (isalnum c = true ∨ c = ch '_'), isalnum c = true ∨ c = ch '_' :=
        fun c hc => by simpa using mem_takeWhile_imp hc
      refine ⟨_, .nanChars hw hall, ?_⟩
      rw [append_assoc, cons_append, append_assoc, singleton_append,
        ← eq_cons_of_head (by decide) hclose, hchars, ← eq_cons_of_head (by decide) hopen]
    · exact hplain
  · exact hplain

theorem subjectEnd_number (h : isdigit (head s) = true ∨ head s = ch '.') : subjectEnd s = numeralEnd s := by
  obtain ⟨-, -, -, hi, hn⟩ := first_facts h
  have hinf : ciPrefix s ['i', 'n', 'f'] = false := by
    rw [ciPrefix]
    exact decide_eq_false fun h => hi h.1
  have hnan : ciPrefix s ['n', 'a', 'n'] = false := by
    rw [ciPrefix]
    exact decide_eq_false fun h => hn h.1
  rw [subjectEnd, hinf, hnan, if_neg Bool.false_ne_true, if_neg Bool.false_ne_true]

theorem subjectEnd_sound {r : List UInt8} (h : subjectEnd s = some r) : ∃ w, Subject w ∧ s = w ++ r := by
  rw [subjectEnd] at h
  split at h
  · next hinf =>
    have hinf := (ciPrefix_iff letters_inf).1 hinf
    cases h
    split
    · next hinity =>
      have hinity := (ciPrefix_iff letters_inity).1 hinity
      refine ⟨s.take 3 ++ (s.drop 3).take 5, .infinity (.inr ?_), ?_⟩
      · rw [Spells, map_append]
        exact (congrArg₂ (· ++ ·) hinf hinity).trans rfl
      · rw [append_assoc, take_append_drop, take_append_drop]
    · exact ⟨s.take 3, .infinity (.inl hinf), (take_append_drop 3 s).symm⟩
  · split at h
    · next hnan =>
      have hnan := (ciPrefix_iff letters_nan).1 hnan
      cases h
      obtain ⟨w, hw, heq⟩ := nanEnd_split (t := s.drop 3) hnan
      rw [length_cons, length_cons, length_singleton, take_append_drop] at heq
      exact ⟨w, hw, heq⟩
    · obtain ⟨n, hok, -, -, hbody⟩ := numeralEnd_numeral h (forall_mem_nil (fun c => isspace c = true)) none
      rw [← hbody]
      exact hok.subject

/-- A hexadecimal prefix without a digit. -/
def Bare (s : List UInt8) : Prop := startsHex s = true ∧ hasDigit true s.tail.tail = false

theorem numeralEnd_some (h : ¬ Bare s) (hdigit : startsHex s = false → hasDigit false s = true) :
    numeralEnd s = some (if startsHex s = true then exponentEnd true (mantissaEnd true s.tail.tail)
      else exponentEnd false (mantissaEnd false s)) := by
  rw [numeralEnd]
  cases hhex : startsHex s with
  | true =>
    have hdigit : hasDigit true s.tail.tail = true := Bool.not_eq_false _ ▸ fun hnone => h ⟨hhex, hnone⟩
    rw [if_pos rfl, if_pos rfl, if_pos hdigit]
  | false => rw [if_neg Bool.false_ne_true, if_neg Bool.false_ne_true, if_pos (hdigit hhex)]

theorem startsHex_cons {x : UInt8} (hx : x = ch 'x' ∨ x = ch 'X') : startsHex (ch '0' :: x :: t) = true :=
  decide_eq_true ⟨rfl, hx⟩

/-- As a decimal numeral a hexadecimal one ends after its zero. -/
theorem scan_hex (h : startsHex s = true) : exponentEnd false (mantissaEnd false s) = s.tail := by
  obtain ⟨hzero, hx⟩ := of_decide_eq_true h
  have hs := eq_cons_of_head (by decide) hzero
  have hmantissa : IsMantissa false [ch '0'] := ⟨[ch '0'], [], forall_of_all (by decide), by decide, .inl ⟨rfl, rfl⟩⟩
  have hend : mantissaEnd false s = s.tail := by
    conv_lhs => rw [hs]
    refine (mantissaEnd_append hmantissa s.tail).2 ?_ ?_
    · rcases hx with hx | hx <;> rw [hx] <;> decide
    · rcases hx with hx | hx <;> rw [hx] <;> decide
  rw [hend, exponentEnd, if_neg]
  rw [hasExponent_iff, IsMark]
  rcases hx with hx | hx <;> rw [hx] <;> exact fun h => absurd h.1 (by decide)

theorem not_inf (h : Spells w ['n', 'a', 'n']) (u : List UInt8) : ciPrefix (w ++ u) ['i', 'n', 'f'] = false := by
  cases w with
  | nil => cases h
  | cons c w =>
    rw [ciPrefix]
    refine decide_eq_false fun hi => ?_
    have hn : toLower c = ch 'n' := (List.cons.inj h).1
    exact absurd (hn.symm.trans hi.1) (by decide)

theorem mantissa_first {m : List UInt8} (hm : IsMantissa false m) : isdigit (head (m ++ u)) = true ∨
    head (m ++ u) = ch '.' := by
  obtain ⟨whole, frac, hdigits, hne, hw⟩ := hm
  by_cases hwhole : whole = []
  · subst hwhole
    obtain rfl : m = ch '.' :: frac := hw.resolve_left fun h => hne h.2
    exact .inr rfl
  · refine .inl ?_
    have hdigit := isdigit_of_digitOf (hdigits _ (mem_append_left _ (head_mem hwhole)))
    rcases hw with ⟨rfl, -⟩ | rfl
    · rwa [head_append hwhole]
    · rwa [append_assoc, head_append hwhole]

/-- The scan takes at least every subject that the string begins with, but for the zero of a bare prefix. -/
theorem subjectEnd_most (h : Subject w) (hbare : ¬ Bare (w ++ u)) : ∃ r, subjectEnd (w ++ u) = some r ∧
    r.length ≤ u.length := by
  cases h with
  | infinity h =>
    rcases h with h | h
    · have hinf := ciPrefix_append letters_inf h u
      have hdrop : (w ++ u).drop 3 = u := drop_left' h.length
      refine ⟨_, if_pos hinf, ?_⟩
      rw [hdrop]
      split
      · exact (drop_suffix _ _).length_le
      · exact le_rfl
    · obtain ⟨a, b, rfl, ha, hb⟩ :=
        map_eq_append_iff.1 (h.trans (rfl : _ = ['i', 'n', 'f'].map ch ++ ['i', 'n', 'i', 't', 'y'].map ch))
      have ha : Spells a ['i', 'n', 'f'] := ha
      have hb : Spells b ['i', 'n', 'i', 't', 'y'] := hb
      have hdrop : (a ++ (b ++ u)).drop 3 = b ++ u := drop_left' ha.length
      have hdrop' : (b ++ u).drop 5 = u := drop_left' hb.length
      rw [append_assoc]
      refine ⟨_, if_pos (ciPrefix_append letters_inf ha _), ?_⟩
      rw [hdrop, if_pos (ciPrefix_append letters_inity hb u), hdrop']
  | nan h =>
    have hinf := not_inf h u
    have hdrop : (w ++ u).drop 3 = u := drop_left' h.length
    rw [subjectEnd, hinf, if_neg Bool.false_ne_true, if_pos (ciPrefix_append letters_nan h u), hdrop]
    exact ⟨_, rfl, nanEnd_length⟩
  | @nanChars w chars h hchars =>
    have hinf := not_inf h (ch '(' :: (chars ++ [ch ')']) ++ u)
    rw [← append_assoc] at hinf
    have hdrop : (w ++ ch '(' :: (chars ++ [ch ')']) ++ u).drop 3 = ch '(' :: (chars ++ [ch ')']) ++ u := by
      rw [append_assoc]
      exact drop_left' h.length
    have hnan : ciPrefix (w ++ ch '(' :: (chars ++ [ch ')']) ++ u) ['n', 'a', 'n'] = true := by
      rw [append_assoc]
      exact ciPrefix_append letters_nan h _
    rw [subjectEnd, hinf, if_neg Bool.false_ne_true, if_pos hnan, hdrop, nanEnd_chars hchars]
    exact ⟨u, rfl, le_rfl⟩
  | @decimal m e hm he =>
    have hscan := scan_append hm he u
    have hfirst := mantissa_first (u := e ++ u) hm
    rw [← append_assoc] at hfirst
    have hdigit : hasDigit false (m ++ e ++ u) = true := by
      rw [append_assoc]
      exact hasDigit_append hm _
    rw [subjectEnd_number hfirst, numeralEnd_some hbare fun _ => hdigit]
    refine ⟨_, rfl, ?_⟩
    by_cases hhex : startsHex (m ++ e ++ u) = true
    · rw [if_pos hhex]
      rw [scan_hex hhex, length_tail] at hscan
      refine (exponentEnd_length.trans mantissaEnd_length).trans ?_
      rw [length_tail, length_tail]
      omega
    · rw [if_neg hhex]
      exact hscan
  | @hexadecimal x m e hx hm he =>
    have hhex : startsHex (ch '0' :: x :: (m ++ e) ++ u) = true := startsHex_cons hx
    have hfirst : isdigit (head (ch '0' :: x :: (m ++ e) ++ u)) = true := rfl
    have hdigit : startsHex (ch '0' :: x :: (m ++ e) ++ u) = false → hasDigit false (ch '0' :: x :: (m ++ e) ++ u) = true :=
      fun hnone => nomatch hhex.symm.trans hnone
    rw [subjectEnd_number (.inl hfirst), numeralEnd_some hbare hdigit, if_pos hhex]
    exact ⟨_, rfl, scan_append hm he u⟩

end Words

/-! ### The whole string -/

section Whole
variable {s t u w rest : List UInt8} {fuel : ℕ}

/-- The string after its white space and its sign. -/
def subject (s : List UInt8) : List UInt8 := unsigned (s.dropWhile isspace)

theorem subject_first (h : Subject w) : w ≠ [] ∧ isspace (head w) = false ∧ isSign (head w) = false := by
  have hletter : ∀ {w : List UInt8} {c : Char} {word : List Char}, (c = 'i' ∨ c = 'n') → Spells w (c :: word) →
      w ≠ [] ∧ isspace (head w) = false ∧ isSign (head w) = false := by
    intro w c word hc h
    cases w with
    | nil => cases h
    | cons d w =>
      refine ⟨cons_ne_nil _ _, ?_⟩
      have hd : toLower d = ch 'i' ∨ toLower d = ch 'n' := by
        rcases hc with rfl | rfl
        · exact .inl (List.cons.inj h).1
        · exact .inr (List.cons.inj h).1
      revert hd
      exact forall_byte (P := fun d => toLower d = ch 'i' ∨ toLower d = ch 'n' → isspace d = false ∧ isSign d = false)
        (by decide +kernel) d
  have hnumber : ∀ {w : List UInt8}, isdigit (head w) = true ∨ head w = ch '.' →
      w ≠ [] ∧ isspace (head w) = false ∧ isSign (head w) = false := by
    intro w h
    refine ⟨?_, (first_facts h).1, (first_facts h).2.1⟩
    rintro rfl
    exact absurd h (by decide)
  cases h with
  | infinity h => exact h.elim (hletter (.inl rfl)) (hletter (.inl rfl))
  | nan h => exact hletter (.inr rfl) h
  | nanChars h hchars =>
    obtain ⟨hne, hfirst⟩ := hletter (.inr rfl) h
    rw [head_append hne]
    exact ⟨append_ne_nil_of_left_ne_nil hne _, hfirst⟩
  | decimal hm he => exact hnumber (mantissa_first hm)
  | hexadecimal hx hm he => exact hnumber (.inl rfl)

theorem subject_append {spaces sign : List UInt8} (hspaces : ∀ c ∈ spaces, isspace c = true) (hsign : IsSigns sign)
    (hspace : isspace (head t) = false) (hplain : isSign (head t) = false) : subject (spaces ++ (sign ++ t)) = t := by
  have hdrop : (sign ++ t).dropWhile isspace = sign ++ t := by
    refine dropWhile_of_head ?_
    rcases hsign with rfl | rfl | rfl
    · exact hspace
    · rfl
    · rfl
  rw [subject, dropWhile_append_of_pos hspaces, hdrop, unsigned_append hsign hplain]

theorem subject_split (s : List UInt8) : ∃ spaces sign, (∀ c ∈ spaces, isspace c = true) ∧
    s = spaces ++ (Numeral.signText sign ++ subject s) := by
  obtain ⟨sign, hsign⟩ := unsigned_split (s.dropWhile isspace)
  refine ⟨s.takeWhile isspace, sign, fun c hc => mem_takeWhile_imp hc, ?_⟩
  rw [subject, ← hsign, takeWhile_append_dropWhile]

theorem accepted_subject {q : List UInt8} (h : Accepted q) (hs : s = q ++ u) : ∃ w, Subject w ∧ subject s = w ++ u := by
  obtain ⟨spaces, sign, w, hspaces, hsign, hw, rfl⟩ := h
  obtain ⟨hne, hspace, hplain⟩ := subject_first hw
  refine ⟨w, hw, ?_⟩
  rw [hs, append_assoc, append_assoc]
  exact subject_append hspaces hsign (by rwa [head_append hne]) (by rwa [head_append hne])

theorem subject_accepted (h : Subject w) (hs : subject s = w ++ u) : ∃ q, Accepted q ∧ s = q ++ u := by
  obtain ⟨spaces, sign, hspaces, hsplit⟩ := subject_split s
  refine ⟨_, ⟨spaces, _, w, hspaces, isSigns_signText sign, h, rfl⟩, ?_⟩
  conv_lhs => rw [hsplit, hs]
  rw [append_assoc, append_assoc]

theorem bare_iff : BareHex s ↔ Bare (subject s) := by
  constructor
  · rintro ⟨spaces, sign, x, t, hspaces, hsign, hx, rfl, hdigit, hpoint⟩
    rw [subject_append hspaces hsign rfl rfl]
    refine ⟨startsHex_cons hx, ?_⟩
    rw [hasDigit]
    change (digitIn true (head t) || (decide (head t = ch '.') && digitIn true (head t.tail))) = false
    rw [hdigit, Bool.false_or]
    by_cases h : head t = ch '.'
    · rw [hpoint h, Bool.and_false]
    · rw [decide_eq_false h, Bool.false_and]
  · rintro ⟨hhex, hnone⟩
    obtain ⟨spaces, sign, hspaces, hsplit⟩ := subject_split s
    obtain ⟨hzero, hx⟩ := of_decide_eq_true hhex
    rw [hasDigit, Bool.or_eq_false_iff] at hnone
    have htail : (subject s).tail = head (subject s).tail :: (subject s).tail.tail :=
      eq_cons_of_head (by rcases hx with hx | hx <;> rw [hx] <;> decide) rfl
    refine ⟨spaces, _, head (subject s).tail, (subject s).tail.tail, hspaces, isSigns_signText sign, hx, ?_, hnone.1,
      fun h => ?_⟩
    · rw [← htail, ← eq_cons_of_head (by decide) hzero]
      exact hsplit
    · rw [decide_eq_true h, Bool.true_and] at hnone
      exact hnone.2

theorem bare_subjectEnd (h : Bare s) : subjectEnd s = none := by
  have hdigit : isdigit (head s) = true := by rw [(of_decide_eq_true h.1).1]; decide
  rw [subjectEnd_number (.inl hdigit), numeralEnd, h.1, if_pos rfl, h.2, if_neg Bool.false_ne_true]

theorem parse_eq (fuel : ℕ) (s : List UInt8) : parse fuel s =
    if ciPrefix (subject s) ['i', 'n', 'f'] = true then
      some (make (decide (head (s.dropWhile isspace) = ch '-')) 0x7fff000000000000,
        if ciPrefix ((subject s).drop 3) ['i', 'n', 'i', 't', 'y'] = true then ((subject s).drop 3).drop 5
        else (subject s).drop 3)
    else if ciPrefix (subject s) ['n', 'a', 'n'] = true then
      some (make (decide (head (s.dropWhile isspace) = ch '-')) 0x7fff800000000000, nanEnd ((subject s).drop 3))
    else (number fuel (decide (head (s.dropWhile isspace) = ch '-')) (subject s)).map fun r =>
      r.getD (make false 0, s) := rfl

theorem parse_rest {v : Bits} (h : parse fuel s = some (v, rest)) : rest = (subjectEnd (subject s)).getD s := by
  rw [parse_eq] at h
  rw [subjectEnd]
  by_cases hinf : ciPrefix (subject s) ['i', 'n', 'f'] = true
  · rw [if_pos hinf] at h ⊢
    exact (Prod.mk.inj (some.inj h)).2.symm
  rw [if_neg hinf] at h ⊢
  by_cases hnan : ciPrefix (subject s) ['n', 'a', 'n'] = true
  · rw [if_pos hnan] at h ⊢
    exact (Prod.mk.inj (some.inj h)).2.symm
  rw [if_neg hnan] at h ⊢
  obtain ⟨r, hr, heq⟩ := map_eq_some_iff.1 h
  rw [← number_rest hr]
  cases r with
  | none => exact (Prod.mk.inj heq).2.symm
  | some r => exact (congrArg Prod.snd heq).symm

theorem endsRight_iff (s : List UInt8) : EndsRight s ((subjectEnd (subject s)).getD s) ↔ ¬ BareHex s := by
  rw [bare_iff]
  cases hend : subjectEnd (subject s) with
  | some r =>
    have hbare : ¬ Bare (subject s) := fun h => nomatch (bare_subjectEnd h).symm.trans hend
    refine iff_of_true ?_ hbare
    obtain ⟨w, hw, hsplit⟩ := subjectEnd_sound hend
    obtain ⟨p, hp, hs⟩ := subject_accepted hw hsplit
    refine .inl ⟨p, hp, hs, ?_⟩
    rintro q hq ⟨u, hu⟩
    obtain ⟨w', hw', hsplit'⟩ := accepted_subject hq hu.symm
    obtain ⟨r', hr', hle⟩ := subjectEnd_most hw' (hsplit' ▸ hbare)
    rw [← hsplit', hend] at hr'
    cases hr'
    have hlen := congrArg List.length (hu.trans hs)
    rw [length_append, length_append] at hlen
    omega
  | none =>
    rw [getD_none]
    by_cases hbare : Bare (subject s)
    · refine iff_of_false ?_ (not_not.2 hbare)
      obtain ⟨hzero, hx⟩ := of_decide_eq_true hbare.1
      have hsubject : Subject [ch '0'] := by
        have h := Subject.decimal (m := [ch '0']) (e := []) ⟨[ch '0'], [], forall_of_all (by decide), by decide,
          .inl ⟨rfl, rfl⟩⟩ (.inl rfl)
        rwa [append_nil] at h
      obtain ⟨q, hq, hs⟩ := subject_accepted hsubject (s := s) (u := (subject s).tail) (eq_cons_of_head (by decide) hzero)
      rintro (⟨p, hp, heq, -⟩ | ⟨-, hnone⟩)
      · have hnil : p = [] := append_left_eq_self.1 heq.symm
        subst hnil
        obtain ⟨spaces, sign, w, -, -, hw, hnil⟩ := hp
        obtain ⟨-, hnil⟩ := append_eq_nil_iff.1 hnil.symm
        exact (subject_first hw).1 (append_eq_nil_iff.1 hnil).2
      · exact hnone q hq ⟨_, hs.symm⟩
    · refine iff_of_true (.inr ⟨rfl, ?_⟩) hbare
      rintro q hq ⟨u, hu⟩
      obtain ⟨w, hw, hsplit⟩ := accepted_subject hq hu.symm
      obtain ⟨r, hr, -⟩ := subjectEnd_most hw (hsplit ▸ hbare)
      rw [← hsplit, hend] at hr
      cases hr

theorem parse_returns (hlen : s.length < 2 ^ 28) (hfuel : 2 ≤ fuel) : ∃ r, parse fuel s = some r := by
  obtain ⟨spaces, sign, hspaces, hsplit⟩ := subject_split s
  by_cases hend : ∃ r, numeralEnd (subject s) = some r
  · obtain ⟨r, hr⟩ := hend
    obtain ⟨n, hok, rfl, rfl, hbody⟩ := numeralEnd_numeral hr hspaces sign
    have htext : n.text r = s := by rw [Numeral.text, hbody, ← hsplit]
    have hdigits : n.whole.length + n.frac.length ≤ (n.text r).length := by
      have hfrac : n.frac.length ≤ (if n.dot then ch '.' :: n.frac else []).length := by
        cases hdot : n.dot with
        | false => rw [hok.point hdot]; exact Nat.zero_le _
        | true => exact Nat.le_succ _
      rw [Numeral.text, Numeral.body]
      cases n.mark <;> simp only [Numeral.digitsText, length_append, length_cons] <;> omega
    obtain ⟨v, hv, -⟩ := parse_correct_iff hok (hdigits.trans_lt (htext ▸ hlen)) hfuel
    exact ⟨_, htext ▸ hv⟩
  · rw [parse_eq, number_none (eq_none_iff_forall_ne_some.2 fun r hr => hend ⟨r, hr⟩)]
    split
    · exact ⟨_, rfl⟩
    · split <;> exact ⟨_, rfl⟩

end Whole

/-! ### Wide strings -/

/-- The characters up to the first that is not ASCII, or the NUL. -/
def isAscii (c : Nat) : Bool := c ≠ 0 ∧ c < 128

/-- The copy that `luna_binary128_from_wstring` makes of a wide string: its characters are the bits of a `wchar_t`. -/
def ascii (s : List UInt32) : List UInt8 := (s.takeWhile fun c => isAscii c.toNat).map fun c => c.toUInt8

/-- `luna_binary128_from_wstring`: the bits and the offset of the end pointer. -/
def fromWstring (fuel : Nat) (s : List UInt32) : Option (Bits × Nat) :=
  (parse fuel (ascii s)).map fun (v, rest) => (v, (ascii s).length - rest.length)

/-- The ASCII characters that a string begins with. -/
def asciiPrefix (s : List UInt8) : List UInt8 := s.takeWhile fun c => isAscii c.toNat

section Wide
variable {s t p : List UInt8} {fuel : ℕ}

/-- The end of a string, or a character that is not ASCII. -/
def Stops (t : List UInt8) : Prop := isAscii (head t).toNat = false

theorem stops_facts {c : UInt8} (h : isAscii c.toNat = false) : isspace c = false ∧ isSign c = false ∧ isdigit c = false ∧
    isalnum c = false ∧ toLower c = c ∧ ∀ hex, digitOf hex c = none := by
  revert h
  exact forall_byte (P := fun c => isAscii c.toNat = false → isspace c = false ∧ isSign c = false ∧ isdigit c = false ∧
    isalnum c = false ∧ toLower c = c ∧ ∀ hex, digitOf hex c = none) (by decide +kernel) c

theorem ne_of_stops {c d : UInt8} (h : isAscii c.toNat = false) (hd : isAscii d.toNat = true) : c ≠ d := by
  rintro rfl
  exact Bool.noConfusion (h.symm.trans hd)

/-- A test that takes the end of the string and what stops it for the same. -/
theorem head_test {α : Type} {f : UInt8 → α} (h : f (head t) = f 0) (p : List UInt8) : f (head (p ++ t)) = f (head p) := by
  cases p with
  | nil => exact h
  | cons c p => rfl

theorem drop_append_stops {word : List Char} (hword : ∀ c ∈ word, ch c ≠ 0) (h : ciPrefix p word = true) :
    (p ++ t).drop word.length = p.drop word.length ++ t := by
  have hlen := ((ciPrefix_iff hword).1 h).length
  rw [length_take] at hlen
  exact drop_append_of_le_length (Nat.le_of_eq hlen.symm |>.trans (Nat.min_le_right _ _))

theorem dropWhile_append_stops {q : UInt8 → Bool} (h : q (head t) = false) (p : List UInt8) :
    (p ++ t).dropWhile q = p.dropWhile q ++ t := by
  induction p with
  | nil => exact dropWhile_of_head h
  | cons c p ih =>
    rw [cons_append, dropWhile_cons, dropWhile_cons]
    split
    · exact ih
    · rfl

variable (ht : Stops t)
include ht

theorem head_eq_iff {d : UInt8} (hd : isAscii d.toNat = true) (p : List UInt8) : head (p ++ t) = d ↔ head p = d := by
  refine iff_of_eq (head_test (f := fun c => c = d) ?_ p)
  exact (eq_false (ne_of_stops ht hd)).trans (eq_false (ne_of_stops (by decide) hd)).symm

theorem mantissaLoop_append {hex : Bool} : ∀ {p : List UInt8} {m : Mantissa}, mantissaLoop hex m (p ++ t) =
    ((mantissaLoop hex m p).1, (mantissaLoop hex m p).2 ++ t)
  | [], m => by
    rw [nil_append, mantissaLoop_stop ((stops_facts ht).2.2.2.2.2 hex) fun _ => ne_of_stops ht (by decide)]
    rfl
  | c :: p, m => by
    rw [cons_append, mantissaLoop, mantissaLoop]
    cases digitOf hex c with
    | some d => exact mantissaLoop_append
    | none =>
      dsimp only
      split
      · exact mantissaLoop_append
      · rfl

theorem expLoop_append_stops : ∀ {p : List UInt8} {v : ℕ}, expLoop v (p ++ t) = ((expLoop v p).1, (expLoop v p).2 ++ t)
  | [], v => by
    rw [nil_append]
    cases t with
    | nil => rfl
    | cons c t =>
      have hc : isdigit c = false := (stops_facts ht).2.2.1
      exact if_neg (by rw [hc]; exact Bool.false_ne_true)
  | c :: p, v => by
    rw [cons_append, expLoop, expLoop]
    split
    · exact expLoop_append_stops
    · rfl

theorem unsigned_append_stops (p : List UInt8) : unsigned (p ++ t) = unsigned p ++ t := by
  rw [unsigned, unsigned, head_test (f := isSign) ((stops_facts ht).2.1.trans rfl) p]
  split
  · next h =>
    cases p with
    | nil => exact absurd h (by decide)
    | cons c p => rfl
  · rfl

theorem hasExponent_append {hex : Bool} (p : List UInt8) : hasExponent hex (p ++ t) = hasExponent hex p := by
  rw [Bool.eq_iff_iff, hasExponent_iff, hasExponent_iff]
  have hmark : IsMark hex (head (p ++ t)) ↔ IsMark hex (head p) := by
    rw [IsMark, IsMark]
    simp only [head_eq_iff ht (d := ch 'p') rfl, head_eq_iff ht (d := ch 'P') rfl, head_eq_iff ht (d := ch 'e') rfl,
      head_eq_iff ht (d := ch 'E') rfl]
  rw [hmark]
  refine and_congr_right fun h => ?_
  cases p with
  | nil =>
    rw [IsMark] at h
    exact absurd h (by cases hex <;> decide)
  | cons c p =>
    rw [cons_append, tail_cons, tail_cons, unsigned_append_stops ht,
      head_test (f := isdigit) ((stops_facts ht).2.2.1.trans rfl)]

theorem parseExp_append (p : List UInt8) : parseExp (p ++ t) = ((parseExp p).1, (parseExp p).2 ++ t) := by
  have hloop := expLoop_append_stops ht (p := unsigned p) (v := 0)
  rw [← unsigned_append_stops ht] at hloop
  have heq : ∀ q, parseExp q = (if head q = ch '-' then -((expLoop 0 (unsigned q)).1 : ℤ) else (expLoop 0 (unsigned q)).1,
      (expLoop 0 (unsigned q)).2) := fun _ => rfl
  rw [heq, heq, hloop]
  simp only [head_eq_iff ht (d := ch '-') rfl]

theorem exponent_append {hex : Bool} (p : List UInt8) :
    (if hasExponent hex (p ++ t) = true then parseExp (p ++ t).tail else (0, p ++ t)) =
      ((if hasExponent hex p = true then parseExp p.tail else (0, p)).1,
        (if hasExponent hex p = true then parseExp p.tail else (0, p)).2 ++ t) := by
  rw [hasExponent_append ht]
  split
  · next h =>
    cases p with
    | nil => cases hex <;> exact absurd h (by decide)
    | cons c p => exact parseExp_append ht p
  · rfl

theorem startsHex_append (p : List UInt8) : startsHex (p ++ t) = startsHex p := by
  rw [startsHex, startsHex, decide_eq_decide, head_eq_iff ht rfl]
  refine and_congr_right fun h => ?_
  cases p with
  | nil => exact absurd h (by decide)
  | cons c p => rw [cons_append, tail_cons, tail_cons, head_eq_iff ht rfl, head_eq_iff ht rfl]

theorem number_append (fuel : ℕ) (neg : Bool) (p : List UInt8) : number fuel neg (p ++ t) =
    (number fuel neg p).map fun r => r.map fun (v, rest) => (v, rest ++ t) := by
  have htail : (if startsHex p = true then (p ++ t).tail.tail else p ++ t) =
      (if startsHex p = true then p.tail.tail else p) ++ t := by
    split
    · next h =>
      obtain ⟨hzero, hx⟩ := of_decide_eq_true h
      rw [eq_cons_of_head (by decide) hzero]
      have hcons : p.tail = head p.tail :: p.tail.tail :=
        eq_cons_of_head (by rcases hx with hx | hx <;> rw [hx] <;> decide) rfl
      rw [hcons]
      rfl
    · rfl
  have hloop := @mantissaLoop_append t ht (startsHex p) (if startsHex p = true then p.tail.tail else p) .init
  have hexp := @exponent_append t ht (startsHex p)
    (mantissaLoop (startsHex p) .init (if startsHex p = true then p.tail.tail else p)).2
  have heq : ∀ q, number fuel neg q =
      if (mantissaLoop (startsHex q) .init (if startsHex q = true then q.tail.tail else q)).1.any = false then some none
      else
        let m := mantissaLoop (startsHex q) .init (if startsHex q = true then q.tail.tail else q)
        let e := if hasExponent (startsHex q) m.2 = true then parseExp m.2.tail else (0, m.2)
        (if startsHex q = true then pack fuel neg m.1.n (bigInit 1) (int (e.1 - int (4 * m.1.frac)))
          else decimal fuel neg m.1.n (int (e.1 - m.1.frac))).map fun r => some (r, e.2) := fun _ => rfl
  rw [heq, heq, startsHex_append ht, htail, hloop]
  dsimp only
  rw [hexp]
  dsimp only
  by_cases hany : (mantissaLoop (startsHex p) .init (if startsHex p = true then p.tail.tail else p)).1.any = false
  · rw [if_pos hany, if_pos hany]
    rfl
  · rw [if_neg hany, if_neg hany, Option.map_map]
    rfl

theorem ciPrefix_append_stops : ∀ {word : List Char} {p : List UInt8}, (∀ c ∈ word, isAscii (ch c).toNat = true) →
    ciPrefix (p ++ t) word = ciPrefix p word
  | [], p, _ => by rw [ciPrefix, ciPrefix]
  | c :: word, p, hword => by
    have hc := hword c mem_cons_self
    have hlower : (toLower (head (p ++ t)) = ch c) ↔ (toLower (head p) = ch c) := by
      refine iff_of_eq (head_test (f := fun d => toLower d = ch c) ?_ p)
      have htl : toLower (head t) = head t := (stops_facts ht).2.2.2.2.1
      have h0 : toLower 0 = 0 := by decide
      rw [htl, h0]
      exact (eq_false (ne_of_stops ht hc)).trans (eq_false (ne_of_stops (by decide) hc)).symm
    rw [ciPrefix, ciPrefix, decide_eq_decide, hlower]
    refine and_congr_right fun h => ?_
    cases p with
    | nil => exact absurd h (ne_of_stops (by decide) hc)
    | cons d p =>
      rw [cons_append, tail_cons, tail_cons,
        ciPrefix_append_stops fun d hd => hword d (mem_cons_of_mem _ hd)]

theorem nanEnd_append_stops (p : List UInt8) : nanEnd (p ++ t) = nanEnd p ++ t := by
  have hchar : decide (isalnum (head t) = true ∨ head t = ch '_') = false := by
    have := (stops_facts ht).2.2.2.1
    rw [this]
    exact decide_eq_false fun h => h.elim Bool.false_ne_true (ne_of_stops ht (by decide))
  rw [nanEnd, nanEnd]
  simp only [head_eq_iff ht (d := ch '(') rfl]
  split
  · next h =>
    cases p with
    | nil => exact absurd h (by decide)
    | cons c p =>
      have hdrop := dropWhile_append_stops (q := fun c => decide (isalnum c = true ∨ c = ch '_')) hchar p
      rw [cons_append, tail_cons, tail_cons, hdrop]
      simp only [head_eq_iff ht (d := ch ')') rfl]
      split
      · next hclose =>
        rw [eq_cons_of_head (by decide) hclose]
        rfl
      · rfl
  · rfl

theorem subject_append_stops (p : List UInt8) : subject (p ++ t) = subject p ++ t := by
  rw [subject, subject, dropWhile_append_stops (stops_facts ht).1, unsigned_append_stops ht]

/-- What follows the ASCII characters is not looked at. -/
theorem parse_append (fuel : ℕ) (p : List UInt8) :
    parse fuel (p ++ t) = (parse fuel p).map fun (v, rest) => (v, rest ++ t) := by
  have hneg : decide (head ((p ++ t).dropWhile isspace) = ch '-') = decide (head (p.dropWhile isspace) = ch '-') := by
    rw [dropWhile_append_stops (stops_facts ht).1, decide_eq_decide, head_eq_iff ht rfl]
  rw [parse_eq, parse_eq, hneg, subject_append_stops ht, ciPrefix_append_stops ht (forall_of_all (by decide)),
    ciPrefix_append_stops ht (forall_of_all (by decide)), number_append ht]
  split
  · next hinf =>
    have hdrop : (subject p ++ t).drop 3 = (subject p).drop 3 ++ t := drop_append_stops letters_inf hinf
    rw [hdrop, ciPrefix_append_stops ht (forall_of_all (by decide)), map_some]
    split
    · next hinity =>
      have hdrop' : ((subject p).drop 3 ++ t).drop 5 = ((subject p).drop 3).drop 5 ++ t :=
        drop_append_stops letters_inity hinity
      rw [hdrop']
    · rfl
  · split
    · next hnan =>
      have hdrop : (subject p ++ t).drop 3 = (subject p).drop 3 ++ t := drop_append_stops letters_nan hnan
      rw [hdrop, nanEnd_append_stops ht, map_some]
    · rw [Option.map_map, Option.map_map]
      refine congrArg (fun f => Option.map f _) (funext fun r => ?_)
      cases r <;> rfl

/-- The end pointer is right, and the wide string gives the same. -/
structure Reads (s rest : List UInt8) (v : Bits) (fuel : ℕ) : Prop where
  ends : EndsRight s rest
  wide : ∀ w, ascii w = asciiPrefix s → fromWstring fuel w = some (v, s.length - rest.length)

end Wide

section Main
variable {s : List UInt8} {fuel : ℕ}

theorem asciiPrefix_split (s : List UInt8) : ∃ t, Stops t ∧ s = asciiPrefix s ++ t := by
  refine ⟨s.dropWhile fun c => isAscii c.toNat, ?_, (takeWhile_append_dropWhile).symm⟩
  exact head_dropWhile (p := fun c => isAscii c.toNat) (by decide) s

theorem fromWstring_eq {w : List UInt32} (h : ascii w = asciiPrefix s) :
    fromWstring fuel w = (parse fuel s).map fun (v, rest) => (v, s.length - rest.length) := by
  obtain ⟨t, ht, hs⟩ := asciiPrefix_split s
  rw [fromWstring, h]
  conv_rhs => rw [hs, parse_append ht, Option.map_map]
  refine congrArg (fun f => Option.map f _) (funext fun r => ?_)
  obtain ⟨v, rest⟩ := r
  dsimp only [Function.comp_apply]
  rw [length_append, length_append, Nat.add_sub_add_right]

/-- The conversion returns; where it does, it has taken the longest prefix that `strtod` would, and the wide string gives
    the same, exactly if the string has no bare hexadecimal prefix. -/
theorem parse_reads_iff (s : List UInt8) (fuel : ℕ) : (s.length < 2 ^ 28 → 2 ≤ fuel → ∃ r, parse fuel s = some r) ∧
    ∀ v rest, parse fuel s = some (v, rest) → (Reads s rest v fuel ↔ ¬ BareHex s) := by
  refine ⟨parse_returns, fun v rest h => ?_⟩
  have hends := endsRight_iff s
  rw [← parse_rest h] at hends
  rw [← hends]
  exact ⟨fun hreads => hreads.ends, fun hright => ⟨hright, fun w hw => by rw [fromWstring_eq hw, h]; rfl⟩⟩

/-- `0x1.8p`, of which the mark is no exponent. -/
theorem parse_reads_half : ∃ v, parse 2 [ch '0', ch 'x', ch '1', ch '.', ch '8', ch 'p'] = some (v, [ch 'p']) ∧
    (Reads [ch '0', ch 'x', ch '1', ch '.', ch '8', ch 'p'] [ch 'p'] v 2 ↔
      ¬ BareHex [ch '0', ch 'x', ch '1', ch '.', ch '8', ch 'p']) := by
  obtain ⟨⟨v, rest⟩, hr⟩ := (parse_reads_iff [ch '0', ch 'x', ch '1', ch '.', ch '8', ch 'p'] 2).1 (by decide) (by decide)
  have hrest := parse_rest hr
  obtain rfl : rest = [ch 'p'] := hrest.trans (by decide)
  exact ⟨v, hr, (parse_reads_iff _ 2).2 v _ hr⟩

/-- `0x` is not taken at all, though it begins with a zero. -/
theorem parse_bare : parse 2 [ch '0', ch 'x'] = some (make false 0, [ch '0', ch 'x']) ∧ Accepted [ch '0'] ∧
    ¬ EndsRight [ch '0', ch 'x'] [ch '0', ch 'x'] := by
  have hzero : Accepted [ch '0'] := ⟨[], [], [ch '0'] ++ [], nofun, .inl rfl,
    .decimal (m := [ch '0']) ⟨[ch '0'], [], forall_of_all (by decide), by decide, .inl ⟨rfl, rfl⟩⟩ (.inl rfl), rfl⟩
  refine ⟨by decide, hzero, fun h => ?_⟩
  have hends := (endsRight_iff [ch '0', ch 'x']).1 h
  exact hends (bare_iff.2 ⟨by decide, by decide⟩)

end Main

end Lunaria.Binary128
