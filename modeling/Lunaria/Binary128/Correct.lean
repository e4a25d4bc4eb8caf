import Lunaria.Binary128.Parse
import Lunaria.Lib.Trimming

/-! When the bits that `luna_binary128_from_string` gives are those of the number the string denotes, rounded to
    nearest. -/

namespace Lunaria.Binary128
open Rounding Trimming List
open CText (toLower)

/-! ### Numerals -/

/-- A decimal or hexadecimal numeral: blanks, a sign (`true` for minus), the `x` of a hexadecimal one, digits, a point
    and more digits, and an exponent with its mark, sign and digits. -/
structure Numeral where
  spaces : List UInt8
  sign : Option Bool
  mark : Option UInt8
  whole : List UInt8
  dot : Bool
  frac : List UInt8
  exponent : Option (UInt8 × Option Bool × List UInt8)

namespace Numeral

def hex (n : Numeral) : Bool := n.mark.isSome

def neg (n : Numeral) : Bool := n.sign = some true

def signText : Option Bool → List UInt8
  | none => []
  | some false => [ch '+']
  | some true => [ch '-']

def exponentText : Option (UInt8 × Option Bool × List UInt8) → List UInt8
  | none => []
  | some (mark, sign, digits) => mark :: signText sign ++ digits

/-- The digits, the point and what comes after them. -/
def digitsText (n : Numeral) (rest : List UInt8) : List UInt8 :=
  n.whole ++ ((if n.dot then ch '.' :: n.frac else []) ++ (exponentText n.exponent ++ rest))

/-- The numeral after its sign. -/
def body (n : Numeral) (rest : List UInt8) : List UInt8 :=
  match n.mark with
  | none => n.digitsText rest
  | some x => ch '0' :: x :: n.digitsText rest

/-- The string that starts with the numeral. -/
def text (n : Numeral) (rest : List UInt8) : List UInt8 := n.spaces ++ (signText n.sign ++ n.body rest)

/-- The numeral is well formed, and the string goes on with something that is no part of it. -/
structure Ok (n : Numeral) (rest : List UInt8) : Prop where
  spaces : ∀ c ∈ n.spaces, isspace c = true
  mark : ∀ x, n.mark = some x → x = ch 'x' ∨ x = ch 'X'
  digits : ∀ c ∈ n.whole ++ n.frac, (digitOf n.hex c).isSome = true
  digit : n.whole ++ n.frac ≠ []
  point : n.dot = false → n.frac = []
  exponent : ∀ mark sign digits, n.exponent = some (mark, sign, digits) →
    (if n.hex then mark = ch 'p' ∨ mark = ch 'P' else mark = ch 'e' ∨ mark = ch 'E') ∧ digits ≠ [] ∧
      ∀ c ∈ digits, isdigit c = true
  bare : n.exponent = none →
    digitOf n.hex (head rest) = none ∧ (n.dot = false → head rest ≠ ch '.') ∧ hasExponent n.hex rest = false
  ended : n.exponent ≠ none → isdigit (head rest) = false
  radix : n.mark = none → n.exponent = none → n.dot = false → n.whole = [ch '0'] →
    head rest ≠ ch 'x' ∧ head rest ≠ ch 'X'

/-- The number that digits stand for. -/
def digitsValue (hex : Bool) (v : ℕ) (ds : List UInt8) : ℕ :=
  ds.foldl (fun v c => v * (radixOf hex).toNat + ((digitOf hex c).getD 0).toNat) v

/-- All digits, without the point. -/
def mantissa (n : Numeral) : ℕ := digitsValue n.hex 0 (n.whole ++ n.frac)

def signed (sign : Option Bool) (v : ℕ) : ℤ := if sign = some true then -(v : ℤ) else v

def exp (n : Numeral) : ℤ :=
  match n.exponent with
  | none => 0
  | some (_, sign, digits) => signed sign (digitsValue false 0 digits)

/-- The exponent as `parse_exp` reads it: its first six digits. -/
def readExp (n : Numeral) : ℤ :=
  match n.exponent with
  | none => 0
  | some (_, sign, digits) => signed sign (expLoop 0 digits).1

/-- The magnitude of the numeral with an exponent. -/
def valueAt (n : Numeral) (x : ℤ) : ℚ :=
  if n.hex then n.mantissa * 2 ^ (x - 4 * n.frac.length) else n.mantissa * 10 ^ (x - n.frac.length)

def overflow : ℚ := (2 ^ 114 - 1) * 2 ^ 16270

def tiny : ℚ := 2 ^ (-16495 : ℤ)

/-- A zero has an exponent below 4934 after its point is taken out, or is hexadecimal; any other number has an exponent
    of at most six digits, or is out of range on the side of its exponent already with the first six. -/
def Fine (n : Numeral) : Prop :=
  (n.mantissa = 0 → n.hex = false → n.readExp - n.frac.length < 4934) ∧
  (n.mantissa ≠ 0 → n.readExp = n.exp ∨
    if 0 ≤ n.exp then overflow ≤ n.valueAt n.readExp ∨ n.valueAt n.exp ≤ tiny
    else n.valueAt n.readExp ≤ tiny ∨ overflow ≤ n.valueAt n.exp)

end Numeral

open Numeral

/-! ### Reading the exponent -/

section Exponent
variable {ds rest : List UInt8} {v t : ℕ}

/-- What the loop has read: all digits, or the first six of more. -/
def Read (v t : ℕ) : Prop := (t = v ∧ v < 1000000) ∨ (100000 ≤ v ∧ v < 1000000 ∧ 10 * v ≤ t)

theorem digitOf_decimal {c : UInt8} (h : isdigit c = true) : digitOf false c = some (c - ch '0').toUInt32 := by
  unfold isdigit at h
  rw [digitOf, if_pos (by simpa using h)]

theorem digit_toNat {c : UInt8} (h : isdigit c = true) :
    ((digitOf false c).getD 0).toNat = (c - ch '0').toNat ∧ (c - ch '0').toNat < 10 := by
  refine ⟨by rw [digitOf_decimal h]; rfl, ?_⟩
  have hle : ch '0' ≤ c ∧ c ≤ ch '9' := by simpa [isdigit] using h
  rw [UInt8.toNat_sub_of_le _ _ hle.1]
  have h1 := UInt8.le_iff_toNat_le.1 hle.1
  have h2 := UInt8.le_iff_toNat_le.1 hle.2
  simp only [ch, Char.reduceToNat, UInt8.reduceOfNat, UInt8.reduceToNat] at h1 h2 ⊢
  omega

theorem expLoop_append : ∀ {ds : List UInt8} {v : ℕ}, (∀ c ∈ ds, isdigit c = true) →
    isdigit (head rest) = false → expLoop v (ds ++ rest) = ((expLoop v ds).1, rest)
  | [], v, _, hrest => by
    cases rest with
    | nil => rfl
    | cons c s =>
      have hrest : isdigit c = false := hrest
      simp [expLoop, hrest]
  | c :: ds, v, hds, hrest => by
    obtain ⟨hc, hds⟩ := forall_mem_cons.1 hds
    rw [cons_append, expLoop, if_pos hc, expLoop_append hds hrest, expLoop, if_pos hc]

theorem expLoop_read : ∀ {ds : List UInt8} {v t : ℕ}, (∀ c ∈ ds, isdigit c = true) → Read v t →
    Read (expLoop v ds).1 (digitsValue false t ds)
  | [], _, _, _, h => h
  | c :: ds, v, t, hds, h => by
    obtain ⟨hc, hds⟩ := forall_mem_cons.1 hds
    obtain ⟨hval, hlt⟩ := digit_toNat hc
    rw [expLoop, if_pos hc, digitsValue, foldl_cons]
    refine expLoop_read hds ?_
    have hradix : (radixOf false).toNat = 10 := rfl
    rw [hval, hradix]
    unfold Read at h ⊢
    split <;> omega

end Exponent

/-! ### Reading the digits -/

section Digits
variable {hex : Bool} {ds rest : List UInt8} {m : Mantissa}

theorem digitOf_lt (hex : Bool) (c : UInt8) : ((digitOf hex c).getD 0).toNat < (radixOf hex).toNat := by
  have hall : ∀ hex : Bool, ∀ n : Fin 256,
      ((digitOf hex (UInt8.ofNat n.1)).getD 0).toNat < (radixOf hex).toNat := by decide +kernel
  have := hall hex ⟨c.toNat, c.toNat_lt⟩
  rwa [UInt8.ofNat_toNat] at this

theorem digitsValue_append (v : ℕ) (as bs : List UInt8) :
    digitsValue hex v (as ++ bs) = digitsValue hex (digitsValue hex v as) bs := foldl_append

theorem digitsValue_lt : ∀ (v : ℕ) (ds : List UInt8), digitsValue hex v ds < (v + 1) * (radixOf hex).toNat ^ ds.length
  | v, [] => by
    rw [length_nil, pow_zero, mul_one]
    exact Nat.lt_succ_self v
  | v, c :: ds => by
    have hc := digitOf_lt hex c
    have ih := digitsValue_lt (v * (radixOf hex).toNat + ((digitOf hex c).getD 0).toNat) ds
    have hstep : v * (radixOf hex).toNat + ((digitOf hex c).getD 0).toNat + 1 ≤ (v + 1) * (radixOf hex).toNat := by
      rw [Nat.add_mul]
      omega
    calc digitsValue hex v (c :: ds) < _ := ih
      _ ≤ (v + 1) * (radixOf hex).toNat * (radixOf hex).toNat ^ ds.length := Nat.mul_le_mul_right _ hstep
      _ = (v + 1) * (radixOf hex).toNat ^ (c :: ds).length := by rw [length_cons, pow_succ]; ring

theorem radixOf_ne_zero : radixOf hex ≠ 0 := by
  cases hex <;> decide

structure After (hex : Bool) (m m' : Mantissa) (ds : List UInt8) : Prop where
  trimmed : Trimmed m'.n
  value : value m'.n = digitsValue hex (value m.n) ds
  frac : m'.frac = if m.dot then m.frac + ds.length else m.frac
  any : m'.any = (m.any || !ds.isEmpty)
  dot : m'.dot = m.dot

theorem mantissaLoop_digits : ∀ {ds : List UInt8} {m : Mantissa}, (∀ c ∈ ds, (digitOf hex c).isSome = true) →
    Trimmed m.n → 0 ≤ m.frac → m.frac + ds.length < 2 ^ 31 →
    ∃ m', mantissaLoop hex m (ds ++ rest) = mantissaLoop hex m' rest ∧ After hex m m' ds
  | [], m, _, hm, _, _ => ⟨m, rfl, hm, rfl, by simp, by simp, rfl⟩
  | c :: ds, m, hds, hm, hpos, hlen => by
    obtain ⟨hc, hds⟩ := forall_mem_cons.1 hds
    obtain ⟨d, hd⟩ := Option.isSome_iff_exists.1 hc
    rw [length_cons] at hlen
    push_cast at hlen
    have hfrac : int (m.frac + 1) = m.frac + 1 := int_eq (by omega) (by omega)
    obtain ⟨m', hloop, hafter⟩ := mantissaLoop_digits
      (m := ⟨bigAddSmall (bigMulSmall m.n (radixOf hex)) d, if m.dot then int (m.frac + 1) else m.frac, true, m.dot⟩) hds
      (bigAddSmall_trimmed (bigMulSmall_trimmed radixOf_ne_zero hm)) (by dsimp only; split <;> omega)
      (by dsimp only; split <;> omega)
    refine ⟨m', ?_, hafter.trimmed, ?_, ?_, ?_, hafter.dot⟩
    · rw [cons_append, mantissaLoop, hd]
      exact hloop
    · rw [hafter.value, value_bigAddSmall, value_bigMulSmall, digitsValue, digitsValue, foldl_cons, hd]
      rfl
    · rw [hafter.frac, hfrac, length_cons]
      push_cast
      split <;> ring
    · rw [hafter.any]
      simp

theorem mantissaLoop_stop (h : digitOf hex (head rest) = none) (hdot : m.dot = false → head rest ≠ ch '.') :
    mantissaLoop hex m rest = (m, rest) := by
  cases rest with
  | nil => rfl
  | cons c s =>
    have h : digitOf hex c = none := h
    have hdot : m.dot = false → c ≠ ch '.' := hdot
    rw [mantissaLoop, h]
    exact if_neg fun hc => hdot hc.1 hc.2

theorem digitOf_point : digitOf hex (ch '.') = none := by
  cases hex <;> decide

theorem digitOf_mark {c : UInt8} (h : if hex then c = ch 'p' ∨ c = ch 'P' else c = ch 'e' ∨ c = ch 'E') :
    digitOf hex c = none ∧ c ≠ ch '.' := by
  cases hex with
  | false => rcases h with rfl | rfl <;> decide
  | true => rcases h with rfl | rfl <;> decide

end Digits

/-! ### Reading the numeral -/

section Text
variable {n : Numeral} {rest : List UInt8} {fuel : ℕ} {neg : Bool}

theorem exponent_first (hok : n.Ok rest) : digitOf n.hex (head (exponentText n.exponent ++ rest)) = none ∧
    (n.dot = false → head (exponentText n.exponent ++ rest) ≠ ch '.') := by
  cases he : n.exponent with
  | none => exact ⟨(hok.bare he).1, (hok.bare he).2.1⟩
  | some e =>
    obtain ⟨mark, sign, digits⟩ := e
    obtain ⟨hnone, hne⟩ := digitOf_mark (hok.exponent _ _ _ he).1
    exact ⟨hnone, fun _ => hne⟩

theorem mantissaLoop_text (hok : n.Ok rest) (hlen : n.whole.length + n.frac.length < 2 ^ 28) :
    ∃ m, mantissaLoop n.hex .init (n.digitsText rest) = (m, exponentText n.exponent ++ rest) ∧ Trimmed m.n ∧
      value m.n = n.mantissa ∧ m.frac = n.frac.length ∧ m.any = true := by
  have hwhole : ∀ c ∈ n.whole, (digitOf n.hex c).isSome = true := fun c hc => hok.digits c (mem_append_left _ hc)
  have hfrac : ∀ c ∈ n.frac, (digitOf n.hex c).isSome = true := fun c hc => hok.digits c (mem_append_right _ hc)
  obtain ⟨hnone, hpoint⟩ := exponent_first hok
  obtain ⟨m, hloop, hm⟩ := mantissaLoop_digits (m := .init) hwhole trimmed_nil (le_refl _)
    (by show (0 : ℤ) + _ < _; omega)
  have hmfrac : m.frac = 0 := hm.frac
  have hmdot : m.dot = false := hm.dot
  have hmany : m.any = !n.whole.isEmpty := hm.any
  unfold digitsText
  rw [hloop]
  cases hdot : n.dot with
  | false =>
    have hnil := hok.point hdot
    refine ⟨m, ?_, hm.trimmed, ?_, ?_, ?_⟩
    · rw [if_neg Bool.false_ne_true, nil_append]
      exact mantissaLoop_stop hnone fun _ => hpoint hdot
    · rw [hm.value, mantissa, hnil, append_nil]
      rfl
    · rw [hmfrac, hnil]
      rfl
    · have hne := hok.digit
      rw [hnil, append_nil] at hne
      rw [hmany]
      simpa using hne
  | true =>
    obtain ⟨m', hloop', hm'⟩ := mantissaLoop_digits (m := { m with dot := true }) hfrac hm.trimmed hmfrac.ge
      (by rw [hmfrac]; omega)
    refine ⟨m', ?_, hm'.trimmed, ?_, ?_, ?_⟩
    · rw [if_pos rfl, cons_append, mantissaLoop, digitOf_point]
      simp only [hmdot, and_self, if_true]
      rw [hloop']
      exact mantissaLoop_stop hnone fun hd => absurd (hm'.dot.symm.trans hd) Bool.noConfusion
    · rw [hm'.value, hm.value, mantissa, digitsValue_append]
      rfl
    · rw [hm'.frac, if_pos rfl, hmfrac, zero_add]
    · have hne := hok.digit
      rw [hm'.any, hmany]
      cases hw : n.whole with
      | nil =>
        rw [hw, nil_append] at hne
        simpa using hne
      | cons c s => simp

/-- What the character tests say of one another. -/
theorem char_facts (c : UInt8) :
    (isdigit c = true → c ≠ ch 'x' ∧ c ≠ ch 'X') ∧ ((digitOf false c).isSome = true → isdigit c = true) ∧
      (isdigit c = true ∨ c = ch '.' →
        isspace c = false ∧ isSign c = false ∧ c ≠ ch '-' ∧ toLower c ≠ ch 'i' ∧ toLower c ≠ ch 'n') := by
  revert c
  exact forall_byte (by decide +kernel)

variable {c : UInt8}

theorem first_facts (h : isdigit c = true ∨ c = ch '.') :
    isspace c = false ∧ isSign c = false ∧ c ≠ ch '-' ∧ toLower c ≠ ch 'i' ∧ toLower c ≠ ch 'n' :=
  (char_facts c).2.2 h

theorem isSign_of_isdigit (h : isdigit c = true) : isSign c = false ∧ c ≠ ch '-' :=
  ⟨(first_facts (.inl h)).2.1, (first_facts (.inl h)).2.2.1⟩

/-- The exponent is found and read to its end. -/
theorem exponent_text (hok : n.Ok rest) :
    (if hasExponent n.hex (exponentText n.exponent ++ rest) then parseExp (exponentText n.exponent ++ rest).tail
      else (0, exponentText n.exponent ++ rest)) = (n.readExp, rest) := by
  cases he : n.exponent with
  | none =>
    rw [exponentText, nil_append, if_neg (by rw [(hok.bare he).2.2]; exact Bool.false_ne_true), readExp, he]
  | some e =>
    obtain ⟨mark, sign, digits⟩ := e
    obtain ⟨hmark, hne, hdigits⟩ := hok.exponent _ _ _ he
    have hend := hok.ended (by rw [he]; exact Option.some_ne_none _)
    obtain ⟨d, ds, rfl⟩ := exists_cons_of_ne_nil hne
    have hd := hdigits d mem_cons_self
    obtain ⟨hsign, hminus⟩ := isSign_of_isdigit hd
    have hloop := expLoop_append (v := 0) hdigits hend
    have hstart : hasExponent n.hex (exponentText (some (mark, sign, d :: ds)) ++ rest) = true := by
      have hm : (n.hex = true ∧ (mark = ch 'p' ∨ mark = ch 'P')) ∨ (¬ n.hex = true ∧ (mark = ch 'e' ∨ mark = ch 'E')) := by
        by_cases hx : n.hex = true
        · rw [if_pos hx] at hmark
          exact .inl ⟨hx, hmark⟩
        · rw [if_neg hx] at hmark
          exact .inr ⟨hx, hmark⟩
      have hfirst : isdigit (head (if isSign (head (exponentText (some (mark, sign, d :: ds)) ++ rest).tail) then
          (exponentText (some (mark, sign, d :: ds)) ++ rest).tail.tail
          else (exponentText (some (mark, sign, d :: ds)) ++ rest).tail)) = true := by
        match sign with
        | none => simpa [exponentText, signText, head, hsign] using hd
        | some false => exact hd
        | some true => exact hd
      unfold hasExponent
      rw [hfirst]
      simpa [exponentText, head] using hm
    rw [if_pos hstart, readExp, he, exponentText]
    match sign with
    | none =>
      have hp : parseExp (d :: ds ++ rest) = (signed none (expLoop 0 (d :: ds)).1, rest) := by
        simp only [parseExp, head, cons_append, headD_cons, hsign, hminus, signed]
        rw [cons_append] at hloop
        simp [hloop]
      exact hp
    | some false =>
      have hp : parseExp (ch '+' :: (d :: ds ++ rest)) = (signed (some false) (expLoop 0 (d :: ds)).1, rest) := by
        have h1 : isSign (ch '+') = true := rfl
        have h2 : ¬ ch '+' = ch '-' := by decide
        simp only [parseExp, head, headD_cons, tail_cons, h1, h2, if_true, hloop, signed]
        rfl
      exact hp
    | some true =>
      have hp : parseExp (ch '-' :: (d :: ds ++ rest)) = (signed (some true) (expLoop 0 (d :: ds)).1, rest) := by
        have h1 : isSign (ch '-') = true := rfl
        simp only [parseExp, head, headD_cons, tail_cons, h1, if_true, hloop, signed]
      exact hp

theorem isdigit_of_digitOf (h : (digitOf false c).isSome = true) : isdigit c = true := (char_facts c).2.1 h

theorem digit_ne_mark (h : isdigit c = true) : c ≠ ch 'x' ∧ c ≠ ch 'X' := (char_facts c).1 h

theorem not_hex (hok : n.Ok rest) (hmark : n.mark = none) :
    ¬ (head (n.digitsText rest) = ch '0' ∧
      (head (n.digitsText rest).tail = ch 'x' ∨ head (n.digitsText rest).tail = ch 'X')) := by
  have hhex : n.hex = false := by rw [hex, hmark]; rfl
  rintro ⟨hzero, hx⟩
  have hdigit : ∀ c ∈ n.whole ++ n.frac, isdigit c = true := by
    intro c hc
    have := hok.digits c hc
    rw [hhex] at this
    exact isdigit_of_digitOf this
  unfold digitsText at hzero hx
  match hw : n.whole with
  | [] =>
    rw [hw, nil_append] at hzero
    cases hdot : n.dot with
    | false => exact hok.digit (by rw [hw, hok.point hdot]; rfl)
    | true =>
      rw [hdot] at hzero
      have hzero : ch '.' = ch '0' := hzero
      exact absurd hzero (by decide)
  | [c] =>
    rw [hw] at hx hzero
    cases hdot : n.dot with
    | true =>
      rw [hdot] at hx
      have hx : ch '.' = ch 'x' ∨ ch '.' = ch 'X' := hx
      exact absurd hx (by decide)
    | false =>
      rw [hdot] at hx
      cases he : n.exponent with
      | none =>
        rw [he] at hx
        have hc : c = ch '0' := hzero
        obtain ⟨h1, h2⟩ := hok.radix hmark he hdot (by rw [hw, hc])
        exact hx.elim h1 h2
      | some e =>
        obtain ⟨mark, sign, digits⟩ := e
        have hm := (hok.exponent _ _ _ he).1
        rw [he] at hx
        have hx : mark = ch 'x' ∨ mark = ch 'X' := hx
        rw [hhex, if_neg Bool.false_ne_true] at hm
        rcases hm with rfl | rfl <;> exact absurd hx (by decide)
  | c :: d :: ds =>
    rw [hw] at hx
    obtain ⟨h1, h2⟩ := digit_ne_mark (hdigit d (by rw [hw]; simp))
    exact hx.elim h1 h2

/-- What is left to do once a numeral is read. -/
def finish (fuel : ℕ) (n : Numeral) (m : Big) : Option Bits :=
  if n.hex then pack fuel n.neg m (bigInit 1) (int (n.readExp - int (4 * n.frac.length)))
  else decimal fuel n.neg m (int (n.readExp - n.frac.length))

theorem number_text (fuel : ℕ) (hok : n.Ok rest) (hlen : n.whole.length + n.frac.length < 2 ^ 28) :
    ∃ m, Trimmed m ∧ value m = n.mantissa ∧
      number fuel n.neg (n.body rest) = (finish fuel n m).map fun r => some (r, rest) := by
  obtain ⟨m, hloop, htrim, hval, hfrac, hany⟩ := mantissaLoop_text hok hlen
  refine ⟨m.n, htrim, hval, ?_⟩
  have hexp := exponent_text hok
  have hbody : (if (decide (head (n.body rest) = ch '0' ∧
      (head (n.body rest).tail = ch 'x' ∨ head (n.body rest).tail = ch 'X'))) = true then (n.body rest).tail.tail
      else n.body rest) = n.digitsText rest ∧
      decide (head (n.body rest) = ch '0' ∧
        (head (n.body rest).tail = ch 'x' ∨ head (n.body rest).tail = ch 'X')) = n.hex := by
    unfold body
    cases hmark : n.mark with
    | none =>
      have hnot := not_hex hok hmark
      have hhex : n.hex = false := by rw [hex, hmark]; rfl
      dsimp only
      rw [decide_eq_false hnot, hhex]
      exact ⟨rfl, rfl⟩
    | some x =>
      have hx : head (ch '0' :: x :: n.digitsText rest) = ch '0' ∧ (head (ch '0' :: x :: n.digitsText rest).tail = ch 'x' ∨
          head (ch '0' :: x :: n.digitsText rest).tail = ch 'X') := ⟨rfl, hok.mark x hmark⟩
      have hhex : n.hex = true := by rw [hex, hmark]; rfl
      dsimp only
      rw [decide_eq_true hx, hhex]
      exact ⟨rfl, rfl⟩
  unfold number
  dsimp only
  rw [hbody.1, hbody.2, hloop]
  dsimp only
  rw [hany, if_neg Bool.noConfusion, hexp]
  dsimp only
  rw [hfrac]
  rfl

theorem body_first (hok : n.Ok rest) : isdigit (head (n.body rest)) = true ∨ head (n.body rest) = ch '.' := by
  unfold body
  cases hmark : n.mark with
  | some x => exact .inl rfl
  | none =>
    have hhex : n.hex = false := by rw [hex, hmark]; rfl
    show isdigit (head (n.digitsText rest)) = true ∨ head (n.digitsText rest) = ch '.'
    unfold digitsText
    cases hw : n.whole with
    | nil =>
      cases hdot : n.dot with
      | false => exact absurd (by rw [hw, hok.point hdot]; rfl) hok.digit
      | true => exact .inr rfl
    | cons c s =>
      have := hok.digits c (by rw [hw]; simp)
      rw [hhex] at this
      exact .inl (isdigit_of_digitOf this)

theorem dropWhile_spaces {t : List UInt8} (hspaces : ∀ c ∈ n.spaces, isspace c = true) (ht : isspace (head t) = false) :
    (n.spaces ++ t).dropWhile isspace = t := by
  rw [dropWhile_append_of_pos hspaces]
  cases t with
  | nil => rfl
  | cons c s => exact dropWhile_cons_of_neg (by rw [show isspace c = false from ht]; exact Bool.false_ne_true)

theorem parse_text (fuel : ℕ) (hok : n.Ok rest) (hlen : n.whole.length + n.frac.length < 2 ^ 28) :
    ∃ m, Trimmed m ∧ value m = n.mantissa ∧ parse fuel (n.text rest) = (finish fuel n m).map fun r => (r, rest) := by
  obtain ⟨m, htrim, hval, hnumber⟩ := number_text fuel hok hlen
  refine ⟨m, htrim, hval, ?_⟩
  obtain ⟨hspace, hsign, hminus, hi, hn⟩ := first_facts (body_first hok)
  have hdrop : (n.text rest).dropWhile isspace = signText n.sign ++ n.body rest := by
    refine dropWhile_spaces hok.spaces ?_
    match hs : n.sign with
    | none => exact hspace
    | some false => rfl
    | some true => rfl
  have hrest : (if isSign (head (signText n.sign ++ n.body rest)) then (signText n.sign ++ n.body rest).tail
      else signText n.sign ++ n.body rest) = n.body rest ∧
      decide (head (signText n.sign ++ n.body rest) = ch '-') = n.neg := by
    unfold Numeral.neg
    match hs : n.sign with
    | none =>
      rw [signText, nil_append, hsign]
      exact ⟨rfl, decide_eq_false hminus⟩
    | some false => exact ⟨rfl, rfl⟩
    | some true => exact ⟨rfl, rfl⟩
  have hinf : ciPrefix (n.body rest) ['i', 'n', 'f'] = false := by
    rw [ciPrefix]
    exact decide_eq_false fun h => hi h.1
  have hnan : ciPrefix (n.body rest) ['n', 'a', 'n'] = false := by
    rw [ciPrefix]
    exact decide_eq_false fun h => hn h.1
  unfold parse
  dsimp only
  rw [hdrop, hrest.1, hrest.2, hinf, hnan, if_neg Bool.false_ne_true, if_neg Bool.false_ne_true, hnumber, Option.map_map]
  rfl

end Text

/-! ### The value -/

section Value
variable {n : Numeral} {rest : List UInt8} {m : Big} {fuel : ℕ}

theorem two_pow_le_ten_pow {a k e : ℕ} (h : e * 1000 ≤ a * 1000 + k * 3321) : 2 ^ e ≤ 2 ^ a * 10 ^ k := by
  have hlog : 2 ^ 3321 ≤ 10 ^ 1000 := by decide +kernel
  refine (Nat.pow_le_pow_iff_left (show 1000 ≠ 0 by decide)).1 ?_
  calc (2 ^ e) ^ 1000 = 2 ^ (e * 1000) := (pow_mul 2 e 1000).symm
    _ ≤ 2 ^ (a * 1000 + k * 3321) := Nat.pow_le_pow_right (by decide) h
    _ = (2 ^ a) ^ 1000 * (2 ^ 3321) ^ k := by rw [pow_add, pow_mul, ← pow_mul 2 3321, mul_comm 3321 k]
    _ ≤ (2 ^ a) ^ 1000 * (10 ^ 1000) ^ k := Nat.mul_le_mul_left _ (Nat.pow_le_pow_left hlog k)
    _ = (2 ^ a * 10 ^ k) ^ 1000 := by rw [mul_pow, ← pow_mul 10 k 1000, ← pow_mul 10 1000 k, mul_comm k 1000]

theorem exp_read (hok : n.Ok rest) : ∃ sign v t, n.readExp = signed sign v ∧ n.exp = signed sign t ∧ Read v t := by
  unfold readExp Numeral.exp
  cases he : n.exponent with
  | none => exact ⟨none, 0, 0, rfl, rfl, .inl ⟨rfl, by decide⟩⟩
  | some e =>
    obtain ⟨mark, sign, digits⟩ := e
    exact ⟨sign, _, _, rfl, rfl, expLoop_read (hok.exponent _ _ _ he).2.2 (.inl ⟨rfl, by decide⟩)⟩

theorem readExp_bounds (hok : n.Ok rest) : -1000000 < n.readExp ∧ n.readExp < 1000000 := by
  obtain ⟨sign, v, t, hread, -, hrt⟩ := exp_read hok
  rw [hread]
  unfold Read at hrt
  unfold signed
  split <;> omega

theorem bigBits_mantissa (htrim : Trimmed m) (hval : value m = n.mantissa) :
    bigBits m ≤ 4 * (n.whole.length + n.frac.length) := by
  rw [bigBits_le htrim, hval, mantissa, pow_mul, ← length_append]
  have hlt := @digitsValue_lt n.hex 0 (n.whole ++ n.frac)
  rw [zero_add, one_mul] at hlt
  refine lt_of_lt_of_le hlt (Nat.pow_le_pow_left ?_ _)
  cases n.hex <;> decide

theorem bigInit_one : Trimmed (bigInit 1) ∧ value (bigInit 1) = 1 ∧ bigInit 1 ≠ [] ∧ bigBits (bigInit 1) = 1 := by
  refine ⟨by simp [bigInit, Trimmed], rfl, by decide, by decide⟩

theorem finish_hex (hok : n.Ok rest) (hlen : n.whole.length + n.frac.length < 2 ^ 28) (htrim : Trimmed m)
    (hval : value m = n.mantissa) (hhex : n.hex = true) (hfuel : 2 ≤ fuel) :
    ∃ r, finish fuel n m = some r ∧ Encodes n.neg (n.valueAt n.readExp) r := by
  obtain ⟨hlo, hhi⟩ := readExp_bounds hok
  have hbits := bigBits_mantissa htrim hval
  obtain ⟨ht1, hv1, hne1, hb1⟩ := bigInit_one
  have hfour : int (4 * n.frac.length) = 4 * n.frac.length := int_eq (by omega) (by omega)
  have hexp : int (n.readExp - 4 * n.frac.length) = n.readExp - 4 * n.frac.length := int_eq (by omega) (by omega)
  have hq : quotient m (bigInit 1) (n.readExp - 4 * n.frac.length) = n.valueAt n.readExp := by
    rw [quotient, hv1, hval, valueAt, if_pos hhex, Nat.cast_one, div_one]
  rw [finish, if_pos hhex, hfour, hexp, ← hq]
  exact pack_encodes htrim ht1 hne1 ⟨by omega, by omega, by omega, by omega⟩ hfuel

variable {k : ℕ} {neg : Bool}

/-- The two tests that keep `parse` from building a power that is not needed. -/
theorem decimal_overflow (htrim : Trimmed m) (hne : m ≠ [])
    (h : 16384 * 1000 < ((bigBits m : ℤ) - 1) * 1000 + k * 3321) : overflow ≤ (value m : ℚ) * 10 ^ (k : ℤ) := by
  obtain ⟨hlow, -, hpos⟩ := value_bits htrim hne
  have hpow := two_pow_le_ten_pow (a := bigBits m - 1) (k := k) (e := 16384) (by omega)
  have hnat : 2 ^ 16384 ≤ value m * 10 ^ k := le_trans hpow (Nat.mul_le_mul_right _ hlow)
  refine overflow_le ?_
  have hexp : (2 : ℚ) ^ (16384 : ℤ) = ((2 ^ 16384 : ℕ) : ℚ) := by
    rw [Nat.cast_pow]
    exact zpow_natCast 2 16384
  rw [hexp, zpow_natCast]
  exact_mod_cast hnat

theorem decimal_tiny (htrim : Trimmed m) (h : (bigBits m : ℤ) * 1000 - k * 3321 < -16495 * 1000) :
    (value m : ℚ) * 10 ^ (-(k : ℤ)) ≤ tiny := by
  have hhigh := (bigBits_le htrim).1 (le_refl (bigBits m))
  have hpow := two_pow_le_ten_pow (a := 0) (k := k) (e := bigBits m + 16495) (by omega)
  rw [pow_zero, one_mul, pow_add] at hpow
  have hnat : value m * 2 ^ 16495 ≤ 10 ^ k := le_trans (Nat.mul_le_mul_right _ hhigh.le) hpow
  have hrat : (value m : ℚ) * 2 ^ 16495 ≤ 10 ^ k := by exact_mod_cast hnat
  have hexp : (2 : ℚ) ^ (-16495 : ℤ) = (2 ^ 16495)⁻¹ := by
    rw [zpow_neg]
    exact congrArg _ (zpow_natCast 2 16495)
  rw [tiny, hexp, zpow_neg, zpow_natCast, ← div_eq_mul_inv, div_le_iff₀ (by positivity), inv_mul_eq_div,
    le_div_iff₀ (by positivity)]
  exact hrat

theorem bigBits_pow5 (k : ℕ) : bigBits (bigPow5 k) ≤ 3 * k + 1 := by
  obtain ⟨hval, htrim⟩ := bigPow5_spec k
  rw [bigBits_le htrim, hval, pow_succ, pow_mul]
  have hle : 5 ^ k ≤ (2 ^ 3) ^ k := Nat.pow_le_pow_left (by decide) k
  have hpos : 0 < (2 ^ 3) ^ k := Nat.pow_pos (by decide)
  omega

/-- A decimal numeral with a power of ten to multiply with. -/
theorem pack_product (htrim : Trimmed m) (hbits : bigBits m < 2 ^ 20) (hk : k < 2 ^ 20) (hfuel : 2 ≤ fuel) :
    ∃ r, pack fuel neg (bigMul m (bigPow5 k)) (bigInit 1) k = some r ∧ Encodes neg ((value m : ℚ) * 10 ^ (k : ℤ)) r := by
  obtain ⟨hval5, htrim5⟩ := bigPow5_spec k
  obtain ⟨ht1, hv1, hne1, hb1⟩ := bigInit_one
  have htrimM : Trimmed (bigMul m (bigPow5 k)) := trimmed_bigTrim _
  have hbitsM : bigBits (bigMul m (bigPow5 k)) ≤ bigBits m + (3 * k + 1) := by
    rw [bigBits_le htrimM, value_bigMul, pow_add]
    exact Nat.mul_lt_mul'' ((bigBits_le htrim).1 (le_refl _)) ((bigBits_le htrim5).1 (bigBits_pow5 k))
  have hq : quotient (bigMul m (bigPow5 k)) (bigInit 1) k = (value m : ℚ) * 10 ^ (k : ℤ) := by
    rw [quotient, hv1, value_bigMul, hval5, Nat.cast_one, div_one, zpow_natCast, zpow_natCast]
    push_cast
    rw [mul_assoc, ← mul_pow]
    norm_num
  rw [← hq]
  exact pack_encodes htrimM ht1 hne1 ⟨by omega, by omega, by omega, by omega⟩ hfuel

/-- A decimal numeral with a power of ten to divide by. -/
theorem pack_ratio (htrim : Trimmed m) (hbits : bigBits m ≤ 2 ^ 30) (hk : k < 2 ^ 28 + 2 ^ 20)
    (hfuel : 2 ≤ fuel) :
    ∃ r, pack fuel neg m (bigPow5 k) (-(k : ℤ)) = some r ∧ Encodes neg ((value m : ℚ) * 10 ^ (-(k : ℤ))) r := by
  obtain ⟨hval5, htrim5⟩ := bigPow5_spec k
  have hne5 : bigPow5 k ≠ [] := by
    intro hnil
    rw [hnil, value_nil] at hval5
    exact absurd hval5 (Nat.pow_pos (by decide)).ne
  have hbits5 := bigBits_pow5 k
  have hq : quotient m (bigPow5 k) (-(k : ℤ)) = (value m : ℚ) * 10 ^ (-(k : ℤ)) := by
    rw [quotient, hval5, zpow_neg, zpow_neg, zpow_natCast, zpow_natCast]
    push_cast
    rw [div_eq_mul_inv, mul_assoc, ← mul_inv, ← mul_pow]
    norm_num
  rw [← hq]
  exact pack_encodes htrim htrim5 hne5 ⟨by omega, by omega, by omega, by omega⟩ hfuel

/-- A decimal numeral: the number that is read is encoded, but for a zero with a great exponent. -/
theorem finish_decimal (hok : n.Ok rest) (hlen : n.whole.length + n.frac.length < 2 ^ 28) (htrim : Trimmed m)
    (hval : value m = n.mantissa) (hhex : n.hex = false) (hfuel : 2 ≤ fuel) : ∃ r, finish fuel n m = some r ∧
      if n.mantissa = 0 ∧ 4934 ≤ n.readExp - n.frac.length then r = make n.neg 0x7fff000000000000
      else Encodes n.neg (n.valueAt n.readExp) r := by
  obtain ⟨hlo, hhi⟩ := readExp_bounds hok
  have hbits := bigBits_mantissa htrim hval
  have hexp : int (n.readExp - n.frac.length) = n.readExp - n.frac.length := int_eq (by omega) (by omega)
  have hvalue : n.valueAt n.readExp = (value m : ℚ) * 10 ^ (n.readExp - n.frac.length) := by
    rw [valueAt, if_neg (by rw [hhex]; exact Bool.false_ne_true), hval]
  have hzero : (n.mantissa = 0) = (m = []) := by rw [← hval, htrim.value_eq_zero]
  have hnil : m = [] → bigBits m = 0 := fun h => by rw [h]; rfl
  have hnonneg : (0 : ℚ) ≤ (value m : ℚ) * 10 ^ (n.readExp - n.frac.length) := by positivity
  rw [finish, if_neg (by rw [hhex]; exact Bool.false_ne_true), hexp, hvalue, decimal, bits_eq (by omega)]
  simp only [hzero]
  have hdec : -(2 ^ 28 + 2 ^ 20) < n.readExp - n.frac.length ∧ n.readExp - n.frac.length < 2 ^ 20 := by omega
  generalize n.readExp - (n.frac.length : ℤ) = dec at *
  by_cases hover : 0 ≤ dec ∧ 16384 * 1000 < ((bigBits m : ℤ) - 1) * 1000 + dec * 3321
  · rw [if_pos hover]
    refine ⟨_, rfl, ?_⟩
    obtain ⟨k, rfl⟩ := Int.eq_ofNat_of_zero_le hover.1
    split
    · rfl
    · rename_i hcond
      refine infinity_encodes (decimal_overflow htrim (fun h => hcond ⟨h, ?_⟩) hover.2)
      have := hnil h
      omega
  · have hcond : ¬ (m = [] ∧ 4934 ≤ dec) := fun h => hover ⟨by omega, by rw [hnil h.1]; omega⟩
    simp only [if_neg hover, if_neg hcond]
    by_cases hneg : dec < 0
    · obtain ⟨k, rfl⟩ : ∃ k : ℕ, dec = -(k : ℤ) := ⟨(-dec).toNat, by omega⟩
      by_cases htiny : -(k : ℤ) < 0 ∧ (bigBits m : ℤ) * 1000 + -(k : ℤ) * 3321 < -16495 * 1000
      · rw [if_pos htiny]
        exact ⟨_, rfl, zero_encodes hnonneg (decimal_tiny htrim (by linarith [htiny.2]))⟩
      · have hint : (int (-(-(k : ℤ)))).toNat = k := by
          rw [neg_neg, int_eq (by omega) (by omega), Int.toNat_natCast]
        rw [if_neg htiny, if_neg (by omega), hint]
        exact pack_ratio htrim (by omega) (by omega) hfuel
    · obtain ⟨k, rfl⟩ := Int.eq_ofNat_of_zero_le (not_lt.1 hneg)
      rw [if_neg (fun h => hneg h.1), if_pos (by omega)]
      exact pack_product htrim (by omega) (by omega) hfuel

/-! ### The string -/

/-- Bits that are right for a number out of range are right for the others on that side. -/
theorem Encodes.of_overflow {V W : ℚ} {r : Bits} (h : Encodes neg V r) (hV : overflow ≤ V) (hW : overflow ≤ W) :
    Encodes neg W r := by
  have hmake : Encodes neg W (make neg 0x7fff000000000000) := infinity_encodes hW
  have hcode := (h.infinite.2 hV).trans (hmake.infinite.2 hW).symm
  refine .of_nearest (le_trans (by unfold overflow; positivity) hW) h.sign ?_
  rw [hcode]
  exact hmake.nearest

theorem Encodes.of_tiny {V W : ℚ} {r : Bits} (h : Encodes neg V r) (hV : V ≤ tiny) (hW : 0 ≤ W)
    (hW' : W ≤ tiny) : Encodes neg W r := by
  have hmake : Encodes neg W (make neg 0) := zero_encodes hW hW'
  have hcode := (h.zero.2 hV).trans (hmake.zero.2 hW').symm
  refine .of_nearest hW h.sign ?_
  rw [hcode]
  exact hmake.nearest

/-- All numbers between the least and the greatest are within a factor. -/
theorem overflow_le_tiny {d : ℕ} (hd : 32879 ≤ d) : overflow ≤ tiny * 2 ^ d := by
  refine overflow_le ?_
  rw [tiny, ← zpow_natCast, ← zpow_add₀ two_ne_zero]
  exact zpow_le_zpow_right₀ one_le_two (by omega)

section Far
variable {neg : Bool} {V W : ℚ} {r : Bits} {d : ℕ}

theorem Encodes.not_both (hd : 32879 ≤ d) (hfar : V * 2 ^ d ≤ W) (hV : Encodes neg V r) (hW : Encodes neg W r) :
    overflow ≤ V ∨ W ≤ tiny := by
  by_contra hnot
  obtain ⟨hlow, hhigh⟩ := not_or.1 hnot
  have hV' : tiny < V := not_le.1 fun h => hhigh (hW.zero.1 (hV.zero.2 h))
  have hW' : W < overflow := not_le.1 fun h => hlow (hV.infinite.1 (hW.infinite.2 h))
  have hgrow : tiny * 2 ^ d ≤ V * 2 ^ d := mul_le_mul_of_nonneg_right hV'.le (by positivity)
  exact absurd (le_trans (overflow_le_tiny hd) (le_trans hgrow hfar)) (not_le.2 hW')

/-- The bits of two numbers far from each other are the same only out of range. -/
theorem Encodes.iff_above (hd : 32879 ≤ d) (hpos : 0 ≤ V) (hle : V ≤ W) (hfar : V * 2 ^ d ≤ W) (h : Encodes neg V r) :
    Encodes neg W r ↔ overflow ≤ V ∨ W ≤ tiny := by
  constructor
  · intro hW
    exact h.not_both hd hfar hW
  · rintro (hV | hW)
    · exact h.of_overflow hV (hV.trans hle)
    · exact h.of_tiny (hle.trans hW) (hpos.trans hle) hW

theorem Encodes.iff_below (hd : 32879 ≤ d) (hpos : 0 ≤ V) (hle : V ≤ W) (hfar : V * 2 ^ d ≤ W) (h : Encodes neg W r) :
    Encodes neg V r ↔ W ≤ tiny ∨ overflow ≤ V := by
  constructor
  · intro hV
    exact (hV.not_both hd hfar h).symm
  · rintro (hW | hV)
    · exact h.of_tiny hW hpos (hle.trans hW)
    · exact h.of_overflow (hV.trans hle) hV

end Far

theorem valueAt_nonneg (n : Numeral) (x : ℤ) : 0 ≤ n.valueAt x := by
  unfold valueAt
  split <;> positivity

theorem valueAt_far {x y : ℤ} {d : ℕ} (h : x + d ≤ y) :
    n.valueAt x ≤ n.valueAt y ∧ n.valueAt x * 2 ^ d ≤ n.valueAt y := by
  have hgrow : n.valueAt x * 2 ^ d ≤ n.valueAt y := by
    unfold valueAt
    split
    · rw [mul_assoc, ← zpow_natCast, ← zpow_add₀ two_ne_zero]
      exact mul_le_mul_of_nonneg_left (zpow_le_zpow_right₀ one_le_two (by omega)) (by positivity)
    · have hten : (2 : ℚ) ^ d ≤ 10 ^ d := pow_le_pow_left₀ zero_le_two (by norm_num) d
      rw [mul_assoc]
      refine mul_le_mul_of_nonneg_left (le_trans (mul_le_mul_of_nonneg_left hten (by positivity)) ?_) (by positivity)
      rw [← zpow_natCast, ← zpow_add₀ (by norm_num)]
      exact zpow_le_zpow_right₀ (by norm_num) (by omega)
  exact ⟨le_trans (le_mul_of_one_le_right (valueAt_nonneg n x) (one_le_pow₀ one_le_two)) hgrow, hgrow⟩

theorem exp_far (hok : n.Ok rest) (hne : n.readExp ≠ n.exp) :
    ∃ d : ℕ, 32879 ≤ d ∧ (0 ≤ n.exp ∧ n.readExp + d ≤ n.exp ∨ n.exp < 0 ∧ n.exp + d ≤ n.readExp) := by
  obtain ⟨sign, v, t, hread, hexp, hrt⟩ := exp_read hok
  refine ⟨900000, by decide, ?_⟩
  rw [hread, hexp] at hne ⊢
  unfold Read at hrt
  unfold signed at hne ⊢
  split at hne
  · rename_i hs
    rw [if_pos hs, if_pos hs]
    omega
  · rename_i hs
    rw [if_neg hs, if_neg hs]
    omega

theorem valueAt_zero (h : n.mantissa = 0) (x : ℤ) : n.valueAt x = 0 := by
  unfold valueAt
  rw [h, Nat.cast_zero, zero_mul, zero_mul, ite_self]

theorem infinity_not_zero : ¬ Encodes neg 0 (make neg 0x7fff000000000000) := by
  intro h
  have hcode := h.zero.2 (by positivity)
  rw [code_make (by norm_num)] at hcode
  cases hcode

/-- What is given for a numeral, and when that is right. -/
theorem finish_iff (hok : n.Ok rest) (hlen : n.whole.length + n.frac.length < 2 ^ 28) (htrim : Trimmed m)
    (hval : value m = n.mantissa) (hfuel : 2 ≤ fuel) :
    ∃ r, finish fuel n m = some r ∧ (Encodes n.neg (n.valueAt n.exp) r ↔ n.Fine) := by
  by_cases hmant : n.mantissa = 0
  · rw [valueAt_zero hmant]
    have hfine : n.Fine ↔ (n.hex = false → n.readExp - n.frac.length < 4934) :=
      ⟨fun h => h.1 hmant, fun h => ⟨fun _ => h, fun hne => absurd hmant hne⟩⟩
    rw [hfine]
    cases hhex : n.hex with
    | true =>
      obtain ⟨r, hr, henc⟩ := finish_hex hok hlen htrim hval hhex hfuel
      rw [valueAt_zero hmant] at henc
      exact ⟨r, hr, iff_of_true henc Bool.noConfusion⟩
    | false =>
      obtain ⟨r, hr, henc⟩ := finish_decimal hok hlen htrim hval hhex hfuel
      rw [valueAt_zero hmant] at henc
      refine ⟨r, hr, ?_⟩
      by_cases hbig : 4934 ≤ n.readExp - n.frac.length
      · rw [if_pos ⟨hmant, hbig⟩] at henc
        rw [henc]
        exact iff_of_false infinity_not_zero fun h => absurd (h rfl) (not_lt.2 hbig)
      · rw [if_neg fun h => hbig h.2] at henc
        exact iff_of_true henc fun _ => not_le.1 hbig
  · obtain ⟨r, hr, henc⟩ : ∃ r, finish fuel n m = some r ∧ Encodes n.neg (n.valueAt n.readExp) r := by
      cases hhex : n.hex with
      | true => exact finish_hex hok hlen htrim hval hhex hfuel
      | false =>
        obtain ⟨r, hr, henc⟩ := finish_decimal hok hlen htrim hval hhex hfuel
        rw [if_neg fun h => hmant h.1] at henc
        exact ⟨r, hr, henc⟩
    refine ⟨r, hr, ?_⟩
    by_cases hsame : n.readExp = n.exp
    · rw [← hsame]
      exact iff_of_true henc ⟨fun h => absurd h hmant, fun _ => .inl hsame⟩
    have hfine : n.Fine ↔ if 0 ≤ n.exp then overflow ≤ n.valueAt n.readExp ∨ n.valueAt n.exp ≤ tiny
        else n.valueAt n.readExp ≤ tiny ∨ overflow ≤ n.valueAt n.exp :=
      ⟨fun h => (h.2 hmant).resolve_left hsame, fun h => ⟨fun hzero => absurd hzero hmant, fun _ => .inr h⟩⟩
    rw [hfine]
    obtain ⟨d, hd, ⟨hsign, hfar⟩ | ⟨hsign, hfar⟩⟩ := exp_far hok hsame
    · obtain ⟨hle, hfar⟩ := valueAt_far (n := n) hfar
      rw [if_pos hsign]
      exact henc.iff_above hd (valueAt_nonneg n _) hle hfar
    · obtain ⟨hle, hfar⟩ := valueAt_far (n := n) hfar
      rw [if_neg (not_le.2 hsign)]
      exact henc.iff_below hd (valueAt_nonneg n _) hle hfar

/-- `luna_binary128_from_string` reads every numeral to its end, and gives the bits of its number rounded to nearest
    exactly when the numeral is fine. (From 2^28 digits on the counters of the source overflow.) -/
theorem parse_correct_iff (hok : n.Ok rest) (hdigits : n.whole.length + n.frac.length < 2 ^ 28) (hfuel : 2 ≤ fuel) :
    ∃ r, parse fuel (n.text rest) = some (r, rest) ∧ (Encodes n.neg (n.valueAt n.exp) r ↔ n.Fine) := by
  obtain ⟨m, htrim, hval, hparse⟩ := parse_text fuel hok hdigits
  obtain ⟨r, hr, hiff⟩ := finish_iff hok hdigits htrim hval hfuel
  refine ⟨r, ?_, hiff⟩
  rw [hparse, hr]
  rfl

/-- `-1.5`. -/
def oneAndHalf : Numeral := ⟨[], some true, none, [ch '1'], true, [ch '5'], none⟩

theorem oneAndHalf_ok : oneAndHalf.Ok [] where
  spaces := nofun
  mark := nofun
  digits := List.all_eq_true.1 rfl
  digit := by decide
  point := nofun
  exponent := nofun
  bare := by decide
  ended := by decide
  radix := by decide

theorem parse_oneAndHalf : oneAndHalf.Fine ∧ ∃ r, parse 2 (oneAndHalf.text []) = some (r, []) ∧
    (Encodes oneAndHalf.neg (oneAndHalf.valueAt oneAndHalf.exp) r ↔ oneAndHalf.Fine) :=
  ⟨⟨fun h => absurd h (by decide), fun _ => .inl rfl⟩, parse_correct_iff oneAndHalf_ok (by decide) (by decide)⟩

/-- `0e5000`. -/
def zeroNumeral : Numeral := ⟨[], none, none, [ch '0'], false, [], some (ch 'e', none, [ch '5', ch '0', ch '0', ch '0'])⟩

theorem zeroNumeral_ok : zeroNumeral.Ok [] where
  spaces := nofun
  mark := nofun
  digits := List.all_eq_true.1 rfl
  digit := by decide
  point := fun _ => rfl
  exponent := by
    rintro _ _ _ ⟨⟩
    exact ⟨.inl rfl, by decide, List.all_eq_true.1 rfl⟩
  bare := nofun
  ended := by decide
  radix := nofun

/-- With no bit in the mantissa the test for an infinity still looks at the exponent. -/
theorem parse_zero_infinity : zeroNumeral.Ok [] ∧ zeroNumeral.valueAt zeroNumeral.exp = 0 ∧
    parse 2 (zeroNumeral.text []) = some (make false 0x7fff000000000000, []) ∧
    ¬ Encodes zeroNumeral.neg (zeroNumeral.valueAt zeroNumeral.exp) (make false 0x7fff000000000000) := by
  have hzero : zeroNumeral.valueAt zeroNumeral.exp = 0 := valueAt_zero (by decide) _
  refine ⟨zeroNumeral_ok, hzero, by decide, ?_⟩
  rw [hzero]
  exact infinity_not_zero

end Value

end Lunaria.Binary128
