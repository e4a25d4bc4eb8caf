import Mathlib.Data.Nat.Log
import Mathlib.Tactic.Ring
import Mathlib.Tactic.Linarith
import Mathlib.Data.Nat.Bitwise

/-! The magnitudes of `binary128.c`: words of 32 bits, the lowest first, without a zero word at the top. Memory is
    taken to be there, so that the capacity and the mark of a failed allocation are left out. Every operation does
    on the words what its name says about the number. -/

namespace Lunaria.Binary128
open List Nat

/-- The words in use. -/
abbrev Big := List UInt32

/-! ### The operations -/

/-- `big_init`. -/
def bigInit (v : UInt32) : Big := if v ≠ 0 then [v] else []

def bigTrim : Big → Big
  | [] => []
  | w :: ws =>
    match bigTrim ws with
    | [] => if w = 0 then [] else [w]
    | t => w :: t

/-- `__builtin_clz` on a word that is not zero. -/
def clz (w : UInt32) : Nat := 31 - w.toNat.log2

/-- `big_bits`, before it is cast to `int`. -/
def bigBits (b : Big) : Nat :=
  match b.getLast? with
  | none => 0
  | some w => (b.length - 1) * 32 + 32 - clz w

/-- A word and a carry pushed after the last word, where there is one. -/
def bigPush (carry : Nat) : Big := if carry ≠ 0 then [UInt32.ofNat carry] else []

def mulLoop (m : UInt32) : Nat → Big → Big
  | carry, [] => bigPush carry
  | carry, w :: ws =>
    let p := w.toNat * m.toNat + carry
    UInt32.ofNat p :: mulLoop m (p >>> 32) ws

/-- `big_mul_small`. -/
def bigMulSmall (b : Big) (m : UInt32) : Big := mulLoop m 0 b

def addLoop : Nat → Big → Big
  | carry, [] => bigPush carry
  | carry, w :: ws =>
    if carry = 0 then w :: ws
    else
      let s := w.toNat + carry
      UInt32.ofNat s :: addLoop (s >>> 32) ws

/-- `big_add_small`. -/
def bigAddSmall (b : Big) (a : UInt32) : Big := addLoop a.toNat b

def shlLoop (bits : Nat) : Nat → Big → Big
  | carry, [] => bigPush carry
  | carry, w :: ws =>
    let v := w.toNat <<< bits ||| carry
    UInt32.ofNat v :: shlLoop bits (v >>> 32) ws

/-- `big_shl`. -/
def bigShl (b : Big) (n : Int) : Big :=
  if b = [] ∨ n ≤ 0 then b
  else
    let words := n.toNat / 32
    let bits := n.toNat % 32
    replicate words 0 ++ if bits = 0 then b else shlLoop bits 0 b

/-- The loop of `big_shr1` from the top word down: the words and the bit shifted out below. -/
def shrLoop : Big → Big × UInt32
  | [] => ([], 0)
  | w :: ws =>
    let (ws, carry) := shrLoop ws
    ((w >>> 1 ||| carry <<< 31) :: ws, w &&& 1)

/-- `big_shr1`. -/
def bigShr1 (b : Big) : Big := bigTrim (shrLoop b).1

/-- The words of `big_cmp`, from the top down. -/
def cmpLoop : Big → Big → Int
  | a :: as, b :: bs =>
    let r := cmpLoop as bs
    if r ≠ 0 then r else if a ≠ b then if a < b then -1 else 1 else 0
  | _, _ => 0

def bigCmp (a b : Big) : Int :=
  if a.length ≠ b.length then if a.length < b.length then -1 else 1 else cmpLoop a b

def subLoop : Nat → Big → Big → Big
  | _, [], _ => []
  | borrow, a :: as, bs =>
    let bv := (bs.headD 0).toNat + borrow
    -- the difference of two 64-bit numbers, cut to a word
    UInt32.ofNat (a.toNat + 2 ^ 64 - bv) :: subLoop (if a.toNat < bv then 1 else 0) as bs.tail

/-- `big_sub`, of a number that is not smaller. -/
def bigSub (a b : Big) : Big := bigTrim (subLoop 0 a b)

/-- `big_set_bit`. -/
def bigSetBit (b : Big) (bit : Nat) : Big :=
  let i := bit / 32
  let b := b ++ replicate (i + 1 - b.length) 0
  b.set i (b.getD i 0 ||| UInt32.ofNat (1 <<< (bit % 32)))

/-- `big_odd`. -/
def bigOdd (b : Big) : Bool := b ≠ [] ∧ b.headD 0 &&& 1 ≠ 0

/-- `big_word64`. -/
def bigWord64 (b : Big) (i : Nat) : Nat := (b.getD i 0).toNat ||| (b.getD (i + 1) 0).toNat <<< 32

/-- `big_pow5`. -/
def bigPow5 : Nat → Big
  | 0 => bigInit 1
  | n + 1 => bigMulSmall (bigPow5 n) 5

/-- One row of the schoolbook multiplication of `parse`: the words of the product from `i` on. -/
def mulRow (n : UInt32) : Nat → Big → Big → Big
  | carry, f :: fs, p :: ps =>
    let cur := p.toNat + n.toNat * f.toNat + carry
    UInt32.ofNat cur :: mulRow n (cur >>> 32) fs ps
  | carry, [], p :: ps =>
    if carry = 0 then p :: ps
    else
      let cur := p.toNat + carry
      UInt32.ofNat cur :: mulRow n (cur >>> 32) [] ps
  | _, _, [] => []

/-- The rows, on the words of the product that the rows before have not left behind. -/
def mulRows : Big → Big → Big → Big
  | [], _, ps => ps
  | n :: ns, f, ps =>
    match mulRow n 0 f ps with
    | [] => []
    | p :: ps => p :: mulRows ns f ps

/-- The product of `parse`. -/
def bigMul (n f : Big) : Big := bigTrim (mulRows n f (replicate (n.length + f.length) 0))

/-! ### Their values -/

/-- The number the words stand for. -/
def value : Big → Nat
  | [] => 0
  | w :: ws => w.toNat + 2 ^ 32 * value ws

/-- No zero word at the top. -/
def Trimmed (b : Big) : Prop := b.getLast? ≠ some 0

section Values
variable {a b ws : Big} {w m : UInt32} {n carry bits : Nat} {x : UInt32}

@[simp] theorem value_nil : value [] = 0 := rfl

@[simp] theorem value_cons : value (w :: ws) = w.toNat + 2 ^ 32 * value ws := rfl

theorem toNat_word (n : Nat) : (UInt32.ofNat n).toNat = n % 2 ^ 32 := UInt32.toNat_ofNat'

theorem value_lt : ∀ b : Big, value b < 2 ^ (32 * b.length)
  | [] => by simp
  | w :: ws => by
    have hw := w.toNat_lt
    have ih := value_lt ws
    rw [value_cons, length_cons, Nat.mul_add, Nat.mul_one, Nat.add_comm (32 * ws.length), Nat.pow_add]
    have : 2 ^ 32 * (value ws + 1) ≤ 2 ^ 32 * 2 ^ (32 * ws.length) := Nat.mul_le_mul_left _ ih
    omega

theorem value_append : ∀ a b : Big, value (a ++ b) = value a + 2 ^ (32 * a.length) * value b
  | [], b => by simp
  | w :: ws, b => by
    have hpow : 2 ^ (32 * (ws.length + 1)) = 2 ^ 32 * 2 ^ (32 * ws.length) := by
      rw [← Nat.pow_add, Nat.mul_add, Nat.mul_one, Nat.add_comm]
    rw [cons_append, value_cons, value_cons, value_append ws b, length_cons, hpow]
    ring

theorem value_replicate (k : Nat) : value (replicate k 0) = 0 := by
  induction k with
  | zero => rfl
  | succ k ih =>
    rw [replicate_succ, value_cons, ih]
    rfl

theorem value_bigPush (h : carry < 2 ^ 32) : value (bigPush carry) = carry := by
  unfold bigPush
  split
  · rw [value_cons, toNat_word, value_nil, mod_eq_of_lt h, Nat.mul_zero, Nat.add_zero]
  · rename_i h0
    exact (not_not.1 h0).symm

theorem low_add_high (n : Nat) : n % 2 ^ 32 + 2 ^ 32 * (n >>> 32) = n := by
  rw [shiftRight_eq_div_pow]
  exact mod_add_div n (2 ^ 32)

theorem mul_carry_lt (h : carry < 2 ^ 32) : (w.toNat * m.toNat + carry) >>> 32 < 2 ^ 32 := by
  have hprod : w.toNat * m.toNat ≤ (2 ^ 32 - 1) * (2 ^ 32 - 1) :=
    Nat.mul_le_mul (le_sub_one_of_lt w.toNat_lt) (le_sub_one_of_lt m.toNat_lt)
  rw [shiftRight_eq_div_pow]
  omega

theorem add_carry_lt (h : carry < 2 ^ 32) : (w.toNat + carry) >>> 32 < 2 ^ 32 := by
  have hw := w.toNat_lt
  rw [shiftRight_eq_div_pow]
  omega

theorem shl_or (h : carry < 2 ^ bits) : w.toNat <<< bits ||| carry = w.toNat * 2 ^ bits + carry := by
  rw [← shiftLeft_add_eq_or_of_lt h, shiftLeft_eq]

theorem shl_carry_lt (h : carry < 2 ^ bits) : (w.toNat * 2 ^ bits + carry) >>> 32 < 2 ^ bits := by
  rw [shiftRight_eq_div_pow, Nat.div_lt_iff_lt_mul (by decide)]
  have : (w.toNat + 1) * 2 ^ bits ≤ 2 ^ 32 * 2 ^ bits := Nat.mul_le_mul_right _ w.toNat_lt
  rw [Nat.add_mul] at this
  rw [Nat.mul_comm (2 ^ bits)]
  omega

theorem value_mulLoop (m : UInt32) : ∀ {b : Big} {carry : Nat}, carry < 2 ^ 32 →
    value (mulLoop m carry b) = value b * m.toNat + carry
  | [], carry, h => by rw [mulLoop, value_bigPush h, value_nil, Nat.zero_mul, Nat.zero_add]
  | w :: ws, carry, h => by
    have hcarry := mul_carry_lt (w := w) (m := m) h
    have hlow := low_add_high (w.toNat * m.toNat + carry)
    rw [mulLoop, value_cons, toNat_word, value_mulLoop m hcarry, value_cons, Nat.add_mul]
    calc _ = ((w.toNat * m.toNat + carry) % 2 ^ 32 + 2 ^ 32 * ((w.toNat * m.toNat + carry) >>> 32)) +
          2 ^ 32 * value ws * m.toNat := by ring
      _ = _ := by rw [hlow]; ring

theorem value_bigMulSmall (b : Big) (m : UInt32) : value (bigMulSmall b m) = value b * m.toNat :=
  value_mulLoop m (by decide)

theorem value_addLoop : ∀ {b : Big} {carry : Nat}, carry < 2 ^ 32 → value (addLoop carry b) = value b + carry
  | [], carry, h => by rw [addLoop, value_bigPush h, value_nil, Nat.zero_add]
  | w :: ws, carry, h => by
    rw [addLoop]
    split
    · rename_i h0
      rw [h0, Nat.add_zero]
    · have hcarry := add_carry_lt (w := w) h
      have hlow := low_add_high (w.toNat + carry)
      rw [value_cons, toNat_word, value_addLoop hcarry, value_cons]
      omega

theorem value_bigAddSmall (b : Big) (a : UInt32) : value (bigAddSmall b a) = value b + a.toNat :=
  value_addLoop a.toNat_lt

theorem value_shlLoop (hbits : bits < 32) : ∀ {b : Big} {carry : Nat}, carry < 2 ^ bits →
    value (shlLoop bits carry b) = value b * 2 ^ bits + carry
  | [], carry, h => by
    have hpow : 2 ^ bits < 2 ^ 32 := Nat.pow_lt_pow_right (by decide) hbits
    rw [shlLoop, value_bigPush (by omega), value_nil, Nat.zero_mul, Nat.zero_add]
  | w :: ws, carry, h => by
    have hor := shl_or (w := w) h
    have hcarry := shl_carry_lt (w := w) h
    have hlow := low_add_high (w.toNat * 2 ^ bits + carry)
    rw [shlLoop, hor, value_cons, toNat_word, value_shlLoop hbits hcarry, value_cons]
    calc _ = ((w.toNat * 2 ^ bits + carry) % 2 ^ 32 + 2 ^ 32 * ((w.toNat * 2 ^ bits + carry) >>> 32)) +
          2 ^ 32 * value ws * 2 ^ bits := by ring
      _ = _ := by rw [hlow]; ring

theorem value_bigShl (b : Big) (n : Int) : value (bigShl b n) = value b * 2 ^ n.toNat := by
  unfold bigShl
  split
  · rename_i h
    rcases h with rfl | h
    · simp
    · rw [Int.toNat_of_nonpos h, Nat.pow_zero, Nat.mul_one]
  · have hsplit : 2 ^ (32 * (n.toNat / 32)) * 2 ^ (n.toNat % 32) = 2 ^ n.toNat := by
      rw [← Nat.pow_add, div_add_mod]
    rw [value_append, value_replicate, length_replicate, Nat.zero_add, ← hsplit]
    split
    · rename_i h0
      rw [h0]
      ring
    · rw [value_shlLoop (mod_lt _ (by decide)) (Nat.two_pow_pos _)]
      ring

theorem value_bigTrim : ∀ b : Big, value (bigTrim b) = value b
  | [] => rfl
  | w :: ws => by
    have ih := value_bigTrim ws
    rw [bigTrim, value_cons, ← ih]
    split
    · rename_i hnil
      rw [hnil]
      split
      · rename_i hw
        rw [hw]
        rfl
      · rfl
    · rfl

theorem trimmed_bigTrim : ∀ b : Big, Trimmed (bigTrim b)
  | [] => by simp [bigTrim, Trimmed]
  | w :: ws => by
    have ih := trimmed_bigTrim ws
    rw [bigTrim]
    split
    · split
      · simp [Trimmed]
      · rename_i hw
        simpa [Trimmed] using hw
    · rename_i hcons
      unfold Trimmed at ih ⊢
      rwa [getLast?_cons_of_ne_nil hcons]

theorem shrLoop_spec : ∀ b : Big, value (shrLoop b).1 = value b / 2 ∧ (shrLoop b).2.toNat = value b % 2
  | [] => ⟨rfl, rfl⟩
  | w :: ws => by
    obtain ⟨hval, hcarry⟩ := shrLoop_spec ws
    have hw := w.toNat_lt
    have hlt : (shrLoop ws).2.toNat < 2 := hcarry ▸ mod_lt _ (by decide)
    have hor : (w >>> 1 ||| (shrLoop ws).2 <<< 31).toNat = w.toNat / 2 + (shrLoop ws).2.toNat * 2 ^ 31 := by
      rw [UInt32.toNat_or, UInt32.toNat_shiftRight, UInt32.toNat_shiftLeft]
      simp only [UInt32.reduceToNat, reduceMod]
      rw [mod_eq_of_lt (by rw [shiftLeft_eq]; omega), Nat.or_comm, shiftRight_eq_div_pow,
        ← shiftLeft_add_eq_or_of_lt (by omega), shiftLeft_eq]
      omega
    refine ⟨?_, ?_⟩
    · simp only [shrLoop, value_cons, hor, hval, hcarry]
      omega
    · simp only [shrLoop, value_cons, UInt32.toNat_and, UInt32.reduceToNat, and_one_is_mod]
      omega

theorem value_bigShr1 (b : Big) : value (bigShr1 b) = value b / 2 := by
  rw [bigShr1, value_bigTrim, (shrLoop_spec b).1]

/-! ### Comparing -/

theorem trimmed_tail (h : Trimmed (w :: ws)) : Trimmed ws := by
  unfold Trimmed at h ⊢
  cases ws with
  | nil => simp
  | cons x xs => rwa [getLast?_cons_cons] at h

theorem Trimmed.le_value (h : Trimmed b) (hb : b ≠ []) : 2 ^ (32 * (b.length - 1)) ≤ value b := by
  induction b with
  | nil => exact absurd rfl hb
  | cons w ws ih =>
    cases ws with
    | nil =>
      have hw : w.toNat ≠ 0 := by
        intro h0
        have hzero : w = 0 := UInt32.toNat_inj.1 h0
        exact h (by rw [hzero, getLast?_singleton])
      simp only [value_cons, value_nil, length_singleton, Nat.sub_self, Nat.mul_zero, Nat.pow_zero]
      omega
    | cons x xs =>
      have ih := ih (trimmed_tail h) (cons_ne_nil _ _)
      have hpow : 2 ^ (32 * ((w :: x :: xs).length - 1)) = 2 ^ 32 * 2 ^ (32 * ((x :: xs).length - 1)) := by
        rw [← Nat.pow_add]
        simp only [length_cons, Nat.add_sub_cancel]
        congr 1
        ring
      rw [hpow, value_cons]
      have := Nat.mul_le_mul_left (2 ^ 32) ih
      omega

theorem Trimmed.value_pos (h : Trimmed b) (hb : b ≠ []) : 0 < value b :=
  Nat.lt_of_lt_of_le (Nat.two_pow_pos _) (h.le_value hb)

theorem Trimmed.value_eq_zero (h : Trimmed b) : value b = 0 ↔ b = [] :=
  ⟨fun h0 => by_contra fun hb => absurd h0 (Nat.pos_iff_ne_zero.1 (h.value_pos hb)), fun h => h ▸ rfl⟩

/-- The sign that comparing two numbers gives. -/
def order (m n : Nat) : Int := if m < n then -1 else if n < m then 1 else 0

theorem order_cases (m n : Nat) : m < n ∧ order m n = -1 ∨ m = n ∧ order m n = 0 ∨ n < m ∧ order m n = 1 := by
  unfold order
  rcases Nat.lt_trichotomy m n with h | h | h
  · exact .inl ⟨h, if_pos h⟩
  · exact .inr (.inl ⟨h, by rw [if_neg (by omega), if_neg (by omega)]⟩)
  · exact .inr (.inr ⟨h, by rw [if_neg (by omega), if_pos h]⟩)

theorem cmpLoop_eq : ∀ {a b : Big}, a.length = b.length → cmpLoop a b = order (value a) (value b)
  | [], [], _ => rfl
  | a :: as, b :: bs, h => by
    have ih := cmpLoop_eq (Nat.succ.inj h)
    have ha := a.toNat_lt
    have hb := b.toNat_lt
    have heq : a ≠ b ↔ a.toNat ≠ b.toNat := not_congr UInt32.toNat_inj.symm
    rw [cmpLoop, ih, value_cons, value_cons]
    simp only [heq, UInt32.lt_iff_toNat_lt]
    have hwords := order_cases (value as) (value bs)
    have hall := order_cases (a.toNat + 2 ^ 32 * value as) (b.toNat + 2 ^ 32 * value bs)
    split_ifs <;> omega

theorem value_lt_of_length (hb : Trimmed b) (h : a.length < b.length) : value a < value b := by
  have hpow : 2 ^ (32 * a.length) ≤ 2 ^ (32 * (b.length - 1)) := Nat.pow_le_pow_right (by decide) (by omega)
  have hb' : b ≠ [] := by
    rintro rfl
    exact absurd h (Nat.not_lt_zero _)
  exact Nat.lt_of_lt_of_le (value_lt a) (Nat.le_trans hpow (hb.le_value hb'))

theorem bigCmp_eq (ha : Trimmed a) (hb : Trimmed b) : bigCmp a b = order (value a) (value b) := by
  unfold bigCmp
  split
  · rename_i hne
    split
    · rename_i hlt
      rw [order, if_pos (value_lt_of_length hb hlt)]
    · rename_i hle
      have := value_lt_of_length (a := b) ha (by omega)
      rw [order, if_neg (by omega), if_pos this]
  · rename_i heq
    exact cmpLoop_eq (not_not.1 heq)

theorem value_bits (h : Trimmed b) (hb : b ≠ []) : 2 ^ (bigBits b - 1) ≤ value b ∧ value b < 2 ^ bigBits b ∧
    0 < bigBits b := by
  obtain ⟨init, w, rfl⟩ : ∃ init w, b = init ++ [w] :=
    ⟨b.dropLast, b.getLast hb, (dropLast_concat_getLast hb).symm⟩
  have hw : w.toNat ≠ 0 := by
    intro h0
    have hzero : w = 0 := UInt32.toNat_inj.1 h0
    exact h (by rw [hzero, getLast?_concat])
  have hlog := (log2_lt hw).2 w.toNat_lt
  have hbits : bigBits (init ++ [w]) = 32 * init.length + (w.toNat.log2 + 1) := by
    simp only [bigBits, getLast?_concat, length_append, length_singleton, clz]
    omega
  have hlow := log2_self_le hw
  have hhigh := lt_log2_self (n := w.toNat)
  have hinit := value_lt init
  rw [hbits, value_append, value_cons, value_nil, Nat.mul_zero, Nat.add_zero]
  refine ⟨?_, ?_, by omega⟩
  · rw [add_succ_sub_one, Nat.pow_add]
    exact le_add_left_of_le (Nat.mul_le_mul_left _ hlow)
  · rw [Nat.pow_add]
    calc value init + 2 ^ (32 * init.length) * w.toNat
        < 2 ^ (32 * init.length) + 2 ^ (32 * init.length) * w.toNat := Nat.add_lt_add_right hinit _
      _ = 2 ^ (32 * init.length) * (w.toNat + 1) := by ring
      _ ≤ 2 ^ (32 * init.length) * 2 ^ (w.toNat.log2 + 1) := Nat.mul_le_mul_left _ hhigh

theorem bigBits_le (h : Trimmed b) : bigBits b ≤ n ↔ value b < 2 ^ n := by
  by_cases hb : b = []
  · subst hb
    exact ⟨fun _ => Nat.two_pow_pos n, fun _ => Nat.zero_le n⟩
  · obtain ⟨hlow, hhigh, hpos⟩ := value_bits h hb
    constructor
    · intro hle
      exact Nat.lt_of_lt_of_le hhigh (Nat.pow_le_pow_right (by decide) hle)
    · intro hlt
      have := (Nat.pow_lt_pow_iff_right (by decide)).1 (Nat.lt_of_le_of_lt hlow hlt)
      omega

/-! ### No zero word at the top -/

theorem trimmed_nil : Trimmed [] := by simp [Trimmed]

theorem trimmed_iff : Trimmed (w :: ws) ↔ if ws = [] then w ≠ 0 else Trimmed ws := by
  unfold Trimmed
  cases ws with
  | nil => simp
  | cons x xs => rw [getLast?_cons_cons, if_neg (cons_ne_nil _ _)]

theorem bigPush_trimmed (h : carry < 2 ^ 32) : Trimmed (bigPush carry) := by
  unfold bigPush
  split
  · rename_i h0
    rw [trimmed_iff, if_pos rfl]
    intro hzero
    have := congrArg UInt32.toNat hzero
    rw [toNat_word, mod_eq_of_lt h] at this
    exact h0 this
  · exact trimmed_nil

/-- A loop that goes on over the rest of the words keeps the top word from zero, since the value of what it writes is
    not zero. -/
theorem trimmed_cons (hws : Trimmed ws) (h : ws = [] → w ≠ 0) : Trimmed (w :: ws) := by
  rw [trimmed_iff]
  split
  · rename_i hnil
    exact h hnil
  · exact hws

theorem word_ne_zero (h : n % 2 ^ 32 ≠ 0) : UInt32.ofNat n ≠ 0 := by
  intro hzero
  have := congrArg UInt32.toNat hzero
  rw [toNat_word] at this
  exact h this

/-- A loop that writes nothing behind the word of `w` writes no zero for it. -/
theorem low_ne_zero {k : Nat} (hk : 0 < k) (hb : Trimmed (w :: ws))
    (hval : value ws * k + (w.toNat * k + carry) >>> 32 = 0) : UInt32.ofNat (w.toNat * k + carry) ≠ 0 := by
  obtain ⟨hzero, hhigh⟩ := Nat.add_eq_zero_iff.1 hval
  have hws := (trimmed_tail hb).value_eq_zero.1 ((Nat.mul_eq_zero.1 hzero).resolve_right hk.ne')
  subst hws
  rw [trimmed_iff, if_pos rfl] at hb
  have hw0 : w.toNat ≠ 0 := fun h0 => hb (UInt32.toNat_inj.1 h0)
  have hpos := Nat.mul_pos (Nat.pos_of_ne_zero hw0) hk
  have hlow := low_add_high (w.toNat * k + carry)
  exact word_ne_zero (by omega)

theorem mulLoop_trimmed (hm : m ≠ 0) : ∀ {b : Big} {carry : Nat}, carry < 2 ^ 32 → Trimmed b →
    Trimmed (mulLoop m carry b)
  | [], _, h, _ => bigPush_trimmed h
  | w :: ws, carry, h, hb => by
    have hcarry := mul_carry_lt (w := w) (m := m) h
    rw [mulLoop]
    refine trimmed_cons (mulLoop_trimmed hm hcarry (trimmed_tail hb)) fun hnil => ?_
    have hm0 : m.toNat ≠ 0 := fun h0 => hm (UInt32.toNat_inj.1 h0)
    refine low_ne_zero (Nat.pos_of_ne_zero hm0) hb ?_
    rw [← value_mulLoop m hcarry, hnil, value_nil]

theorem bigMulSmall_trimmed (hm : m ≠ 0) (h : Trimmed b) : Trimmed (bigMulSmall b m) :=
  mulLoop_trimmed hm (by decide) h

theorem addLoop_trimmed : ∀ {b : Big} {carry : Nat}, carry < 2 ^ 32 → Trimmed b → Trimmed (addLoop carry b)
  | [], _, h, _ => bigPush_trimmed h
  | w :: ws, carry, h, hb => by
    rw [addLoop]
    split
    · exact hb
    · have hcarry := add_carry_lt (w := w) h
      refine trimmed_cons (addLoop_trimmed hcarry (trimmed_tail hb)) fun hnil => word_ne_zero ?_
      have hval := value_addLoop hcarry (b := ws)
      rw [hnil, value_nil] at hval
      have hlow := low_add_high (w.toNat + carry)
      omega

theorem bigAddSmall_trimmed (h : Trimmed b) : Trimmed (bigAddSmall b x) := addLoop_trimmed x.toNat_lt h

theorem shlLoop_trimmed (hbits : bits < 32) : ∀ {b : Big} {carry : Nat}, carry < 2 ^ bits → Trimmed b →
    Trimmed (shlLoop bits carry b)
  | [], carry, h, _ => by
    have hpow : 2 ^ bits < 2 ^ 32 := Nat.pow_lt_pow_right (by decide) hbits
    exact bigPush_trimmed (by omega)
  | w :: ws, carry, h, hb => by
    have hor := shl_or (w := w) h
    have hcarry := shl_carry_lt (w := w) h
    rw [shlLoop, hor]
    refine trimmed_cons (shlLoop_trimmed hbits hcarry (trimmed_tail hb)) fun hnil =>
      low_ne_zero (Nat.two_pow_pos bits) hb ?_
    rw [← value_shlLoop hbits hcarry, hnil, value_nil]

theorem append_trimmed (hb : Trimmed b) (hne : b ≠ []) : Trimmed (a ++ b) := by
  unfold Trimmed at hb ⊢
  rw [getLast?_append]
  rw [getLast?_eq_some_getLast hne] at hb ⊢
  exact hb

theorem bigShl_trimmed {k : Int} (h : Trimmed b) : Trimmed (bigShl b k) := by
  unfold bigShl
  split
  · exact h
  · rename_i hne
    obtain ⟨hb, -⟩ := not_or.1 hne
    dsimp only
    split
    · exact append_trimmed h hb
    · have hbits := mod_lt k.toNat (show 32 > 0 by decide)
      refine append_trimmed (shlLoop_trimmed hbits (Nat.two_pow_pos _) h) fun hnil => ?_
      have hval := value_shlLoop hbits (Nat.two_pow_pos (k.toNat % 32)) (b := b)
      rw [hnil, value_nil] at hval
      have hpos := Nat.mul_pos (h.value_pos hb) (Nat.two_pow_pos (k.toNat % 32))
      omega

theorem bigPow5_spec (n : Nat) : value (bigPow5 n) = 5 ^ n ∧ Trimmed (bigPow5 n) := by
  induction n with
  | zero => exact ⟨rfl, by simp [bigPow5, bigInit, Trimmed]⟩
  | succ n ih =>
    refine ⟨?_, bigMulSmall_trimmed (by decide) ih.2⟩
    rw [bigPow5, value_bigMulSmall, ih.1, Nat.pow_succ]
    rfl

/-! ### Subtracting, single bits, products -/

theorem value_headD (b : Big) : value b = (b.headD 0).toNat + 2 ^ 32 * value b.tail := by
  cases b <;> simp

theorem value_subLoop : ∀ {a b : Big} {borrow : Nat}, borrow ≤ 1 → value b + borrow ≤ value a →
    value (subLoop borrow a b) = value a - value b - borrow
  | [], b, borrow, _, h => by
    rw [value_nil] at h
    rw [subLoop, value_nil]
    omega
  | a :: as, bs, borrow, hborrow, h => by
    have ha := a.toNat_lt
    have hb := (bs.headD 0).toNat_lt
    have hbs := value_headD bs
    rw [value_cons] at h
    rw [subLoop, value_cons, toNat_word, value_cons]
    have hrest : value bs.tail + (if a.toNat < (bs.headD 0).toNat + borrow then 1 else 0) ≤ value as := by
      split <;> omega
    rw [value_subLoop (by split <;> omega) hrest]
    split at hrest <;> split <;> omega

theorem value_bigSub (h : value b ≤ value a) : value (bigSub a b) = value a - value b := by
  rw [bigSub, value_bigTrim, value_subLoop (by decide) h]
  rfl

theorem bigSub_trimmed : Trimmed (bigSub a b) := trimmed_bigTrim _

theorem bigShr1_trimmed : Trimmed (bigShr1 b) := trimmed_bigTrim _

theorem value_set : ∀ {b : Big} {i : Nat} {x : UInt32}, i < b.length →
    value (b.set i x) + (b.getD i 0).toNat * 2 ^ (32 * i) = value b + x.toNat * 2 ^ (32 * i)
  | [], i, _, h => absurd h (Nat.not_lt_zero i)
  | w :: ws, 0, x, _ => by
    simp only [set_cons_zero, value_cons, getD_cons_zero]
    ring
  | w :: ws, i + 1, x, h => by
    have ih := value_set (x := x) (lt_of_succ_lt_succ h)
    have hpow : 2 ^ (32 * (i + 1)) = 2 ^ 32 * 2 ^ (32 * i) := by
      rw [← Nat.pow_add, Nat.mul_add, Nat.mul_one, Nat.add_comm]
    simp only [set_cons_succ, value_cons, getD_cons_succ, hpow]
    have := congrArg (2 ^ 32 * ·) ih
    simp only [Nat.mul_add] at this
    calc _ = w.toNat + (2 ^ 32 * value (ws.set i x) + 2 ^ 32 * ((ws.getD i 0).toNat * 2 ^ (32 * i))) := by ring
      _ = w.toNat + (2 ^ 32 * value ws + 2 ^ 32 * (x.toNat * 2 ^ (32 * i))) := by rw [this]
      _ = _ := by ring

theorem getD_eq : ∀ (b : Big) (i : Nat), (b.getD i 0).toNat = value b / 2 ^ (32 * i) % 2 ^ 32
  | [], i => by simp
  | w :: ws, 0 => by
    have := w.toNat_lt
    rw [getD_cons_zero, value_cons, Nat.mul_zero, Nat.pow_zero, Nat.div_one]
    omega
  | w :: ws, i + 1 => by
    have hpow : 2 ^ (32 * (i + 1)) = 2 ^ 32 * 2 ^ (32 * i) := by
      rw [← Nat.pow_add, Nat.mul_add, Nat.mul_one, Nat.add_comm]
    have hw : (w.toNat + 2 ^ 32 * value ws) / 2 ^ 32 = value ws := by
      have := w.toNat_lt
      omega
    rw [getD_cons_succ, getD_eq ws i, value_cons, hpow, ← Nat.div_div_eq_div_mul, hw]

theorem value_bigSetBit {bit : Nat} (h : 2 ^ (bit + 1) ∣ value b) : value (bigSetBit b bit) = value b + 2 ^ bit := by
  have hpad : value (b ++ replicate (bit / 32 + 1 - b.length) 0) = value b := by
    rw [value_append, value_replicate, Nat.mul_zero, Nat.add_zero]
  have hlen : bit / 32 < (b ++ replicate (bit / 32 + 1 - b.length) (0 : UInt32)).length := by
    rw [length_append, length_replicate]
    omega
  have hmod := mod_lt bit (show 32 > 0 by decide)
  have hpow : 2 ^ (bit % 32) < 2 ^ 32 := Nat.pow_lt_pow_right (by decide) hmod
  have hsplit : 2 ^ (bit + 1) = 2 ^ (32 * (bit / 32)) * 2 ^ (bit % 32 + 1) := by
    rw [← Nat.pow_add]
    congr 1
    omega
  have hbit : 2 ^ bit = 2 ^ (bit % 32) * 2 ^ (32 * (bit / 32)) := by
    rw [← Nat.pow_add]
    congr 1
    omega
  -- the word has the bits of the value from `32 * (bit / 32)` on
  have hword :
      ((b ++ replicate (bit / 32 + 1 - b.length) (0 : UInt32)).getD (bit / 32) 0).toNat % 2 ^ (bit % 32 + 1) = 0 := by
    rw [getD_eq, hpad, mod_mod_of_dvd _ (Nat.pow_dvd_pow 2 (by omega))]
    obtain ⟨k, hk⟩ := h
    rw [hk, hsplit, Nat.mul_assoc, Nat.mul_div_cancel_left _ (Nat.two_pow_pos _), mul_mod_right]
  have hor : ∀ x : UInt32, x.toNat % 2 ^ (bit % 32 + 1) = 0 →
      (x ||| UInt32.ofNat (1 <<< (bit % 32))).toNat = x.toNat + 2 ^ (bit % 32) := by
    intro x hx
    rw [UInt32.toNat_or, toNat_word, one_shiftLeft, mod_eq_of_lt hpow]
    obtain ⟨k, hk⟩ := dvd_of_mod_eq_zero hx
    rw [hk, Nat.mul_comm, ← shiftLeft_eq,
      ← shiftLeft_add_eq_or_of_lt (Nat.pow_lt_pow_right (by decide) (lt_succ_self _))]
  have hset := value_set (x := (b ++ replicate (bit / 32 + 1 - b.length) 0).getD (bit / 32) 0 |||
    UInt32.ofNat (1 <<< (bit % 32))) hlen
  rw [hor _ hword, hpad, Nat.add_mul, ← hbit] at hset
  rw [bigSetBit]
  omega

theorem bigSetBit_trimmed {bit : Nat} (h : Trimmed b) : Trimmed (bigSetBit b bit) := by
  have hmod := mod_lt bit (show 32 > 0 by decide)
  have hpow : 2 ^ (bit % 32) < 2 ^ 32 := Nat.pow_lt_pow_right (by decide) hmod
  have hor : ∀ x : UInt32, x ||| UInt32.ofNat (1 <<< (bit % 32)) ≠ 0 := by
    intro x hzero
    have hnat := congrArg UInt32.toNat hzero
    rw [UInt32.toNat_or, toNat_word, one_shiftLeft, mod_eq_of_lt hpow] at hnat
    exact (Nat.two_pow_pos _).ne' (Nat.or_eq_zero_iff.1 hnat).2
  unfold Trimmed at h ⊢
  rw [bigSetBit, getLast?_eq_getElem?, length_set, getElem?_set]
  split
  · split
    · exact fun heq => hor _ (Option.some.inj heq)
    · simp
  · -- the bit is below the top word, so nothing was appended
    rename_i hne
    rw [length_append, length_replicate] at hne
    have hnil : bit / 32 + 1 - b.length = 0 := by omega
    rw [hnil, replicate_zero, append_nil, ← getLast?_eq_getElem?]
    exact h

theorem bigOdd_eq (b : Big) : bigOdd b = true ↔ value b % 2 = 1 := by
  cases b with
  | nil => simp [bigOdd]
  | cons w ws =>
    have hbit : w &&& 1 ≠ 0 ↔ w.toNat % 2 = 1 := by
      rw [ne_eq, ← UInt32.toNat_inj, UInt32.toNat_and]
      simp only [UInt32.reduceToNat, and_one_is_mod]
      omega
    simp only [bigOdd, headD_cons, hbit, value_cons]
    simp
    omega

theorem bigWord64_eq (b : Big) (i : Nat) : bigWord64 b i = value b / 2 ^ (32 * i) % 2 ^ 64 := by
  have hpow : 2 ^ (32 * (i + 1)) = 2 ^ (32 * i) * 2 ^ 32 := by
    rw [← Nat.pow_add, Nat.mul_add, Nat.mul_one]
  rw [bigWord64, getD_eq, getD_eq, hpow, ← Nat.div_div_eq_div_mul, Nat.or_comm,
    ← shiftLeft_add_eq_or_of_lt (mod_lt _ (by decide)), shiftLeft_eq]
  omega

theorem length_mulRow : ∀ {carry : Nat} {f ps : Big}, (mulRow x carry f ps).length = ps.length
  | _, [], [] => rfl
  | _, _ :: _, [] => rfl
  | carry, [], p :: ps => by
    rw [mulRow]
    split
    · rfl
    · rw [length_cons, length_cons, length_mulRow]
  | carry, f :: fs, p :: ps => by rw [mulRow, length_cons, length_cons, length_mulRow]

theorem value_mulRow : ∀ {carry : Nat} {f ps : Big}, carry < 2 ^ 32 →
    value ps + x.toNat * value f + carry < 2 ^ (32 * ps.length) →
      value (mulRow x carry f ps) = value ps + x.toNat * value f + carry
  | carry, f, [], _, hfits => by
    rw [length_nil, Nat.mul_zero, Nat.pow_zero] at hfits
    rw [mulRow, value_nil]
    omega
  | carry, [], p :: ps, hcarry, hfits => by
    rw [mulRow]
    split
    · rename_i h0
      rw [h0, value_nil]
      simp
    · have hnext := add_carry_lt (w := p) hcarry
      have hlow := low_add_high (p.toNat + carry)
      have hpow : 2 ^ (32 * (p :: ps).length) = 2 ^ 32 * 2 ^ (32 * ps.length) := by
        rw [← Nat.pow_add, length_cons, Nat.mul_add, Nat.mul_one, Nat.add_comm]
      rw [hpow, value_cons, value_nil, Nat.mul_zero, Nat.add_zero] at hfits
      rw [value_cons, toNat_word, value_mulRow hnext (by rw [value_nil]; omega), value_cons, value_nil]
      omega
  | carry, f :: fs, p :: ps, hcarry, hfits => by
    have hp := p.toNat_lt
    have hprod : x.toNat * f.toNat ≤ (2 ^ 32 - 1) * (2 ^ 32 - 1) :=
      Nat.mul_le_mul (le_sub_one_of_lt x.toNat_lt) (le_sub_one_of_lt f.toNat_lt)
    have hnext : (p.toNat + x.toNat * f.toNat + carry) >>> 32 < 2 ^ 32 := by
      rw [shiftRight_eq_div_pow]
      omega
    have hlow := low_add_high (p.toNat + x.toNat * f.toNat + carry)
    have hpow : 2 ^ (32 * (p :: ps).length) = 2 ^ 32 * 2 ^ (32 * ps.length) := by
      rw [← Nat.pow_add, length_cons, Nat.mul_add, Nat.mul_one, Nat.add_comm]
    have hdist : x.toNat * (f.toNat + 2 ^ 32 * value fs) = x.toNat * f.toNat + 2 ^ 32 * (x.toNat * value fs) := by ring
    rw [hpow, value_cons, value_cons, hdist] at hfits
    rw [mulRow, value_cons, toNat_word, value_mulRow hnext (by omega), value_cons, value_cons, hdist]
    omega

theorem value_mulRows : ∀ {ns f ps : Big}, value ps + value ns * value f < 2 ^ (32 * ps.length) →
    value (mulRows ns f ps) = value ps + value ns * value f
  | [], f, ps, _ => by rw [mulRows, value_nil, Nat.zero_mul, Nat.add_zero]
  | n :: ns, f, ps, hfits => by
    have hdist : value (n :: ns) * value f = n.toNat * value f + 2 ^ 32 * (value ns * value f) := by
      rw [value_cons]
      ring
    rw [hdist] at hfits ⊢
    have hrow := @value_mulRow n 0 f ps (by decide) (by omega)
    have hlen := @length_mulRow n 0 f ps
    rw [mulRows]
    split
    · rename_i hnil
      rw [hnil, value_nil] at hrow
      rw [hnil] at hlen
      rw [← hlen, length_nil, Nat.mul_zero, Nat.pow_zero] at hfits
      rw [value_nil]
      omega
    · rename_i p ps' hcons
      rw [hcons, value_cons] at hrow
      rw [hcons, length_cons] at hlen
      have hpow : 2 ^ (32 * ps.length) = 2 ^ 32 * 2 ^ (32 * ps'.length) := by
        rw [← Nat.pow_add, ← hlen, Nat.mul_add, Nat.mul_one, Nat.add_comm]
      rw [hpow] at hfits
      rw [value_cons, value_mulRows (by omega)]
      omega

theorem value_bigMul (n f : Big) : value (bigMul n f) = value n * value f := by
  have hfits : value n * value f < 2 ^ (32 * (n.length + f.length)) := by
    rw [Nat.mul_add, Nat.pow_add]
    exact Nat.mul_lt_mul'' (value_lt n) (value_lt f)
  have hrows := @value_mulRows n f (replicate (n.length + f.length) 0)
    (by rw [value_replicate, length_replicate, Nat.zero_add]; exact hfits)
  rw [bigMul, value_bigTrim, hrows, value_replicate, Nat.zero_add]

end Values

end Lunaria.Binary128
