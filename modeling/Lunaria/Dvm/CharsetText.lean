import Lunaria.Lib.Trimming
import Lunaria.Lib.Unicode
import Lunaria.Dvm.Charset

/-! What `jcs_decode` gives, read back as UTF-16: the text of WTF-8 loses nothing, UTF-8 is cut into the encodings of
    characters and maximal ill-formed subparts, UTF-16 into pairs, lone surrogates and plain units. -/

namespace Lunaria.Dvm.Charset
open Trimming Unicode List Nat UInt8
open String (utf8EncodeChar)

attribute [local simp] utf8Got wtf8ToUtf16 cpUnits

/-! ### WTF-8 -/

theorem or_of_lt {a b : Nat} (i : Nat) (h : b < 2 ^ i) : a <<< i ||| b = a * 2 ^ i + b := by
  rw [← shiftLeft_add_eq_or_of_lt h, shiftLeft_eq]

theorem and_low (x : Nat) : x &&& 0x3f = x % 64 := and_two_pow_sub_one_eq_mod x 6

theorem tail_ofNat {x : Nat} : UInt8.ofNat (0x80 ||| x &&& 0x3f) &&& 0xc0 = 0x80 := by
  have h : ∀ y : Fin 64, UInt8.ofNat (0x80 ||| y.1) &&& 0xc0 = 0x80 := by decide
  rw [and_low]
  exact h ⟨x % 64, mod_lt _ (by decide)⟩

theorem tail_low {x : Nat} : (UInt8.ofNat (0x80 ||| x &&& 0x3f) &&& 0x3f).toNat = x % 64 := by
  have h : ∀ y : Fin 64, (UInt8.ofNat (0x80 ||| y.1) &&& 0x3f).toNat = y.1 := by decide
  rw [and_low]
  exact h ⟨x % 64, mod_lt _ (by decide)⟩

variable {s : List UInt8} {cp : Nat} {b : UInt8} {need lo hi : Nat} {t : List UInt8}

/-- A continuation byte of `put_cp` adds its six bits. -/
theorem wtf8Tail_cons {need cp x : Nat} :
    wtf8Tail (need + 1) cp (UInt8.ofNat (0x80 ||| x &&& 0x3f) :: s) = wtf8Tail need (cp * 64 + x % 64) s := by
  rw [wtf8Tail, if_neg (not_not.2 tail_ofNat), tail_low, or_of_lt (b := x % 64) 6 (mod_lt _ (by decide))]
  rfl

theorem lead_one : ∀ y : Fin 32, let b := UInt8.ofNat (0xc0 ||| y.1)
    ¬ b < 0x80 ∧ b &&& 0xe0 = 0xc0 ∧ (b &&& 0x1f).toNat = y.1 := by decide

theorem lead_two : ∀ y : Fin 16, let b := UInt8.ofNat (0xe0 ||| y.1)
    ¬ b < 0x80 ∧ b &&& 0xe0 ≠ 0xc0 ∧ b &&& 0xf0 = 0xe0 ∧ (b &&& 0x0f).toNat = y.1 := by decide

theorem lead_three : ∀ y : Fin 8, let b := UInt8.ofNat (0xf0 ||| y.1)
    ¬ b < 0x80 ∧ b &&& 0xe0 ≠ 0xc0 ∧ b &&& 0xf0 ≠ 0xe0 ∧ b &&& 0xf8 = 0xf0 ∧ (b &&& 0x07).toNat = y.1 := by decide

theorem wtf8Cp_putCp (h : cp < 0x200000) (rest : List UInt8) :
    ∃ b s, putCp cp = b :: s ∧ wtf8Cp b (s ++ rest) = (cp, s.length + 1) := by
  unfold putCp
  split_ifs with h1 h2 h3
  · refine ⟨_, _, rfl, ?_⟩
    have hlt : UInt8.ofNat cp < 0x80 := by
      rw [lt_iff_toNat_lt, toNat_ofNat']
      simp; omega
    rw [wtf8Cp, if_pos hlt, toNat_ofNat', mod_eq_of_lt (by omega)]
    rfl
  · refine ⟨_, _, rfl, ?_⟩
    obtain ⟨ha, hb, hc⟩ := lead_one ⟨cp >>> 6, by rw [shiftRight_eq_div_pow]; omega⟩
    rw [wtf8Cp, if_neg ha, if_pos hb, wtf8Cp.tail, hc, cons_append, wtf8Tail_cons, wtf8Tail]
    simp [shiftRight_eq_div_pow]; omega
  · refine ⟨_, _, rfl, ?_⟩
    obtain ⟨ha, hb, hc, hd⟩ := lead_two ⟨cp >>> 12, by rw [shiftRight_eq_div_pow]; omega⟩
    rw [wtf8Cp, if_neg ha, if_neg hb, if_pos hc, wtf8Cp.tail, hd, cons_append, wtf8Tail_cons, cons_append,
      wtf8Tail_cons, wtf8Tail]
    simp [shiftRight_eq_div_pow]; omega
  · refine ⟨_, _, rfl, ?_⟩
    obtain ⟨ha, hb, hc, hd, he⟩ := lead_three ⟨cp >>> 18, by rw [shiftRight_eq_div_pow]; omega⟩
    rw [wtf8Cp, if_neg ha, if_neg hb, if_neg hc, if_pos hd, wtf8Cp.tail, he, cons_append, wtf8Tail_cons,
      cons_append, wtf8Tail_cons, cons_append, wtf8Tail_cons, wtf8Tail]
    simp [shiftRight_eq_div_pow]; omega

theorem wtf8ToUtf16_putCp (h : cp < 0x200000) (rest : List UInt8) :
    wtf8ToUtf16 (putCp cp ++ rest) = cpUnits cp ++ wtf8ToUtf16 rest := by
  obtain ⟨b, s, hput, hcp⟩ := wtf8Cp_putCp h rest
  rw [hput, cons_append, wtf8ToUtf16, hcp]
  simp

theorem cpUnits_pair {c l : UInt16} (hc : 0xd800 ≤ c ∧ c ≤ 0xdbff) (hl : 0xdc00 ≤ l ∧ l ≤ 0xdfff) :
    cpUnits (0x10000 + (c.toNat - 0xd800) <<< 10 + (l.toNat - 0xdc00)) = [c, l] := by
  simp only [UInt16.le_iff_toNat_le, UInt16.reduceToNat] at hc hl
  have hcp : 0x10000 + (c.toNat - 0xd800) <<< 10 + (l.toNat - 0xdc00) - 0x10000 =
      (c.toNat - 0xd800) <<< 10 + (l.toNat - 0xdc00) := by omega
  have hlow : ((c.toNat - 0xd800) <<< 10 + (l.toNat - 0xdc00)) &&& 0x3ff = l.toNat - 0xdc00 := by
    rw [and_two_pow_sub_one_eq_mod _ 10, shiftLeft_eq]
    omega
  have hhigh : ((c.toNat - 0xd800) <<< 10 + (l.toNat - 0xdc00)) >>> 10 = c.toNat - 0xd800 := by
    rw [shiftRight_eq_div_pow, shiftLeft_eq]
    omega
  rw [cpUnits, if_pos (by omega), hcp, hlow, hhigh]
  have h1 : 0xd800 + (c.toNat - 0xd800) = c.toNat := by omega
  have h2 : 0xdc00 + (l.toNat - 0xdc00) = l.toNat := by omega
  rw [h1, h2, UInt16.ofNat_toNat, UInt16.ofNat_toNat]

theorem cpUnits_unit (c : UInt16) : cpUnits c.toNat = [c] := by
  rw [cpUnits, if_neg (by have := c.toNat_lt; omega), UInt16.ofNat_toNat]

theorem cpUnits_short (h : cp < 0x10000) : cpUnits cp = [UInt16.ofNat cp] := if_neg (by omega)

theorem cpUnits_eq (cp : Nat) : cpUnits cp = units cp := by
  unfold cpUnits units
  rw [and_two_pow_sub_one_eq_mod _ 10, shiftRight_eq_div_pow]

theorem cpUnits_ne_nil (cp : Nat) : cpUnits cp ≠ [] := by
  unfold cpUnits
  split <;> simp

theorem cpUnits_length (cp : Nat) : (cpUnits cp).length ≤ 16 := by
  unfold cpUnits
  split <;> simp

/-- Every list of units, also one with lone surrogates, comes back from WTF-8. -/
theorem wtf8ToUtf16_utf16ToWtf8 : ∀ us : List UInt16, wtf8ToUtf16 (utf16ToWtf8 us) = us
  | [] => by rw [utf16ToWtf8, wtf8ToUtf16]
  | [c] => by
    have := @wtf8ToUtf16_putCp c.toNat (by have := c.toNat_lt; omega) []
    rwa [append_nil, cpUnits_unit, wtf8ToUtf16] at this
  | c :: l :: us => by
    rw [utf16ToWtf8]
    split
    · rename_i h
      have hcp : 0x10000 + (c.toNat - 0xd800) <<< 10 + (l.toNat - 0xdc00) < 0x200000 := by
        have hc := UInt16.le_iff_toNat_le.1 h.2.1
        have hl := UInt16.le_iff_toNat_le.1 h.2.2.2
        simp only [UInt16.reduceToNat] at hc hl
        rw [shiftLeft_eq]
        omega
      rw [wtf8ToUtf16_putCp hcp, cpUnits_pair ⟨h.1, h.2.1⟩ h.2.2, wtf8ToUtf16_utf16ToWtf8 us]
      rfl
    · rw [wtf8ToUtf16_putCp (by have := c.toNat_lt; omega), cpUnits_unit, wtf8ToUtf16_utf16ToWtf8 (l :: us)]
      rfl

/-! ### The table of leads -/

/-- The first continuation byte that a lead asks for, and how many there are, in numbers. -/
def Follows (b : Nat) (need lo hi : Nat) : Prop :=
  (need = 1 ∧ 0xc2 ≤ b ∧ b ≤ 0xdf ∧ lo = 0x80 ∧ hi = 0xbf) ∨
  (need = 2 ∧ (b = 0xe0 ∧ lo = 0xa0 ∧ hi = 0xbf ∨ (0xe1 ≤ b ∧ b ≤ 0xec ∨ b = 0xee ∨ b = 0xef) ∧ lo = 0x80 ∧ hi = 0xbf ∨
    b = 0xed ∧ lo = 0x80 ∧ hi = 0x9f)) ∨
  (need = 3 ∧ (b = 0xf0 ∧ lo = 0x90 ∧ hi = 0xbf ∨ 0xf1 ≤ b ∧ b ≤ 0xf3 ∧ lo = 0x80 ∧ hi = 0xbf ∨
    b = 0xf4 ∧ lo = 0x80 ∧ hi = 0x8f))

instance (b need lo hi : Nat) : Decidable (Follows b need lo hi) := inferInstanceAs (Decidable (_ ∨ _))

/-- What the table of leads says of a byte, and about its bit patterns. -/
theorem utf8Lead_facts (b : UInt8) :
    ((utf8Lead b).1 ≠ 0 → Follows b.toNat (utf8Lead b).1 (utf8Lead b).2.1.toNat (utf8Lead b).2.2.toNat) ∧
      ((utf8Lead b).1 = 0 → b.toNat < 0xc2 ∨ 0xf4 < b.toNat) ∧ (0x80 ≤ b ∧ b ≤ 0xbf → b &&& 0xc0 = 0x80) ∧
      ((utf8Lead b).1 = 0 ∨ 0x80 ≤ b ∧ 0x80 ≤ (utf8Lead b).2.1 ∧ (utf8Lead b).2.2 ≤ 0xbf ∧
        ((utf8Lead b).1 = 1 ∧ b &&& 0xe0 = 0xc0 ∨ (utf8Lead b).1 = 2 ∧ b &&& 0xe0 ≠ 0xc0 ∧ b &&& 0xf0 = 0xe0 ∨
          (utf8Lead b).1 = 3 ∧ b &&& 0xe0 ≠ 0xc0 ∧ b &&& 0xf0 ≠ 0xe0 ∧ b &&& 0xf8 = 0xf0)) := by
  revert b
  exact forall_byte (by decide +kernel)

theorem utf8Lead_follows (b : UInt8) (h : (utf8Lead b).1 ≠ 0) :
    Follows b.toNat (utf8Lead b).1 (utf8Lead b).2.1.toNat (utf8Lead b).2.2.toNat := (utf8Lead_facts b).1 h

theorem utf8Lead_zero (b : UInt8) (h : (utf8Lead b).1 = 0) : b.toNat < 0xc2 ∨ 0xf4 < b.toNat := (utf8Lead_facts b).2.1 h

theorem utf8Lead_of_follows (h : Follows b.toNat need lo hi) :
    (utf8Lead b).1 = need ∧ (utf8Lead b).2.1.toNat = lo ∧ (utf8Lead b).2.2.toNat = hi ∧ need ≠ 0 := by
  by_cases hzero : (utf8Lead b).1 = 0
  · have := utf8Lead_zero b hzero
    unfold Follows at h
    omega
  · have htable := utf8Lead_follows b hzero
    unfold Follows at h htable
    omega

theorem Follows.not_ascii (h : Follows b.toNat need lo hi) : ¬ b < 0x80 := by
  rw [lt_iff_toNat_lt]
  simp only [UInt8.reduceToNat]
  unfold Follows at h
  omega

/-- What the table of leads says about the bit patterns. -/
theorem utf8Lead_bits (b : UInt8) : (utf8Lead b).1 = 0 ∨
    0x80 ≤ b ∧ 0x80 ≤ (utf8Lead b).2.1 ∧ (utf8Lead b).2.2 ≤ 0xbf ∧
      ((utf8Lead b).1 = 1 ∧ b &&& 0xe0 = 0xc0 ∨ (utf8Lead b).1 = 2 ∧ b &&& 0xe0 ≠ 0xc0 ∧ b &&& 0xf0 = 0xe0 ∨
        (utf8Lead b).1 = 3 ∧ b &&& 0xe0 ≠ 0xc0 ∧ b &&& 0xf0 ≠ 0xe0 ∧ b &&& 0xf8 = 0xf0) := (utf8Lead_facts b).2.2.2

theorem and_tail {c : UInt8} (h : 0x80 ≤ c ∧ c ≤ 0xbf) : c &&& 0xc0 = 0x80 := (utf8Lead_facts c).2.2.1 h

/-! ### The continuation bytes -/

theorem utf8Got_le : ∀ {need : Nat} {lo hi : UInt8} {s : List UInt8}, utf8Got need lo hi s ≤ s.length
  | 0, _, _, _ => Nat.zero_le _
  | _ + 1, _, _, [] => le_rfl
  | need + 1, lo, hi, c :: s => by
    rw [utf8Got]
    split
    · exact succ_le_succ utf8Got_le
    · exact Nat.zero_le _

theorem utf8Got_le_need : ∀ {need : Nat} {lo hi : UInt8} {s : List UInt8}, utf8Got need lo hi s ≤ need
  | 0, _, _, _ => le_rfl
  | _ + 1, _, _, [] => Nat.zero_le _
  | need + 1, lo, hi, c :: s => by
    rw [utf8Got]
    split
    · exact succ_le_succ utf8Got_le_need
    · exact Nat.zero_le _

theorem utf8Got_succ {need : Nat} {lo hi c : UInt8} : utf8Got (need + 1) lo hi (c :: s) = need + 1 ↔
    (lo.toNat ≤ c.toNat ∧ c.toNat ≤ hi.toNat) ∧ utf8Got need 0x80 0xbf s = need := by
  rw [utf8Got, ← le_iff_toNat_le, ← le_iff_toNat_le]
  split
  · rename_i h
    simp only [Nat.add_right_cancel_iff, h, true_and]
  · rename_i h
    simp only [h, false_and, iff_false]
    omega

theorem utf8Got_take : ∀ {need : Nat} {lo hi : UInt8} {s : List UInt8} {k : Nat},
    utf8Got need lo hi (s.take k) = min k (utf8Got need lo hi s)
  | 0, _, _, _, _ => (Nat.min_zero _).symm
  | _ + 1, _, _, [], k => by rw [take_nil, utf8Got, Nat.min_zero]
  | _ + 1, _, _, _ :: _, 0 => by rw [take_zero, utf8Got, Nat.zero_min]
  | need + 1, lo, hi, c :: s, k + 1 => by
    rw [take_succ_cons, utf8Got, utf8Got]
    split
    · rw [utf8Got_take, Nat.add_min_add_right]
    · exact (Nat.min_zero _).symm

/-- Bytes that fit can be completed. -/
theorem utf8Got_extend : ∀ {need : Nat} {lo hi : UInt8} {t : List UInt8}, lo ≤ hi → utf8Got need lo hi t = t.length →
    ∃ r, (t ++ r).length = need ∧ utf8Got need lo hi (t ++ r) = need
  | 0, _, _, t, _, h => ⟨[], by rw [append_nil, ← h, utf8Got], by rw [utf8Got]⟩
  | need + 1, lo, hi, [], hle, _ => by
    obtain ⟨r, hlen, hgot⟩ := @utf8Got_extend need 0x80 0xbf [] (by decide)
      (by cases need <;> rfl)
    refine ⟨lo :: r, congrArg (· + 1) hlen, ?_⟩
    rw [nil_append, utf8Got, if_pos ⟨UInt8.le_refl _, hle⟩]
    exact congrArg (· + 1) hgot
  | need + 1, lo, hi, c :: t, _, h => by
    rw [utf8Got] at h
    split at h
    · rename_i hc
      obtain ⟨r, hlen, hgot⟩ := @utf8Got_extend need 0x80 0xbf _ (by decide) (Nat.succ.inj h)
      refine ⟨r, congrArg (· + 1) hlen, ?_⟩
      rw [cons_append, utf8Got, if_pos hc]
      exact congrArg (· + 1) hgot
    · cases h

/-- The code point of a lead's bits and the continuation bytes. -/
def tailCp (cp : Nat) (tail : List UInt8) : Nat := tail.foldl (fun cp c => cp <<< 6 ||| c.toNat &&& 0x3f) cp

/-- The bits of a lead byte, as both decoders take them. -/
def leadBits (need : Nat) (b : UInt8) : Nat :=
  if need = 1 then b.toNat &&& 0x1f else if need = 2 then b.toNat &&& 0x0f else b.toNat &&& 0x07

theorem leadBits_one (b : UInt8) : leadBits 1 b = b.toNat % 32 := and_two_pow_sub_one_eq_mod _ 5

theorem leadBits_two (b : UInt8) : leadBits 2 b = b.toNat % 16 := and_two_pow_sub_one_eq_mod _ 4

theorem leadBits_three (b : UInt8) : leadBits 3 b = b.toNat % 8 := and_two_pow_sub_one_eq_mod _ 3

theorem tailCp_cons {c : UInt8} : tailCp cp (c :: t) = tailCp (cp * 64 + c.toNat % 64) t := by
  show tailCp (cp <<< 6 ||| c.toNat &&& 0x3f) t = _
  rw [and_low, or_of_lt (b := c.toNat % 64) 6 (mod_lt _ (by decide))]
  rfl

/-- Both decoders read the same code point from the continuation bytes. -/
theorem wtf8Tail_of_got : ∀ {need : Nat} {lo hi : UInt8} {cp : Nat} {s rest : List UInt8}, 0x80 ≤ lo → hi ≤ 0xbf →
    utf8Got need lo hi s = need → wtf8Tail need cp (s.take need ++ rest) = some (tailCp cp (s.take need))
  | 0, _, _, _, _, _, _, _, _ => rfl
  | need + 1, _, _, _, [], _, _, _, hgot => by simp [utf8Got] at hgot
  | need + 1, lo, hi, cp, c :: s, rest, hlo, hhi, hgot => by
    rw [utf8Got] at hgot
    split at hgot
    · rename_i hc
      have hand := and_tail ⟨UInt8.le_trans hlo hc.1, UInt8.le_trans hc.2 hhi⟩
      rw [take_succ_cons, cons_append, wtf8Tail, if_neg (not_not.2 hand), UInt8.toNat_and]
      exact wtf8Tail_of_got (by decide) (by decide) (Nat.succ.inj hgot)
    · cases hgot

theorem wtf8ToUtf16_sequence {s rest : List UInt8} (hneed : (utf8Lead b).1 ≠ 0)
    (hgot : utf8Got (utf8Lead b).1 (utf8Lead b).2.1 (utf8Lead b).2.2 s = (utf8Lead b).1) :
    wtf8ToUtf16 (b :: s.take (utf8Lead b).1 ++ rest) =
      cpUnits (tailCp (leadBits (utf8Lead b).1 b) (s.take (utf8Lead b).1)) ++ wtf8ToUtf16 rest := by
  have hlen : (s.take (utf8Lead b).1).length = (utf8Lead b).1 := by
    have := @utf8Got_le (utf8Lead b).1 (utf8Lead b).2.1 (utf8Lead b).2.2 s
    rw [length_take]
    omega
  have hcp : wtf8Cp b (s.take (utf8Lead b).1 ++ rest) =
      (tailCp (leadBits (utf8Lead b).1 b) (s.take (utf8Lead b).1), (utf8Lead b).1 + 1) := by
    obtain hzero | ⟨hb, hlo, hhi, hbits⟩ := utf8Lead_bits b
    · exact absurd hzero hneed
    have htail : ∀ cp : UInt8, wtf8Cp.tail (s.take (utf8Lead b).1 ++ rest) (utf8Lead b).1 cp =
        (tailCp cp.toNat (s.take (utf8Lead b).1), (utf8Lead b).1 + 1) := by
      intro cp
      rw [wtf8Cp.tail, wtf8Tail_of_got hlo hhi hgot]
    have hlt := UInt8.not_lt.2 hb
    rcases hbits with ⟨h1, ha⟩ | ⟨h2, ha, hc⟩ | ⟨h3, ha, hc, he⟩
    · rw [wtf8Cp, if_neg hlt, if_pos ha]
      rw [h1] at htail ⊢
      rw [htail, UInt8.toNat_and]
      rfl
    · rw [wtf8Cp, if_neg hlt, if_neg ha, if_pos hc]
      rw [h2] at htail ⊢
      rw [htail, UInt8.toNat_and]
      rfl
    · rw [wtf8Cp, if_neg hlt, if_neg ha, if_neg hc, if_pos he]
      rw [h3] at htail ⊢
      rw [htail, UInt8.toNat_and]
      rfl
  rw [cons_append, wtf8ToUtf16, hcp, drop_succ_cons, drop_left' hlen]

theorem wtf8ToUtf16_ascii (hb : b < 0x80) : wtf8ToUtf16 (b :: s) = UInt16.ofNat b.toNat :: wtf8ToUtf16 s := by
  have hcp : wtf8Cp b s = (b.toNat, 1) := if_pos hb
  rw [wtf8ToUtf16, hcp, cpUnits_short (by have := b.toNat_lt; omega)]
  rfl

/-- The code point a multi-byte sequence pushes. -/
def sequenceCp (b : UInt8) (s : List UInt8) : Nat :=
  let (need, lo, hi) := utf8Lead b
  if need ≠ 0 ∧ utf8Got need lo hi s = need then tailCp (leadBits need b) (s.take need) else fffd

theorem fffd_short : fffd < 0x10000 := by decide

theorem utf8Decode_sequence (hb : ¬ b < 0x80) : wtf8ToUtf16 (utf8Decode (b :: s)) = cpUnits (sequenceCp b s) ++
    wtf8ToUtf16 (utf8Decode (s.drop (utf8Got (utf8Lead b).1 (utf8Lead b).2.1 (utf8Lead b).2.2 s))) := by
  rw [utf8Decode, if_neg hb]
  simp only [sequenceCp]
  split
  · rename_i h
    rw [h.2]
    exact wtf8ToUtf16_sequence h.1 h.2
  · exact wtf8ToUtf16_putCp (by decide) _

/-! ### Encodings of characters -/

/-- The continuation bytes that a lead asks for. -/
structure Whole (b : UInt8) (t : List UInt8) : Prop where
  need : (utf8Lead b).1 ≠ 0
  length : t.length = (utf8Lead b).1
  got : utf8Got (utf8Lead b).1 (utf8Lead b).2.1 (utf8Lead b).2.2 t = (utf8Lead b).1

theorem toNat_ofNat_lt {n : Nat} (h : n < 256) : (UInt8.ofNat n).toNat = n := by
  rw [toNat_ofNat', mod_eq_of_lt h]

theorem ofNat_eq {n : Nat} (h : n = b.toNat) : UInt8.ofNat n = b := by
  rw [h, UInt8.ofNat_toNat]

theorem val_ofNat {v : Nat} (h : v.isValidChar) : (Char.ofNat v).val.toNat = v := by
  rw [Char.ofNat, dif_pos h]
  rfl

/-- The bytes of a number above ASCII, by its size. -/
theorem utf8EncodeChar_ofNat {v : Nat} (h : v.isValidChar) (hv : 0x7f < v) : utf8EncodeChar (Char.ofNat v) =
    if v ≤ 0x7ff then [UInt8.ofNat (v / 64 + 0xc0), UInt8.ofNat (v % 64 + 0x80)]
    else if v ≤ 0xffff then
      [UInt8.ofNat (v / 4096 + 0xe0), UInt8.ofNat (v / 64 % 64 + 0x80), UInt8.ofNat (v % 64 + 0x80)]
    else
      [UInt8.ofNat (v / 262144 + 0xf0), UInt8.ofNat (v / 4096 % 64 + 0x80), UInt8.ofNat (v / 64 % 64 + 0x80),
        UInt8.ofNat (v % 64 + 0x80)] := by
  have hmax : v < 0x110000 := by
    rcases h with h | h <;> omega
  simp only [utf8EncodeChar, val_ofNat h]
  rw [if_neg (by omega)]
  split_ifs
  · rw [mod_eq_of_lt (by omega : v / 64 < 0x20)]
  · rw [mod_eq_of_lt (by omega : v / 4096 < 0x10)]
  · rw [mod_eq_of_lt (by omega : v / 262144 < 0x08)]

/-- A whole sequence is the encoding of the code point that both decoders read from it. -/
theorem Whole.encode (h : Whole b t) :
    ∃ c : Char, utf8EncodeChar c = b :: t ∧ c.toNat = tailCp (leadBits (utf8Lead b).1 b) t := by
  have hfollows := utf8Lead_follows b h.need
  obtain ⟨-, hlen, hgot⟩ := h
  generalize (utf8Lead b).1 = need at *
  generalize (utf8Lead b).2.1 = lo at *
  generalize (utf8Lead b).2.2 = hi at *
  have h80 : (0x80 : UInt8).toNat = 0x80 := rfl
  have hbf : (0xbf : UInt8).toNat = 0xbf := rfl
  rcases hfollows with ⟨rfl, hb⟩ | ⟨rfl, hb⟩ | ⟨rfl, hb⟩
  · match t, hlen with
    | [x], _ =>
      rw [utf8Got_succ] at hgot
      obtain ⟨v, hv⟩ : ∃ v, v = b.toNat % 32 * 64 + x.toNat % 64 := ⟨_, rfl⟩
      have hvalid : v.isValidChar := .inl (by omega)
      refine ⟨Char.ofNat v, ?_, ?_⟩
      · rw [utf8EncodeChar_ofNat hvalid (by omega), if_pos (by omega), ofNat_eq (b := b) (by omega),
          ofNat_eq (b := x) (by omega)]
      · rw [leadBits_one, tailCp_cons]
        exact (val_ofNat hvalid).trans hv
  · match t, hlen with
    | [x, y], _ =>
      rw [utf8Got_succ, utf8Got_succ, h80, hbf] at hgot
      obtain ⟨v, hv⟩ : ∃ v, v = (b.toNat % 16 * 64 + x.toNat % 64) * 64 + y.toNat % 64 := ⟨_, rfl⟩
      have hvalid : v.isValidChar := by
        unfold Nat.isValidChar
        omega
      refine ⟨Char.ofNat v, ?_, ?_⟩
      · rw [utf8EncodeChar_ofNat hvalid (by omega), if_neg (by omega), if_pos (by omega), ofNat_eq (b := b) (by omega),
          ofNat_eq (b := x) (by omega), ofNat_eq (b := y) (by omega)]
      · rw [leadBits_two, tailCp_cons, tailCp_cons]
        exact (val_ofNat hvalid).trans hv
  · match t, hlen with
    | [x, y, z], _ =>
      rw [utf8Got_succ, utf8Got_succ, utf8Got_succ, h80, hbf] at hgot
      obtain ⟨v, hv⟩ : ∃ v, v = ((b.toNat % 8 * 64 + x.toNat % 64) * 64 + y.toNat % 64) * 64 + z.toNat % 64 := ⟨_, rfl⟩
      have hvalid : v.isValidChar := by
        unfold Nat.isValidChar
        omega
      refine ⟨Char.ofNat v, ?_, ?_⟩
      · rw [utf8EncodeChar_ofNat hvalid (by omega), if_neg (by omega), if_neg (by omega), ofNat_eq (b := b) (by omega),
          ofNat_eq (b := x) (by omega), ofNat_eq (b := y) (by omega), ofNat_eq (b := z) (by omega)]
      · rw [leadBits_three, tailCp_cons, tailCp_cons, tailCp_cons]
        exact (val_ofNat hvalid).trans hv

theorem Whole.of_follows {b x : UInt8} (hb : Follows b.toNat (need + 1) lo hi)
    (hlen : t.length = need) (hx : lo ≤ x.toNat ∧ x.toNat ≤ hi) (ht : utf8Got need 0x80 0xbf t = need) :
      Whole b (x :: t) := by
  obtain ⟨hneed, hlo, hhi, hpos⟩ := utf8Lead_of_follows hb
  refine ⟨hneed ▸ hpos, ?_, ?_⟩
  · rw [hneed, length_cons, hlen]
  · rw [hneed, utf8Got_succ, hlo, hhi]
    exact ⟨hx, ht⟩

/-- A continuation byte of an encoding. -/
theorem got_tail {need n : Nat} (hn : n < 64) (ht : utf8Got need 0x80 0xbf t = need) :
    utf8Got (need + 1) 0x80 0xbf (UInt8.ofNat (n + 0x80) :: t) = need + 1 := by
  rw [utf8Got_succ, toNat_ofNat_lt (by omega)]
  simp only [UInt8.reduceToNat]
  exact ⟨by omega, ht⟩

theorem encode_cases (c : Char) : (∃ b, utf8EncodeChar c = [b] ∧ b < 0x80) ∨
    ∃ b t, utf8EncodeChar c = b :: t ∧ ¬ b < 0x80 ∧ Whole b t := by
  have hvalid : c.toNat.isValidChar := c.valid
  obtain ⟨v, hv⟩ : ∃ v, v = c.toNat := ⟨_, rfl⟩
  by_cases hascii : c.toNat ≤ 0x7f
  · refine .inl ⟨UInt8.ofNat c.toNat, ?_, ?_⟩
    · rw [utf8EncodeChar]
      exact if_pos hascii
    · rw [lt_iff_toNat_lt, toNat_ofNat_lt (by omega)]
      simp only [UInt8.reduceToNat]
      omega
  · right
    have hencode := utf8EncodeChar_ofNat hvalid (by omega)
    rw [Char.ofNat_toNat c, ← hv] at hencode
    have hrange : v < 0xd800 ∨ 0xdfff < v ∧ v < 0x110000 := hv ▸ hvalid
    have hlow := mod_lt v (show 64 > 0 by decide)
    have hmid := mod_lt (v / 64) (show 64 > 0 by decide)
    have hhigh := mod_lt (v / 4096) (show 64 > 0 by decide)
    split_ifs at hencode
    · have hb : Follows (UInt8.ofNat (v / 64 + 0xc0)).toNat 1 0x80 0xbf := by
        rw [toNat_ofNat_lt (by omega)]
        unfold Follows
        omega
      refine ⟨_, _, hencode, hb.not_ascii, .of_follows hb rfl ?_ rfl⟩
      rw [toNat_ofNat_lt (by omega)]
      omega
    · obtain ⟨lo, hi, hb, hx⟩ : ∃ lo hi, Follows (UInt8.ofNat (v / 4096 + 0xe0)).toNat 2 lo hi ∧
          lo ≤ (UInt8.ofNat (v / 64 % 64 + 0x80)).toNat ∧ (UInt8.ofNat (v / 64 % 64 + 0x80)).toNat ≤ hi := by
        rw [toNat_ofNat_lt (by omega), toNat_ofNat_lt (by omega)]
        unfold Follows
        by_cases h0 : v / 4096 = 0
        · exact ⟨0xa0, 0xbf, by omega⟩
        · by_cases hd : v / 4096 = 13
          · exact ⟨0x80, 0x9f, by omega⟩
          · exact ⟨0x80, 0xbf, by omega⟩
      exact ⟨_, _, hencode, hb.not_ascii, .of_follows hb rfl hx (got_tail hlow rfl)⟩
    · obtain ⟨lo, hi, hb, hx⟩ : ∃ lo hi, Follows (UInt8.ofNat (v / 262144 + 0xf0)).toNat 3 lo hi ∧
          lo ≤ (UInt8.ofNat (v / 4096 % 64 + 0x80)).toNat ∧ (UInt8.ofNat (v / 4096 % 64 + 0x80)).toNat ≤ hi := by
        rw [toNat_ofNat_lt (by omega), toNat_ofNat_lt (by omega)]
        unfold Follows
        by_cases h0 : v / 262144 = 0
        · exact ⟨0x90, 0xbf, by omega⟩
        · by_cases h4 : v / 262144 = 4
          · exact ⟨0x80, 0x8f, by omega⟩
          · exact ⟨0x80, 0xbf, by omega⟩
      exact ⟨_, _, hencode, hb.not_ascii, .of_follows hb rfl hx (got_tail hmid (got_tail hlow rfl))⟩

theorem encode_ascii (hb : b < 0x80) :
    ∃ c : Char, utf8EncodeChar c = [b] ∧ c.toNat = b.toNat := by
  have hlt := UInt8.lt_iff_toNat_lt.1 hb
  simp only [UInt8.reduceToNat] at hlt
  have hvalid : b.toNat.isValidChar := .inl (by omega)
  refine ⟨Char.ofNat b.toNat, ?_, val_ofNat hvalid⟩
  simp only [utf8EncodeChar, val_ofNat hvalid]
  rw [if_pos (by omega), UInt8.ofNat_toNat]

section Initial
variable {b : UInt8} {s t : List UInt8}

theorem initial_iff (hb : ¬ b < 0x80) : Initial (b :: t) ↔
    (utf8Lead b).1 ≠ 0 ∧ utf8Got (utf8Lead b).1 (utf8Lead b).2.1 (utf8Lead b).2.2 t = t.length := by
  constructor
  · rintro ⟨c, hc⟩
    obtain ⟨a, ha, hlt⟩ | ⟨a, w, ha, -, hwhole⟩ := encode_cases c
    · rw [ha, cons_prefix_cons] at hc
      exact absurd (hc.1 ▸ hlt) hb
    · rw [ha, cons_prefix_cons] at hc
      obtain ⟨rfl, hprefix⟩ := hc
      refine ⟨hwhole.need, ?_⟩
      have hle := hprefix.length_le
      rw [prefix_iff_eq_take.1 hprefix, utf8Got_take, hwhole.got, length_take, hwhole.length]
  · rintro ⟨hneed, hgot⟩
    have hle : (utf8Lead b).2.1 ≤ (utf8Lead b).2.2 := by
      have := utf8Lead_follows b hneed
      unfold Follows at this
      rw [le_iff_toNat_le]
      omega
    obtain ⟨r, hlen, hwhole⟩ := utf8Got_extend hle hgot
    obtain ⟨c, hc, -⟩ := Whole.encode ⟨hneed, hlen, hwhole⟩
    exact ⟨c, hc ▸ ⟨r, rfl⟩⟩

theorem maximalSubpart_got (hb : ¬ b < 0x80) : MaximalSubpart
    (b :: s.take (utf8Got (utf8Lead b).1 (utf8Lead b).2.1 (utf8Lead b).2.2 s)) (b :: s) where
  start := cons_prefix_cons.2 ⟨rfl, take_prefix _ _⟩
  nonempty := cons_ne_nil _ _
  initial := by
    by_cases hneed : (utf8Lead b).1 = 0
    · refine .inr ?_
      rw [hneed, utf8Got]
      rfl
    · refine .inl ((initial_iff hb).2 ⟨hneed, ?_⟩)
      rw [utf8Got_take, Nat.min_self, length_take, Nat.min_eq_left utf8Got_le]
  longest := by
    intro l hl hlen hinitial
    match l, hl, hlen with
    | [], _, hlen => exact absurd hlen (Nat.not_lt_zero _)
    | a :: t, hl, hlen =>
      obtain ⟨rfl, hprefix⟩ := cons_prefix_cons.1 hl
      have hgot := ((initial_iff hb).1 hinitial).2
      rw [prefix_iff_eq_take.1 hprefix, utf8Got_take, length_take] at hgot
      rw [length_cons, length_cons, length_take] at hlen
      have := hprefix.length_le
      omega

/-- A sequence whose continuation bytes are not all there starts no encoding. -/
theorem no_encoding (hb : ¬ b < 0x80)
    (hgot : ¬ ((utf8Lead b).1 ≠ 0 ∧ utf8Got (utf8Lead b).1 (utf8Lead b).2.1 (utf8Lead b).2.2 s = (utf8Lead b).1))
    (c : Char) : ¬ utf8EncodeChar c <+: b :: s := by
  intro hc
  obtain ⟨a, ha, hlt⟩ | ⟨a, w, ha, -, hwhole⟩ := encode_cases c
  · rw [ha, cons_prefix_cons] at hc
    exact hb (hc.1 ▸ hlt)
  · rw [ha, cons_prefix_cons] at hc
    obtain ⟨rfl, hprefix⟩ := hc
    refine hgot ⟨hwhole.need, ?_⟩
    have hwhole' := hwhole.got
    rw [prefix_iff_eq_take.1 hprefix, utf8Got_take, hwhole.length] at hwhole'
    have hle := @utf8Got_le (utf8Lead a).1 (utf8Lead a).2.1 (utf8Lead a).2.2 w
    have hmax : utf8Got (utf8Lead a).1 (utf8Lead a).2.1 (utf8Lead a).2.2 s ≤ (utf8Lead a).1 := utf8Got_le_need
    omega

end Initial

theorem utf8Text_decode (bytes : List UInt8) : Utf8Text bytes (wtf8ToUtf16 (utf8Decode bytes)) := by
  induction hn : bytes.length using Nat.strong_induction_on generalizing bytes with
  | _ n ih =>
    match bytes with
    | [] =>
      rw [utf8Decode, wtf8ToUtf16]
      exact .nil
    | b :: s =>
      by_cases hb : b < 0x80
      · have hrest := ih s.length (by simp [← hn]) s rfl
        obtain ⟨c, hencode, hc⟩ := encode_ascii hb
        rw [utf8Decode, if_pos hb, wtf8ToUtf16_ascii hb]
        have hchar := Utf8Text.char (c := c) hrest
        rwa [hencode, hc, ← cpUnits_eq, cpUnits_short (by have := b.toNat_lt; omega)] at hchar
      · have hrest := ih (s.drop (utf8Got (utf8Lead b).1 (utf8Lead b).2.1 (utf8Lead b).2.2 s)).length
          (by rw [← hn, length_drop, length_cons]; omega) _ rfl
        rw [utf8Decode_sequence hb, sequenceCp]
        have hsplit : b :: s = b :: s.take (utf8Got (utf8Lead b).1 (utf8Lead b).2.1 (utf8Lead b).2.2 s) ++
            s.drop (utf8Got (utf8Lead b).1 (utf8Lead b).2.1 (utf8Lead b).2.2 s) := by
          rw [cons_append, take_append_drop]
        dsimp only
        split
        · rename_i h
          have hlen : (s.take (utf8Lead b).1).length = (utf8Lead b).1 := by
            have hle := @utf8Got_le (utf8Lead b).1 (utf8Lead b).2.1 (utf8Lead b).2.2 s
            rw [h.2] at hle
            rw [length_take, Nat.min_eq_left hle]
          obtain ⟨c, hencode, hc⟩ := Whole.encode ⟨h.1, hlen, by rw [utf8Got_take, h.2, Nat.min_self]⟩
          have hchar := Utf8Text.char (c := c) hrest
          rw [hencode, hc, ← cpUnits_eq, h.2, cons_append, take_append_drop] at hchar
          rwa [h.2]
        · rename_i h
          rw [cpUnits_short fffd_short]
          have hbad := @Utf8Text.malformed (b :: s.take (utf8Got (utf8Lead b).1 (utf8Lead b).2.1 (utf8Lead b).2.2 s)) _ _
            (hsplit ▸ no_encoding hb h) (hsplit ▸ maximalSubpart_got hb) hrest
          rw [← hsplit] at hbad
          exact hbad

/-! ### Single bytes and UTF-16 -/

/-- The unit of a byte of ISO-8859-1 or US-ASCII. -/
def byteUnit (kind : Kind) (b : UInt8) : Nat := if kind = .ascii ∧ 0x80 ≤ b then fffd else b.toNat

theorem byteUnit_lt (kind : Kind) (b : UInt8) : byteUnit kind b < 0x10000 := by
  unfold byteUnit
  split
  · exact fffd_short
  · have := b.toNat_lt
    omega

theorem wtf8ToUtf16_bytes (kind : Kind) : ∀ bytes : List UInt8,
    wtf8ToUtf16 (bytes.flatMap fun b => putCp (byteUnit kind b)) = bytes.map fun b => UInt16.ofNat (byteUnit kind b)
  | [] => by simp [wtf8ToUtf16]
  | b :: s => by
    have hlt := byteUnit_lt kind b
    rw [flatMap_cons, wtf8ToUtf16_putCp (by omega), cpUnits_short hlt, wtf8ToUtf16_bytes kind s]
    rfl

/-- The unit of two bytes, as both decoders put it together. -/
def pairUnit (little : Bool) (b0 b1 : UInt8) : Nat :=
  if little then b0.toNat ||| b1.toNat <<< 8 else b0.toNat <<< 8 ||| b1.toNat

theorem pairUnit_eq (little : Bool) (b0 b1 : UInt8) :
    pairUnit little b0 b1 = if little then b1.toNat * 256 + b0.toNat else b0.toNat * 256 + b1.toNat := by
  unfold pairUnit
  rw [Nat.or_comm, or_of_lt 8 b0.toNat_lt, or_of_lt 8 b1.toNat_lt]
  rfl

theorem pairUnit_toNat (little : Bool) (b0 b1 : UInt8) :
    (UInt16.ofNat (pairUnit little b0 b1)).toNat = pairUnit little b0 b1 := by
  have h0 := b0.toNat_lt
  have h1 := b1.toNat_lt
  rw [UInt16.toNat_ofNat', mod_eq_of_lt]
  rw [pairUnit_eq]
  split <;> omega

theorem utf16Units_odd (little : Bool) : ∀ s : List UInt8,
    utf16Units little s ++ (if s.length % 2 = 1 then [UInt16.ofNat fffd] else []) = bytesUnits little s
  | [] => rfl
  | [_] => rfl
  | b0 :: b1 :: s => by
    have hmod : (b0 :: b1 :: s).length % 2 = s.length % 2 := by simp only [length_cons]; omega
    have hunit : (if little then UInt16.ofNat (b0.toNat ||| b1.toNat <<< 8)
        else UInt16.ofNat (b0.toNat <<< 8 ||| b1.toNat)) = UInt16.ofNat (pairUnit little b0 b1) := (apply_ite ..).symm
    rw [utf16Units, bytesUnits, cons_append, hmod, utf16Units_odd little s, hunit, pairUnit_eq]

section Surrogates
variable {u : UInt16} {us : List UInt16}

theorem isHigh_or_isLow : (0xd800 ≤ u ∧ u ≤ 0xdfff) ↔ IsHigh u ∨ IsLow u := by
  simp only [IsHigh, IsLow, UInt16.le_iff_toNat_le, UInt16.reduceToNat]
  omega

theorem replaceLone_pair {l : UInt16} (hu : IsHigh u) (hl : IsLow l) :
    replaceLone (u :: l :: us) = u :: l :: replaceLone us := by
  rw [replaceLone, if_pos ⟨hu.1, hu.2, hl.1, hl.2⟩]

/-- A unit that does not start a pair is looked at alone. -/
theorem replaceLone_single (h : IsHigh u → ∀ l ∈ us.head?, ¬ IsLow l) :
    replaceLone (u :: us) = (if IsHigh u ∨ IsLow u then replacement else u) :: replaceLone us := by
  match us, h with
  | [], _ =>
    rw [replaceLone, replaceLone, if_congr isHigh_or_isLow rfl rfl]
    rfl
  | l :: us, h =>
    rw [replaceLone, if_neg fun hp => h ⟨hp.1, hp.2.1⟩ l rfl hp.2.2, if_congr isHigh_or_isLow rfl rfl]
    rfl

theorem utf16Text_replaceLone (us : List UInt16) : Utf16Text us (replaceLone us) := by
  induction hn : us.length using Nat.strong_induction_on generalizing us with
  | _ n ih =>
    match us with
    | [] => exact .nil
    | u :: us =>
      by_cases hpair : IsHigh u → ∀ l ∈ us.head?, ¬ IsLow l
      · rw [replaceLone_single hpair]
        have hrest := ih us.length (by simp [← hn]) us rfl
        split
        · rename_i hsur
          exact .lone (hsur.imp_left fun hu => ⟨hu, hpair hu⟩) hrest
        · rename_i hsur
          obtain ⟨hu, hl⟩ := not_or.1 hsur
          exact .plain hu hl hrest
      · obtain ⟨hu, hl⟩ := Classical.not_imp.1 hpair
        match us, hl with
        | [], hl => exact absurd nofun hl
        | l :: us, hl =>
          have hl : IsLow l := by simpa using hl
          rw [replaceLone_pair hu hl]
          exact .pair hu hl (ih us.length (by simp only [← hn, length_cons]; omega) us rfl)

theorem replaceLone_append (us : List UInt16) : replaceLone (us ++ [replacement]) = replaceLone us ++ [replacement] := by
  induction hn : us.length using Nat.strong_induction_on generalizing us with
  | _ n ih =>
    match us with
    | [] => rfl
    | [u] =>
      rw [cons_append, replaceLone_single fun _ l hl => ?_, replaceLone_single (by simp)]
      · rfl
      · rw [nil_append, head?_cons, Option.mem_some_iff] at hl
        rw [← hl]
        decide
    | u :: l :: us =>
      by_cases hpair : IsHigh u ∧ IsLow l
      · rw [cons_append, cons_append, replaceLone_pair hpair.1 hpair.2, replaceLone_pair hpair.1 hpair.2,
          ih us.length (by simp only [← hn, length_cons]; omega) us rfl]
        rfl
      · have hhead : IsHigh u → ¬ IsLow l := not_and.1 hpair
        have hrest := ih (l :: us).length (by simp only [← hn, length_cons]; omega) (l :: us) rfl
        rw [cons_append, replaceLone_single (by simpa using hhead), replaceLone_single (by simpa using hhead), hrest]
        rfl

theorem wtf8ToUtf16_utf16Decode (kind : Kind) (bytes : List UInt8) : wtf8ToUtf16 (utf16Decode kind bytes) =
    replaceLone (bytesUnits (utf16Start kind bytes).2 (bytes.drop (utf16Start kind bytes).1)) := by
  simp only [utf16Decode, wtf8ToUtf16_utf16ToWtf8, ← utf16Units_odd]
  split
  · exact (replaceLone_append _).symm
  · rw [append_nil, append_nil]

end Surrogates

end Lunaria.Dvm.Charset
