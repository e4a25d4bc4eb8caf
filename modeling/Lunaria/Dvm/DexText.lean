import Lunaria.Dvm.Dex
import Lunaria.Dvm.CharsetText

/-! The strings of dex images keep their units. In the MUTF-8 of an image every unit has its own bytes; `dex_string` folds
    the pairs among the surrogates, which its search for their lead byte finds, and leaves all other bytes. -/

namespace Lunaria.Dvm.Dex
open Unicode Charset List Nat

/-- The bytes of a unit: NUL has two. -/
def mutf8Unit (c : UInt16) : List UInt8 := if c = 0 then [0xc0, 0x80] else putCp c.toNat

def mutf8 (us : List UInt16) : List UInt8 := us.flatMap mutf8Unit

/-- The same with four bytes for a surrogate pair. -/
def textOf : List UInt16 → List UInt8
  | [] => []
  | [c] => mutf8Unit c
  | c :: l :: us =>
    if IsHigh c ∧ IsLow l then putCp (0x10000 + (c.toNat - 0xd800) <<< 10 + (l.toNat - 0xdc00)) ++ textOf us
    else mutf8Unit c ++ textOf (l :: us)

/-! ### The bytes of a unit -/

/-- The bytes of a unit, none of which is NUL. Only the lead of three can be `ed`, and the next one tells which surrogate
    it is. -/
inductive Shape (c : UInt16) : List UInt8 → Prop
  | one {b : UInt8} (hb : b ≠ 0xed) (h0 : b ≠ 0) (hh : ¬IsHigh c) (hl : ¬IsLow c) : Shape c [b]
  | two {b t : UInt8} (hb : b ≠ 0xed) (ht : t ≠ 0xed) (h0 : b ≠ 0 ∧ t ≠ 0) (hh : ¬IsHigh c) (hl : ¬IsLow c) : Shape c [b, t]
  | three {b t t' : UInt8} (ht : t ≠ 0xed) (ht' : t' ≠ 0xed) (h0 : b ≠ 0 ∧ t ≠ 0 ∧ t' ≠ 0)
      (hh : (b = 0xed ∧ t &&& 0xf0 = 0xa0) ↔ IsHigh c) (hl : (b = 0xed ∧ t &&& 0xf0 = 0xb0) ↔ IsLow c) : Shape c [b, t, t']

theorem lead_bytes : ∀ x : Fin 16, ∀ y : Fin 64, let b := UInt8.ofNat (0xe0 ||| x.1)
    let t := UInt8.ofNat (0x80 ||| y.1)
    b ≠ 0 ∧ ((b = 0xed ∧ t &&& 0xf0 = 0xa0) ↔ 0x360 ≤ x.1 * 64 + y.1 ∧ x.1 * 64 + y.1 ≤ 0x36f) ∧
      ((b = 0xed ∧ t &&& 0xf0 = 0xb0) ↔ 0x370 ≤ x.1 * 64 + y.1 ∧ x.1 * 64 + y.1 ≤ 0x37f) := by
  decide +kernel

theorem tail_bytes : ∀ y : Fin 64, UInt8.ofNat (0x80 ||| y.1) ≠ 0xed ∧ UInt8.ofNat (0x80 ||| y.1) ≠ 0 := by
  decide

theorem two_bytes : ∀ y : Fin 32, UInt8.ofNat (0xc0 ||| y.1) ≠ 0xed ∧ UInt8.ofNat (0xc0 ||| y.1) ≠ 0 := by
  decide

theorem one_byte : ∀ y : Fin 128, UInt8.ofNat y.1 ≠ 0xed ∧ (UInt8.ofNat y.1 = 0 → y.1 = 0) := by
  decide

theorem isHigh_iff (c : UInt16) : IsHigh c ↔ 0xd800 ≤ c.toNat ∧ c.toNat ≤ 0xdbff := by
  simp only [IsHigh, UInt16.le_iff_toNat_le, UInt16.reduceToNat]

theorem isLow_iff (c : UInt16) : IsLow c ↔ 0xdc00 ≤ c.toNat ∧ c.toNat ≤ 0xdfff := by
  simp only [IsLow, UInt16.le_iff_toNat_le, UInt16.reduceToNat]

theorem shape (c : UInt16) : Shape c (mutf8Unit c) := by
  have hlt := c.toNat_lt
  have hhigh := isHigh_iff c
  have hlow := isLow_iff c
  rw [mutf8Unit]
  split
  · rename_i hzero
    subst hzero
    exact .two (by decide) (by decide) (by decide) (by decide) (by decide)
  · rename_i hzero
    have hpos : c.toNat ≠ 0 := fun h0 => hzero (UInt16.toNat_inj.1 h0)
    rw [putCp]
    split
    · rename_i h1
      obtain ⟨hed, h0⟩ := one_byte ⟨c.toNat, h1⟩
      exact .one hed (fun h => hpos (h0 h)) (hhigh.not.2 (by omega)) (hlow.not.2 (by omega))
    · split
      · rename_i h1 h2
        have hx : c.toNat >>> 6 < 32 := by
          rw [shiftRight_eq_div_pow]
          omega
        obtain ⟨hb, hb0⟩ := two_bytes ⟨c.toNat >>> 6, hx⟩
        obtain ⟨ht, ht0⟩ := tail_bytes ⟨c.toNat &&& 0x3f, by rw [and_low]; exact mod_lt _ (by decide)⟩
        exact .two hb ht ⟨hb0, ht0⟩ (hhigh.not.2 (by omega)) (hlow.not.2 (by omega))
      · rename_i h1 h2
        have hx : c.toNat >>> 12 < 16 := by
          rw [shiftRight_eq_div_pow]
          omega
        have hy : c.toNat >>> 6 &&& 0x3f < 64 := by
          rw [and_low]
          exact mod_lt _ (by decide)
        have hlead : c.toNat >>> 12 * 64 + (c.toNat >>> 6 &&& 0x3f) = c.toNat / 64 := by
          rw [and_low, shiftRight_eq_div_pow, shiftRight_eq_div_pow]
          omega
        obtain ⟨hb0, hh, hl⟩ := lead_bytes ⟨c.toNat >>> 12, hx⟩ ⟨c.toNat >>> 6 &&& 0x3f, hy⟩
        obtain ⟨ht, ht0⟩ := tail_bytes ⟨c.toNat >>> 6 &&& 0x3f, hy⟩
        obtain ⟨ht', ht0'⟩ := tail_bytes ⟨c.toNat &&& 0x3f, by rw [and_low]; exact mod_lt _ (by decide)⟩
        dsimp only at hh hl
        rw [hlead] at hh hl
        exact .three ht ht' ⟨hb0, ht0, ht0'⟩ (hh.trans (by rw [hhigh]; omega)) (hl.trans (by rw [hlow]; omega))

theorem surrogate_tail : ∀ low : Bool, ∀ k : Fin 16, let t := UInt8.ofNat (0x80 ||| ((if low then 48 else 32) + k.1))
    t &&& 0xf0 = (if low then 0xb0 else 0xa0) ∧ (t &&& 0x0f).toNat = k.1 := by
  decide

theorem surrogate_bytes (low : Bool) {c : UInt16} {base : Nat} (hbase : base = (if low then 55 else 54) <<< 10)
    (h : base ≤ c.toNat ∧ c.toNat < base + 1024) : ∃ t t' : UInt8, mutf8Unit c = [0xed, t, t'] ∧
      t &&& 0xf0 = (if low then 0xb0 else 0xa0) ∧ base ||| (t &&& 0x0f).toNat <<< 6 ||| (t' &&& 0x3f).toNat = c.toNat := by
  have hk : (c.toNat - base) / 64 < 16 := by omega
  have hrange : 55296 ≤ base ∧ base ≤ 56320 ∧ base = (if low then 55 else 54) * 1024 := by
    cases low <;> simp_all
  have hlead : c.toNat >>> 12 = 13 := by
    rw [shiftRight_eq_div_pow]
    omega
  have htail : c.toNat >>> 6 &&& 0x3f = (if low then 48 else 32) + (c.toNat - base) / 64 := by
    rw [and_low, shiftRight_eq_div_pow]
    split <;> simp_all <;> omega
  obtain ⟨ht, hlow⟩ := surrogate_tail low ⟨(c.toNat - base) / 64, hk⟩
  refine ⟨UInt8.ofNat (0x80 ||| c.toNat >>> 6 &&& 0x3f), UInt8.ofNat (0x80 ||| c.toNat &&& 0x3f), ?_, ?_, ?_⟩
  · have hzero : c ≠ 0 := by
      rintro rfl
      cases Nat.le_trans hrange.1 h.1
    rw [mutf8Unit, if_neg hzero, putCp, if_neg (by omega), if_neg (by omega), if_pos c.toNat_lt, hlead]
    rfl
  · rw [htail]
    exact ht
  · have hhigh : base ||| ((c.toNat - base) / 64) <<< 6 = (base / 64 + (c.toNat - base) / 64) <<< 6 := by
      have hlt : ((c.toNat - base) / 64) <<< 6 < 2 ^ 10 := by
        rw [shiftLeft_eq]
        omega
      have hor := @or_of_lt (if low then 55 else 54) _ 10 hlt
      rw [← hbase] at hor
      rw [hor, shiftLeft_eq, shiftLeft_eq]
      omega
    dsimp only at hlow
    have hz : c.toNat % 64 < 2 ^ 6 := mod_lt _ (by decide)
    rw [tail_low, htail, hlow, hhigh, or_of_lt 6 hz]
    omega

theorem high_bytes {c : UInt16} (h : IsHigh c) : ∃ t t' : UInt8, mutf8Unit c = [0xed, t, t'] ∧ t &&& 0xf0 = 0xa0 ∧
    0xd800 ||| (t &&& 0x0f).toNat <<< 6 ||| (t' &&& 0x3f).toNat = c.toNat := by
  rw [isHigh_iff] at h
  exact surrogate_bytes false rfl ⟨h.1, by omega⟩

theorem low_bytes {c : UInt16} (h : IsLow c) : ∃ t t' : UInt8, mutf8Unit c = [0xed, t, t'] ∧ t &&& 0xf0 = 0xb0 ∧
    0xdc00 ||| (t &&& 0x0f).toNat <<< 6 ||| (t' &&& 0x3f).toNat = c.toNat := by
  rw [isLow_iff] at h
  exact surrogate_bytes true rfl ⟨h.1, by omega⟩

/-! ### Finding and folding pairs -/

theorem needsFixup_cons {b : UInt8} (hb : b ≠ 0xed) (s : List UInt8) : mutf8NeedsFixup (b :: s) = mutf8NeedsFixup s := by
  cases s with
  | nil => rfl
  | cons c s => rw [mutf8NeedsFixup, decide_eq_false fun hand => hb hand.1, Bool.false_or]

theorem needsFixup_mutf8 (us : List UInt16) : mutf8NeedsFixup (mutf8 us) = us.any fun c => IsHigh c := by
  induction us with
  | nil => rfl
  | cons c us ih =>
    rw [mutf8, flatMap_cons, ← mutf8, any_cons, ← ih]
    have hshape := shape c
    generalize mutf8Unit c = bytes at hshape ⊢
    cases hshape with
    | one hb h0 hh hl => rw [cons_append, nil_append, needsFixup_cons hb, decide_eq_false hh, Bool.false_or]
    | two hb ht h0 hh hl =>
      rw [cons_append, cons_append, nil_append, needsFixup_cons hb, needsFixup_cons ht, decide_eq_false hh,
        Bool.false_or]
    | three ht ht' h0 hh hl =>
      rw [cons_append, cons_append, cons_append, nil_append, mutf8NeedsFixup, needsFixup_cons ht,
        needsFixup_cons ht', decide_eq_decide.2 hh]

/-- A byte that starts no pair is kept. -/
theorem mutf8ToUtf8_cons {b : UInt8} {s : List UInt8} (h : ∀ b1 b2 b3 b4 b5 r, s = b1 :: b2 :: b3 :: b4 :: b5 :: r →
    ¬(b = 0xed ∧ b1 &&& 0xf0 = 0xa0 ∧ b3 = 0xed ∧ b4 &&& 0xf0 = 0xb0)) : mutf8ToUtf8 (b :: s) = b :: mutf8ToUtf8 s := by
  match s, h with
  | [], _ | [_], _ | [_, _], _ | [_, _, _], _ | [_, _, _, _], _ => simp only [mutf8ToUtf8]
  | b1 :: b2 :: b3 :: b4 :: b5 :: r, h => rw [mutf8ToUtf8, if_neg (h _ _ _ _ _ _ rfl)]

theorem mutf8ToUtf8_other {b : UInt8} (hb : b ≠ 0xed) (s : List UInt8) : mutf8ToUtf8 (b :: s) = b :: mutf8ToUtf8 s :=
  mutf8ToUtf8_cons fun _ _ _ _ _ _ _ hand => hb hand.1

theorem mutf8ToUtf8_unit {c : UInt16} {us : List UInt16} (h : IsHigh c → ∀ l ∈ us.head?, ¬IsLow l) :
    mutf8ToUtf8 (mutf8Unit c ++ mutf8 us) = mutf8Unit c ++ mutf8ToUtf8 (mutf8 us) := by
  have hshape := shape c
  generalize mutf8Unit c = bytes at hshape ⊢
  cases hshape with
  | one hb h0 hh hl => exact mutf8ToUtf8_other hb _
  | two hb ht h0 hh hl =>
    rw [cons_append, cons_append, nil_append, mutf8ToUtf8_other hb, mutf8ToUtf8_other ht]
    rfl
  | @three b t t' ht ht' h0 hh hl =>
    rw [cons_append, cons_append, cons_append, nil_append, mutf8ToUtf8_cons, mutf8ToUtf8_other ht,
      mutf8ToUtf8_other ht']
    · rfl
    · rintro b1 b2 b3 b4 b5 r hrest ⟨hb, hb1, hb3, hb4⟩
      obtain ⟨rfl, rfl, hnext⟩ : t = b1 ∧ t' = b2 ∧ mutf8 us = b3 :: b4 :: b5 :: r := by simpa using hrest
      -- a low surrogate would follow
      cases us with
      | nil => cases hnext
      | cons l us =>
        have hno := h (hh.1 ⟨hb, hb1⟩) l rfl
        rw [mutf8, flatMap_cons] at hnext
        have hshape := shape l
        generalize mutf8Unit l = bytes at hshape hnext
        cases hshape with
        | one hb h0 hh hl => exact hb ((List.cons.inj hnext).1.trans hb3)
        | two hb ht h0 hh hl => exact hb ((List.cons.inj hnext).1.trans hb3)
        | three ht ht' h0 hh hl =>
          obtain ⟨hlead, hnext⟩ := List.cons.inj hnext
          obtain ⟨htail, -⟩ := List.cons.inj hnext
          exact hno (hl.1 ⟨hlead.trans hb3, htail ▸ hb4⟩)

theorem mutf8ToUtf8_pair {c l : UInt16} (hc : IsHigh c) (hl : IsLow l) (s : List UInt8) :
    mutf8ToUtf8 (mutf8Unit c ++ (mutf8Unit l ++ s)) =
      putCp (0x10000 + (c.toNat - 0xd800) <<< 10 + (l.toNat - 0xdc00)) ++ mutf8ToUtf8 s := by
  obtain ⟨t, t', hbytes, ht, hcode⟩ := high_bytes hc
  obtain ⟨u, u', hbytes', hu, hcode'⟩ := low_bytes hl
  rw [hbytes, hbytes']
  simp only [cons_append, nil_append]
  rw [mutf8ToUtf8, if_pos ⟨rfl, ht, rfl, hu⟩]
  dsimp only
  rw [hcode, hcode', putCp, if_neg (by omega), if_neg (by omega), if_neg (by omega)]
  rfl

theorem mutf8ToUtf8_mutf8 : ∀ us : List UInt16, mutf8ToUtf8 (mutf8 us) = textOf us
  | [] => rfl
  | [c] => by
    have hunit := @mutf8ToUtf8_unit c [] fun _ l hl => by cases hl
    rw [mutf8, flatMap_cons, ← mutf8, hunit]
    exact append_nil _
  | c :: l :: us => by
    rw [textOf, mutf8, flatMap_cons, ← mutf8]
    split
    · rename_i hpair
      rw [mutf8, flatMap_cons, ← mutf8, mutf8ToUtf8_pair hpair.1 hpair.2, mutf8ToUtf8_mutf8 us]
    · rename_i hpair
      have hunit := @mutf8ToUtf8_unit c (l :: us) fun hc l' hl' hlow => hpair ⟨hc, Option.some.inj hl' ▸ hlow⟩
      rw [hunit, mutf8ToUtf8_mutf8 (l :: us)]

theorem textOf_plain : ∀ us : List UInt16, (∀ c ∈ us, ¬IsHigh c) → textOf us = mutf8 us
  | [], _ => rfl
  | [c], _ => (append_nil _).symm
  | c :: l :: us, h => by
    rw [textOf, if_neg fun hpair => h c mem_cons_self hpair.1, textOf_plain (l :: us)
      fun x hx => h x (mem_cons_of_mem c hx)]
    rfl

/-! ### The text read back -/

theorem wtf8ToUtf16_unit (c : UInt16) (s : List UInt8) : wtf8ToUtf16 (mutf8Unit c ++ s) = c :: wtf8ToUtf16 s := by
  rw [mutf8Unit]
  split
  · rename_i hzero
    subst hzero
    have hcp : wtf8Cp 0xc0 (0x80 :: s) = (0, 2) := rfl
    rw [cons_append, wtf8ToUtf16, cons_append, nil_append, hcp]
    rfl
  · have hlt := c.toNat_lt
    rw [wtf8ToUtf16_putCp (by omega), cpUnits_unit]
    rfl

theorem wtf8ToUtf16_textOf : ∀ us : List UInt16, wtf8ToUtf16 (textOf us) = us
  | [] => by rw [textOf, wtf8ToUtf16]
  | [c] => by
    have hunit := wtf8ToUtf16_unit c []
    rw [append_nil, wtf8ToUtf16] at hunit
    exact hunit
  | c :: l :: us => by
    rw [textOf]
    split
    · rename_i hpair
      have hc := (isHigh_iff c).1 hpair.1
      have hl := (isLow_iff l).1 hpair.2
      have hcp : 0x10000 + (c.toNat - 0xd800) <<< 10 + (l.toNat - 0xdc00) < 0x200000 := by
        rw [shiftLeft_eq]
        omega
      rw [wtf8ToUtf16_putCp hcp, cpUnits_pair hpair.1 hpair.2, wtf8ToUtf16_textOf us]
      rfl
    · rw [wtf8ToUtf16_unit, wtf8ToUtf16_textOf (l :: us)]

theorem zero_not_mem (us : List UInt16) : 0 ∉ mutf8 us := by
  intro h
  obtain ⟨c, -, hc⟩ := mem_flatMap.1 h
  have hshape := shape c
  generalize mutf8Unit c = bytes at hshape hc
  cases hshape with
  | one hb h0 hh hl =>
    simp only [mem_cons, not_mem_nil, or_false] at hc
    exact h0 hc.symm
  | two hb ht h0 hh hl =>
    simp only [mem_cons, not_mem_nil, or_false] at hc
    rcases hc with hc | hc
    · exact h0.1 hc.symm
    · exact h0.2 hc.symm
  | three ht ht' h0 hh hl =>
    simp only [mem_cons, not_mem_nil, or_false] at hc
    rcases hc with hc | hc | hc
    · exact h0.1 hc.symm
    · exact h0.2.1 hc.symm
    · exact h0.2.2 hc.symm

/-! ### Strings of an image -/

/-- The item of a string: the number of its units, their MUTF-8 and a NUL. -/
def HoldsString (d : DexFile) (idx : Nat) (us : List UInt16) : Prop :=
  idx < d.stringIdsSize.toNat ∧ ∃ rest,
    d.p.drop (dexUleb d (dexU32At d (d.stringIdsOff.toNat + idx * 4)).toNat).2 = mutf8 us ++ 0 :: rest

/-- The text of a string of an image gives back its units, unpaired surrogates and NUL among them, and has its pairs in
    four bytes. -/
theorem dexString_units {d : DexFile} {idx : Nat} {us : List UInt16} (h : HoldsString d idx us) :
    dexString d idx = some (textOf us) ∧ wtf8ToUtf16 (textOf us) = us := by
  refine ⟨?_, wtf8ToUtf16_textOf us⟩
  obtain ⟨hidx, rest, hdrop⟩ := h
  have hlt : (dexUleb d (dexU32At d (d.stringIdsOff.toNat + idx * 4)).toNat).2 < d.p.length := by
    by_contra hge
    rw [drop_eq_nil_of_le (Nat.not_lt.1 hge)] at hdrop
    exact cons_ne_nil _ _ (append_eq_nil_iff.1 hdrop.symm).2
  have hoff := dexUleb_off d (dexU32At d (d.stringIdsOff.toNat + idx * 4)).toNat
  have hraw : (mutf8 us ++ 0 :: rest).takeWhile (· ≠ 0) = mutf8 us := by
    have hnone : ∀ b ∈ mutf8 us, decide (b ≠ 0) = true := fun b hb => decide_eq_true fun h0 => zero_not_mem us (h0 ▸ hb)
    rw [takeWhile_append_of_pos hnone, takeWhile_cons_of_neg (by decide), append_nil]
  rw [dexString, if_neg (Nat.not_le.2 hidx)]
  dsimp only
  rw [if_neg (Nat.not_le.2 (Nat.lt_of_le_of_lt hoff hlt)), if_neg (Nat.not_le.2 hlt), hdrop,
    if_neg (not_not_intro (mem_append_right _ mem_cons_self)), hraw, needsFixup_mutf8]
  cases hany : us.any fun c => IsHigh c with
  | true => rw [if_pos rfl, mutf8ToUtf8_mutf8]
  | false =>
    rw [if_neg Bool.false_ne_true, textOf_plain us fun c hc hh => ?_]
    have := List.any_eq_false.1 hany c hc
    exact this (decide_eq_true hh)

/-- NUL, a lone high surrogate, a pair and a lone low one. -/
theorem dexString_units_surrogates :
    let d : DexFile := ⟨[4, 0, 0, 0, 5] ++ mutf8 [0, 0xd800, 0xd83d, 0xde00, 0xdc00] ++ [0], 1, 0, 0, 0, 0, 0, 0, 0, 0, 0, 0, 0⟩
    dexString d 0 = some (textOf [0, 0xd800, 0xd83d, 0xde00, 0xdc00]) ∧
      wtf8ToUtf16 (textOf [0, 0xd800, 0xd83d, 0xde00, 0xdc00]) = [0, 0xd800, 0xd83d, 0xde00, 0xdc00] :=
  dexString_units ⟨by decide, [], by decide⟩

end Lunaria.Dvm.Dex
