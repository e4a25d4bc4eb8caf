import Lunaria.Dvm.CharsetText

/-! The decoder of a byte stream delivers the units that the whole array decodes to, whatever the bytes: the byte, the
    unit and the queue it keeps between calls stand for the rest of the array. -/

namespace Lunaria.Dvm.Charset
open Unicode List Int Function

section Queue
variable {σ : Type} {nextByte : σ → Int × σ} {d d₁ : Decoder} {ctx ctx₁ : σ} {us l : List UInt16}

theorem slot_ne {a b n : Nat} (h : b < n) (hn : n < 16) : Fin.ofNat 16 (a + b) ≠ Fin.ofNat 16 (a + n) := by
  intro heq
  have := congrArg Fin.val heq
  simp only [Fin.ofNat] at this
  omega

theorem queued_dqPush {u : UInt16} (h : d.qn < 16) : (dqPush d u).queued = d.queued ++ [u] := by
  rw [dqPush, if_pos h]
  simp only [Decoder.queued, range_succ, map_append, map_cons, map_nil, update_self]
  congr 1
  refine map_congr_left fun i hi => update_of_ne ?_ _ _
  exact slot_ne (mem_range.1 hi) h

theorem foldl_dqPush : ∀ {l : List UInt16} {d : Decoder}, d.qn + l.length ≤ 16 →
    (l.foldl dqPush d).queued = d.queued ++ l ∧ ∃ q, l.foldl dqPush d = { d with q := q, qn := d.qn + l.length }
  | [], d, _ => ⟨(append_nil _).symm, d.q, rfl⟩
  | u :: l, d, h => by
    rw [length_cons] at h
    have hpush : dqPush d u = { d with q := update d.q (Fin.ofNat 16 (d.qh + d.qn)) u, qn := d.qn + 1 } :=
      if_pos (by omega)
    obtain ⟨hqueued, q, heq⟩ := foldl_dqPush (l := l) (d := dqPush d u) (by rw [hpush]; simp only; omega)
    refine ⟨?_, q, ?_⟩
    · rw [foldl_cons, hqueued, queued_dqPush (by omega), append_assoc]
      rfl
    · rw [foldl_cons, heq, hpush, length_cons, Nat.add_right_comm, Nat.add_assoc]

theorem Delivers.queued : ∀ {n : Nat} {d : Decoder}, d.qn = n →
    (∀ qh, Delivers nextByte { d with qh := qh, qn := 0 } ctx us) → Delivers nextByte d ctx (d.queued ++ us)
  | 0, d, hn, h => by
    have := h d.qh
    rw [← hn] at this
    rwa [Decoder.queued, hn]
  | n + 1, d, hn, h => by
    have hhead : d.queued = d.q (Fin.ofNat 16 d.qh) :: { d with qh := (d.qh + 1) % 16, qn := n }.queued := by
      simp only [Decoder.queued, hn, range_succ_eq_map, map_cons, map_map, Nat.add_zero]
      congr 1
      refine map_congr_left fun i _ => congrArg d.q (Fin.ext ?_)
      simp only [Fin.ofNat]
      omega
    rw [hhead]
    have hrest := Delivers.queued (d := { d with qh := (d.qh + 1) % 16, qn := n }) rfl h
    refine .unit ?_ hrest
    simp only [decoderNext, hn, Nat.add_one_ne_zero, if_false, dqPop, Nat.add_sub_cancel]

theorem Delivers.decoded (hqn : d.qn = 0) (hfill : decFill nextByte d ctx = (0, l.foldl dqPush d₁, ctx₁))
    (hqn₁ : d₁.qn = 0) (hl : l ≠ []) (hlen : l.length ≤ 16)
    (h : ∀ q qh, Delivers nextByte { d₁ with q := q, qh := qh, qn := 0 } ctx₁ us) : Delivers nextByte d ctx (l ++ us) := by
  obtain ⟨hqueued, q, heq⟩ := foldl_dqPush (l := l) (d := d₁) (by omega)
  have hempty : d₁.queued = [] := by rw [Decoder.queued, hqn₁]; rfl
  have hpos : (l.foldl dqPush d₁).qn ≠ 0 := by
    rw [heq]
    have := length_pos_iff.2 hl
    simp only
    omega
  have hall : Delivers nextByte (l.foldl dqPush d₁) ctx₁ (l ++ us) := by
    have := @Delivers.queued _ nextByte ctx₁ us _ (l.foldl dqPush d₁) rfl
      (by rw [heq]; exact h q)
    rwa [hqueued, hempty, nil_append] at this
  -- the call that fills the queue returns what a call on the filled queue returns
  have hnext : decoderNext nextByte d ctx = decoderNext nextByte (l.foldl dqPush d₁) ctx₁ := by
    simp only [decoderNext, if_pos hqn, hfill, if_neg hpos]
    rfl
  generalize l ++ us = all at hall ⊢
  cases hall with
  | stop hstop => exact .stop (hnext.trans hstop)
  | unit hunit hrest => exact .unit (hnext.trans hunit) hrest

/-- The calls are deterministic. -/
theorem Delivers.unique {vs : List UInt16} (h : Delivers nextByte d ctx us) (h' : Delivers nextByte d ctx vs) :
    us = vs := by
  induction h generalizing vs with
  | stop hstop =>
    cases h' with
    | stop _ => rfl
    | unit hunit _ =>
      have := congrArg Prod.fst (hstop.symm.trans hunit)
      omega
  | unit hunit _ ih =>
    cases h' with
    | stop hstop =>
      have := congrArg Prod.fst (hunit.symm.trans hstop)
      omega
    | unit hunit' hrest =>
      have heq := hunit.symm.trans hunit'
      simp only [Prod.mk.injEq, natCast_inj, UInt16.toNat_inj] at heq
      obtain ⟨rfl, rfl, rfl⟩ := heq
      rw [ih hrest]

theorem Delivers.ended (hqn : d.qn = 0) (hfill : decFill nextByte d ctx = (-1, d₁, ctx₁)) (hqn₁ : d₁.qn = 0) :
    Delivers nextByte d ctx [] := by
  refine @Delivers.stop _ _ _ d₁ _ ctx₁ ?_
  simp only [decoderNext, if_pos hqn, hfill, hqn₁]
  rfl

end Queue

section Bytes
variable {d : Decoder} {ctx bytes : List UInt8}

/-- The bytes the decoder has still to read, the one it pushed back included. -/
def Ahead (d : Decoder) (ctx bytes : List UInt8) : Prop :=
  decByte listByte d ctx = ((listByte bytes).1, { d with held := -3 }, (listByte bytes).2)

theorem Ahead.of_none (h : d.held = -3) : Ahead d ctx ctx := by
  unfold Ahead decByte
  rw [if_neg (not_not.2 h)]
  rw [← h]

/-- The queue does not matter to what is read. -/
theorem Ahead.requeue {q : Fin 16 → UInt16} {qh qn : Nat} (h : Ahead d ctx bytes) :
    Ahead { d with q := q, qh := qh, qn := qn } ctx bytes := by
  unfold Ahead decByte at h ⊢
  split at h
  · rename_i hheld
    rw [if_pos hheld]
    simp only [Prod.mk.injEq] at h ⊢
    exact ⟨h.1, trivial, h.2.2⟩
  · rename_i hheld
    rw [if_neg hheld]
    simp only [Prod.mk.injEq] at h ⊢
    exact ⟨h.1, by rw [not_not.1 hheld], h.2.2⟩

theorem listByte_ne (bytes : List UInt8) : (listByte bytes).1 ≠ -3 := by
  cases bytes with
  | nil => decide
  | cons b s => simp only [listByte]; omega

theorem Ahead.of_held : Ahead { d with held := (listByte bytes).1 } (listByte bytes).2 bytes := by
  unfold Ahead decByte
  rw [if_pos (listByte_ne bytes)]

end Bytes

/-! ### UTF-8 -/

section Utf8
variable {d : Decoder} {ctx s bytes : List UInt8} {b : UInt8}

theorem decTail_cons (hd : d.held = -3) {need : Nat} {lo hi : UInt8} {cp : Nat} {c : UInt8} {s : List UInt8} :
    decTail listByte (need + 1) lo hi cp d (c :: s) =
      if lo ≤ c ∧ c ≤ hi then decTail listByte need 0x80 0xbf (cp <<< 6 ||| c.toNat &&& 0x3f) d s
      else (.broken, { d with held := c.toNat }, s) := by
  have hbyte : decByte listByte d (c :: s) = ((c.toNat : Int), d, s) := by
    rw [decByte, if_neg (not_not.2 hd)]
    rfl
  have hrange : ((c.toNat : Int) < 0 ∨ (c.toNat : Int) < lo.toNat ∨ (hi.toNat : Int) < c.toNat) ↔ ¬ (lo ≤ c ∧ c ≤ hi) := by
    rw [UInt8.le_iff_toNat_le, UInt8.le_iff_toNat_le]
    omega
  simp only [decTail, hbyte, if_neg (show (c.toNat : Int) ≠ -2 by omega), if_congr hrange rfl rfl, ite_not,
    toNat_natCast]

/-- The loop over continuation bytes takes the bytes that the whole-array decoder takes. -/
theorem decTail_whole (hd : d.held = -3) : ∀ {need : Nat} {lo hi : UInt8} {cp : Nat} {s : List UInt8},
    utf8Got need lo hi s = need →
      decTail listByte need lo hi cp d s = (.whole (tailCp cp (s.take need)), d, s.drop need)
  | 0, _, _, _, _, _ => rfl
  | need + 1, _, _, _, [], hgot => by simp [utf8Got] at hgot
  | need + 1, lo, hi, cp, c :: s, hgot => by
    rw [utf8Got] at hgot
    rw [decTail_cons hd]
    split at hgot
    · rename_i hc
      rw [if_pos hc]
      exact decTail_whole hd (Nat.succ.inj hgot)
    · cases hgot

theorem decTail_broken (hd : d.held = -3) : ∀ {need : Nat} {lo hi : UInt8} {cp : Nat} {s : List UInt8},
    utf8Got need lo hi s ≠ need →
      decTail listByte need lo hi cp d s =
        (.broken, { d with held := (listByte (s.drop (utf8Got need lo hi s))).1 },
          (listByte (s.drop (utf8Got need lo hi s))).2)
  | 0, _, _, _, _, hgot => absurd rfl hgot
  | need + 1, _, _, _, [], _ => by
    simp [decTail, utf8Got, decByte, hd, listByte]
  | need + 1, lo, hi, cp, c :: s, hgot => by
    rw [utf8Got] at hgot ⊢
    rw [decTail_cons hd]
    by_cases hc : lo ≤ c ∧ c ≤ hi
    · rw [if_pos hc] at hgot ⊢
      rw [if_pos hc]
      exact decTail_broken hd fun heq => hgot (congrArg (· + 1) heq)
    · rw [if_neg hc, if_neg hc]
      rfl

theorem decFill_nil (hkind : d.kind = .utf8 ∨ d.kind = .latin1 ∨ d.kind = .ascii) (hdone : d.done = false)
    (hahead : Ahead d ctx []) : decFill listByte d ctx = (-1, { d with held := -3, done := true }, []) := by
  unfold Ahead at hahead
  rcases hkind with hkind | hkind | hkind <;> simp [decFill, hdone, hkind, hahead, listByte]

section
variable (hkind : d.kind = .utf8) (hdone : d.done = false) (hahead : Ahead d ctx (b :: s))
include hkind hdone hahead

theorem decFill_ascii (hb : b < 0x80) :
    decFill listByte d ctx = (0, dqPush { d with held := -3 } (UInt16.ofNat b.toNat), s) := by
  unfold Ahead at hahead
  have hlt : (b.toNat : Int) < 0x80 := by have := UInt8.lt_iff_toNat_lt.1 hb; simp at this; omega
  simp [decFill, hdone, hkind, hahead, listByte, hlt]

theorem decFill_lead
    (hb : ¬ b < 0x80) : decFill listByte d ctx =
      match decTail listByte (utf8Lead b).1 (utf8Lead b).2.1 (utf8Lead b).2.2 (leadBits (utf8Lead b).1 b)
        { d with held := -3 } s with
      | (.failed, d, ctx) => (-2, d, ctx)
      | (.broken, d, ctx) => (0, pushCp d fffd, ctx)
      | (.whole cp, d, ctx) => (0, pushCp d (if 0 < (utf8Lead b).1 then cp else fffd), ctx) := by
  unfold Ahead at hahead
  have hle := UInt8.le_iff_toNat_le.1 (UInt8.not_lt.1 hb)
  simp only [UInt8.reduceToNat] at hle
  have hlt : ¬ (b.toNat : Int) < 0x80 := by omega
  have hneg : ¬ (b.toNat : Int) < 0 := by omega
  rw [decFill, if_neg (by rw [hdone]; exact Bool.false_ne_true)]
  split
  · simp only [hahead, listByte, hlt, hneg, if_false, toNat_natCast, UInt8.ofNat_toNat, leadBits]
    generalize decTail listByte _ _ _ _ _ _ = r
    obtain ⟨t, d', ctx'⟩ := r
    cases t <;> rfl
  all_goals
    rename_i hother
    rw [hkind] at hother
    cases hother

theorem decFill_sequence
    (hb : ¬ b < 0x80) : ∃ held ctx', decFill listByte d ctx = (0, pushCp { d with held := held } (sequenceCp b s), ctx') ∧
      Ahead { d with held := held } ctx' (s.drop (utf8Got (utf8Lead b).1 (utf8Lead b).2.1 (utf8Lead b).2.2 s)) := by
  rw [decFill_lead hkind hdone hahead hb]
  by_cases hgot : utf8Got (utf8Lead b).1 (utf8Lead b).2.1 (utf8Lead b).2.2 s = (utf8Lead b).1
  · have htail := @decTail_whole { d with held := -3 } rfl _ _ _ (leadBits (utf8Lead b).1 b) _ hgot
    refine ⟨-3, s.drop (utf8Lead b).1, ?_, hgot.symm ▸ Ahead.of_none rfl⟩
    simp only [htail, sequenceCp, hgot, Nat.pos_iff_ne_zero, and_true]
  · have htail := @decTail_broken { d with held := -3 } rfl _ _ _ (leadBits (utf8Lead b).1 b) _ hgot
    refine ⟨_, _, ?_, Ahead.of_held⟩
    simp only [htail, sequenceCp, hgot, and_false, if_false]

end

theorem utf8_delivers (hkind : d.kind = .utf8) (hdone : d.done = false) (hqn : d.qn = 0) (hahead : Ahead d ctx bytes) :
    Delivers listByte d ctx (wtf8ToUtf16 (utf8Decode bytes)) := by
  induction hn : bytes.length using Nat.strong_induction_on generalizing d ctx bytes with
  | _ n ih =>
    cases bytes with
    | nil =>
      rw [utf8Decode, wtf8ToUtf16]
      exact .ended hqn (decFill_nil (.inl hkind) hdone hahead) hqn
    | cons b s =>
      by_cases hb : b < 0x80
      · rw [utf8Decode, if_pos hb, wtf8ToUtf16_ascii hb]
        refine @Delivers.decoded _ _ _ { d with held := -3 }
          _ _ _ [_] hqn (decFill_ascii hkind hdone hahead hb) hqn (by simp) (by simp) fun q qh => ?_
        exact ih s.length (by simp [← hn]) hkind hdone rfl (.of_none rfl) rfl
      · obtain ⟨held, ctx', hfill, hahead'⟩ := decFill_sequence hkind hdone hahead hb
        rw [utf8Decode_sequence hb]
        refine .decoded hqn hfill hqn (cpUnits_ne_nil _) (cpUnits_length _) fun q qh => ?_
        refine ih _ ?_ hkind hdone rfl hahead'.requeue rfl
        rw [← hn, length_drop, length_cons]
        omega

theorem decFill_byte (hkind : d.kind = .latin1 ∨ d.kind = .ascii) (hdone : d.done = false) (hahead : Ahead d ctx (b :: s)) :
    decFill listByte d ctx = (0, dqPush { d with held := -3 } (UInt16.ofNat (byteUnit d.kind b)), s) := by
  unfold Ahead at hahead
  have hle : (0x80 : Int) ≤ b.toNat ↔ 0x80 ≤ b := by
    have hlimit : (0x80 : UInt8).toNat = 128 := rfl
    rw [UInt8.le_iff_toNat_le, hlimit]
    omega
  rcases hkind with hkind | hkind <;> simp [decFill, hdone, hkind, hahead, listByte, byteUnit, hle]

theorem bytes_delivers (hkind : d.kind = .latin1 ∨ d.kind = .ascii) (hdone : d.done = false) (hqn : d.qn = 0)
    (hahead : Ahead d ctx bytes) : Delivers listByte d ctx (bytes.map fun b => UInt16.ofNat (byteUnit d.kind b)) := by
  induction bytes generalizing d ctx with
  | nil => exact .ended hqn (decFill_nil (.inr hkind) hdone hahead) hqn
  | cons b s ih =>
    refine @Delivers.decoded _ _ _ { d with held := -3 } _ _ _ [_] hqn (decFill_byte hkind hdone hahead) hqn (by simp)
      (by simp) fun q qh => ?_
    exact ih hkind hdone rfl (.of_none rfl)

end Utf8

/-! ### UTF-16 -/

section Utf16
variable {d : Decoder} {ctx s bytes : List UInt8} {b0 b1 : UInt8} {u : UInt16} {us : List UInt16}

section
variable (hheld : d.held = -3)
include hheld

theorem decByte_list : decByte listByte d ctx = ((listByte ctx).1, d, (listByte ctx).2) := by
  rw [decByte, if_neg (not_not.2 hheld)]

theorem decUnit16Loop_nil : decUnit16Loop listByte d [] = (-1, d, []) := by
  rw [decUnit16Loop]
  simp [decByte_list hheld, listByte]

theorem decUnit16Loop_odd : decUnit16Loop listByte d [b0] = ((fffd : Int), d, []) := by
  rw [decUnit16Loop]
  have : ¬ (b0.toNat : Int) < 0 := by omega
  simp [decByte_list hheld, listByte, this]

theorem decUnit16Loop_pair (hbom : ¬ (d.kind = .utf16 ∧ d.bomDone = false)) :
    decUnit16Loop listByte d (b0 :: b1 :: s) = ((pairUnit d.little b0 b1 : Int), d, s) := by
  have h0 : ¬ (b0.toNat : Int) < 0 := by omega
  have h1 : ¬ (b1.toNat : Int) < 0 := by omega
  have h2 : ¬ (b1.toNat : Int) = -2 := by omega
  rw [decUnit16Loop]
  simp only [decByte_list hheld, listByte, h0, h1, h2, hbom, if_false, dif_neg, not_false_eq_true, toNat_natCast]
  unfold pairUnit
  split <;> rfl

theorem decUnit16Loop_first (hkind : d.kind = .utf16) (hbom : d.bomDone = false) :
    decUnit16Loop listByte d (b0 :: b1 :: s) =
      if b0 = 0xfe ∧ b1 = 0xff then decUnit16Loop listByte { d with bomDone := true } s
      else if b0 = 0xff ∧ b1 = 0xfe then decUnit16Loop listByte { d with bomDone := true, little := true } s
      else ((pairUnit d.little b0 b1 : Int), { d with bomDone := true }, s) := by
  have h0 : ¬ (b0.toNat : Int) < 0 := by omega
  have h1 : ¬ (b1.toNat : Int) < 0 := by omega
  have h2 : ¬ (b1.toNat : Int) = -2 := by omega
  have hbyte : ∀ (b : UInt8) (n : Nat), n < 256 → ((b.toNat : Int) = n ↔ b = UInt8.ofNat n) := by
    intro b n hn
    rw [← UInt8.toNat_inj, UInt8.toNat_ofNat_of_lt' hn]
    omega
  have hfe : ∀ b : UInt8, (b.toNat : Int) = 0xfe ↔ b = 0xfe := fun b => hbyte b 0xfe (by decide)
  have hff : ∀ b : UInt8, (b.toNat : Int) = 0xff ↔ b = 0xff := fun b => hbyte b 0xff (by decide)
  rw [decUnit16Loop]
  simp only [decByte_list hheld, listByte, h0, h1, h2, hkind, hbom, if_false, and_self, dif_pos, toNat_natCast,
    hfe, hff]
  split_ifs <;> simp_all [pairUnit]

end

/-- The units that come from the bytes not read yet. -/
def Decoder.units16 (d : Decoder) (ctx : List UInt8) : List UInt16 :=
  let (i, little) := if d.kind = .utf16 ∧ d.bomDone = false then utf16Start .utf16 ctx else (0, d.little)
  bytesUnits little (ctx.drop i)

theorem utf16Start_cons : utf16Start .utf16 (b0 :: b1 :: s) =
    if b0 = 0xfe ∧ b1 = 0xff then (2, false) else if b0 = 0xff ∧ b1 = 0xfe then (2, true) else (0, false) := by
  unfold utf16Start
  split
  · rename_i h
    simp_all
  · rename_i h
    simp_all
  · rename_i h h'
    rw [if_neg fun hb => h _ rfl (by rw [hb.1, hb.2]), if_neg fun hb => h' _ rfl (by rw [hb.1, hb.2])]
    rfl

theorem utf16Start_short (h : bytes.length < 2) : utf16Start .utf16 bytes = (0, false) := by
  match bytes, h with
  | [], _ => rfl
  | [b], _ => simp [utf16Start]

theorem units16_settled (d : Decoder) (h : ¬ (d.kind = .utf16 ∧ d.bomDone = false) ∨ ctx.length < 2 ∧ d.little = false) :
    d.units16 ctx = bytesUnits d.little ctx := by
  by_cases hbom : d.kind = .utf16 ∧ d.bomDone = false
  · obtain ⟨hlen, hlittle⟩ := h.resolve_left (not_not.2 hbom)
    simp only [Decoder.units16, if_pos hbom, utf16Start_short hlen, hlittle, drop_zero]
  · simp only [Decoder.units16, if_neg hbom, drop_zero]

/-- A decoder of UTF-16 that has these units still to decode: a unit it pushed back, then those of the bytes. -/
structure Feeds (d : Decoder) (ctx : List UInt8) (us : List UInt16) : Prop where
  kind : d.kind = .utf16 ∨ d.kind = .utf16be ∨ d.kind = .utf16le
  going : d.done = false
  held : d.held = -3
  order : d.kind = .utf16 → d.bomDone = false → d.little = false
  units : (d.heldUnit = -1 ∧ us = d.units16 ctx) ∨ ∃ u : UInt16, d.heldUnit = u.toNat ∧ us = u :: d.units16 ctx

def Read (d d' : Decoder) : Prop := d'.heldUnit = -1 ∧ d'.q = d.q ∧ d'.qh = d.qh ∧ d'.qn = d.qn

theorem decUnit16Loop_settled (ctx : List UInt8) (hheld : d.held = -3)
    (horder : d.kind = .utf16 → d.bomDone = false → d.little = false) :
    ∃ bom little ctx', decUnit16Loop listByte d ctx =
      decUnit16Loop listByte { d with bomDone := bom, little := little } ctx' ∧ d.units16 ctx = bytesUnits little ctx' ∧
      (¬ (d.kind = .utf16 ∧ bom = false) ∨ ctx'.length < 2 ∧ little = false) := by
  by_cases hset : ¬ (d.kind = .utf16 ∧ d.bomDone = false) ∨ ctx.length < 2 ∧ d.little = false
  · exact ⟨d.bomDone, d.little, ctx, rfl, units16_settled d hset, hset⟩
  · obtain ⟨hbom, hlen⟩ := not_or.1 hset
    have hbom := not_not.1 hbom
    have hlittle := horder hbom.1 hbom.2
    match ctx, not_and'.1 hlen hlittle with
    | [], hlen | [_], hlen => exact absurd (by simp) hlen
    | b0 :: b1 :: s, _ =>
      have hset' : ¬ (d.kind = .utf16 ∧ true = false) := fun h => Bool.noConfusion h.2
      rw [decUnit16Loop_first hheld hbom.1 hbom.2, Decoder.units16, if_pos hbom, utf16Start_cons]
      split_ifs with hbe hle
      · exact ⟨true, false, s, by rw [← hlittle], rfl, .inl hset'⟩
      · exact ⟨true, true, s, rfl, rfl, .inl hset'⟩
      · refine ⟨true, false, b0 :: b1 :: s, ?_, rfl, .inl hset'⟩
        rw [decUnit16Loop_pair (by exact hheld) (by exact hset'), ← hlittle]

theorem decUnit16_ended (h : Feeds d ctx []) : ∃ d' ctx', decUnit16 listByte d ctx = (-1, d', ctx') ∧
    Feeds d' ctx' [] ∧ Read d d' := by
  obtain ⟨hunit, hempty⟩ | ⟨u, -, hempty⟩ := h.units
  · obtain ⟨bom, little, ctx', hloop, hunits, hset⟩ := decUnit16Loop_settled ctx h.held h.order
    have hnil : ctx' = [] := by
      match ctx', hempty.trans hunits with
      | [], _ => rfl
      | [_], h | _ :: _ :: _, h => exact absurd h (cons_ne_nil _ _).symm
    subst hnil
    rw [decUnit16, if_neg (by omega), hloop]
    refine ⟨_, _, decUnit16Loop_nil (by exact h.held), ⟨h.kind, h.going, h.held, fun hk hb => ?_, .inl ⟨hunit, ?_⟩⟩,
      hunit, rfl, rfl, rfl⟩
    · exact (hset.resolve_left (not_not.2 ⟨hk, hb⟩)).2
    · exact (units16_settled { d with bomDone := bom, little := little } hset).symm
  · cases hempty

theorem decUnit16_unit (h : Feeds d ctx (u :: us)) : ∃ d' ctx', decUnit16 listByte d ctx = ((u.toNat : Int), d', ctx') ∧
    Feeds d' ctx' us ∧ Read d d' := by
  obtain ⟨hunit, heq⟩ | ⟨v, hunit, heq⟩ := h.units
  · obtain ⟨bom, little, ctx', hloop, hunits, hset⟩ := decUnit16Loop_settled ctx h.held h.order
    rw [decUnit16, if_neg (by omega), hloop]
    have horder : d.kind = .utf16 → bom = false → little = false :=
      fun hk hb => (hset.resolve_left (not_not.2 ⟨hk, hb⟩)).2
    match ctx', heq.trans hunits with
    | [b], heq =>
      cases heq
      refine ⟨_, _, decUnit16Loop_odd (by exact h.held), ⟨h.kind, h.going, h.held, horder, .inl ⟨hunit, ?_⟩⟩, hunit,
        rfl, rfl, rfl⟩
      exact (@units16_settled [] { d with bomDone := bom, little := little }
        (hset.imp_right fun h => ⟨by simp, h.2⟩)).symm
    | b0 :: b1 :: s, heq =>
      rw [bytesUnits, ← pairUnit_eq] at heq
      cases heq
      have hset' : ¬ (d.kind = .utf16 ∧ bom = false) := hset.resolve_right fun h => by
        have := h.1
        simp only [length_cons] at this
        omega
      rw [decUnit16Loop_pair (by exact h.held) (by exact hset'), pairUnit_toNat]
      refine ⟨_, _, rfl, ⟨h.kind, h.going, h.held, horder, .inl ⟨hunit, ?_⟩⟩, hunit, rfl, rfl, rfl⟩
      exact (units16_settled { d with bomDone := bom, little := little } (.inl hset')).symm
  · cases heq
    refine ⟨{ d with heldUnit := -1 }, ctx, ?_, ⟨h.kind, h.going, h.held, h.order, .inl ⟨rfl, rfl⟩⟩, rfl, rfl, rfl, rfl⟩
    rw [decUnit16, if_pos (by omega), hunit]

theorem decFill_units (hdone : d.done = false) (hkind : d.kind = .utf16 ∨ d.kind = .utf16be ∨ d.kind = .utf16le) :
    decFill listByte d ctx =
      let r := decUnit16 listByte d ctx
      let u := r.1
      if u < 0 then r
      else if 0xd800 ≤ u ∧ u ≤ 0xdbff then
        let r' := decUnit16 listByte r.2.1 r.2.2
        let l := r'.1
        if l = -2 then r'
        else if 0xdc00 ≤ l ∧ l ≤ 0xdfff then
          (0, dqPush (dqPush r'.2.1 (UInt16.ofNat u.toNat)) (UInt16.ofNat l.toNat), r'.2.2)
        else
          let d := dqPush r'.2.1 (UInt16.ofNat fffd)
          (0, if 0 ≤ l then { d with heldUnit := l } else d, r'.2.2)
      else (0, dqPush r.2.1 (UInt16.ofNat (if 0xdc00 ≤ u ∧ u ≤ 0xdfff then fffd else u.toNat)), r.2.2) := by
  rw [decFill, if_neg (by rw [hdone]; exact Bool.false_ne_true)]
  rcases hkind with h | h | h <;> rw [h]

theorem Feeds.push {v : UInt16} (h : Feeds d ctx us) (hunit : d.heldUnit = -1) :
    Feeds { d with heldUnit := v.toNat } ctx (v :: us) := by
  obtain ⟨-, heq⟩ | ⟨w, hw, -⟩ := h.units
  · exact ⟨h.kind, h.going, h.held, h.order, .inr ⟨v, rfl, by rw [heq]; rfl⟩⟩
  · omega

theorem Feeds.requeue {q : Fin 16 → UInt16} {qh qn : Nat} (h : Feeds d ctx us) :
    Feeds { d with q := q, qh := qh, qn := qn } ctx us := ⟨h.kind, h.going, h.held, h.order, h.units⟩

theorem isHigh_int : ((0xd800 : Int) ≤ u.toNat ∧ (u.toNat : Int) ≤ 0xdbff) ↔ IsHigh u := by
  simp only [IsHigh, UInt16.le_iff_toNat_le, UInt16.reduceToNat]
  omega

theorem isLow_int : ((0xdc00 : Int) ≤ u.toNat ∧ (u.toNat : Int) ≤ 0xdfff) ↔ IsLow u := by
  simp only [IsLow, UInt16.le_iff_toNat_le, UInt16.reduceToNat]
  omega

/-- The decoder of UTF-16 delivers its units, lone surrogates replaced. -/
theorem units_delivers (hqn : d.qn = 0) (h : Feeds d ctx us) : Delivers listByte d ctx (replaceLone us) := by
  induction hn : us.length using Nat.strong_induction_on generalizing d ctx us with
  | _ n ih =>
    match us, h, hn with
    | [], h, _ =>
      obtain ⟨d', ctx', hread, -, -, -, -, hq⟩ := decUnit16_ended h
      refine @Delivers.ended _ _ _ d' _ ctx' hqn ?_ (hq.trans hqn)
      rw [decFill_units h.going h.kind, hread]
      rfl
    | u :: us, h, hn =>
      obtain ⟨d₁, ctx₁, hread, hfeeds, hunit, -, -, hq⟩ := decUnit16_unit h
      have hfill := @decFill_units _ ctx h.going h.kind
      have hneg : ¬ (u.toNat : Int) < 0 := by omega
      simp only [hread, hneg, if_false, if_congr isHigh_int rfl rfl, toNat_natCast, UInt16.ofNat_toNat] at hfill
      rw [length_cons] at hn
      by_cases hu : IsHigh u
      · rw [if_pos hu] at hfill
        match us, hfeeds, hn with
        | [], hfeeds, hn =>
          obtain ⟨d₂, ctx₂, hread₂, hfeeds₂, -, -, -, hq₂⟩ := decUnit16_ended hfeeds
          have hsingle : replaceLone [u] = [replacement] := by
            rw [replaceLone_single (by simp), if_pos (.inl hu), replaceLone]
          rw [hread₂] at hfill
          rw [hsingle]
          exact .decoded (l := [_]) hqn hfill (hq₂.trans (hq.trans hqn)) (by simp) (by simp) fun q qh =>
            ih 0 (by omega) rfl hfeeds₂.requeue rfl
        | l :: us, hfeeds, hn =>
          rw [length_cons] at hn
          obtain ⟨d₂, ctx₂, hread₂, hfeeds₂, hunit₂, -, -, hq₂⟩ := decUnit16_unit hfeeds
          have hl2 : ¬ (l.toNat : Int) = -2 := by omega
          have hl0 : 0 ≤ (l.toNat : Int) := by omega
          simp only [hread₂, hl2, if_false, if_congr isLow_int rfl rfl, toNat_natCast, UInt16.ofNat_toNat, if_pos hl0]
            at hfill
          by_cases hl : IsLow l
          · rw [if_pos hl] at hfill
            rw [replaceLone_pair hu hl]
            exact .decoded (l := [_, _]) hqn hfill (hq₂.trans (hq.trans hqn)) (by simp) (by simp) fun q qh =>
              ih us.length (by omega) rfl hfeeds₂.requeue rfl
          · rw [if_neg hl] at hfill
            rw [replaceLone_single fun _ => by simpa using hl, if_pos (.inl hu)]
            have hpush : ({ dqPush d₂ (UInt16.ofNat fffd) with heldUnit := l.toNat } : Decoder) =
                dqPush { d₂ with heldUnit := l.toNat } (UInt16.ofNat fffd) := by
              unfold dqPush
              split <;> rfl
            rw [hpush] at hfill
            exact .decoded (l := [_]) hqn hfill (hq₂.trans (hq.trans hqn)) (by simp) (by simp) fun q qh =>
              ih (l :: us).length (by rw [length_cons]; omega) rfl (hfeeds₂.push hunit₂).requeue rfl
      · rw [if_neg hu] at hfill
        have hval : UInt16.ofNat (if 0xdc00 ≤ (u.toNat : Int) ∧ (u.toNat : Int) ≤ 0xdfff then fffd else u.toNat) =
            if IsHigh u ∨ IsLow u then replacement else u := by
          rw [if_congr isLow_int rfl rfl]
          by_cases hl : IsLow u
          · rw [if_pos hl, if_pos (.inr hl)]
            rfl
          · rw [if_neg hl, if_neg (not_or.2 ⟨hu, hl⟩), UInt16.ofNat_toNat]
        rw [hval] at hfill
        rw [replaceLone_single fun h => absurd h hu]
        exact .decoded (l := [_]) hqn hfill (hq.trans hqn) (by simp) (by simp) fun q qh =>
          ih us.length (by omega) rfl hfeeds.requeue rfl

theorem Feeds.new {kind : Kind} (hkind : kind = .utf16 ∨ kind = .utf16be ∨ kind = .utf16le) :
    Feeds (.new kind) bytes (bytesUnits (utf16Start kind bytes).2 (bytes.drop (utf16Start kind bytes).1)) := by
  refine ⟨hkind, rfl, rfl, ?_, .inl ⟨rfl, ?_⟩⟩
  · rintro rfl -
    rfl
  · rcases hkind with rfl | rfl | rfl
    · rfl
    · simp [Decoder.units16, Decoder.new, utf16Start]
    · simp [Decoder.units16, Decoder.new, utf16Start]

end Utf16

/-! ### All charsets -/

/-- What the name of a charset promises of a decoding. -/
def Decodes : Kind → List UInt8 → List UInt16 → Prop
  | .utf8, bytes, us => Utf8Text bytes us
  | .latin1, bytes, us => us = bytes.map fun b => UInt16.ofNat b.toNat
  | .ascii, bytes, us => us = bytes.map fun b => if b < 0x80 then UInt16.ofNat b.toNat else replacement
  | .utf16, 0xfe :: 0xff :: s, us => Utf16Text (bytesUnits false s) us
  | .utf16, 0xff :: 0xfe :: s, us => Utf16Text (bytesUnits true s) us
  | .utf16, s, us => Utf16Text (bytesUnits false s) us
  | .utf16be, s, us => Utf16Text (bytesUnits false s) us
  | .utf16le, s, us => Utf16Text (bytesUnits true s) us

theorem decodes_utf16 {kind : Kind} (hkind : kind = .utf16 ∨ kind = .utf16be ∨ kind = .utf16le) (bytes : List UInt8)
    (us : List UInt16) : Decodes kind bytes us ↔
      Utf16Text (bytesUnits (utf16Start kind bytes).2 (bytes.drop (utf16Start kind bytes).1)) us := by
  rcases hkind with rfl | rfl | rfl
  · unfold Decodes utf16Start
    split <;> simp_all
  · simp [Decodes, utf16Start]
  · simp [Decodes, utf16Start]

/-- The stream decoder and the array decoder give the same units, and they are the text that the bytes are in their
    charset. -/
theorem decoder_agrees (kind : Kind) (bytes : List UInt8) :
    (∀ us, Delivers listByte (.new kind) bytes us ↔ us = wtf8ToUtf16 (decode kind bytes)) ∧
      Decodes kind bytes (wtf8ToUtf16 (decode kind bytes)) := by
  suffices h : Delivers listByte (.new kind) bytes (wtf8ToUtf16 (decode kind bytes)) ∧
      Decodes kind bytes (wtf8ToUtf16 (decode kind bytes)) from
    ⟨fun us => ⟨fun hus => hus.unique h.1, fun heq => heq ▸ h.1⟩, h.2⟩
  have hunits : ∀ kind : Kind, kind = .utf16 ∨ kind = .utf16be ∨ kind = .utf16le →
      Delivers listByte (.new kind) bytes (wtf8ToUtf16 (utf16Decode kind bytes)) ∧
        Decodes kind bytes (wtf8ToUtf16 (utf16Decode kind bytes)) := by
    intro kind hkind
    rw [wtf8ToUtf16_utf16Decode, decodes_utf16 hkind]
    exact ⟨units_delivers rfl (.new hkind), utf16Text_replaceLone _⟩
  cases kind with
  | utf8 => exact ⟨utf8_delivers rfl rfl rfl (.of_none rfl), utf8Text_decode bytes⟩
  | latin1 =>
    have hbytes : wtf8ToUtf16 (decode .latin1 bytes) = _ := wtf8ToUtf16_bytes .latin1 bytes
    rw [hbytes]
    exact ⟨bytes_delivers (.inl rfl) rfl rfl (.of_none rfl), rfl⟩
  | ascii =>
    have hbytes : wtf8ToUtf16 (decode .ascii bytes) = _ := wtf8ToUtf16_bytes .ascii bytes
    rw [hbytes]
    refine ⟨bytes_delivers (.inr rfl) rfl rfl (.of_none rfl), map_congr_left fun b _ => ?_⟩
    by_cases hb : b < 0x80
    · rw [byteUnit, if_neg fun h => UInt8.not_lt.2 h.2 hb, if_pos hb]
    · rw [byteUnit, if_pos ⟨rfl, UInt8.not_lt.1 hb⟩, if_neg hb]
      rfl
  | utf16 => exact hunits _ (.inl rfl)
  | utf16be => exact hunits _ (.inr (.inl rfl))
  | utf16le => exact hunits _ (.inr (.inr rfl))

end Lunaria.Dvm.Charset
