import Lunaria.Dvm.Uri

/-! What `uri_decode_n` gives back. The bytes of a run of escapes are decoded 64 at a time, so that a sequence that goes
    over one of these cuts is lost; where none does, the run is decoded as if it were one buffer. -/

namespace Lunaria.Dvm.Uri
open Charset Trimming List
open String (utf8EncodeChar)

/-! ### One sequence -/

section Sequence
variable {p q : List UInt8} {b : UInt8} {s : List UInt8}

/-- How many bytes the decoder takes at once. -/
def unit (p : List UInt8) : Nat := if uriUtf8Seq p ≠ 0 then uriUtf8Seq p else uriUtf8Bad p

/-- What it writes for them. -/
def piece (p : List UInt8) : List UInt8 := if uriUtf8Seq p ≠ 0 then p.take (uriUtf8Seq p) else fffdBytes

theorem badWant_le (b : UInt8) : badWant b ≤ 4 := by
  unfold badWant seqLead
  split_ifs <;> simp

theorem uriUtf8Seq_le (p : List UInt8) : uriUtf8Seq p ≤ p.length := by
  cases p with
  | nil => exact Nat.zero_le _
  | cons b s =>
    rw [uriUtf8Seq]
    split
    · simp
    · split
      · exact Nat.zero_le _
      · split
        · exact Nat.zero_le _
        · rename_i hlen
          split
          · exact Nat.zero_le _
          · split
            · exact Nat.zero_le _
            · simpa using hlen

theorem uriUtf8Bad_pos (p : List UInt8) : 1 ≤ uriUtf8Bad p := by
  cases p with
  | nil => exact le_refl _
  | cons b s =>
    rw [uriUtf8Bad]
    split <;> omega

theorem uriUtf8Bad_le (p : List UInt8) : uriUtf8Bad p ≤ 3 := by
  cases p with
  | nil => exact Nat.le_of_ble_eq_true rfl
  | cons b s =>
    have hwant := badWant_le b
    rw [uriUtf8Bad]
    split <;> omega

theorem uriUtf8Bad_le_length (b : UInt8) (s : List UInt8) : uriUtf8Bad (b :: s) ≤ (b :: s).length := by
  have htake : ((s.take (badWant b - 1)).takeWhile continuation).length ≤ s.length :=
    le_trans (takeWhile_sublist _).length_le (take_sublist _ _).length_le
  rw [uriUtf8Bad, length_cons]
  split <;> omega

theorem unit_pos (p : List UInt8) : 1 ≤ unit p := by
  rw [unit]
  split
  · omega
  · exact uriUtf8Bad_pos p

theorem unit_le (hp : p ≠ []) : unit p ≤ p.length := by
  obtain ⟨b, s, rfl⟩ := exists_cons_of_ne_nil hp
  rw [unit]
  split
  · exact uriUtf8Seq_le _
  · exact uriUtf8Bad_le_length b s

theorem flushLoop_eq : ∀ {n n' : Nat} {p : List UInt8}, p.length ≤ n → p.length ≤ n' → flushLoop n p = flushLoop n' p
  | 0, 0, _, _, _ => rfl
  | 0, n' + 1, p, hn, _ => by
    obtain rfl := eq_nil_of_length_eq_zero (Nat.le_zero.1 hn)
    rfl
  | n + 1, 0, p, _, hn' => by
    obtain rfl := eq_nil_of_length_eq_zero (Nat.le_zero.1 hn')
    rfl
  | _ + 1, _ + 1, [], _, _ => rfl
  | n + 1, n' + 1, b :: s, hn, hn' => by
    have hlow : ∀ {k : Nat}, 1 ≤ k → ((b :: s).drop k).length ≤ n ∧ ((b :: s).drop k).length ≤ n' := by
      intro k hk
      rw [length_drop]
      omega
    rw [flushLoop, flushLoop]
    split
    · rename_i hl
      obtain ⟨h1, h2⟩ := hlow (Nat.one_le_iff_ne_zero.2 hl)
      rw [flushLoop_eq h1 h2]
    · obtain ⟨h1, h2⟩ := hlow (uriUtf8Bad_pos (b :: s))
      rw [flushLoop_eq h1 h2]

@[simp] theorem utf8Replace_nil : utf8Replace [] = [] := (rfl)

theorem utf8Replace_step (hp : p ≠ []) : utf8Replace p = piece p ++ utf8Replace (p.drop (unit p)) := by
  obtain ⟨b, s, rfl⟩ := exists_cons_of_ne_nil hp
  have hpos := unit_pos (b :: s)
  have hrest : flushLoop s.length ((b :: s).drop (unit (b :: s))) = utf8Replace ((b :: s).drop (unit (b :: s))) :=
    flushLoop_eq (by rw [length_drop, length_cons]; omega) (le_refl _)
  rw [← hrest, utf8Replace, length_cons, flushLoop, piece, unit]
  split <;> rfl

theorem length_piece (p : List UInt8) : unit p ≤ (piece p).length ∧ (piece p).length ≤ 3 * unit p := by
  rw [piece, unit]
  split
  · rw [length_take, min_eq_left (uriUtf8Seq_le p)]
    omega
  · have hpos := uriUtf8Bad_pos p
    have hle := uriUtf8Bad_le p
    simp only [fffdBytes, length_cons, length_nil]
    omega

/-- Decoding makes nothing shorter, and at most three times as long. -/
theorem length_utf8Replace (p : List UInt8) : p.length ≤ (utf8Replace p).length ∧
    (utf8Replace p).length ≤ 3 * p.length := by
  induction hn : p.length using Nat.strong_induction_on generalizing p with
  | _ n ih =>
    by_cases hp : p = []
    · subst hp
      simp at hn
      simp [← hn]
    · have hpos := unit_pos p
      have hle := unit_le hp
      have hdrop : (p.drop (unit p)).length = n - unit p := by rw [length_drop, hn]
      obtain ⟨hlow, hhigh⟩ := ih (n - unit p) (by omega) (p.drop (unit p)) hdrop
      obtain ⟨h1, h2⟩ := length_piece p
      rw [utf8Replace_step hp, length_append]
      omega

theorem not_ascii_of_continuation (h : continuation b = true) : ¬ b < 0x80 ∧ seqLead b = none := by
  revert h
  refine forall_byte (P := fun b => continuation b = true → ¬ b < 0x80 ∧ seqLead b = none) ?_ b
  decide +kernel

theorem length_of_continuation (h : continuation b = true) : s.length + 1 < (utf8Replace (b :: s)).length := by
  obtain ⟨hb, hlead⟩ := not_ascii_of_continuation h
  have hseq : uriUtf8Seq (b :: s) = 0 := by rw [uriUtf8Seq, if_neg hb, hlead]
  have hwant : badWant b = 1 := by
    rw [badWant, hlead]
    split <;> rfl
  have hbad : uriUtf8Bad (b :: s) = 1 := by
    rw [uriUtf8Bad, hwant]
    simp
  rw [utf8Replace_step (cons_ne_nil b s), unit, piece, hseq, hbad]
  have hrest := (length_utf8Replace s).1
  simp only [ne_eq, not_true_eq_false, ↓reduceIte, drop_succ_cons, drop_zero, length_append, fffdBytes,
    length_cons, length_nil]
  omega

end Sequence

/-! ### Cuts -/

section Cuts
variable {p q : List UInt8} {s : List UInt8}

/-- No sequence goes over the cut between `p` and `q`: wherever the decoder stands before the cut, it takes the same bytes
    with and without what comes after it. -/
def CleanCut (p q : List UInt8) : Prop :=
  ∀ t, t <:+ p → t ≠ [] → uriUtf8Seq (t ++ q) = uriUtf8Seq t ∧ uriUtf8Bad (t ++ q) = uriUtf8Bad t

theorem utf8Replace_append (h : CleanCut p q) : utf8Replace (p ++ q) = utf8Replace p ++ utf8Replace q := by
  induction hn : p.length using Nat.strong_induction_on generalizing p with
  | _ n ih =>
    by_cases hp : p = []
    · subst hp
      rfl
    · obtain ⟨hseq, hbad⟩ := h p (suffix_refl p) hp
      have hpos := unit_pos p
      have hle := unit_le hp
      have hunit : unit (p ++ q) = unit p := by rw [unit, unit, hseq, hbad]
      have hpiece : piece (p ++ q) = piece p := by
        rw [piece, piece, hseq, take_append_of_le_length (uriUtf8Seq_le p)]
      have hclean : CleanCut (p.drop (unit p)) q := fun t ht => h t (ht.trans (drop_suffix _ _))
      have hrest := ih (n - unit p) (by omega) hclean (by rw [length_drop, hn])
      rw [utf8Replace_step (p := p ++ q) (by simp [hp]), hunit, hpiece, drop_append_of_le_length hle, hrest,
        utf8Replace_step hp, append_assoc]

theorem wtf8Tail_append : ∀ {need cp : Nat}, need ≤ s.length → wtf8Tail need cp (s ++ q) = wtf8Tail need cp s := by
  induction s with
  | nil =>
    intro need cp h
    obtain rfl := Nat.le_zero.1 h
    simp [wtf8Tail]
  | cons b s ih =>
    intro need cp h
    cases need with
    | zero => simp [wtf8Tail]
    | succ need =>
      rw [cons_append, wtf8Tail, wtf8Tail]
      split
      · rfl
      · exact ih (by simpa using h)

section
variable (hq : ∀ c ∈ q.head?, continuation c = false)
include hq

theorem wtf8Tail_stops :
    ∀ {need cp : Nat}, s.length < need → wtf8Tail need cp (s ++ q) = none := by
  induction s with
  | nil =>
    intro need cp h
    obtain ⟨need, rfl⟩ := Nat.exists_eq_succ_of_ne_zero (Nat.ne_zero_of_lt h)
    cases q with
    | nil => rfl
    | cons c q =>
      have hc : c &&& 0xc0 ≠ 0x80 := by simpa [continuation] using hq c rfl
      rw [nil_append, wtf8Tail, if_pos hc]
  | cons b s ih =>
    intro need cp h
    obtain ⟨need, rfl⟩ := Nat.exists_eq_succ_of_ne_zero (Nat.ne_zero_of_lt h)
    rw [cons_append, wtf8Tail]
    split
    · rfl
    · exact ih (by simpa using h)

theorem takeWhile_take_append :
    ∀ {n : Nat}, ((s ++ q).take n).takeWhile continuation = (s.take n).takeWhile continuation := by
  induction s with
  | nil =>
    intro n
    cases q with
    | nil => rfl
    | cons c q =>
      cases n with
      | zero => rfl
      | succ n => simp [hq c rfl]
  | cons b s ih =>
    intro n
    cases n with
    | zero => rfl
    | succ n =>
      rw [cons_append, take_succ_cons, take_succ_cons, takeWhile_cons, takeWhile_cons, ih]

theorem cleanCut_of_head : CleanCut p q := by
  intro t _ hne
  obtain ⟨b, s, rfl⟩ := exists_cons_of_ne_nil hne
  constructor
  · rw [cons_append, uriUtf8Seq, uriUtf8Seq]
    split
    · rfl
    · cases hlead : seqLead b with
      | none => rfl
      | some lead =>
        obtain ⟨len, cp⟩ := lead
        dsimp only
        rw [length_append]
        by_cases hlen : s.length + 1 < len
        · rw [if_pos hlen, wtf8Tail_stops hq (by omega)]
          split <;> rfl
        · rw [if_neg hlen, if_neg (by omega), wtf8Tail_append (by omega)]
  · rw [cons_append, uriUtf8Bad, uriUtf8Bad, takeWhile_take_append hq]

end

end Cuts

/-! ### Well-formed text -/

section WellFormed
variable {b : UInt8} {s : List UInt8}

theorem uriUtf8Seq_of_wtf8Cp {cp n : Nat} (hb : ¬ b < 0x80) (h : wtf8Cp b s = (cp, n + 1)) (hn : n ≠ 0) (hs : n ≤ s.length)
    (hmin : seqMin (n + 1) ≤ cp) (hvalid : cp.isValidChar) : uriUtf8Seq (b :: s) = n + 1 := by
  have htail : ∀ {need : Nat} {x : UInt8}, wtf8Cp.tail s need x = (cp, n + 1) → need = n ∧
      wtf8Tail n x.toNat s = some cp := by
    intro need x h
    rw [wtf8Cp.tail] at h
    cases hw : wtf8Tail need x.toNat s with
    | none =>
      rw [hw] at h
      simp only [Prod.mk.injEq, Nat.right_eq_add] at h
      exact absurd h.2 hn
    | some v =>
      rw [hw] at h
      simp only [Prod.mk.injEq, Nat.add_right_cancel_iff] at h
      obtain ⟨rfl, rfl⟩ := h
      exact ⟨rfl, hw⟩
  have hlead : ∃ x, seqLead b = some (n + 1, x) ∧ wtf8Tail n x.toNat s = some cp := by
    rw [wtf8Cp, if_neg hb] at h
    rw [seqLead]
    split_ifs at h ⊢
    iterate 3
      · obtain ⟨rfl, hw⟩ := htail h
        exact ⟨_, rfl, hw⟩
    · simp only [Prod.mk.injEq, Nat.right_eq_add] at h
      exact absurd h.2 hn
  obtain ⟨x, hx, hw⟩ := hlead
  have hrange : ¬ (cp < seqMin (n + 1) ∨ 0x10ffff < cp ∨ (0xd800 ≤ cp ∧ cp ≤ 0xdfff)) := by
    rcases hvalid with hv | hv <;> omega
  rw [uriUtf8Seq, if_neg hb, hx]
  dsimp only
  rw [if_neg (by omega), Nat.add_sub_cancel, hw]
  dsimp only
  rw [if_neg hrange]

theorem putCp_min {cp : Nat} (hcp : ¬ cp < 0x80) : 1 < (putCp cp).length ∧ seqMin (putCp cp).length ≤ cp := by
  unfold putCp
  split_ifs with h2 h3
  · exact ⟨by simp, not_lt.1 hcp⟩
  · exact ⟨by simp, not_lt.1 h2⟩
  · exact ⟨by simp, not_lt.1 h3⟩

/-- The sequence of a character is taken as a whole. -/
theorem uriUtf8Seq_encode (c : Char) (rest : List UInt8) :
    uriUtf8Seq (utf8EncodeChar c ++ rest) = (utf8EncodeChar c).length := by
  have hvalid : c.toNat.isValidChar := c.valid
  have hmax : c.toNat < 0x200000 := by
    rcases hvalid with h | h <;> omega
  obtain ⟨b, s, hput, hcp⟩ := wtf8Cp_putCp hmax rest
  have henc : putCp c.toNat = utf8EncodeChar c := by rw [putCp_encode hvalid, Char.ofNat_toNat]
  rw [← henc, hput, cons_append]
  by_cases hb : b < 0x80
  · rw [wtf8Cp, if_pos hb] at hcp
    simp only [Prod.mk.injEq, Nat.right_eq_add] at hcp
    rw [uriUtf8Seq, if_pos hb, length_cons, hcp.2]
  · have hcp' : ¬ c.toNat < 0x80 := by
      intro hlt
      rw [putCp, if_pos hlt] at hput
      cases hput
      refine hb ?_
      rw [UInt8.lt_iff_toNat_lt, UInt8.toNat_ofNat']
      simp only [UInt8.reduceToNat]
      omega
    have hmin := putCp_min hcp'
    rw [hput, length_cons] at hmin
    exact uriUtf8Seq_of_wtf8Cp hb hcp (by omega) (by simp) hmin.2 hvalid

theorem encode_ne_nil (c : Char) : utf8EncodeChar c ≠ [] := by
  obtain ⟨b, hb, -⟩ | ⟨b, t, hb, -⟩ := encode_cases c <;> simp [hb]

theorem utf8Replace_encode (c : Char) (rest : List UInt8) :
    utf8Replace (utf8EncodeChar c ++ rest) = utf8EncodeChar c ++ utf8Replace rest := by
  have hne := encode_ne_nil c
  have hlen : (utf8EncodeChar c).length ≠ 0 := fun h => hne (eq_nil_of_length_eq_zero h)
  rw [utf8Replace_step (by simp [hne]), unit, piece, uriUtf8Seq_encode, if_pos hlen, if_pos hlen, take_left,
    drop_left]

/-- The bytes of some characters. -/
def utf8 (cs : List Char) : List UInt8 := cs.flatMap utf8EncodeChar

theorem utf8Replace_utf8 (cs : List Char) : utf8Replace (utf8 cs) = utf8 cs := by
  induction cs with
  | nil => rfl
  | cons c cs ih => rw [utf8, flatMap_cons, utf8Replace_encode, ← utf8, ih]

end WellFormed

/-! ### Runs of escapes -/

section Runs
variable {d : Decoder} {r p q : List UInt8}

/-- A run of escaped bytes as the decoder does it. -/
def decodeRun (r : List UInt8) : List UInt8 := (uriDecFlush (r.foldl uriDecByte ⟨[], []⟩)).out

/-- What was written before stays in front. -/
theorem foldl_uriDecByte (out : List UInt8) (acc : List UInt8) : r.foldl uriDecByte ⟨out, acc⟩ =
    ⟨out ++ (r.foldl uriDecByte ⟨[], acc⟩).out, (r.foldl uriDecByte ⟨[], acc⟩).acc⟩ := by
  induction r generalizing out acc with
  | nil => simp
  | cons b r ih =>
    rw [foldl_cons, foldl_cons, uriDecByte, uriDecByte]
    dsimp only
    split
    · rw [uriDecFlush, uriDecFlush]
      dsimp only
      rw [ih, ih ([] ++ utf8Replace acc)]
      simp
    · exact ih out (acc ++ [b])

/-- Up to 64 bytes are gathered. -/
theorem foldl_uriDecByte_short (acc : List UInt8) (h : acc.length + r.length ≤ 64) :
    r.foldl uriDecByte ⟨[], acc⟩ = ⟨[], acc ++ r⟩ := by
  induction r generalizing acc with
  | nil => simp
  | cons b r ih =>
    rw [length_cons] at h
    rw [foldl_cons, uriDecByte]
    dsimp only
    rw [if_neg (by omega), ih (acc ++ [b]) (by simp; omega), append_assoc, singleton_append]

theorem decodeRun_short (h : r.length ≤ 64) : decodeRun r = utf8Replace r := by
  rw [decodeRun, foldl_uriDecByte_short [] (by simpa using h)]
  rfl

/-- The first 64 bytes are decoded without those after them. -/
theorem decodeRun_append (hp : p.length = 64) (hq : q ≠ []) : decodeRun (p ++ q) = utf8Replace p ++ decodeRun q := by
  obtain ⟨b, s, rfl⟩ := exists_cons_of_ne_nil hq
  rw [decodeRun, decodeRun, foldl_append, foldl_uriDecByte_short [] (by simp [hp]), nil_append, foldl_cons,
    foldl_cons, uriDecByte, uriDecByte]
  dsimp only
  rw [if_pos hp, uriDecFlush]
  dsimp only [nil_append, length_nil]
  rw [if_neg (by decide), foldl_uriDecByte, uriDecFlush, uriDecFlush, nil_append, append_assoc]

/-- The decoder cuts a run before every 64th byte; here no sequence goes over such a cut. -/
def CleanRun (r : List UInt8) : Prop := ∀ p q, r = p ++ q → 64 ∣ p.length → q ≠ [] → CleanCut p q

theorem split_64 (h : 64 < r.length) : ∃ p q, r = p ++ q ∧ p.length = 64 ∧ q ≠ [] ∧ q.length < r.length := by
  refine ⟨r.take 64, r.drop 64, (take_append_drop 64 r).symm, by simp; omega, ?_, by simp; omega⟩
  rw [← length_pos_iff, length_drop]
  omega

theorem CleanRun.drop (h : CleanRun (p ++ q)) (hp : p.length = 64) : CleanRun q := by
  rintro p' q' rfl hdvd hne t ht
  refine h (p ++ p') q' (by rw [append_assoc]) ?_ hne t (ht.trans (suffix_append p p'))
  rw [length_append, hp]
  exact (Nat.dvd_add_right (dvd_refl 64)).2 hdvd

theorem CleanRun.decodeRun (h : CleanRun r) : decodeRun r = utf8Replace r := by
  induction hn : r.length using Nat.strong_induction_on generalizing r with
  | _ n ih =>
    by_cases hle : r.length ≤ 64
    · exact decodeRun_short hle
    · obtain ⟨p, q, rfl, hp, hq, hlt⟩ := split_64 (not_le.1 hle)
      rw [decodeRun_append hp hq, ih q.length (hn ▸ hlt) (h.drop hp) rfl,
        utf8Replace_append (h p q rfl (hp ▸ dvd_refl _) hq)]

theorem length_decodeRun (r : List UInt8) : r.length ≤ (decodeRun r).length ∧ (decodeRun r).length ≤ 3 * r.length := by
  induction hn : r.length using Nat.strong_induction_on generalizing r with
  | _ n ih =>
    by_cases hle : r.length ≤ 64
    · rw [decodeRun_short hle, ← hn]
      exact length_utf8Replace r
    · obtain ⟨p, q, rfl, hp, hq, hlt⟩ := split_64 (not_le.1 hle)
      obtain ⟨h1, h2⟩ := length_utf8Replace p
      obtain ⟨h3, h4⟩ := ih q.length (hn ▸ hlt) q rfl
      rw [decodeRun_append hp hq, ← hn, length_append, length_append]
      omega

theorem length_decodeRun_cut {c : UInt8} (hp : 64 ∣ p.length) (hc : continuation c = true) :
    (p ++ c :: q).length < (decodeRun (p ++ c :: q)).length := by
  induction hn : p.length using Nat.strong_induction_on generalizing p with
  | _ n ih =>
    by_cases hnil : p = []
    · subst hnil
      rw [nil_append]
      by_cases hle : (c :: q).length ≤ 64
      · rw [decodeRun_short hle]
        exact length_of_continuation hc
      · obtain ⟨p', q', heq, hp', hq', -⟩ := split_64 (not_le.1 hle)
        obtain ⟨a, s, rfl⟩ := exists_cons_of_ne_nil (l := p') (by rintro rfl; simp at hp')
        obtain ⟨rfl, rfl⟩ := List.cons.inj heq
        have h1 := length_of_continuation (s := s) hc
        have h2 := (length_decodeRun q').1
        rw [heq, decodeRun_append hp' hq', length_append, length_append, length_cons]
        omega
    · have h64 : 64 ≤ p.length := Nat.le_of_dvd (length_pos_iff.2 hnil) hp
      have htake : (p.take 64).length = 64 := by simp [h64]
      have hdrop : 64 ∣ (p.drop 64).length := by
        rw [length_drop]
        exact Nat.dvd_sub hp (dvd_refl 64)
      have hrest := ih (p.drop 64).length (by rw [length_drop]; omega) hdrop rfl
      have h1 := (length_utf8Replace (p.take 64)).1
      rw [← take_append_drop 64 p, append_assoc, decodeRun_append htake (by simp)]
      simp only [length_append] at hrest ⊢
      omega

theorem length_decodeRun_of_not_clean (h : ¬ CleanRun r) : r.length < (decodeRun r).length := by
  by_contra hlong
  refine h fun p q heq hdvd hne => cleanCut_of_head fun c hc => ?_
  obtain ⟨s, rfl⟩ : ∃ s, q = c :: s := ⟨q.tail, eq_cons_of_mem_head? hc⟩
  rw [Bool.eq_false_iff]
  intro hcont
  subst heq
  exact hlong (length_decodeRun_cut hdvd hcont)

end Runs

/-! ### What a text is made of -/

/-- An escaped byte, or something that is written as it is. -/
inductive Token where
  | escaped (b : UInt8)
  | text (t : List UInt8)

/-- What `uri_decode_n` sees. A bad digit is reported, and the byte so far is still put. -/
def tokens (plus : Bool) : List UInt8 → List Token
  | [] => []
  | c :: s =>
    if c = 0x25 then
      match s with
      | [] => [.text fffdBytes]
      | a :: s =>
        match uriHexval a with
        | none => .text fffdBytes :: .escaped 0 :: tokens plus s
        | some v =>
          match s with
          | [] => [.text fffdBytes]
          | b :: s =>
            match uriHexval b with
            | none => .text fffdBytes :: .escaped (UInt8.ofNat v) :: tokens plus s
            | some w => .escaped (UInt8.ofNat (v * 16 + w)) :: tokens plus s
    else .text [if c = 0x2b ∧ plus then 0x20 else c] :: tokens plus s

/-- The maximal runs of escaped bytes, `run` being what the first begins with. -/
def runs : List Token → List UInt8 → List (List UInt8)
  | [], run => [run]
  | .escaped b :: ts, run => runs ts (run ++ [b])
  | .text _ :: ts, run => run :: runs ts []

/-- Each run decoded by `f`, with the text between them. -/
def decodeRuns (f : List UInt8 → List UInt8) : List Token → List UInt8 → List UInt8
  | [], run => f run
  | .escaped b :: ts, run => decodeRuns f ts (run ++ [b])
  | .text t :: ts, run => f run ++ t ++ decodeRuns f ts []

/-- One whole-buffer decoder for each maximal run of escaped bytes. -/
def decodeWhole (s : List UInt8) (plus : Bool) : List UInt8 := decodeRuns utf8Replace (tokens plus s) []

/-- No sequence goes over a cut in any run of escaped bytes. -/
def Clean (s : List UInt8) (plus : Bool) : Prop := ∀ r ∈ runs (tokens plus s) [], CleanRun r

section Tokens
variable {plus : Bool} {s run : List UInt8} {ts : List Token} {f : List UInt8 → List UInt8}

def Decoder.token (d : Decoder) : Token → Decoder
  | .escaped b => uriDecByte d b
  | .text t => uriDecPut (uriDecFlush d) t

theorem decodeLoop_eq (d : Decoder) : decodeLoop plus s d = (tokens plus s).foldl Decoder.token d := by
  fun_induction decodeLoop plus s d with
  | case1 d => rfl
  | case2 d => simp [tokens, Decoder.token, uriDecFffd]
  | case3 d a s hnone ih =>
    rw [ih]
    simp [tokens, hnone, Decoder.token, uriDecFffd]
  | case4 d a v hv => simp [tokens, hv, Decoder.token, uriDecFffd]
  | case5 d a v hv b s hnone ih =>
    rw [ih]
    simp [tokens, hv, hnone, Decoder.token, uriDecFffd]
  | case6 d a v hv b s w hw ih =>
    rw [ih]
    simp [tokens, hv, hw, Decoder.token]
  | case7 c s d hc ih =>
    rw [ih, tokens.eq_def plus (c :: s)]
    simp [hc, Decoder.token]

theorem foldl_token_out (out acc : List UInt8) : (ts.foldl Decoder.token ⟨out, acc⟩).out =
    out ++ (ts.foldl Decoder.token ⟨[], acc⟩).out ∧
    (ts.foldl Decoder.token ⟨out, acc⟩).acc = (ts.foldl Decoder.token ⟨[], acc⟩).acc := by
  induction ts generalizing out acc with
  | nil => simp
  | cons t ts ih =>
    rw [foldl_cons, foldl_cons]
    cases t with
    | escaped b =>
      have hbyte := foldl_uriDecByte (r := [b]) out acc
      rw [foldl_cons, foldl_nil, foldl_cons, foldl_nil] at hbyte
      rw [Decoder.token, Decoder.token, hbyte]
      rcases uriDecByte ⟨[], acc⟩ b with ⟨out', acc'⟩
      rw [(ih _ _).1, (ih _ _).2, (ih out' acc').1, (ih out' acc').2]
      simp
    | text x =>
      rw [Decoder.token, Decoder.token, uriDecFlush, uriDecFlush, uriDecPut, uriDecPut]
      dsimp only
      rw [(ih _ _).1, (ih _ _).2, (ih ([] ++ _ ++ x) []).1, (ih ([] ++ _ ++ x) []).2]
      simp

theorem foldl_token_eq : (uriDecFlush (ts.foldl Decoder.token (run.foldl uriDecByte ⟨[], []⟩))).out =
    decodeRuns decodeRun ts run := by
  induction ts generalizing run with
  | nil => rfl
  | cons t ts ih =>
    rw [foldl_cons]
    cases t with
    | escaped b =>
      rw [Decoder.token, decodeRuns, ← ih, foldl_append, foldl_cons, foldl_nil]
    | text x =>
      have hrest := @ih []
      rw [foldl_nil] at hrest
      rw [Decoder.token, decodeRuns, ← hrest, uriDecFlush, uriDecPut]
      dsimp only
      rw [(foldl_token_out _ _).1, (foldl_token_out _ _).2]
      simp [decodeRun, uriDecFlush]

theorem uriDecodeN_eq : uriDecodeN s plus = decodeRuns decodeRun (tokens plus s) [] := by
  rw [uriDecodeN, decodeLoop_eq, ← foldl_token_eq]
  rfl

theorem decodeRuns_congr {g : List UInt8 → List UInt8} (h : ∀ r ∈ runs ts run, f r = g r) :
    decodeRuns f ts run = decodeRuns g ts run := by
  induction ts generalizing run with
  | nil => exact h run (mem_singleton_self run)
  | cons t ts ih =>
    cases t with
    | escaped b => exact ih h
    | text x =>
      rw [decodeRuns, decodeRuns, h run mem_cons_self, ih fun r hr => h r (mem_cons_of_mem _ hr)]

theorem Clean.decode (h : Clean s plus) : uriDecodeN s plus = decodeWhole s plus := by
  rw [uriDecodeN_eq]
  exact decodeRuns_congr fun r hr => (h r hr).decodeRun

def Token.weight : Token → Nat
  | .escaped _ => 3
  | .text t => t.length

theorem length_decodeRuns_le : (decodeRuns decodeRun ts run).length ≤ 3 * run.length + (ts.map Token.weight).sum := by
  induction ts generalizing run with
  | nil => simpa [decodeRuns] using (length_decodeRun run).2
  | cons t ts ih =>
    cases t with
    | escaped b =>
      have hrest := @ih (run ++ [b])
      simp [decodeRuns, Token.weight] at hrest ⊢
      omega
    | text x =>
      have hrest := @ih []
      have hrun := (length_decodeRun run).2
      simp [decodeRuns, Token.weight] at hrest ⊢
      omega

theorem weight_tokens : ((tokens plus s).map Token.weight).sum ≤ 3 * s.length := by
  fun_induction tokens plus s <;> simp [Token.weight, fffdBytes] at * <;> omega

/-- The text is at most three times as long as what it was decoded from. -/
theorem length_uriDecodeN : (uriDecodeN s plus).length ≤ 3 * s.length := by
  have hle := @length_decodeRuns_le [] (tokens plus s)
  have hweight := @weight_tokens plus s
  rw [uriDecodeN_eq]
  simp at hle
  omega

end Tokens

/-! ### Encoding and decoding -/

section RoundTrip
variable {plus : Bool} {xs run : List UInt8} {keep : UInt8 → Bool}

/-- A byte is kept or escaped. -/
def encoded (keep : UInt8 → Bool) (c : UInt8) : Token := if keep c then .text [c] else .escaped c

theorem tokens_escape (c : UInt8) (s : List UInt8) : tokens plus (escape c ++ s) = .escaped c :: tokens plus s := by
  have hdigits : ∃ v w, uriHexval (hexDigits.getD (c >>> 4).toNat 0) = some v ∧
      uriHexval (hexDigits.getD (c &&& 0xf).toNat 0) = some w ∧ UInt8.ofNat (v * 16 + w) = c := by
    refine ⟨(c >>> 4).toNat, (c &&& 0xf).toNat, ?_⟩
    exact forall_byte (P := fun c => uriHexval (hexDigits.getD (c >>> 4).toNat 0) = some (c >>> 4).toNat ∧
      uriHexval (hexDigits.getD (c &&& 0xf).toNat 0) = some (c &&& 0xf).toNat ∧
      UInt8.ofNat ((c >>> 4).toNat * 16 + (c &&& 0xf).toNat) = c) (by decide +kernel) c
  obtain ⟨v, w, hv, hw, hc⟩ := hdigits
  rw [escape, cons_append, cons_append, cons_append, nil_append, tokens, if_pos rfl, hv]
  dsimp only
  rw [hw]
  dsimp only
  rw [hc]

theorem tokens_text {c : UInt8} (hc : c ≠ 0x25) (s : List UInt8) :
    tokens plus (c :: s) = .text [if c = 0x2b ∧ plus then 0x20 else c] :: tokens plus s := by
  rw [tokens.eq_def]
  simp [hc]

theorem tokens_flatMap {enc : UInt8 → List UInt8} (h : ∀ c s, tokens plus (enc c ++ s) = encoded keep c :: tokens plus s) :
    tokens plus (xs.flatMap enc) = xs.map (encoded keep) := by
  induction xs with
  | nil => rfl
  | cons c xs ih => rw [flatMap_cons, h, ih, map_cons]

theorem decodeRuns_escaped {f : List UInt8 → List UInt8} {ts : List Token} (h : ∀ c ∈ xs, keep c = false) :
    decodeRuns f (xs.map (encoded keep) ++ ts) run = decodeRuns f ts (run ++ xs) := by
  induction xs generalizing run with
  | nil => simp
  | cons c xs ih =>
    rw [map_cons, encoded, if_neg (by simp [h c]), cons_append, decodeRuns,
      ih fun x hx => h x (mem_cons_of_mem _ hx), append_assoc, singleton_append]

theorem encode_high {c : Char} (hc : ¬ c.toNat < 0x80) : ∀ x ∈ utf8EncodeChar c, ¬ x < 0x80 := by
  have hvalid : c.toNat.isValidChar := c.valid
  have hmax : c.toNat < 0x110000 := by
    rcases hvalid with h | h <;> omega
  have henc := utf8EncodeChar_ofNat hvalid (by omega)
  rw [Char.ofNat_toNat] at henc
  have hhigh : ∀ n : Nat, 0x80 ≤ n → n < 256 → ¬ UInt8.ofNat n < 0x80 := by
    intro n hlow hlt
    rw [UInt8.lt_iff_toNat_lt, toNat_ofNat_lt hlt]
    simp only [UInt8.reduceToNat]
    omega
  intro x hx
  rw [henc] at hx
  split_ifs at hx <;> simp only [mem_cons, not_mem_nil, or_false] at hx
  · rcases hx with rfl | rfl <;> exact hhigh _ (by omega) (by omega)
  · rcases hx with rfl | rfl | rfl <;> exact hhigh _ (by omega) (by omega)
  · rcases hx with rfl | rfl | rfl | rfl <;> exact hhigh _ (by omega) (by omega)

theorem encode_low {c : Char} (hc : c.toNat < 0x80) : ∃ b, utf8EncodeChar c = [b] := by
  obtain ⟨b, hb, -⟩ | ⟨b, t, hb, hlt, -⟩ := encode_cases c
  · exact ⟨b, hb⟩
  · refine ⟨UInt8.ofNat c.toNat, ?_⟩
    rw [utf8EncodeChar]
    exact if_pos (show c.toNat ≤ 0x7f by omega)

theorem decodeRuns_utf8 (hkeep : ∀ c, keep c = true → c < 0x80) (cs : List Char) : ∀ ds : List Char,
    decodeRuns utf8Replace ((utf8 cs).map (encoded keep)) (utf8 ds) = utf8 ds ++ utf8 cs := by
  induction cs with
  | nil =>
    intro ds
    rw [utf8, flatMap_nil, map_nil, decodeRuns, utf8Replace_utf8, append_nil]
  | cons c cs ih =>
    intro ds
    have hsnoc : utf8 ds ++ utf8EncodeChar c = utf8 (ds ++ [c]) := by simp [utf8]
    have hcons : utf8 (c :: cs) = utf8EncodeChar c ++ utf8 cs := rfl
    rw [hcons, map_append]
    by_cases hkept : ∃ b, utf8EncodeChar c = [b] ∧ keep b = true
    -- the byte ends the run
    · obtain ⟨b, hb, hk⟩ := hkept
      rw [hb, map_cons, map_nil, encoded, if_pos hk, cons_append, nil_append, decodeRuns,
        utf8Replace_utf8, append_assoc]
      exact congrArg (fun l => utf8 ds ++ ([b] ++ l)) (ih [])
    · have hescaped : ∀ x ∈ utf8EncodeChar c, keep x = false := by
        intro x hx
        rw [Bool.eq_false_iff]
        intro hk
        by_cases hc : c.toNat < 0x80
        · obtain ⟨b, hb⟩ := encode_low hc
          obtain rfl := mem_singleton.1 (hb ▸ hx)
          exact hkept ⟨x, hb, hk⟩
        · exact encode_high hc x hx (hkeep x hk)
      rw [decodeRuns_escaped hescaped, hsnoc, ih, ← hsnoc, append_assoc]

theorem length_decodeRuns : run.length + xs.length ≤ (decodeRuns decodeRun (xs.map (encoded keep)) run).length := by
  induction xs generalizing run with
  | nil => exact (length_decodeRun run).1
  | cons c xs ih =>
    rw [map_cons, encoded]
    split
    · have hrest := @ih []
      have hrun := (length_decodeRun run).1
      simp [decodeRuns] at hrest ⊢
      omega
    · have hrest := @ih (run ++ [c])
      simp [decodeRuns] at hrest ⊢
      omega

/-- A cut sequence makes the text longer. -/
theorem length_decodeRuns_of_not_clean (h : ∃ r ∈ runs (xs.map (encoded keep)) run, ¬ CleanRun r) :
    run.length + xs.length < (decodeRuns decodeRun (xs.map (encoded keep)) run).length := by
  induction xs generalizing run with
  | nil =>
    obtain ⟨r, hr, hnot⟩ := h
    obtain rfl := mem_singleton.1 hr
    exact length_decodeRun_of_not_clean hnot
  | cons c xs ih =>
    rw [map_cons, encoded] at h ⊢
    split at h
    · rename_i hk
      rw [if_pos hk]
      obtain ⟨r, hr, hnot⟩ := h
      rcases mem_cons.1 hr with rfl | hr
      · have hrun := length_decodeRun_of_not_clean hnot
        have hrest := @length_decodeRuns xs [] keep
        simp [decodeRuns] at hrest ⊢
        omega
      · have hrun := (length_decodeRun run).1
        have hrest := @ih [] ⟨r, hr, hnot⟩
        simp [decodeRuns] at hrest ⊢
        omega
    · rename_i hk
      rw [if_neg hk]
      have hrest := @ih (run ++ [c]) h
      simp [decodeRuns] at hrest ⊢
      omega

/-- Encoded text comes back just when no sequence is cut. -/
theorem decode_encoded (hkeep : ∀ c, keep c = true → c < 0x80) {cs : List Char} {s : List UInt8}
    (hs : tokens plus s = (utf8 cs).map (encoded keep)) : uriDecodeN s plus = utf8 cs ↔ Clean s plus := by
  constructor
  · intro h
    by_contra hnot
    rw [Clean, hs] at hnot
    have hlong := length_decodeRuns_of_not_clean (by simpa using hnot)
    rw [← hs, ← uriDecodeN_eq, h, length_nil] at hlong
    omega
  · intro h
    rw [h.decode, decodeWhole, hs]
    exact decodeRuns_utf8 hkeep cs []

theorem cstr_eq (h : (0 : UInt8) ∉ xs) : cstr xs = xs :=
  takeWhile_eq_self_iff.2 fun _ hc => decide_eq_true fun h0 => h (h0 ▸ hc)

set_option maxRecDepth 20000 in
theorem alphanumeric_spec (c : UInt8) (h : alphanumeric c) : c < 0x80 ∧ c ≠ 0x25 ∧ c ≠ 0x2b := by
  revert h
  exact forall_byte (P := fun c => alphanumeric c → c < 0x80 ∧ c ≠ 0x25 ∧ c ≠ 0x2b) (by decide) c

theorem tokens_uriEncodeStr {allow : List UInt8} (hxs : (0 : UInt8) ∉ xs) (hallow : (0x25 : UInt8) ∉ allow)
    (hplus : plus = true → (0x2b : UInt8) ∉ allow) :
    tokens plus (uriEncodeStr xs allow) = xs.map (encoded fun c => uriKept allow c) := by
  rw [uriEncodeStr, cstr_eq hxs]
  refine tokens_flatMap fun c s => ?_
  by_cases hk : uriKept allow c
  · have hc : c ≠ 0x25 ∧ ¬ (c = 0x2b ∧ plus = true) := by
      rcases hk with h | ⟨-, h | h⟩
      · exact ⟨(alphanumeric_spec c h).2.1, fun hp => (alphanumeric_spec c h).2.2 hp.1⟩
      · constructor
        · rintro rfl
          simp [uriUnreserved] at h
        · rintro ⟨rfl, -⟩
          simp [uriUnreserved] at h
      · exact ⟨fun hc => hallow (hc ▸ h), fun hp => hplus hp.2 (hp.1 ▸ h)⟩
    rw [if_pos hk, singleton_append, tokens_text hc.1, if_neg hc.2, encoded, if_pos (by simpa using hk)]
  · rw [if_neg hk, tokens_escape, encoded, if_neg (by simpa using hk)]

theorem tokens_uriUrlencoderStr (hxs : (0 : UInt8) ∉ xs) : tokens true (uriUrlencoderStr xs) =
    xs.map (encoded fun c => alphanumeric c ∨ c ∈ urlencoderKept ∨ c = 0x20) := by
  rw [uriUrlencoderStr, cstr_eq hxs]
  refine tokens_flatMap fun c s => ?_
  by_cases hk : alphanumeric c ∨ c ∈ urlencoderKept
  · have hc : c ≠ 0x25 ∧ c ≠ 0x2b := by
      rcases hk with h | h
      · exact (alphanumeric_spec c h).2
      · constructor <;> rintro rfl <;> simp [urlencoderKept] at h
    rw [if_pos hk, singleton_append, tokens_text hc.1, if_neg (fun h => hc.2 h.1), encoded,
      if_pos (by simpa using hk.imp_right Or.inl)]
  · rw [if_neg hk]
    by_cases hspace : c = 0x20
    · subst hspace
      rw [if_pos rfl, singleton_append, tokens_text (by decide), if_pos (by simp), encoded, if_pos (by simp)]
    · rw [if_neg hspace, tokens_escape, encoded, if_neg (by simpa [hspace] using hk)]

/-- Texts come back from their encodings just when no sequence goes over a cut of the decoder; the decoder writes no more
    than it has room for; and it decodes the runs of escapes as whole buffers where no sequence goes over a cut. -/
theorem uri_decode_encode (s : List UInt8) (plus : Bool) (cs : List Char) (allow : List UInt8) (hcs : (0 : UInt8) ∉ utf8 cs)
    (hallow : (0x25 : UInt8) ∉ allow) :
    (uriDecodeN (uriEncodeStr (utf8 cs) allow) false = utf8 cs ↔ Clean (uriEncodeStr (utf8 cs) allow) false) ∧
    ((0x2b : UInt8) ∉ allow →
      (uriDecodeN (uriEncodeStr (utf8 cs) allow) true = utf8 cs ↔ Clean (uriEncodeStr (utf8 cs) allow) true)) ∧
    (uriDecodeN (uriUrlencoderStr (utf8 cs)) true = utf8 cs ↔ Clean (uriUrlencoderStr (utf8 cs)) true) ∧
    (uriDecodeN s plus).length + 1 ≤ 3 * s.length + 1 ∧ (Clean s plus → uriDecodeN s plus = decodeWhole s plus) := by
  have hkept : ∀ c, decide (uriKept allow c) = true → c < 0x80 := by
    intro c hc
    rcases of_decide_eq_true hc with h | h
    · exact (alphanumeric_spec c h).1
    · exact h.1
  have hkept' : ∀ c, decide (alphanumeric c ∨ c ∈ urlencoderKept ∨ c = 0x20) = true → c < 0x80 := by
    intro c hc
    rcases of_decide_eq_true hc with h | h | rfl
    · exact (alphanumeric_spec c h).1
    · revert h
      exact forall_byte (P := fun c => c ∈ urlencoderKept → c < 0x80) (by decide +kernel) c
    · decide
  refine ⟨?_, fun hp => ?_, ?_, ?_, Clean.decode⟩
  · exact decode_encoded hkept (tokens_uriEncodeStr hcs hallow nofun)
  · exact decode_encoded hkept (tokens_uriEncodeStr hcs hallow fun _ => hp)
  · exact decode_encoded hkept' (tokens_uriUrlencoderStr hcs)
  · exact Nat.succ_le_succ length_uriDecodeN

theorem uri_decode_encode_kana : (0 : UInt8) ∉ utf8 ['あ'] ∧
    (uriDecodeN (uriEncodeStr (utf8 ['あ']) []) false = utf8 ['あ'] ↔ Clean (uriEncodeStr (utf8 ['あ']) []) false) :=
  ⟨by decide, (uri_decode_encode [] false ['あ'] [] (by decide) (by decide)).1⟩

/-- Of 22 characters with three bytes each, the last goes over the cut. -/
theorem long_run_cut : uriDecodeN (uriEncodeStr (utf8 (replicate 22 'あ')) []) false ≠ utf8 (replicate 22 'あ') ∧
    uriDecodeN (uriEncodeStr (utf8 (replicate 22 'あ')) []) false ≠
      decodeWhole (uriEncodeStr (utf8 (replicate 22 'あ')) []) false := by
  decide +kernel

end RoundTrip

/-! ### What comes out is UTF-8 -/

section Output
variable {p s : List UInt8} {plus : Bool}

def IsUtf8 (s : List UInt8) : Prop := ∃ cs, s = utf8 cs

theorem IsUtf8.append {p q : List UInt8} (hp : IsUtf8 p) (hq : IsUtf8 q) : IsUtf8 (p ++ q) := by
  obtain ⟨cs, rfl⟩ := hp
  obtain ⟨ds, rfl⟩ := hq
  exact ⟨cs ++ ds, by simp [utf8]⟩

theorem isUtf8_putCp {v : Nat} (h : v.isValidChar) : IsUtf8 (putCp v) :=
  ⟨[Char.ofNat v], by simp [utf8, putCp_encode h]⟩

theorem isUtf8_ascii {c : UInt8} (hc : c < 0x80) : IsUtf8 [c] := by
  have hlt : c.toNat < 0x80 := UInt8.lt_iff_toNat_lt.1 hc
  have hput : IsUtf8 (putCp c.toNat) := isUtf8_putCp (.inl (by omega))
  rwa [putCp, if_pos hlt, UInt8.ofNat_toNat] at hput

/-- The continuation bytes that `put_cp` gives a code point. -/
def conts : Nat → Nat → List UInt8
  | 0, _ => []
  | n + 1, v => UInt8.ofNat (0x80 ||| v >>> (6 * n) &&& 0x3f) :: conts n v

set_option maxRecDepth 20000 in
theorem wtf8Tail_some : ∀ {n cp v : Nat} {s : List UInt8}, wtf8Tail n cp s = some v → v >>> (6 * n) = cp ∧
    s.take n = conts n v
  | 0, cp, v, s, h => ⟨(Option.some.inj h).symm, rfl⟩
  | n + 1, cp, v, [], h => nomatch h
  | n + 1, cp, v, c :: s, h => by
    have hc : c &&& 0xc0 = 0x80 := by
      by_contra hne
      rw [wtf8Tail, if_pos hne] at h
      cases h
    obtain ⟨x, rfl⟩ : ∃ x, c = UInt8.ofNat (0x80 ||| x &&& 0x3f) := ⟨c.toNat, by
      revert hc
      exact forall_byte (P := fun c => c &&& 0xc0 = 0x80 → c = UInt8.ofNat (0x80 ||| c.toNat &&& 0x3f)) (by decide) c⟩
    rw [wtf8Tail_cons] at h
    obtain ⟨hv, htake⟩ := wtf8Tail_some h
    constructor
    · rw [Nat.mul_add, Nat.shiftRight_add, hv, Nat.shiftRight_eq_div_pow]
      omega
    · rw [take_succ_cons, htake, conts, hv, and_low, and_low]
      congr 3
      omega

set_option maxRecDepth 20000 in
theorem seqLead_some {b x : UInt8} {len : Nat} (h : seqLead b = some (len, x)) :
    (len = 2 ∧ b = UInt8.ofNat (0xc0 ||| x.toNat) ∧ x.toNat < 32) ∨
      (len = 3 ∧ b = UInt8.ofNat (0xe0 ||| x.toNat) ∧ x.toNat < 16) ∨
      (len = 4 ∧ b = UInt8.ofNat (0xf0 ||| x.toNat) ∧ x.toNat < 8) := by
  refine forall_byte (P := fun b => ∀ r ∈ seqLead b, (r.1 = 2 ∧ b = UInt8.ofNat (0xc0 ||| r.2.toNat) ∧ r.2.toNat < 32) ∨
    (r.1 = 3 ∧ b = UInt8.ofNat (0xe0 ||| r.2.toNat) ∧ r.2.toNat < 16) ∨
      (r.1 = 4 ∧ b = UInt8.ofNat (0xf0 ||| r.2.toNat) ∧ r.2.toNat < 8)) (by decide) b (len, x) h

theorem isUtf8_sequence (h : uriUtf8Seq p ≠ 0) : IsUtf8 (p.take (uriUtf8Seq p)) := by
  cases p with
  | nil => exact absurd rfl h
  | cons b s =>
    rw [uriUtf8Seq] at h ⊢
    by_cases hb : b < 0x80
    · rw [if_pos hb]
      exact isUtf8_ascii hb
    · rw [if_neg hb] at h ⊢
      rcases hlead : seqLead b with _ | ⟨len, x⟩
      · simp [hlead] at h
      rcases hw : wtf8Tail (len - 1) x.toNat s with _ | v
      · simp [hlead, hw] at h
      simp only [hlead, hw] at h ⊢
      split_ifs at h ⊢ with hlen hrange
      · exact absurd rfl h
      · exact absurd rfl h
      have hput : IsUtf8 (putCp v) := isUtf8_putCp (by unfold Nat.isValidChar; omega)
      obtain ⟨hv, htake⟩ := wtf8Tail_some hw
      rw [Nat.shiftRight_eq_div_pow] at hv
      obtain ⟨rfl, hx, hlt⟩ | ⟨rfl, hx, hlt⟩ | ⟨rfl, hx, hlt⟩ := seqLead_some hlead
      all_goals rw [take_succ_cons, htake, hx, ← hv, ← Nat.shiftRight_eq_div_pow]
      · have hmin : seqMin 2 = 0x80 := rfl
        rwa [putCp, if_neg (by omega), if_pos (by omega)] at hput
      · have hmin : seqMin 3 = 0x800 := rfl
        rwa [putCp, if_neg (by omega), if_neg (by omega), if_pos (by omega)] at hput
      · have hmin : seqMin 4 = 0x10000 := rfl
        rwa [putCp, if_neg (by omega), if_neg (by omega), if_neg (by omega)] at hput

theorem isUtf8_fffd : IsUtf8 fffdBytes := isUtf8_putCp (v := 0xfffd) (.inr (by decide))

theorem isUtf8_utf8Replace (p : List UInt8) : IsUtf8 (utf8Replace p) := by
  by_cases hp : p = []
  · exact ⟨[], by rw [hp]; rfl⟩
  · have hrest := isUtf8_utf8Replace (p.drop (unit p))
    rw [utf8Replace_step hp, piece]
    split
    · exact (isUtf8_sequence ‹_›).append hrest
    · exact isUtf8_fffd.append hrest
termination_by p.length
decreasing_by
  have hpos := unit_pos p
  have hlen := length_pos_iff.2 hp
  rw [length_drop]
  omega

/-- What is flushed and what is put between are whole encodings. -/
theorem isUtf8_foldl {ts : List Token} {d : Decoder} (hd : IsUtf8 d.out) (hts : ∀ t, .text t ∈ ts → IsUtf8 t) :
    IsUtf8 (uriDecFlush (ts.foldl Decoder.token d)).out := by
  induction ts generalizing d with
  | nil => exact hd.append (isUtf8_utf8Replace _)
  | cons t ts ih =>
    refine ih ?_ fun t ht => hts t (mem_cons_of_mem _ ht)
    cases t with
    | escaped b =>
      rw [Decoder.token, uriDecByte]
      split
      · exact hd.append (isUtf8_utf8Replace _)
      · exact hd
    | text t => exact (hd.append (isUtf8_utf8Replace _)).append (hts t mem_cons_self)

theorem isUtf8_text (h : ∀ c ∈ s, c < 0x80) : ∀ t, .text t ∈ tokens plus s → IsUtf8 t := by
  fun_induction tokens plus s with
  | case1 => nofun
  | case2 => simp [isUtf8_fffd]
  | case3 a s hnone ih => simpa [isUtf8_fffd] using ih fun c hc => h c (by simp [hc])
  | case4 => simp [isUtf8_fffd]
  | case5 a v hv b s hnone ih => simpa [isUtf8_fffd] using ih fun c hc => h c (by simp [hc])
  | case6 a v hv b s w hw ih => simpa using ih fun c hc => h c (by simp [hc])
  | case7 c s hc ih =>
    intro t ht
    rcases mem_cons.1 ht with heq | ht
    · obtain rfl := Token.text.inj heq
      refine isUtf8_ascii ?_
      split
      · decide
      · exact h c mem_cons_self
    · exact ih (fun c hc => h c (mem_cons_of_mem _ hc)) t ht

/-- Whatever is escaped in an ASCII text, and however the escapes are cut or broken, well-formed UTF-8 comes out. -/
theorem uri_decode_isUtf8 (s : List UInt8) (plus : Bool) (h : ∀ c ∈ s, c < 0x80) : ∃ cs, uriDecodeN s plus = utf8 cs := by
  rw [uriDecodeN, decodeLoop_eq]
  exact isUtf8_foldl ⟨[], rfl⟩ (isUtf8_text h)

/-- `%C3+%zz`: a sequence that is broken off, and a bad digit. -/
theorem uri_decode_broken : ∃ cs, uriDecodeN [0x25, 0x43, 0x33, 0x2b, 0x25, 0x7a, 0x7a] true = utf8 cs :=
  uri_decode_isUtf8 _ true (by simp)

end Output
end Lunaria.Dvm.Uri
