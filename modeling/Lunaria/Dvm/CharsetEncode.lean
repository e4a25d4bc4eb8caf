import Lunaria.Dvm.CharsetText

/-! The encoding of stored text by the built-in charsets of `charset.c`. A lone surrogate becomes a question mark; what a
    charset can hold comes back from its decoder. -/

namespace Lunaria.Dvm.Charset
open Unicode List Option

/-- The byte and the unit `'?'`. -/
def question : Nat := 0x3f

/-! ### `jcs_encode` -/

/-- The branch for UTF-8. -/
def utf8Encode : List UInt8 → List UInt8
  | [] => []
  | b :: s =>
    (if 0xd800 ≤ (wtf8Cp b s).1 ∧ (wtf8Cp b s).1 ≤ 0xdfff then [UInt8.ofNat question] else (b :: s).take (wtf8Cp b s).2) ++
      utf8Encode ((b :: s).drop (wtf8Cp b s).2)
termination_by l => l.length
decreasing_by
  have := wtf8Cp_pos b s
  simp only [length_drop, length_cons]
  omega

/-- The branch for ISO-8859-1 and US-ASCII. -/
def byteEncode (max : Nat) : List UInt8 → List UInt8
  | [] => []
  | b :: s =>
    (if (wtf8Cp b s).1 ≤ max then UInt8.ofNat (wtf8Cp b s).1 else UInt8.ofNat question) ::
      byteEncode max ((b :: s).drop (wtf8Cp b s).2)
termination_by l => l.length
decreasing_by
  have := wtf8Cp_pos b s
  simp only [length_drop, length_cons]
  omega

def unitBytes (little : Bool) (c : UInt16) : List UInt8 :=
  if little then [UInt8.ofNat c.toNat, UInt8.ofNat (c.toNat >>> 8)] else [UInt8.ofNat (c.toNat >>> 8), UInt8.ofNat c.toNat]

/-- The loop over the units, which looks at the neighbours on both sides. -/
def utf16Loop (little : Bool) : Option UInt16 → List UInt16 → List UInt8
  | _, [] => []
  | prev, c :: us =>
    let paired := (0xd800 ≤ c ∧ c ≤ 0xdbff ∧ us.head?.any fun l => 0xdc00 ≤ l ∧ l ≤ 0xdfff) ∨
      (0xdc00 ≤ c ∧ c ≤ 0xdfff ∧ prev.any fun h => 0xd800 ≤ h ∧ h ≤ 0xdbff)
    unitBytes little (if 0xd800 ≤ c ∧ c ≤ 0xdfff ∧ ¬paired then UInt16.ofNat question else c) ++
      utf16Loop little (some c) us

/-- `jcs_encode`. -/
def encode (kind : Kind) (wtf8 : List UInt8) : List UInt8 :=
  match kind with
  | .utf8 => utf8Encode wtf8
  | .latin1 => byteEncode 0xff wtf8
  | .ascii => byteEncode 0x7f wtf8
  | .utf16 => 0xfe :: 0xff :: utf16Loop false none (wtf8ToUtf16 wtf8)
  | .utf16be => utf16Loop false none (wtf8ToUtf16 wtf8)
  | .utf16le => utf16Loop true none (wtf8ToUtf16 wtf8)

/-! ### Stored text -/

section
variable {u : UInt16} {us : List UInt16}

/-- The code point of a surrogate pair. -/
def pairCp (h l : UInt16) : Nat := 0x10000 + (h.toNat - 0xd800) <<< 10 + (l.toNat - 0xdc00)

theorem utf16ToWtf8_pair {l : UInt16} (hu : IsHigh u) (hl : IsLow l) :
    utf16ToWtf8 (u :: l :: us) = putCp (pairCp u l) ++ utf16ToWtf8 us := by
  have hpair : 0xd800 ≤ u ∧ u ≤ 0xdbff ∧ 0xdc00 ≤ l ∧ l ≤ 0xdfff := ⟨hu.1, hu.2, hl⟩
  rw [utf16ToWtf8, if_pos hpair]
  rfl

theorem utf16ToWtf8_single (h : IsHigh u → ∀ l ∈ us.head?, ¬ IsLow l) :
    utf16ToWtf8 (u :: us) = putCp u.toNat ++ utf16ToWtf8 us := by
  cases us with
  | nil => rw [utf16ToWtf8, utf16ToWtf8, append_nil]
  | cons l us => rw [utf16ToWtf8, if_neg fun hp => h ⟨hp.1, hp.2.1⟩ l rfl hp.2.2]

theorem pairCp_bounds {h l : UInt16} (hh : IsHigh h) (hl : IsLow l) : 0x10000 ≤ pairCp h l ∧ pairCp h l < 0x110000 := by
  simp only [IsHigh, IsLow, UInt16.le_iff_toNat_le, UInt16.reduceToNat] at hh hl
  have hshift := Nat.shiftLeft_eq (h.toNat - 0xd800) 10
  unfold pairCp
  omega

theorem isSurrogate_iff : (0xd800 ≤ u.toNat ∧ u.toNat ≤ 0xdfff) ↔ IsHigh u ∨ IsLow u := by
  rw [← isHigh_or_isLow]
  simp only [UInt16.le_iff_toNat_le, UInt16.reduceToNat]

end

/-! ### UTF-8 -/

theorem putCp_encode {v : Nat} (h : v.isValidChar) : putCp v = String.utf8EncodeChar (Char.ofNat v) := by
  have hmax : v < 0x110000 := by
    rcases h with h | h <;> omega
  have hor (i a b : Nat) (hb : b < 2 ^ i) : a * 2 ^ i ||| b = b + a * 2 ^ i := by
    rw [← Nat.shiftLeft_eq, or_of_lt i hb, Nat.add_comm, Nat.shiftLeft_eq]
  have h80 (x : Nat) : 0x80 ||| x % 64 = x % 64 + 0x80 := hor 6 2 _ (Nat.mod_lt _ (by decide))
  unfold putCp
  by_cases hv : v < 0x80
  · rw [if_pos hv]
    simp only [String.utf8EncodeChar, val_ofNat h]
    rw [if_pos (by omega)]
  · rw [if_neg hv, utf8EncodeChar_ofNat h (by omega)]
    simp only [and_low, Nat.shiftRight_eq_div_pow, Nat.reducePow, h80]
    by_cases h2 : v < 0x800
    · have hlead : 0xc0 ||| v / 64 = v / 64 + 0xc0 := hor 6 3 _ (by omega)
      rw [if_pos h2, if_pos (show v ≤ 0x7ff by omega), hlead]
    · rw [if_neg h2, if_neg (show ¬v ≤ 0x7ff by omega)]
      by_cases h3 : v < 0x10000
      · have hlead : 0xe0 ||| v / 4096 = v / 4096 + 0xe0 := hor 4 14 _ (by omega)
        rw [if_pos h3, if_pos (show v ≤ 0xffff by omega), hlead]
      · have hlead : 0xf0 ||| v / 262144 = v / 262144 + 0xf0 := hor 3 30 _ (by omega)
        rw [if_neg h3, if_neg (show ¬v ≤ 0xffff by omega), hlead]

theorem utf8Decode_encodeChar (c : Char) (rest : List UInt8) :
    utf8Decode (String.utf8EncodeChar c ++ rest) = String.utf8EncodeChar c ++ utf8Decode rest := by
  obtain ⟨b, hb, hlt⟩ | ⟨b, t, hb, hlt, hwhole⟩ := encode_cases c
  · rw [hb, singleton_append, utf8Decode, if_pos hlt]
    rfl
  · have htake : (t ++ rest).take (utf8Lead b).1 = t := by
      rw [← hwhole.length, take_left]
    have hgot : utf8Got (utf8Lead b).1 (utf8Lead b).2.1 (utf8Lead b).2.2 (t ++ rest) = (utf8Lead b).1 := by
      have hcut := @utf8Got_take (utf8Lead b).1 (utf8Lead b).2.1 (utf8Lead b).2.2 (t ++ rest) (utf8Lead b).1
      rw [htake, hwhole.got] at hcut
      exact Nat.le_antisymm utf8Got_le_need (Nat.le_trans (Nat.le_of_eq hcut) (Nat.min_le_right _ _))
    rw [hb, cons_append, utf8Decode, if_neg hlt]
    dsimp only
    rw [hgot, if_pos ⟨hwhole.need, rfl⟩, htake, ← hwhole.length, drop_left]

theorem utf8Decode_putCp {v : Nat} (h : v.isValidChar) (rest : List UInt8) :
    utf8Decode (putCp v ++ rest) = putCp v ++ utf8Decode rest := by
  rw [putCp_encode h, utf8Decode_encodeChar]

theorem utf8Encode_putCp {cp : Nat} (h : cp < 0x200000) (rest : List UInt8) : utf8Encode (putCp cp ++ rest) =
    (if 0xd800 ≤ cp ∧ cp ≤ 0xdfff then [UInt8.ofNat question] else putCp cp) ++ utf8Encode rest := by
  obtain ⟨b, s, hput, hcp⟩ := wtf8Cp_putCp h rest
  rw [hput, cons_append, utf8Encode, hcp]
  simp

/-! ### Single bytes -/

theorem byteEncode_putCp {max cp : Nat} (h : cp < 0x200000) (rest : List UInt8) : byteEncode max (putCp cp ++ rest) =
    (if cp ≤ max then UInt8.ofNat cp else UInt8.ofNat question) :: byteEncode max rest := by
  obtain ⟨b, s, hput, hcp⟩ := wtf8Cp_putCp h rest
  rw [hput, cons_append, byteEncode, hcp]
  simp

/-! ### UTF-16 -/

section
variable {u : UInt16} {us : List UInt16}

theorem lone_single (h : IsHigh u ∧ (∀ l ∈ us.head?, ¬ IsLow l) ∨ IsLow u) : IsHigh u → ∀ l ∈ us.head?, ¬ IsLow l := by
  intro hu
  rcases h with h | h
  · exact h.2
  · exact absurd h (not_isLow_of_isHigh hu)

/-- Looking at the neighbours finds the surrogates that are alone, where the unit before does not pair with the first. -/
theorem utf16Loop_eq (little : Bool) (us : List UInt16) : ∀ prev : Option UInt16,
    (∀ h ∈ prev, IsHigh h → ∀ l ∈ us.head?, ¬ IsLow l) →
    utf16Loop little prev us = (substLone (UInt16.ofNat question) us).flatMap (unitBytes little) := by
  have htext := utf16Text_replaceLone us
  generalize replaceLone us = vs at htext
  induction htext with
  | nil =>
    intro prev _
    rfl
  | @plain u us vs hu hl _ ih =>
    intro prev _
    have hnot : ¬(0xd800 ≤ u ∧ u ≤ 0xdfff) := fun h => (isHigh_or_isLow.1 h).elim hu hl
    rw [substLone_single fun hc => absurd hc hu, if_neg (not_or.2 ⟨hu, hl⟩), flatMap_cons, utf16Loop]
    rw [if_neg (fun h => hnot ⟨h.1, h.2.1⟩), ih (some u) (fun h hh hc => absurd (some.inj hh ▸ hc) hu)]
  | @pair h l us vs hh hl _ ih =>
    intro prev _
    have hnot := not_isLow_of_isHigh hh
    rw [substLone_pair hh hl, flatMap_cons, flatMap_cons, utf16Loop, utf16Loop]
    rw [if_neg (fun hc => hc.2.2 (.inl ⟨hh.1, hh.2, by simpa [IsLow] using hl⟩)),
      if_neg (fun hc => hc.2.2 (.inr ⟨hl.1, hl.2, by simpa [IsHigh] using hh⟩)),
      ih (some l) (fun x hx hc => absurd hl (not_isLow_of_isHigh (some.inj hx ▸ hc)))]
  | @lone u us vs hsur _ ih =>
    intro prev hprev
    have hsingle := lone_single hsur
    have hboth : IsHigh u ∨ IsLow u := hsur.imp_left And.left
    have hrange := isHigh_or_isLow.2 hboth
    have halone : ¬((0xd800 ≤ u ∧ u ≤ 0xdbff ∧ us.head?.any (fun l => 0xdc00 ≤ l ∧ l ≤ 0xdfff)) ∨
        (0xdc00 ≤ u ∧ u ≤ 0xdfff ∧ prev.any fun h => 0xd800 ≤ h ∧ h ≤ 0xdbff)) := by
      rintro (⟨h1, h2, hnext⟩ | ⟨h1, h2, hbefore⟩)
      · cases us with
        | nil => simp at hnext
        | cons l us => exact hsingle ⟨h1, h2⟩ l rfl (by simpa [IsLow] using hnext)
      · cases prev with
        | none => simp at hbefore
        | some h => exact hprev h rfl (by simpa [IsHigh] using hbefore) u rfl ⟨h1, h2⟩
    rw [substLone_single hsingle, if_pos hboth, flatMap_cons, utf16Loop, if_pos ⟨hrange.1, hrange.2, halone⟩,
      ih (some u) (fun x hx hc => hsingle (some.inj hx ▸ hc))]

theorem utf16Units_unitBytes (little : Bool) (u : UInt16) (rest : List UInt8) :
    utf16Units little (unitBytes little u ++ rest) = u :: utf16Units little rest := by
  have hlt := u.toNat_lt
  have hlow : (UInt8.ofNat u.toNat).toNat = u.toNat % 256 := UInt8.toNat_ofNat' ..
  have hhigh : (UInt8.ofNat (u.toNat >>> 8)).toNat = u.toNat / 256 := by
    rw [UInt8.toNat_ofNat', Nat.shiftRight_eq_div_pow]
    exact Nat.mod_eq_of_lt (by omega)
  have hunit : ∀ n, n = u.toNat → UInt16.ofNat n = u := by
    rintro n rfl
    exact UInt16.ofNat_toNat
  cases little with
  | true =>
    have heq : pairUnit true (UInt8.ofNat u.toNat) (UInt8.ofNat (u.toNat >>> 8)) = u.toNat := by
      rw [pairUnit_eq, if_pos rfl, hlow, hhigh]
      omega
    show UInt16.ofNat (pairUnit true _ _) :: utf16Units true rest = _
    rw [hunit _ heq]
  | false =>
    have heq : pairUnit false (UInt8.ofNat (u.toNat >>> 8)) (UInt8.ofNat u.toNat) = u.toNat := by
      rw [pairUnit_eq, if_neg Bool.false_ne_true, hlow, hhigh]
      omega
    show UInt16.ofNat (pairUnit false _ _) :: utf16Units false rest = _
    rw [hunit _ heq]

theorem utf16Units_flatMap (little : Bool) (us : List UInt16) : utf16Units little (us.flatMap (unitBytes little)) = us := by
  induction us with
  | nil => rfl
  | cons u us ih => rw [flatMap_cons, utf16Units_unitBytes, ih]

theorem length_unitBytes (little : Bool) (u : UInt16) : (unitBytes little u).length = 2 := by
  cases little <;> rfl

theorem length_flatMap_unitBytes (little : Bool) (us : List UInt16) :
    (us.flatMap (unitBytes little)).length % 2 = 0 := by
  induction us with
  | nil => rfl
  | cons u us ih =>
    rw [flatMap_cons, length_append, length_unitBytes]
    omega

theorem replaceLone_substLone {q : UInt16} (hq : ¬ IsHigh q) (hq' : ¬ IsLow q) (us : List UInt16) :
    replaceLone (substLone q us) = substLone q us := by
  have htext := utf16Text_replaceLone us
  generalize replaceLone us = vs at htext
  induction htext with
  | nil => rfl
  | plain hu hl _ ih =>
    rw [substLone_single fun hc => absurd hc hu, if_neg (not_or.2 ⟨hu, hl⟩), replaceLone_single fun hc => absurd hc hu,
      if_neg (not_or.2 ⟨hu, hl⟩), ih]
  | pair hh hl _ ih => rw [substLone_pair hh hl, replaceLone_pair hh hl, ih]
  | @lone u us vs hsur _ ih =>
    have hsingle := lone_single hsur
    rw [substLone_single hsingle, if_pos (hsur.imp_left And.left), replaceLone_single fun hc => absurd hc hq,
      if_neg (not_or.2 ⟨hq, hq'⟩), ih]

end

/-! ### Round trips -/

/-- The text with every lone surrogate replaced by `'?'`. -/
def questioned (us : List UInt16) : List UInt16 := substLone (UInt16.ofNat question) us

/-- The units that a charset has a byte for; the others hold every text. -/
def Holds (kind : Kind) (u : UInt16) : Prop :=
  match kind with
  | .latin1 => u.toNat ≤ 0xff
  | .ascii => u.toNat ≤ 0x7f
  | _ => True

theorem question_plain : ¬ IsHigh (UInt16.ofNat question) ∧ ¬ IsLow (UInt16.ofNat question) := by decide

theorem utf8_roundTrip (us : List UInt16) : utf8Decode (utf8Encode (utf16ToWtf8 us)) = utf16ToWtf8 (questioned us) := by
  have htext := utf16Text_replaceLone us
  generalize replaceLone us = vs at htext
  unfold questioned
  induction htext with
  | nil => rw [utf16ToWtf8, utf8Encode, utf8Decode, substLone, utf16ToWtf8]
  | @plain u us vs hu hl _ ih =>
    have hlt := u.toNat_lt
    have hnot : ¬(0xd800 ≤ u.toNat ∧ u.toNat ≤ 0xdfff) := fun h => (isSurrogate_iff.1 h).elim hu hl
    have hvalid : u.toNat.isValidChar := by
      unfold Nat.isValidChar
      omega
    rw [substLone_single fun hc => absurd hc hu, if_neg (not_or.2 ⟨hu, hl⟩), utf16ToWtf8_single fun hc => absurd hc hu,
      utf16ToWtf8_single fun hc => absurd hc hu, utf8Encode_putCp (by omega), if_neg hnot, utf8Decode_putCp hvalid, ih]
  | @pair h l us vs hh hl _ ih =>
    obtain ⟨hlo, hhi⟩ := pairCp_bounds hh hl
    have hvalid : (pairCp h l).isValidChar := .inr ⟨by omega, hhi⟩
    rw [substLone_pair hh hl, utf16ToWtf8_pair hh hl, utf16ToWtf8_pair hh hl, utf8Encode_putCp (by omega),
      if_neg (by omega), utf8Decode_putCp hvalid, ih]
  | @lone u us vs hsur _ ih =>
    have hlt := u.toNat_lt
    have hboth : IsHigh u ∨ IsLow u := hsur.imp_left And.left
    rw [substLone_single (lone_single hsur), if_pos hboth, utf16ToWtf8_single (lone_single hsur),
      utf16ToWtf8_single fun hc => absurd hc question_plain.1, utf8Encode_putCp (by omega),
        if_pos (isSurrogate_iff.2 hboth)]
    exact (@utf8Decode_putCp question (.inl (by decide)) _).trans (congrArg _ ih)

theorem byteEncode_utf16ToWtf8 {max : Nat} (hmax : max ≤ 0xff) (us : List UInt16)
    (h : ∀ u ∈ questioned us, u.toNat ≤ max) :
    byteEncode max (utf16ToWtf8 us) = (questioned us).map fun u => UInt8.ofNat u.toNat := by
  have htext := utf16Text_replaceLone us
  generalize replaceLone us = vs at htext
  unfold questioned at h ⊢
  induction htext with
  | nil => rw [utf16ToWtf8, byteEncode]; rfl
  | @plain u us vs hu hl _ ih =>
    have hlt := u.toNat_lt
    rw [substLone_single fun hc => absurd hc hu, if_neg (not_or.2 ⟨hu, hl⟩)] at h ⊢
    rw [utf16ToWtf8_single fun hc => absurd hc hu, byteEncode_putCp (by omega), if_pos (h u mem_cons_self),
      ih fun v hv => h v (mem_cons_of_mem _ hv)]
    rfl
  | @pair x l us vs hh hl _ ih =>
    rw [substLone_pair hh hl] at h
    have hx := h x mem_cons_self
    have hx' := UInt16.le_iff_toNat_le.1 hh.1
    simp only [UInt16.reduceToNat] at hx'
    omega
  | @lone u us vs hsur _ ih =>
    have hlt := u.toNat_lt
    have hboth : IsHigh u ∨ IsLow u := hsur.imp_left And.left
    have hrange := isSurrogate_iff.2 hboth
    rw [substLone_single (lone_single hsur), if_pos hboth] at h ⊢
    rw [utf16ToWtf8_single (lone_single hsur), byteEncode_putCp (by omega), if_neg (by omega),
      ih fun v hv => h v (mem_cons_of_mem _ hv)]
    rfl

theorem byte_roundTrip {kind : Kind} {us : List UInt16} (h : ∀ u ∈ us, u.toNat ≤ 0xff ∧ (kind = .ascii → u.toNat ≤ 0x7f)) :
    ((us.map fun u => UInt8.ofNat u.toNat).flatMap fun b => putCp (if kind = .ascii ∧ 0x80 ≤ b then fffd else b.toNat)) =
      utf16ToWtf8 us := by
  induction us with
  | nil => rfl
  | cons u us ih =>
    obtain ⟨hu, hascii⟩ := h u mem_cons_self
    have hb : (UInt8.ofNat u.toNat).toNat = u.toNat := toNat_ofNat_lt (by omega)
    have hsmall : ¬(kind = .ascii ∧ 0x80 ≤ UInt8.ofNat u.toNat) := by
      rintro ⟨hk, hc⟩
      have := UInt8.le_iff_toNat_le.1 hc
      have := hascii hk
      simp only [UInt8.reduceToNat] at *
      omega
    have hhigh : ¬ IsHigh u := by
      intro hc
      have := UInt16.le_iff_toNat_le.1 hc.1
      simp only [UInt16.reduceToNat] at this
      omega
    rw [map_cons, flatMap_cons, if_neg hsmall, hb, utf16ToWtf8_single fun hc => absurd hc hhigh,
      ih fun v hv => h v (mem_cons_of_mem _ hv)]

theorem utf16_roundTrip (little : Bool) (us : List UInt16) :
    replaceLone (utf16Units little (utf16Loop little none us)) = questioned us ∧
      (utf16Loop little none us).length % 2 = 0 := by
  rw [utf16Loop_eq little us none nofun]
  constructor
  · rw [utf16Units_flatMap]
    exact replaceLone_substLone question_plain.1 question_plain.2 us
  · exact length_flatMap_unitBytes little _

/-- Every charset gives a text that it can hold back, with `'?'` for each lone surrogate. -/
theorem decode_encode (kind : Kind) (us : List UInt16) (h : ∀ u ∈ questioned us, Holds kind u) :
    decode kind (encode kind (utf16ToWtf8 us)) = utf16ToWtf8 (questioned us) := by
  have hutf16 (little : Bool) : utf16ToWtf8 (replaceLone (utf16Units little (utf16Loop little none us)) ++
      if (utf16Loop little none us).length % 2 = 1 then [UInt16.ofNat fffd] else []) = utf16ToWtf8 (questioned us) := by
    obtain ⟨hunits, hlen⟩ := utf16_roundTrip little us
    rw [hunits, if_neg (by omega), append_nil]
  cases kind with
  | utf8 => exact utf8_roundTrip us
  | latin1 =>
    rw [encode, byteEncode_utf16ToWtf8 (by decide) us h]
    exact byte_roundTrip fun u hu => ⟨h u hu, fun hc => by cases hc⟩
  | ascii =>
    rw [encode, byteEncode_utf16ToWtf8 (by decide) us h]
    exact byte_roundTrip fun u hu => ⟨Nat.le_trans (h u hu) (by decide), fun _ => h u hu⟩
  | utf16 =>
    rw [encode, wtf8ToUtf16_utf16ToWtf8]
    exact hutf16 false
  | utf16be =>
    rw [encode, wtf8ToUtf16_utf16ToWtf8]
    exact hutf16 false
  | utf16le =>
    rw [encode, wtf8ToUtf16_utf16ToWtf8]
    exact hutf16 true

theorem wellFormed_of_le {us : List UInt16} (h : ∀ u ∈ us, u.toNat ≤ 0xff) : WellFormed us := by
  induction us with
  | nil => exact .nil
  | cons u us ih =>
    have hu := h u mem_cons_self
    have hnot : ¬(IsHigh u ∨ IsLow u) := by
      rw [← isSurrogate_iff]
      omega
    exact .plain (fun hc => hnot (.inl hc)) (fun hc => hnot (.inr hc)) (ih fun v hv => h v (mem_cons_of_mem _ hv))

theorem charset_roundTrip :
    (∀ kind ∈ [Kind.utf8, .utf16, .utf16be, .utf16le], ∀ us, WellFormed us →
      decode kind (encode kind (utf16ToWtf8 us)) = utf16ToWtf8 us) ∧
    (∀ us : List UInt16, (∀ u ∈ us, u.toNat ≤ 0xff) → decode .latin1 (encode .latin1 (utf16ToWtf8 us)) = utf16ToWtf8 us) ∧
    (∀ us : List UInt16, (∀ u ∈ us, u.toNat ≤ 0x7f) → decode .ascii (encode .ascii (utf16ToWtf8 us)) = utf16ToWtf8 us) ∧
    (∀ us, wtf8ToUtf16 (utf16ToWtf8 us) = us) ∧
    (∀ kind us, (∀ u ∈ questioned us, Holds kind u) →
      decode kind (encode kind (utf16ToWtf8 us)) = utf16ToWtf8 (questioned us)) := by
  refine ⟨?_, ?_, ?_, wtf8ToUtf16_utf16ToWtf8, decode_encode⟩
  · intro kind hkind us hus
    have hsame : questioned us = us := hus.substLone
    have h := decode_encode kind us fun u _ => by
      simp only [mem_cons, not_mem_nil, or_false] at hkind
      rcases hkind with rfl | rfl | rfl | rfl <;> trivial
    rwa [hsame] at h
  · intro us hus
    have hsame : questioned us = us := (wellFormed_of_le hus).substLone
    have h := decode_encode .latin1 us (hsame.symm ▸ hus)
    rwa [hsame] at h
  · intro us hus
    have hsame : questioned us = us := (wellFormed_of_le fun u hu => Nat.le_trans (hus u hu) (by decide)).substLone
    have h := decode_encode .ascii us (hsame.symm ▸ hus)
    rwa [hsame] at h

/-- A text that begins with U+FEFF keeps it, also behind the byte-order mark of UTF-16. -/
example : encode .utf16 (utf16ToWtf8 [0xfeff, 0xd83d, 0xde00]) = [0xfe, 0xff, 0xfe, 0xff, 0xd8, 0x3d, 0xde, 0x00] := by
  rw [encode, wtf8ToUtf16_utf16ToWtf8]
  rfl

end Lunaria.Dvm.Charset
