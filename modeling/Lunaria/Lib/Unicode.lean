import Mathlib.Data.List.Infix

/-! What a decoder of UTF-8 or UTF-16 gives for input that need not be well formed: a well-formed sequence gives its
    character, a maximal subpart of an ill-formed sequence and a lone surrogate give one replacement character. -/

namespace Lunaria.Unicode

def replacement : UInt16 := 0xfffd

def IsHigh (u : UInt16) : Prop := 0xd800 ≤ u ∧ u ≤ 0xdbff

def IsLow (u : UInt16) : Prop := 0xdc00 ≤ u ∧ u ≤ 0xdfff

instance (u : UInt16) : Decidable (IsHigh u) := inferInstanceAs (Decidable (_ ∧ _))

instance (u : UInt16) : Decidable (IsLow u) := inferInstanceAs (Decidable (_ ∧ _))

/-- The UTF-16 units of a code point. -/
def units (cp : Nat) : List UInt16 :=
  if 0x10000 ≤ cp then
    [UInt16.ofNat (0xd800 + (cp - 0x10000) / 1024), UInt16.ofNat (0xdc00 + (cp - 0x10000) % 1024)]
  else [UInt16.ofNat cp]

/-- The UTF-16 units of a text of bytes. An odd trailing byte is malformed. -/
def bytesUnits (little : Bool) : List UInt8 → List UInt16
  | [] => []
  | [_] => [replacement]
  | b0 :: b1 :: s =>
    UInt16.ofNat (if little then b1.toNat * 256 + b0.toNat else b0.toNat * 256 + b1.toNat) :: bytesUnits little s

/-- The bytes start the encoding of some character. -/
def Initial (l : List UInt8) : Prop := ∃ c : Char, l <+: String.utf8EncodeChar c

/-- The longest start of the bytes that is initial, or their first byte. -/
structure MaximalSubpart (sub bytes : List UInt8) : Prop where
  start : sub <+: bytes
  nonempty : sub ≠ []
  initial : Initial sub ∨ sub.length = 1
  longest : ∀ l, l <+: bytes → sub.length < l.length → ¬ Initial l

/-- The units a text of UTF-8 decodes to. -/
inductive Utf8Text : List UInt8 → List UInt16 → Prop
  | nil : Utf8Text [] []
  | char {c : Char} {rest : List UInt8} {us : List UInt16} :
      Utf8Text rest us → Utf8Text (String.utf8EncodeChar c ++ rest) (units c.toNat ++ us)
  | malformed {sub rest : List UInt8} {us : List UInt16} :
      (∀ c : Char, ¬ String.utf8EncodeChar c <+: sub ++ rest) → MaximalSubpart sub (sub ++ rest) →
      Utf8Text rest us → Utf8Text (sub ++ rest) (replacement :: us)

/-- The units a text of UTF-16 units decodes to. -/
inductive Utf16Text : List UInt16 → List UInt16 → Prop
  | nil : Utf16Text [] []
  | plain {u : UInt16} {us vs : List UInt16} :
      ¬ IsHigh u → ¬ IsLow u → Utf16Text us vs → Utf16Text (u :: us) (u :: vs)
  | pair {h l : UInt16} {us vs : List UInt16} :
      IsHigh h → IsLow l → Utf16Text us vs → Utf16Text (h :: l :: us) (h :: l :: vs)
  | lone {u : UInt16} {us vs : List UInt16} :
      IsHigh u ∧ (∀ l ∈ us.head?, ¬ IsLow l) ∨ IsLow u → Utf16Text us vs → Utf16Text (u :: us) (replacement :: vs)

/-- Units in which no surrogate is alone. -/
inductive WellFormed : List UInt16 → Prop
  | nil : WellFormed []
  | plain {u : UInt16} {us : List UInt16} : ¬ IsHigh u → ¬ IsLow u → WellFormed us → WellFormed (u :: us)
  | pair {h l : UInt16} {us : List UInt16} : IsHigh h → IsLow l → WellFormed us → WellFormed (h :: l :: us)

/-- The units with each lone surrogate replaced by `q`. -/
def substLone (q : UInt16) : List UInt16 → List UInt16
  | [] => []
  | [u] => [if IsHigh u ∨ IsLow u then q else u]
  | u :: l :: us =>
    if IsHigh u ∧ IsLow l then u :: l :: substLone q us
    else (if IsHigh u ∨ IsLow u then q else u) :: substLone q (l :: us)

section
variable {q u : UInt16} {us : List UInt16}

theorem substLone_pair {l : UInt16} (hu : IsHigh u) (hl : IsLow l) :
    substLone q (u :: l :: us) = u :: l :: substLone q us :=
  if_pos ⟨hu, hl⟩

/-- A unit that does not start a pair is looked at alone. -/
theorem substLone_single (h : IsHigh u → ∀ l ∈ us.head?, ¬ IsLow l) :
    substLone q (u :: us) = (if IsHigh u ∨ IsLow u then q else u) :: substLone q us := by
  cases us with
  | nil => rfl
  | cons l us => exact if_neg fun hp => h hp.1 l rfl hp.2

theorem not_isLow_of_isHigh (h : IsHigh u) : ¬ IsLow u := by
  intro hl
  have h1 := UInt16.le_iff_toNat_le.1 h.2
  have h2 := UInt16.le_iff_toNat_le.1 hl.1
  simp only [UInt16.reduceToNat] at h1 h2
  omega

theorem WellFormed.substLone (h : WellFormed us) : substLone q us = us := by
  induction h with
  | nil => rfl
  | plain hu hl _ ih => rw [substLone_single fun hc => absurd hc hu, if_neg (not_or.2 ⟨hu, hl⟩), ih]
  | pair hu hl _ ih => rw [substLone_pair hu hl, ih]

end

end Lunaria.Unicode
