import Mathlib.Data.List.TakeWhile
import Mathlib.Algebra.Order.Ring.Nat

/-! Computations on memory that can be left out of: a computation returns a value, fails as its program says, or faults
    where it touches what it must not. Rules for what it returns when it does not fault; reads from a string of bytes;
    buffers of a fixed size with a string in them. -/

namespace Lunaria

/-- The outcome of a computation. -/
inductive Checked (α : Type) where
  | ok (a : α)
  | fail
  | fault
  deriving DecidableEq

namespace Checked
variable {α β : Type} {x : Checked α} {f : α → Checked β} {P P' : α → Prop} {Q : β → Prop}

def bind (x : Checked α) (f : α → Checked β) : Checked β :=
  match x with
  | .ok a => f a
  | .fail => .fail
  | .fault => .fault

instance : Monad Checked where
  pure := .ok
  bind := bind

/-- The program goes on if the condition holds, and fails if not. -/
def require (c : Prop) [Decidable c] : Checked Unit := if c then .ok () else .fail

/-- What must hold where the program goes on. -/
def assert (c : Prop) [Decidable c] : Checked Unit := if c then .ok () else .fault

/-- A difference of unsigned numbers. -/
def minus (a b : Nat) : Checked Nat := do
  assert (b ≤ a)
  return a - b

/-- A sum that is at most some number. -/
def plus (limit a b : Nat) : Checked Nat := do
  assert (a + b ≤ limit)
  return a + b

theorem minus_eq {a b : Nat} (h : b ≤ a) : minus a b = .ok (a - b) := by
  simp [minus, assert, h, pure, bind, Bind.bind]

theorem plus_eq {limit a b : Nat} (h : a + b ≤ limit) : plus limit a b = .ok (a + b) := by
  simp [plus, assert, h, pure, bind, Bind.bind]

def value? : Checked α → Option α
  | .ok a => some a
  | _ => none

/-- The computation does not fault, and what it returns has the property. -/
def Sound (x : Checked α) (P : α → Prop) : Prop :=
  match x with
  | .ok a => P a
  | .fail => True
  | .fault => False

/-- The computation does not fault. -/
def Safe (x : Checked α) : Prop := x ≠ .fault

theorem Sound.safe (h : x.Sound P) : x.Safe := by
  rintro rfl
  exact h

theorem Safe.sound (h : x.Safe) : x.Sound fun _ => True := by
  cases x with
  | ok a => trivial
  | fail => trivial
  | fault => exact absurd rfl h

theorem Sound.mono (h : x.Sound P) (hP : ∀ a, P a → P' a) : x.Sound P' := by
  cases x with
  | ok a => exact hP a h
  | fail => trivial
  | fault => exact h

theorem sound_bind : (x >>= f).Sound Q ↔ x.Sound fun a => (f a).Sound Q := by
  cases x <;> rfl

theorem Sound.bind (h : x.Sound P) (hf : ∀ a, P a → (f a).Sound Q) : (x >>= f).Sound Q :=
  sound_bind.2 (h.mono hf)

variable {a : α} {c : Prop} {g : Unit → Checked β} {y : Checked α}

@[simp] theorem sound_pure : (pure a : Checked α).Sound P ↔ P a := Iff.rfl

@[simp] theorem sound_ok : (Checked.ok a).Sound P ↔ P a := Iff.rfl

@[simp] theorem sound_fail : (Checked.fail : Checked α).Sound P := trivial

@[simp] theorem bind_ok : (Checked.ok a >>= f) = f a := rfl

@[simp] theorem pure_eq : (pure a : Checked α) = .ok a := rfl

theorem require_sound [Decidable c] : (require c).Sound fun _ => c := by
  by_cases h : c <;> simp [require, h]

theorem assert_sound [Decidable c] (h : c) : (assert c).Sound fun _ => c := by
  simp [assert, h]

theorem Sound.require [Decidable c] (h : c → (g ()).Sound Q) :
    (Checked.require c >>= g).Sound Q :=
  require_sound.bind fun _ hc => h hc

theorem Sound.assert [Decidable c] (hc : c) (h : (g ()).Sound Q) :
    (Checked.assert c >>= g).Sound Q :=
  (assert_sound hc).bind fun _ _ => h

theorem Sound.ite [Decidable c] (hx : c → x.Sound P) (hy : ¬ c → y.Sound P) :
    (if c then x else y).Sound P := by
  by_cases h : c
  · rw [if_pos h]
    exact hx h
  · rw [if_neg h]
    exact hy h

/-! Where the values do not matter, only that nothing faults. -/

@[simp] theorem safe_ok : (Checked.ok a).Safe := nofun

@[simp] theorem safe_pure : (pure a : Checked α).Safe := nofun

@[simp] theorem safe_fail : (Checked.fail : Checked α).Safe := nofun

theorem Safe.bind (h : x.Safe) (hf : ∀ a, (f a).Safe) : (x >>= f).Safe :=
  (h.sound.bind fun a _ => (hf a).sound).safe

theorem Safe.require [Decidable c] (h : c → (g ()).Safe) :
    (Checked.require c >>= g).Safe :=
  (Sound.require fun hc => (h hc).sound).safe

theorem Safe.ite [Decidable c] (hx : x.Safe) (hy : y.Safe) : (if c then x else y).Safe := by
  by_cases h : c
  · rwa [if_pos h]
  · rwa [if_neg h]

/-! ### Reads -/

/-- The byte at an offset of a string. -/
def read (data : List UInt8) (i : Nat) : Checked Nat :=
  match data[i]? with
  | some b => .ok b.toNat
  | none => .fault

/-- A run of bytes. -/
def readRange (data : List UInt8) (i n : Nat) : Checked (List UInt8) :=
  if i + n ≤ data.length then .ok ((data.drop i).take n) else .fault

def read16 (data : List UInt8) (i : Nat) : Checked Nat := do
  let a ← read data i
  let b ← read data (i + 1)
  return a + b * 2 ^ 8

def read32 (data : List UInt8) (i : Nat) : Checked Nat := do
  let a ← read16 data i
  let b ← read16 data (i + 2)
  return a + b * 2 ^ 16

section Reads
variable {data : List UInt8} {i n : Nat}

theorem read_sound (h : i < data.length) : (read data i).Sound fun v => v < 2 ^ 8 := by
  rw [read, List.getElem?_eq_getElem h]
  exact (data[i]).toNat_lt

theorem readRange_sound (h : i + n ≤ data.length) : (readRange data i n).Sound fun bytes => bytes.length = n := by
  rw [readRange, if_pos h, sound_ok, List.length_take, List.length_drop]
  omega

theorem read16_sound (h : i + 2 ≤ data.length) : (read16 data i).Sound fun v => v < 2 ^ 16 := by
  refine (read_sound (by omega)).bind fun a ha => (read_sound (by omega)).bind fun b hb => ?_
  rw [sound_pure]
  omega

theorem read32_sound (h : i + 4 ≤ data.length) : (read32 data i).Sound fun v => v < 2 ^ 32 := by
  refine (read16_sound (by omega)).bind fun a ha => (read16_sound (by omega)).bind fun b hb => ?_
  rw [sound_pure]
  omega

end Reads

end Checked

/-! ### Buffers -/

/-- A buffer of a fixed size with a string in it, which is shorter. -/
structure Buf (cap : Nat) where
  text : List UInt8
  fits : text.length < cap
  deriving DecidableEq

namespace Buf
variable {cap : Nat} {value text : List UInt8}

instance [NeZero cap] : Inhabited (Buf cap) := ⟨⟨[], NeZero.pos cap⟩⟩

def empty [NeZero cap] : Buf cap := default

/-- A string is written. -/
def write (value : List UInt8) : Checked (Buf cap) := if h : value.length < cap then .ok ⟨value, h⟩ else .fault

/-- `snprintf`, which writes what there is room for. -/
def snprintf [NeZero cap] (text : List UInt8) : Buf cap :=
  ⟨text.take (cap - 1), lt_of_le_of_lt (List.length_take_le _ _) (Nat.sub_lt (NeZero.pos cap) Nat.one_pos)⟩

theorem write_sound (h : value.length < cap) : (write value : Checked (Buf cap)).Sound fun b => b.text = value := by
  rw [write, dif_pos h]
  rfl

end Buf

end Lunaria
