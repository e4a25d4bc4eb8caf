import Mathlib.Tactic.Ring
import Lunaria.Lib.Checked

/-! Numbers with their highest byte first: the number that a run of bytes stands for, the bytes of a number, and reads of
    both. -/

namespace Lunaria.BigEndian
open Checked List

/-- The number of a run of bytes. -/
def value (bytes : List UInt8) : Nat := bytes.foldl (fun v b => v * 256 + b.toNat) 0

/-- A number in some bytes, which has its highest digits cut. -/
def encode : Nat → Nat → List UInt8
  | 0, _ => []
  | n + 1, v => UInt8.ofNat (v / 256 ^ n) :: encode n v

/-- The loop that reads a number of some bytes. -/
def readFrom (data : List UInt8) : Nat → Nat → Nat → Checked Nat
  | _, 0, v => .ok v
  | i, n + 1, v => do
    let b ← read data i
    readFrom data (i + 1) n (v * 256 + b)

/-- The number of some bytes of a string. -/
def word (data : List UInt8) (i n : Nat) : Nat := value ((data.drop i).take n)

section Values
variable {bytes rest data : List UInt8} {b : UInt8} {v n i : Nat}

theorem foldl_eq (v : Nat) : bytes.foldl (fun v b => v * 256 + b.toNat) v = v * 256 ^ bytes.length + value bytes := by
  induction bytes generalizing v with
  | nil => simp [value]
  | cons b bytes ih =>
    have hzero : value (b :: bytes) = b.toNat * 256 ^ bytes.length + value bytes := by
      show bytes.foldl _ (0 * 256 + b.toNat) = _
      rw [ih]
      ring
    rw [foldl_cons, ih, hzero, length_cons, pow_succ]
    ring

theorem value_cons : value (b :: bytes) = b.toNat * 256 ^ bytes.length + value bytes := by
  show bytes.foldl _ (0 * 256 + b.toNat) = _
  rw [foldl_eq]
  ring

theorem value_lt : value bytes < 256 ^ bytes.length := by
  induction bytes with
  | nil => exact Nat.one_pos
  | cons b bytes ih =>
    have hb := b.toNat_lt
    rw [value_cons, length_cons, pow_succ]
    have hle : b.toNat * 256 ^ bytes.length ≤ 255 * 256 ^ bytes.length := Nat.mul_le_mul_right _ (by omega)
    omega

@[simp] theorem length_encode : (encode n v).length = n := by
  induction n with
  | zero => rfl
  | succ n ih => simp [encode, ih]

/-- What is cut is a multiple of the next power. -/
theorem value_encode : value (encode n v) = v % 256 ^ n := by
  induction n with
  | zero => simp [encode, value, Nat.mod_one]
  | succ n ih =>
    rw [encode, value_cons, ih, length_encode, UInt8.toNat_ofNat', Nat.pow_succ 256 n, Nat.mod_mul]
    ring

theorem readFrom_eq (h : i + n ≤ data.length) : readFrom data i n v = .ok (v * 256 ^ n + word data i n) := by
  induction n generalizing i v with
  | zero => simp [readFrom, word, value]
  | succ n ih =>
    have hi : i < data.length := by omega
    have hword : word data i (n + 1) = data[i].toNat * 256 ^ n + word data (i + 1) n := by
      unfold word
      rw [drop_eq_getElem_cons hi, take_succ_cons, value_cons, length_take, length_drop, Nat.min_eq_left (by omega)]
    have hread : read data i = .ok data[i].toNat := by
      unfold Checked.read
      rw [getElem?_eq_getElem hi]
    rw [readFrom, hread, bind_ok]
    rw [ih (by omega), hword, pow_succ]
    congr 1
    ring

theorem word_lt : word data i n < 256 ^ n := by
  refine value_lt.trans_le (Nat.pow_le_pow_right (by omega) ?_)
  exact length_take_le _ _

/-- A number that stands in a string. -/
theorem word_append {pre post : List UInt8} (h : pre.length = i) : word (pre ++ encode n v ++ post) i n = v % 256 ^ n := by
  unfold word
  rw [append_assoc, ← h, drop_left, take_left' length_encode, value_encode]

end Values

end Lunaria.BigEndian
