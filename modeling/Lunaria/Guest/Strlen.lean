import Lunaria.Lib.Returns
import Lunaria.Lib.Word
import Lunaria.Lib.ZeroByte

/-! The string functions of `guest.c` that check the size of their object: the length of a string is looked for a word at
    a time. -/

namespace Lunaria.Guest
open Checked

/-- Bytes at addresses, which can be read where their page is mapped. -/
structure Memory where
  bytes : Nat → UInt8
  mapped : Nat → Bool

/-- A byte that is loaded. -/
def Memory.load (mem : Memory) (a : Nat) : Checked UInt8 := if mem.mapped (a / 4096) then .ok (mem.bytes a) else .fault

/-- Eight bytes that are loaded, the lowest first. -/
def Memory.load64 (mem : Memory) (a : Nat) : Checked (BitVec 64) :=
  if mem.mapped (a / 4096) ∧ mem.mapped ((a + 7) / 4096) then
    .ok (BitVec.ofNat 64 (ZeroByte.value ((List.range 8).map fun i => mem.bytes (a + i))))
  else .fault

/-- `(v - 0x0101010101010101) & ~v & 0x8080808080808080` -/
def zeroFlags (v : BitVec 64) : BitVec 64 := (v - 0x0101010101010101#64) &&& ~~~v &&& 0x8080808080808080#64

/-- `__builtin_ctzll` -/
def ctzll (z : BitVec 64) : Nat := ((List.range 64).find? fun i => z.getLsbD i).getD 64

/-- The loop of `lun_strlen` up to an address that is a multiple of eight; it gives the length, if it comes to it. -/
def alignLoop (mem : Memory) (s : Nat) : Nat → Nat → Checked (Nat ⊕ Nat)
  | 0, _ => .fail
  | k + 1, p =>
    if p &&& 7 = 0 then .ok (.inr p)
    else do
      let b ← mem.load p
      if b = 0 then return .inl (p - s) else alignLoop mem s k (p + 1)

/-- The loop of `lun_strlen` over words. -/
def wordLoop (mem : Memory) (s : Nat) : Nat → Nat → Checked Nat
  | 0, _ => .fail
  | k + 1, p => do
    let v ← mem.load64 p
    if zeroFlags v ≠ 0#64 then return (p - s) + (ctzll (zeroFlags v) >>> 3) else wordLoop mem s k (p + 8)

/-- `lun_strlen`, with at most so many words. -/
def lunStrlen (fuel : Nat) (mem : Memory) (s : Nat) : Checked Nat := do
  match ← alignLoop mem s 8 s with
  | .inl n => return n
  | .inr p => wordLoop mem s fuel p

/-! ### The checked functions -/

/-- What a checked function does: it ends the process with the sizes that do not fit, or returns. -/
inductive Chk where
  | fatal (what : String) (want size : Nat)
  | done (mem : Memory) (result : Nat)

def Memory.store (mem : Memory) (a : Nat) (b : UInt8) : Checked Memory :=
  if mem.mapped (a / 4096) then .ok { mem with bytes := Function.update mem.bytes a b } else .fault

/-- `memcpy` of so many bytes from the `i`-th on. -/
def copyBytes (dst src : Nat) : Nat → Nat → Memory → Checked Memory
  | 0, _, mem => .ok mem
  | k + 1, i, mem => do
    let b ← mem.load (src + i)
    let mem ← mem.store (dst + i) b
    copyBytes dst src k (i + 1) mem

/-- `__strlen_chk` -/
def strlenChk (fuel : Nat) (mem : Memory) (s size : Nat) : Checked Chk := do
  let n ← lunStrlen fuel mem s
  if Word.add 64 n 1 > size then return .fatal "strlen" (Word.add 64 n 1) size else return .done mem n

/-- `__strcpy_chk` -/
def strcpyChk (fuel : Nat) (mem : Memory) (dst src size : Nat) : Checked Chk := do
  let n ← lunStrlen fuel mem src
  if Word.add 64 n 1 > size then return .fatal "strcpy" (Word.add 64 n 1) size
  else do
    let mem ← copyBytes dst src (Word.add 64 n 1) 0 mem
    return .done mem dst

/-- `__stpcpy_chk` -/
def stpcpyChk (fuel : Nat) (mem : Memory) (dst src size : Nat) : Checked Chk := do
  let n ← lunStrlen fuel mem src
  if Word.add 64 n 1 > size then return .fatal "stpcpy" (Word.add 64 n 1) size
  else do
    let mem ← copyBytes dst src (Word.add 64 n 1) 0 mem
    return .done mem (dst + Word.add 64 n 1 - 1)

/-- `__strcat_chk` -/
def strcatChk (fuel : Nat) (mem : Memory) (dst src size : Nat) : Checked Chk := do
  let used ← lunStrlen fuel mem dst
  let n ← lunStrlen fuel mem src
  let n := Word.add 64 (Word.add 64 used n) 1
  if n > size then return .fatal "strcat" n size
  else do
    let mem ← copyBytes (dst + used) src (Word.sub 64 n used) 0 mem
    return .done mem dst

/-- The loops of `__strncpy_chk`: a string is copied as far as it goes, and zeros follow. -/
def copyPadded (dst src : Nat) : Nat → Nat → Bool → Memory → Checked Memory
  | 0, _, _, mem => .ok mem
  | k + 1, i, ended, mem =>
    if ended then do
      let mem ← mem.store (dst + i) 0
      copyPadded dst src k (i + 1) true mem
    else do
      let b ← mem.load (src + i)
      let mem ← mem.store (dst + i) b
      copyPadded dst src k (i + 1) (b = 0) mem

/-- `__strncpy_chk` -/
def strncpyChk (mem : Memory) (dst src n size : Nat) : Checked Chk :=
  if n > size then .ok (.fatal "strncpy" n size)
  else do
    let mem ← copyPadded dst src n 0 false mem
    return .done mem dst

/-- The loop of `__strncat_chk` that counts what is added. -/
def countAdded (mem : Memory) (src : Nat) : Nat → Nat → Checked Nat
  | 0, count => .ok count
  | k + 1, count => do
    let b ← mem.load (src + count)
    if b = 0 then return count else countAdded mem src k (count + 1)

/-- `__strncat_chk` -/
def strncatChk (fuel : Nat) (mem : Memory) (dst src n size : Nat) : Checked Chk := do
  let used ← lunStrlen fuel mem dst
  let count ← countAdded mem src n 0
  let want := Word.add 64 (Word.add 64 used count) 1
  if want > size then return .fatal "strncat" want size
  else do
    let mem ← copyBytes (dst + used) src count 0 mem
    let mem ← mem.store (dst + used + count) 0
    return .done mem dst

/-! ### The length is exact -/

/-- A string in memory: its bytes, which can be read, and behind them the first zero. -/
structure StringAt (mem : Memory) (s n : Nat) : Prop where
  mapped : ∀ i ≤ n, mem.mapped ((s + i) / 4096)
  nonzero : ∀ i < n, mem.bytes (s + i) ≠ 0
  zero : mem.bytes (s + n) = 0

section Exact
variable {mem : Memory} {s n p k : Nat} {bytes : List UInt8} {i : Nat}

theorem and_seven : p &&& 7 = p % 8 := Nat.and_two_pow_sub_one_eq_mod p 3

theorem alignLoop_returns (h : StringAt mem s n) (hp : s ≤ p) (hn : p ≤ s + n) (hk : p % 8 = 0 ∨ 9 ≤ k + p % 8)
    (hpos : 0 < k) :
    (alignLoop mem s k p).Returns fun r => r = .inl n ∨ ∃ q, r = .inr q ∧ p ≤ q ∧ q ≤ s + n ∧ q % 8 = 0 := by
  induction k generalizing p with
  | zero => cases hpos
  | succ k ih =>
    rw [alignLoop, and_seven]
    refine .ite (fun hzero => returns_ok.2 (.inr ⟨p, rfl, le_rfl, hn, hzero⟩)) fun hsome => ?_
    obtain ⟨i, rfl⟩ := Nat.exists_eq_add_of_le hp
    have hload : mem.load (s + i) = .ok (mem.bytes (s + i)) := if_pos (h.mapped i (by omega))
    rw [hload, bind_ok]
    refine .ite (fun hend => returns_ok.2 (.inl ?_)) fun hgo => ?_
    · have hi : i = n := by
        by_contra hne
        exact h.nonzero i (by omega) hend
      rw [hi, Nat.add_sub_cancel_left]
    · have hi : i ≠ n := fun heq => hgo (heq ▸ h.zero)
      refine (ih (by omega) (by omega) (by omega) (by omega)).mono fun r hr => ?_
      rcases hr with rfl | ⟨q, rfl, h1, h2, h3⟩
      · exact .inl rfl
      · exact .inr ⟨q, rfl, by omega, h2, h3⟩

theorem zeroFlags_getLsbD (hlen : bytes.length = 8) {i j : Nat} (hi : i < 8) (hj : j < 8) :
    (zeroFlags (BitVec.ofNat 64 (ZeroByte.value bytes))).getLsbD (8 * i + j) = (decide (j = 7) &&
      ZeroByte.flag bytes i) := by
  have hmask : ∀ i < 8, ∀ j < 8, (0x8080808080808080#64).getLsbD (8 * i + j) = decide (j = 7) := by decide +kernel
  have hpow : 256 ^ bytes.length = 2 ^ 64 := by
    rw [hlen]
    rfl
  have hones : ZeroByte.ones bytes.length = 0x0101010101010101 := by
    rw [hlen]
    rfl
  have hvalue : (BitVec.ofNat 64 (ZeroByte.value bytes)).toNat = ZeroByte.value bytes := by
    rw [BitVec.toNat_ofNat]
    exact Nat.mod_eq_of_lt (hpow ▸ ZeroByte.value_lt)
  have hless : (BitVec.ofNat 64 (ZeroByte.value bytes) - 0x0101010101010101#64).toNat = ZeroByte.lessOnes bytes := by
    rw [BitVec.toNat_sub, hvalue, Nat.add_comm]
    unfold ZeroByte.lessOnes
    rw [hpow, hones]
    rfl
  have hin : 8 * i + j < 64 := by omega
  unfold zeroFlags
  rw [BitVec.getLsbD_and, BitVec.getLsbD_and, hmask i hi j hj, BitVec.getLsbD_not, decide_eq_true hin, Bool.true_and,
    Bool.and_comm]
  by_cases hlast : j = 7
  · subst hlast
    unfold ZeroByte.flag
    rw [← BitVec.testBit_toNat, ← BitVec.testBit_toNat, hvalue, hless]
  · rw [decide_eq_false hlast, Bool.false_and, Bool.false_and]

theorem zeroFlags_none (hlen : bytes.length = 8) (h : ∀ i < 8, bytes[i]? ≠ some 0) :
    zeroFlags (BitVec.ofNat 64 (ZeroByte.value bytes)) = 0#64 := by
  refine BitVec.eq_of_getLsbD_eq fun m hm => ?_
  have hflag : ZeroByte.flag bytes (m / 8) = false :=
    Bool.eq_false_iff.2 fun hf => h (m / 8) (by omega) ((ZeroByte.flag_eq (by omega) fun j hj => h j (by omega)).1 hf)
  have hbit := zeroFlags_getLsbD hlen (i := m / 8) (j := m % 8) (by omega) (by omega)
  rw [Nat.div_add_mod, hflag, Bool.and_false] at hbit
  rw [hbit, BitVec.getLsbD_zero]

theorem zeroFlags_first (hlen : bytes.length = 8) (hi : i < 8) (hzero : bytes[i]? = some 0)
    (hbefore : ∀ j < i, bytes[j]? ≠ some 0) :
    zeroFlags (BitVec.ofNat 64 (ZeroByte.value bytes)) ≠ 0#64 ∧
      ctzll (zeroFlags (BitVec.ofNat 64 (ZeroByte.value bytes))) >>> 3 = i := by
  have hset : (zeroFlags (BitVec.ofNat 64 (ZeroByte.value bytes))).getLsbD (8 * i + 7) = true := by
    rw [zeroFlags_getLsbD hlen hi (by decide), (ZeroByte.flag_eq (by omega) hbefore).2 hzero]
    rfl
  have hclear : ∀ m < 8 * i + 7, (zeroFlags (BitVec.ofNat 64 (ZeroByte.value bytes))).getLsbD m = false := fun m hm => by
    have hbit := zeroFlags_getLsbD hlen (i := m / 8) (j := m % 8) (by omega) (by omega)
    rw [Nat.div_add_mod] at hbit
    rw [hbit]
    by_cases hlast : m % 8 = 7
    · have hlt : m / 8 < i := by omega
      have hflag : ZeroByte.flag bytes (m / 8) = false :=
        Bool.eq_false_iff.2 fun hf => hbefore _ hlt ((ZeroByte.flag_eq (by omega) fun j hj => hbefore j (by omega)).1 hf)
      rw [hflag, Bool.and_false]
    · rw [decide_eq_false hlast, Bool.false_and]
  have hfind :
      (List.range 64).find? (fun m => (zeroFlags (BitVec.ofNat 64 (ZeroByte.value bytes))).getLsbD m) =
        some (8 * i + 7) := by
    rw [List.find?_range_eq_some]
    exact ⟨hset, List.mem_range.2 (by omega), fun j hj => by rw [hclear j hj]; rfl⟩
  refine ⟨fun heq => ?_, ?_⟩
  · rw [heq, BitVec.getLsbD_zero] at hset
    cases hset
  · unfold ctzll
    rw [hfind, Option.getD_some, Nat.shiftRight_eq_div_pow]
    omega

theorem load64_eq (h : StringAt mem s n) (hi : i ≤ n) (halign : (s + i) % 8 = 0) :
    mem.load64 (s + i) = .ok (BitVec.ofNat 64 (ZeroByte.value ((List.range 8).map fun j => mem.bytes (s + i + j)))) := by
  have hsame : (s + i + 7) / 4096 = (s + i) / 4096 := by omega
  unfold Memory.load64
  rw [hsame, if_pos ⟨h.mapped i hi, h.mapped i hi⟩]

theorem wordLoop_eq (h : StringAt mem s n) (hi : i ≤ n) (halign : (s + i) % 8 = 0) (hk : n < i + 8 * k) :
    wordLoop mem s k (s + i) = .ok n := by
  induction k generalizing i with
  | zero => omega
  | succ k ih =>
    have hlen : ((List.range 8).map fun j => mem.bytes (s + i + j)).length = 8 := by rw [List.length_map, List.length_range]
    have hget : ∀ j < 8, ((List.range 8).map fun j => mem.bytes (s + i + j))[j]? = some (mem.bytes (s + i + j)) :=
        fun j hj => by
      rw [List.getElem?_map, List.getElem?_range hj]
      rfl
    have hnonzero : ∀ j, i + j < n → mem.bytes (s + i + j) ≠ 0 := fun j hj => Nat.add_assoc s i j ▸ h.nonzero (i + j) hj
    rw [wordLoop, load64_eq h hi halign, bind_ok]
    rcases Nat.lt_or_ge n (i + 8) with hlast | hmore
    · -- the word with the zero
      have hzero : mem.bytes (s + i + (n - i)) = 0 := by
        have := h.zero
        rwa [Nat.add_assoc, Nat.add_sub_cancel' hi]
      obtain ⟨hflags, hctz⟩ :=
          zeroFlags_first hlen (i := n - i) (by omega) ((hget _ (by omega)).trans (congrArg some hzero)) fun j hj heq =>
        hnonzero j (by omega) (Option.some.inj ((hget j (by omega)).symm.trans heq))
      rw [if_pos hflags, hctz, Nat.add_sub_cancel_left, Nat.add_sub_cancel' hi]
      rfl
    · have hnone := zeroFlags_none hlen fun j hj heq => hnonzero j (by omega) (Option.some.inj ((hget j hj).symm.trans heq))
      rw [if_neg (not_not.2 hnone), Nat.add_assoc]
      exact ih (by omega) (by omega) (by omega)

/-- The length of a string is found, wherever it begins and whatever is behind it. -/
theorem lunStrlen_eq (h : StringAt mem s n) (hk : n < 8 * k) : lunStrlen k mem s = .ok n := by
  obtain ⟨r, hr, hcase⟩ := alignLoop_returns h (Nat.le_refl s) (Nat.le_add_right _ _) (k := 8) (by omega) (by decide)
  unfold lunStrlen
  rw [hr, bind_ok]
  rcases hcase with rfl | ⟨q, rfl, hle, hn, halign⟩
  · rfl
  · obtain ⟨i, rfl⟩ := Nat.exists_eq_add_of_le hle
    exact wordLoop_eq h (by omega) halign (by omega)

/-! ### The sizes that are compared -/

/-- A checked function ends the process with a size if and only if it is larger than the object. -/
def Compares (r : Checked Chk) (what : String) (want size : Nat) : Prop :=
  if want > size then r = .ok (.fatal what want size) else ∀ c, r = .ok c → ∃ mem' result, c = .done mem' result

theorem compares_of {what : String} {want size : Nat} {x : Checked Chk}
    (h : ∀ c, x = .ok c → ∃ mem' result, c = .done mem' result) :
    Compares (if want > size then pure (.fatal what want size) else x) what want size := by
  unfold Compares
  by_cases hlarge : want > size
  · rw [if_pos hlarge, if_pos hlarge]
    rfl
  · rw [if_neg hlarge, if_neg hlarge]
    exact h

theorem done_of_bind {α : Type} {x : Checked α} {f : α → Memory} {result : Nat} {c : Chk}
    (h : (x >>= fun a => pure (.done (f a) result)) = .ok c) : ∃ mem' result, c = .done mem' result := by
  cases x with
  | ok a => exact ⟨_, _, (Checked.ok.inj h).symm⟩
  | fail => cases h
  | fault => cases h

/-- The bytes that are added of a string: at most so many, and none from the first zero on. -/
structure AddedAt (mem : Memory) (src n count : Nat) : Prop where
  le : count ≤ n
  nonzero : ∀ i < count, mem.bytes (src + i) ≠ 0
  last : count < n → mem.bytes (src + count) = 0
  mapped : ∀ i ≤ count, i < n → mem.mapped ((src + i) / 4096)

theorem countAdded_eq {src count i : Nat} (h : AddedAt mem src n count) (hi : i ≤ count) (hk : i + k = n) :
    countAdded mem src k i = .ok count := by
  induction k generalizing i with
  | zero =>
    have := h.le
    rw [countAdded, show i = count by omega]
  | succ k ih =>
    have hload : mem.load (src + i) = .ok (mem.bytes (src + i)) := if_pos (h.mapped i hi (by omega))
    rw [countAdded, hload, bind_ok]
    rcases Nat.eq_or_lt_of_le hi with rfl | hlt
    · rw [if_pos (h.last (by omega))]
      rfl
    · rw [if_neg (h.nonzero i hlt)]
      exact ih (by omega) (by omega)

end Exact

/-- The length of a string is exact, wherever it begins and whatever is behind it, so that each checked function compares
    the size that the length says. -/
theorem lun_strlen_exact (k : Nat) (mem : Memory) :
    (∀ s n, StringAt mem s n → n < 8 * k → lunStrlen k mem s = .ok n ∧ ∀ size, Compares (strlenChk k mem s size) "strlen"
    (Word.add 64 n 1) size) ∧
    (∀ src n, StringAt mem src n → n < 8 * k → ∀ dst size,
      Compares (strcpyChk k mem dst src size) "strcpy" (Word.add 64 n 1) size ∧
      Compares (stpcpyChk k mem dst src size) "stpcpy" (Word.add 64 n 1) size) ∧
    (∀ dst m src n, StringAt mem dst m → m < 8 * k → StringAt mem src n → n < 8 * k → ∀ size,
      Compares (strcatChk k mem dst src size) "strcat" (Word.add 64 (Word.add 64 m n) 1) size) ∧
    (∀ dst src n size, Compares (strncpyChk mem dst src n size) "strncpy" n size) ∧
    (∀ dst m src n count, StringAt mem dst m → m < 8 * k → AddedAt mem src n count → ∀ size,
      Compares (strncatChk k mem dst src n size) "strncat" (Word.add 64 (Word.add 64 m count) 1) size) := by
  refine ⟨fun s n h hk => ⟨lunStrlen_eq h hk, fun size => ?_⟩, fun src n h hk dst size => ⟨?_, ?_⟩,
    fun dst m src n hd hm h hk size => ?_,
    fun dst src n size => compares_of fun c hc => done_of_bind hc, fun dst m src n count hd hm h size => ?_⟩
  · unfold strlenChk
    rw [lunStrlen_eq h hk, bind_ok]
    exact compares_of fun c hc => ⟨_, _, (Checked.ok.inj hc).symm⟩
  · unfold strcpyChk
    rw [lunStrlen_eq h hk, bind_ok]
    exact compares_of fun c hc => done_of_bind hc
  · unfold stpcpyChk
    rw [lunStrlen_eq h hk, bind_ok]
    exact compares_of fun c hc => done_of_bind hc
  · unfold strcatChk
    rw [lunStrlen_eq hd hm, bind_ok, lunStrlen_eq h hk, bind_ok]
    exact compares_of fun c hc => done_of_bind hc
  · unfold strncatChk
    rw [lunStrlen_eq hd hm, bind_ok, countAdded_eq h (Nat.zero_le _) (Nat.zero_add _), bind_ok]
    refine compares_of fun c hc => ?_
    cases hcopy : copyBytes (dst + m) src count 0 mem with
    | ok mem' =>
      rw [hcopy] at hc
      exact done_of_bind hc
    | fail =>
      rw [hcopy] at hc
      cases hc
    | fault =>
      rw [hcopy] at hc
      cases hc

/-- Twenty bytes from 4085 on, over the end of a page and with bytes behind the zero that look like one. -/
def twentyBytes : Memory := ⟨fun a => if a = 4105 then 0 else if a % 2 = 0 then 0x80 else 1, fun page => page < 2⟩

theorem twentyBytes_string : StringAt twentyBytes 4085 20 where
  mapped i hi := decide_eq_true (by omega)
  nonzero := by decide
  zero := rfl

theorem twentyBytes_added : AddedAt twentyBytes 4085 12 12 where
  le := le_rfl
  nonzero := by decide
  last h := absurd h (by decide)
  mapped i hi _ := decide_eq_true (by omega)

/-- The length is 20, the zero does not fit in an object of 20 bytes, nor twelve more bytes in one of 32. -/
theorem lun_strlen_twenty : lunStrlen 3 twentyBytes 4085 = .ok 20 ∧
    strlenChk 3 twentyBytes 4085 20 = .ok (.fatal "strlen" 21 20) ∧
    (∀ c, strcpyChk 3 twentyBytes 0 4085 21 = .ok c → ∃ mem' result, c = .done mem' result) ∧
    strncatChk 3 twentyBytes 4085 4085 12 32 = .ok (.fatal "strncat" 33 32) := by
  obtain ⟨hlen, hcpy, -, -, hncat⟩ := lun_strlen_exact 3 twentyBytes
  have h := hlen 4085 20 twentyBytes_string (by decide)
  exact ⟨h.1, (if_pos (by decide)).mp (h.2 20),
    (if_neg (by decide)).mp (hcpy 4085 20 twentyBytes_string (by decide) 0 21).1,
    (if_pos (by decide)).mp (hncat 4085 20 4085 12 12 twentyBytes_string (by decide) twentyBytes_added 32)⟩

end Lunaria.Guest
