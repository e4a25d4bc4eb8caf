import Mathlib.Data.UInt
import Lunaria.Lib.Returns

/-! The executable pages of `arm.h`: one bit for each page of 4 KiB of the 32-bit window, in words of 64 bits. A range
    hits the table if and only if it shares a page with a region that was added. -/

namespace Lunaria.Arm
open Checked Function

/-- `GUEST_RX_WORDS` -/
def guestRxWords : Nat := 2 ^ 14

/-- `guest_rx_table` -/
abbrev RxTable := Nat → BitVec 64

def RxTable.empty : RxTable := fun _ => 0

/-- A word of the table, which has no more than `GUEST_RX_WORDS`. -/
def RxTable.load (table : RxTable) (i : Nat) : Checked (BitVec 64) := if i < guestRxWords then .ok (table i) else .fault

def RxTable.store (table : RxTable) (i : Nat) (word : BitVec 64) : Checked RxTable :=
  if i < guestRxWords then .ok (update table i word) else .fault

/-- The loop of `guest_rx_add` over so many pages. -/
def addPages : Nat → Nat → RxTable → Checked RxTable
  | 0, _, table => .ok table
  | k + 1, page, table => do
    let word ← table.load (page >>> 6)
    let table ← table.store (page >>> 6) (word ||| 1#64 <<< (page &&& 63))
    addPages k (page + 1) table

/-- `guest_rx_add` -/
def guestRxAdd (table : RxTable) (lo hi : UInt32) : Checked RxTable :=
  if hi ≤ lo then .ok table
  else
    let first := lo.toNat >>> 12
    let last := (hi.toNat - 1) >>> 12
    addPages (last + 1 - first) first table

/-- The loop of `guest_rx_publish` over so many words. -/
def publishWords (next : RxTable) : Nat → Nat → RxTable → Checked RxTable
  | 0, _, shared => .ok shared
  | k + 1, i, shared => do
    let word ← next.load i
    let shared ← shared.store i word
    publishWords next k (i + 1) shared

/-- `guest_rx_publish` -/
def guestRxPublish (shared next : RxTable) : Checked RxTable := publishWords next guestRxWords 0 shared

/-- The bits of a word that are looked at. -/
def hitMask (first last word : Nat) : BitVec 64 :=
  let mask := BitVec.allOnes 64
  let mask := if word = first >>> 6 then mask &&& (BitVec.allOnes 64 <<< (first &&& 63)) else mask
  if word = last >>> 6 then mask &&& (BitVec.allOnes 64 >>> (63 - (last &&& 63))) else mask

/-- The loop of `guest_rx_hits` over so many words. -/
def hitsWords (shared : RxTable) (first last : Nat) : Nat → Nat → Checked Bool
  | 0, _ => .ok false
  | k + 1, word => do
    let bits ← shared.load word
    if bits &&& hitMask first last word ≠ 0 then return true else hitsWords shared first last k (word + 1)

/-- `guest_rx_hits` -/
def guestRxHits (shared : RxTable) (va length : UInt32) : Checked Bool :=
  if length = 0 then .ok false
  else
    let top := va.toNat + length.toNat
    let top := if top > 2 ^ 32 then 2 ^ 32 else top
    let first := va.toNat >>> 12
    let last := (top - 1) >>> 12
    hitsWords shared first last ((last >>> 6) + 1 - (first >>> 6)) (first >>> 6)

/-- `LoadedRegion`, what the table is made of. -/
structure LoadedRegion where
  lo : UInt32
  hi : UInt32
  flags : UInt32
  deriving DecidableEq

/-- The loop of `guest_rx_bounds_refresh`: regions that are executable and not writable. -/
def addRegions : List LoadedRegion → RxTable → Checked RxTable
  | [], next => .ok next
  | r :: rest, next =>
    if r.flags &&& 1 = 0 ∨ r.flags &&& 2 ≠ 0 then addRegions rest next
    else do
      let next ← guestRxAdd next r.lo r.hi
      addRegions rest next

/-- `guest_rx_bounds_refresh` -/
def guestRxBoundsRefresh (loaded : List LoadedRegion) (shared : RxTable) : Checked RxTable := do
  let next ← addRegions loaded .empty
  guestRxPublish shared next

/-- Ranges added one after the other. -/
def addAll : List (UInt32 × UInt32) → RxTable → Checked RxTable
  | [], table => .ok table
  | (lo, hi) :: rest, table => do
    let table ← guestRxAdd table lo hi
    addAll rest table

/-! ### Pages -/

def pagesOf (a b : Nat) : Set Nat := {n | ∃ x, a ≤ x ∧ x < b ∧ x / 4096 = n}

def RxTable.Marked (table : RxTable) (page : Nat) : Prop := (table (page / 64)).getLsbD (page % 64) = true

section Pages
variable {table shared next : RxTable} {a b page n k i : Nat}

theorem mem_pagesOf : n ∈ pagesOf a b ↔ a < b ∧ a / 4096 ≤ n ∧ n ≤ (b - 1) / 4096 := by
  constructor
  · rintro ⟨x, hax, hxb, rfl⟩
    exact ⟨by omega, Nat.div_le_div_right hax, Nat.div_le_div_right (by omega)⟩
  · rintro ⟨hab, hfirst, hlast⟩
    rcases Nat.eq_or_lt_of_le hfirst with rfl | hlt
    · exact ⟨a, le_rfl, hab, rfl⟩
    · exact ⟨n * 4096, by omega, by omega, by omega⟩

theorem shift_page : page >>> 6 = page / 64 := Nat.shiftRight_eq_div_pow page 6

theorem and_page : page &&& 63 = page % 64 := Nat.and_two_pow_sub_one_eq_mod page 6

theorem shift_address : a >>> 12 = a / 4096 := Nat.shiftRight_eq_div_pow a 12

theorem marked_empty : ¬RxTable.empty.Marked page := by simp [RxTable.Marked, RxTable.empty]

theorem marked_or : RxTable.Marked (update table (page / 64) (table (page / 64) ||| 1#64 <<< (page % 64))) n ↔
    table.Marked n ∨ n = page := by
  unfold RxTable.Marked
  by_cases hword : n / 64 = page / 64
  · rw [hword, update_self, BitVec.getLsbD_or, Bool.or_eq_true]
    refine or_congr_right ?_
    rw [BitVec.getLsbD_shiftLeft, BitVec.getLsbD_one]
    simp
    omega
  · rw [update_of_ne hword]
    exact ⟨.inl, fun h => h.elim id fun heq => absurd (heq ▸ rfl) hword⟩

theorem addPages_marked (hk : page + k ≤ 2 ^ 20) : (addPages k page table).Returns fun table' =>
    ∀ n, table'.Marked n ↔ table.Marked n ∨ page ≤ n ∧ n < page + k := by
  induction k generalizing page table with
  | zero => exact returns_ok.2 fun n => ⟨.inl, fun h => h.elim id fun h => by omega⟩
  | succ k ih =>
    have hin : page / 64 < guestRxWords := by
      unfold guestRxWords
      omega
    rw [addPages, shift_page, and_page]
    unfold RxTable.load RxTable.store
    rw [if_pos hin, bind_ok, if_pos hin, bind_ok]
    refine (ih (by omega)).mono fun table' h n => ?_
    rw [h n, marked_or, or_assoc]
    refine or_congr_right ?_
    omega

theorem guestRxAdd_marked (lo hi : UInt32) : (guestRxAdd table lo hi).Returns fun table' =>
    ∀ n, table'.Marked n ↔ table.Marked n ∨ n ∈ pagesOf lo.toNat hi.toNat := by
  unfold guestRxAdd
  refine .ite (fun hle => returns_ok.2 fun n => ?_) fun hlt => ?_
  · rw [mem_pagesOf]
    have : hi.toNat ≤ lo.toNat := hle
    exact ⟨.inl, fun h => h.elim id fun h => by omega⟩
  · have hlt : lo.toNat < hi.toNat := Nat.lt_of_not_le hlt
    have hsize := hi.toNat_lt
    dsimp only
    rw [shift_address, shift_address]
    refine (addPages_marked (by omega)).mono fun table' h n => ?_
    rw [h n, mem_pagesOf]
    refine or_congr_right ?_
    omega

theorem addAll_marked (regions : List (UInt32 × UInt32)) : (addAll regions table).Returns fun table' =>
    ∀ n, table'.Marked n ↔ table.Marked n ∨ ∃ r ∈ regions, n ∈ pagesOf r.1.toNat r.2.toNat := by
  induction regions generalizing table with
  | nil => exact returns_ok.2 fun n => by simp
  | cons r rest ih =>
    obtain ⟨lo, hi⟩ := r
    refine (guestRxAdd_marked lo hi).bind fun table₁ h₁ => ih.mono fun table₂ h₂ n => ?_
    rw [h₂ n, h₁ n, List.exists_mem_cons_iff, or_assoc]

/-! ### Hits -/

theorem lowMask_getLsbD {bit : Nat} (hbit : bit < 64) : (BitVec.allOnes 64 <<< (a % 64)).getLsbD bit = true ↔
    a % 64 ≤ bit := by
  rw [BitVec.getLsbD_shiftLeft, BitVec.getLsbD_allOnes]
  simp
  omega

theorem highMask_getLsbD {bit : Nat} : (BitVec.allOnes 64 >>> (63 - b % 64)).getLsbD bit = true ↔ bit ≤ b % 64 := by
  rw [BitVec.getLsbD_ushiftRight, BitVec.getLsbD_allOnes]
  simp
  omega

/-- The bits of the masks are the pages of the range. -/
theorem hitMask_getLsbD {first last word bit : Nat} (hbit : bit < 64) (hfirst : first / 64 ≤ word)
    (hlast : word ≤ last / 64) :
    (hitMask first last word).getLsbD bit = true ↔ first ≤ word * 64 + bit ∧ word * 64 + bit ≤ last := by
  unfold hitMask
  rw [shift_page, shift_page, and_page, and_page]
  dsimp only
  have hall : (BitVec.allOnes 64).getLsbD bit = true := by
    rw [BitVec.getLsbD_allOnes, decide_eq_true hbit]
  split_ifs with hend hstart hstart
  · rw [BitVec.getLsbD_and, BitVec.getLsbD_and, Bool.and_eq_true, Bool.and_eq_true, and_iff_right hall,
      lowMask_getLsbD hbit, highMask_getLsbD]
    omega
  · rw [BitVec.getLsbD_and, Bool.and_eq_true, and_iff_right hall, highMask_getLsbD]
    omega
  · rw [BitVec.getLsbD_and, Bool.and_eq_true, and_iff_right hall, lowMask_getLsbD hbit]
    omega
  · exact iff_of_true hall ⟨by omega, by omega⟩

theorem ne_zero_iff {x : BitVec 64} : x ≠ 0 ↔ ∃ bit < 64, x.getLsbD bit = true := by
  have hzero : ∀ i, (0 : BitVec 64).getLsbD i = false := fun i => BitVec.getLsbD_zero
  constructor
  · intro h
    by_contra hnone
    refine h (BitVec.eq_of_getLsbD_eq fun i hi => ?_)
    rw [hzero]
    exact Bool.eq_false_iff.2 fun hbit => hnone ⟨i, hi, hbit⟩
  · rintro ⟨bit, -, hbit⟩ rfl
    rw [hzero] at hbit
    cases hbit

theorem hitsWords_eq {first last word : Nat} (hfirst : first / 64 ≤ word) (hk : word + k = last / 64 + 1)
    (hlast : last < 2 ^ 20) : (hitsWords table first last k word).Returns fun hit =>
      (hit = true ↔ ∃ page, table.Marked page ∧ first ≤ page ∧ page ≤ last ∧ word ≤ page / 64) := by
  induction k generalizing word with
  | zero => exact returns_ok.2 (iff_of_false Bool.false_ne_true fun ⟨page, _, _, h1, h2⟩ => by omega)
  | succ k ih =>
    have hin : word < guestRxWords := by
      unfold guestRxWords
      omega
    -- a word is hit if it has a marked page of the range
    have hword : table word &&& hitMask first last word ≠ 0 ↔
        ∃ page, table.Marked page ∧ first ≤ page ∧ page ≤ last ∧ page / 64 = word := by
      rw [ne_zero_iff]
      constructor
      · rintro ⟨bit, hbit, hboth⟩
        rw [BitVec.getLsbD_and, Bool.and_eq_true, hitMask_getLsbD hbit hfirst (by omega)] at hboth
        refine ⟨word * 64 + bit, ?_, hboth.2.1, hboth.2.2, by omega⟩
        have hdiv : (word * 64 + bit) / 64 = word := by omega
        have hmod : (word * 64 + bit) % 64 = bit := by omega
        unfold RxTable.Marked
        rw [hdiv, hmod]
        exact hboth.1
      · rintro ⟨page, hmark, h1, h2, rfl⟩
        refine ⟨page % 64, by omega, ?_⟩
        rw [BitVec.getLsbD_and, Bool.and_eq_true, hitMask_getLsbD (by omega) hfirst (by omega)]
        exact ⟨hmark, by omega⟩
    rw [hitsWords]
    unfold RxTable.load
    rw [if_pos hin, bind_ok]
    refine .ite (fun hhit => returns_ok.2 ?_) fun hmiss => (ih (by omega) (by omega)).mono fun hit h => ?_
    · obtain ⟨page, h1, h2, h3, h4⟩ := hword.1 hhit
      exact iff_of_true rfl ⟨page, h1, h2, h3, h4.ge⟩
    · rw [h]
      constructor
      · rintro ⟨page, h1, h2, h3, h4⟩
        exact ⟨page, h1, h2, h3, by omega⟩
      · rintro ⟨page, h1, h2, h3, h4⟩
        rcases Nat.eq_or_lt_of_le h4 with heq | hlt
        · exact absurd (hword.2 ⟨page, h1, h2, h3, heq.symm⟩) hmiss
        · exact ⟨page, h1, h2, h3, hlt⟩

theorem guestRxHits_eq (va length : UInt32) : (guestRxHits table va length).Returns fun hit =>
    (hit = true ↔ ∃ page, table.Marked page ∧ page ∈ pagesOf va.toNat (min (va.toNat + length.toNat) (2 ^ 32))) := by
  unfold guestRxHits
  have hva := va.toNat_lt
  refine .ite (fun hzero => returns_ok.2 ?_) fun hlen => ?_
  · refine iff_of_false Bool.false_ne_true fun ⟨page, _, hpage⟩ => ?_
    have hnone : length.toNat = 0 := by rw [hzero, UInt32.toNat_zero]
    have := (mem_pagesOf.1 hpage).1
    omega
  · have hpos : length.toNat ≠ 0 := fun hzero => hlen (UInt32.toNat_inj.1 (hzero.trans UInt32.toNat_zero.symm))
    have htop :
        (if va.toNat + length.toNat > 2 ^ 32 then 2 ^ 32 else va.toNat + length.toNat) = min (va.toNat + length.toNat)
          (2 ^ 32) := by
      split_ifs <;> omega
    have hlow : va.toNat < min (va.toNat + length.toNat) (2 ^ 32) := by omega
    have hhigh : min (va.toNat + length.toNat) (2 ^ 32) ≤ 2 ^ 32 := Nat.min_le_right _ _
    dsimp only
    rw [htop, shift_address, shift_address, shift_page, shift_page]
    generalize min (va.toNat + length.toNat) (2 ^ 32) = top at hlow hhigh
    refine (hitsWords_eq le_rfl (by omega) (by omega)).mono fun hit h => ?_
    rw [h]
    refine exists_congr fun page => and_congr_right fun _ => ?_
    rw [mem_pagesOf]
    constructor
    · rintro ⟨h1, h2, -⟩
      exact ⟨hlow, h1, h2⟩
    · rintro ⟨-, h1, h2⟩
      exact ⟨h1, h2, Nat.div_le_div_right h1⟩

theorem publishWords_eq (hk : i + k ≤ guestRxWords) : (publishWords next k i shared).Returns fun shared' =>
    ∀ w, shared' w = if i ≤ w ∧ w < i + k then next w else shared w := by
  induction k generalizing i shared with
  | zero => exact returns_ok.2 fun w => by rw [if_neg (by omega)]
  | succ k ih =>
    rw [publishWords]
    unfold RxTable.load RxTable.store
    rw [if_pos (by omega), bind_ok, if_pos (by omega), bind_ok]
    refine (ih (by omega)).mono fun shared' h w => ?_
    rw [h w]
    by_cases hw : w = i
    · subst hw
      rw [if_neg (by omega), if_pos (by omega), update_self]
    · rw [update_of_ne hw]
      exact if_congr (by omega) rfl rfl

theorem addRegions_marked (loaded : List LoadedRegion) : (addRegions loaded table).Returns fun table' =>
    ∀ n, table'.Marked n ↔
    table.Marked n ∨ ∃ r ∈ loaded, (r.flags &&& 1 ≠ 0 ∧ r.flags &&& 2 = 0) ∧ n ∈ pagesOf r.lo.toNat r.hi.toNat := by
  induction loaded generalizing table with
  | nil => exact returns_ok.2 fun n => by simp
  | cons r rest ih =>
    rw [addRegions]
    refine .ite (fun hskip => ih.mono fun table' h n => ?_) fun hadd => ?_
    · rw [h n, List.exists_mem_cons_iff]
      refine or_congr_right (or_iff_right ?_).symm
      rintro ⟨⟨hx, hw⟩, -⟩
      exact hskip.elim hx fun h => h hw
    · have hflags : r.flags &&& 1 ≠ 0 ∧ r.flags &&& 2 = 0 := by
        rw [not_or, not_not] at hadd
        exact hadd
      refine (guestRxAdd_marked r.lo r.hi).bind fun table₁ h₁ => ih.mono fun table₂ h₂ n => ?_
      rw [h₂ n, h₁ n, List.exists_mem_cons_iff, and_iff_right hflags, or_assoc]

/-- A table of regions is hit by a range if and only if they share a page. -/
theorem guest_rx_exact (regions : List (UInt32 × UInt32)) (va length : UInt32) :
    (do let table ← addAll regions .empty
        guestRxHits table va length).Returns fun hit =>
      (hit = true ↔ 0 < length ∧ ∃ r ∈ regions, r.1 < r.2 ∧
        (pagesOf va.toNat (min (va.toNat + length.toNat) (2 ^ 32)) ∩ pagesOf r.1.toNat r.2.toNat).Nonempty) := by
  refine (addAll_marked regions).bind fun table h => (guestRxHits_eq va length).mono fun hit hhit => ?_
  rw [hhit]
  constructor
  · rintro ⟨page, hmark, hpage⟩
    obtain ⟨r, hr, hregion⟩ := ((h page).1 hmark).resolve_left marked_empty
    have hlen := (mem_pagesOf.1 hpage).1
    have hlt := (mem_pagesOf.1 hregion).1
    have hpos : 0 < length.toNat := Nat.lt_add_right_iff_pos.1 (hlen.trans_le (Nat.min_le_left _ _))
    exact ⟨hpos, r, hr, hlt, page, hpage, hregion⟩
  · rintro ⟨-, r, hr, -, page, hpage, hregion⟩
    exact ⟨page, (h page).2 (.inr ⟨r, hr, hregion⟩), hpage⟩

theorem guestRxBoundsRefresh_hits (loaded : List LoadedRegion) (va length : UInt32) :
    (do let table ← guestRxBoundsRefresh loaded shared
        guestRxHits table va length).Returns fun hit =>
      (hit = true ↔ ∃ r ∈ loaded, (r.flags &&& 1 ≠ 0 ∧ r.flags &&& 2 = 0) ∧
        (pagesOf va.toNat (min (va.toNat + length.toNat) (2 ^ 32)) ∩ pagesOf r.lo.toNat r.hi.toNat).Nonempty) := by
  have hrefresh : (guestRxBoundsRefresh loaded shared).Returns fun table' => ∀ n < 2 ^ 20, table'.Marked n ↔
      ∃ r ∈ loaded, (r.flags &&& 1 ≠ 0 ∧ r.flags &&& 2 = 0) ∧ n ∈ pagesOf r.lo.toNat r.hi.toNat := by
    refine (addRegions_marked loaded).bind fun next h => (publishWords_eq (Nat.zero_add _).le).mono fun table' h' n hn => ?_
    have hin : 0 ≤ n / 64 ∧ n / 64 < 0 + guestRxWords := by
      unfold guestRxWords
      omega
    have hsame : table'.Marked n ↔ next.Marked n := by
      unfold RxTable.Marked
      rw [h' (n / 64), if_pos hin]
    rw [hsame, h n, or_iff_right marked_empty]
  refine hrefresh.bind fun table h => (guestRxHits_eq va length).mono fun hit hhit => ?_
  have hpages : ∀ {page}, page ∈ pagesOf va.toNat (min (va.toNat + length.toNat) (2 ^ 32)) → page < 2 ^ 20 :=
      fun hpage => by
    obtain ⟨x, -, hx, rfl⟩ := hpage
    have := hx.trans_le (Nat.min_le_right _ _)
    omega
  rw [hhit]
  constructor
  · rintro ⟨page, hmark, hpage⟩
    obtain ⟨r, hr, hflags, hregion⟩ := (h page (hpages hpage)).1 hmark
    exact ⟨r, hr, hflags, page, hpage, hregion⟩
  · rintro ⟨r, hr, hflags, page, hpage, hregion⟩
    exact ⟨page, (h page (hpages hpage)).2 ⟨r, hr, hflags, hregion⟩, hpage⟩

end Pages

end Lunaria.Arm
