import Mathlib.Algebra.BigOperators.Group.Finset.Basic
import Lunaria.Lib.Returns
import Lunaria.Media.Mp4

/-! Where the samples of a well-formed table are: each at the offset of its chunk and behind the samples before it there. -/

namespace Lunaria.Media
open Word Checked BigEndian Finset

/-- A track has as many samples as it says, or more. -/
def Mp4Track.Ok (tr : Mp4Track) : Prop := tr.ns ≤ tr.s.length

def Mp4Table.Fits (p : List UInt8) (t : Mp4Table) (width : Nat) : Prop := t.pos + t.n * width ≤ p.length

instance (p : List UInt8) (t : Mp4Table) (width : Nat) : Decidable (t.Fits p width) := inferInstanceAs (Decidable (_ ≤ _))

/-- All tables are there. -/
structure Stbl.Ok (p : List UInt8) (st : Stbl) : Prop where
  track : st.tr.Ok
  stts : st.stts.Fits p 8
  ctts : ∀ t ∈ st.ctts, t.Fits p 8
  stss : ∀ t ∈ st.stss, t.Fits p 4
  stsz : st.stszFixed = 0 → st.stsz.Fits p 4
  stsc : st.stsc.Fits p 12
  stco : st.stco.Fits p (if st.co64 then 8 else 4)

/-! ### Times -/

section Reads
variable {p : List UInt8} {i : Nat}

theorem rd32_returns (h : i + 4 ≤ p.length) : (rd32 p i).Returns fun v => v = word p i 4 := readFrom_returns h

theorem rd64_returns (h : i + 8 ≤ p.length) : (rd64 p i).Returns fun v => v = word p i 8 := readFrom_returns h

end Reads

section Build
variable {env : Mp4Env} {p : List UInt8} {st : Stbl} {s s' : List Mp4Sample} {n k i chunk entry sample count : Nat}

/-- What the times leave of a sample. -/
def Mp4Sample.place (x : Mp4Sample) : Int64 × UInt32 × Bool := (x.offset, x.size, x.sync)

theorem storeSample_place {α : Type} {g : Mp4Sample → α} {f : Mp4Sample → Mp4Sample} (hf : ∀ x, g (f x) = g x)
    (hi : i < s.length) : (storeSample s i f).Returns fun s' => s'.map g = s.map g := by
  unfold storeSample
  rw [List.getElem?_eq_getElem hi]
  refine returns_ok.2 ?_
  rw [List.map_set, hf, ← List.getElem_map g (h := by rw [List.length_map]; exact hi), List.set_getElem_self]

theorem length_of_map {α : Type} {g : Mp4Sample → α} (h : s'.map g = s.map g) : s'.length = s.length := by
  have := congrArg List.length h
  simpa using this

theorem runTimes_place {f : Int64 → Mp4Sample → Mp4Sample} (hf : ∀ dts x, (f dts x).place = x.place)
    {delta : Nat} {dts : Int64} (hs : count ≤ s.length) :
    (runTimes count f delta k sample dts s).Returns fun r => r.2.2.map Mp4Sample.place = s.map Mp4Sample.place := by
  induction k generalizing sample dts s with
  | zero => exact returns_ok.2 rfl
  | succ k ih =>
    rw [runTimes]
    refine .ite (fun hlt => ?_) fun _ => returns_ok.2 rfl
    refine (storeSample_place (hf dts) (hlt.trans_le hs)).bind fun s₁ hs₁ => ?_
    exact (ih ((length_of_map hs₁).symm ▸ hs)).mono fun r hr => hr.trans hs₁

theorem decodeTimes_place {ts : Nat} {stts : Mp4Table} {dts : Int64} (hfits : stts.Fits p 8) (hk : i + k ≤ stts.n)
    (hs : count ≤ s.length) :
    (decodeTimes env p ts count stts k i sample dts s).Returns fun s' =>
      s'.map Mp4Sample.place = s.map Mp4Sample.place := by
  induction k generalizing i sample dts s with
  | zero => exact returns_ok.2 rfl
  | succ k ih =>
    rw [decodeTimes]
    refine .ite (fun _ => ?_) fun _ => returns_ok.2 rfl
    unfold Mp4Table.Fits at hfits
    refine (rd32_returns (by omega)).bind fun cnt _ => (rd32_returns (by omega)).bind fun delta _ => ?_
    refine (runTimes_place (f := fun dts x => { x with ptsUs := env.us dts.toInt ts }) (fun _ _ => rfl) hs).bind
      fun r hr => ?_
    exact (ih (by omega) ((length_of_map hr).symm ▸ hs)).mono fun s' hs' => hs'.trans hr

theorem composeTimes_place {ts version : Nat} {ctts : Mp4Table} (hfits : ctts.Fits p 8) (hk : i + k ≤ ctts.n)
    (hs : count ≤ s.length) :
    (composeTimes env p ts count version ctts k i sample s).Returns fun s' =>
      s'.map Mp4Sample.place = s.map Mp4Sample.place := by
  induction k generalizing i sample s with
  | zero => exact returns_ok.2 rfl
  | succ k ih =>
    rw [composeTimes]
    refine .ite (fun _ => ?_) fun _ => returns_ok.2 rfl
    unfold Mp4Table.Fits at hfits
    refine (rd32_returns (by omega)).bind fun cnt _ => (rd32_returns (by omega)).bind fun v _ => ?_
    refine (runTimes_place (f := fun _ x => { x with ptsUs := x.ptsUs + env.us (compositionOffset version v) ts })
      (fun _ _ => rfl) hs).bind fun r hr => ?_
    exact (ih (by omega) ((length_of_map hr).symm ▸ hs)).mono fun s' hs' => hs'.trans hr

theorem buildTimes_place (h : st.Ok p) (hs : count ≤ s.length) :
    (buildTimes env p st count s).Returns fun s' => s'.map Mp4Sample.place = s.map Mp4Sample.place := by
  unfold buildTimes
  refine (decodeTimes_place h.stts (by omega) hs).bind fun s' hs' => ?_
  cases hctts : st.ctts with
  | none => exact returns_ok.2 hs'
  | some ctts =>
    refine (composeTimes_place (h.ctts ctts hctts) (by omega) ((length_of_map hs').symm ▸ hs)).mono ?_
    exact fun r hr => hr.trans hs'

end Build

/-! ### What the tables say -/

section Tables
variable (p : List UInt8) (st : Stbl)

/-- The first chunk of an entry of `stsc`, counted from 1. -/
def stscFirst (e : Nat) : Nat := word p (st.stsc.pos + e * 12) 4

/-- The entry of `stsc` for a chunk: the last one that does not begin behind it. -/
def entryOf (c : Nat) : Nat := Nat.findGreatest (fun e => stscFirst p st e ≤ c + 1) (st.stsc.n - 1)

/-- The number of samples of a chunk. -/
def perChunk (c : Nat) : Nat := word p (st.stsc.pos + entryOf p st c * 12 + 4) 4

def firstSample (c : Nat) : Nat := ∑ k ∈ range c, perChunk p st k

def tableSize (i : Nat) : Nat := if st.stszFixed ≠ 0 then st.stszFixed else word p (st.stsz.pos + i * 4) 4

def chunkPos (c : Nat) : Nat := if st.co64 then word p (st.stco.pos + c * 8) 8 else word p (st.stco.pos + c * 4) 4

def samplePos (c j : Nat) : Nat := chunkPos p st c + ∑ k ∈ range j, tableSize p st (firstSample p st c + k)

/-- The number of samples of the time table. -/
def timedSamples : Nat := ∑ i ∈ range st.stts.n, word p (st.stts.pos + i * 8) 4

/-- The samples that `stss` lists, counted from 1; without it each is one. -/
def IsSync (i : Nat) : Prop := ∀ t ∈ st.stss, ∃ e < t.n, word p (t.pos + e * 4) 4 = i + 1

/-- The tables belong together. -/
structure Stbl.WellFormed (n : Nat) : Prop where
  tables : st.Ok p
  pos : 0 < n
  small : n < 2 ^ 32
  count : if st.stszFixed = 0 then st.stsz.n = n else timedSamples p st = n
  fixed : st.stszFixed < 2 ^ 32
  entries : 0 < st.stsc.n
  first : stscFirst p st 0 = 1
  increasing : ∀ e, e + 1 < st.stsc.n → stscFirst p st e < stscFirst p st (e + 1)
  chunks : firstSample p st st.stco.n = n
  offsets : ∀ c < st.stco.n, samplePos p st c (perChunk p st c) < 2 ^ 63

end Tables

section Exact
variable {env : Mp4Env} {p : List UInt8} {st : Stbl} {s s' : List Mp4Sample} {n c j k e i : Nat}

theorem firstSample_succ : firstSample p st (c + 1) = firstSample p st c + perChunk p st c := sum_range_succ _ _

theorem samplePos_succ : samplePos p st c (j + 1) = samplePos p st c j + tableSize p st (firstSample p st c + j) := by
  unfold samplePos
  rw [sum_range_succ, Nat.add_assoc]

theorem firstSample_mono {c' : Nat} (h : c ≤ c') : firstSample p st c ≤ firstSample p st c' := by
  induction h with
  | refl => exact le_rfl
  | step _ ih => exact ih.trans (firstSample_succ ▸ Nat.le_add_right _ _)

theorem samplePos_mono {j' : Nat} (h : j ≤ j') : samplePos p st c j ≤ samplePos p st c j' := by
  induction h with
  | refl => exact le_rfl
  | step _ ih => exact ih.trans (samplePos_succ ▸ Nat.le_add_right _ _)

section
variable (h : st.WellFormed p n)
include h

theorem Stbl.WellFormed.first_mono {e' : Nat} (hle : e ≤ e') (hlt : e' < st.stsc.n) :
    stscFirst p st e ≤ stscFirst p st e' := by
  induction hle with
  | refl => exact le_rfl
  | @step m _ ih => exact (ih (Nat.lt_of_succ_lt hlt)).trans (h.increasing m hlt).le

theorem entryOf_eq (he : e < st.stsc.n) (hfirst : stscFirst p st e ≤ c + 1)
    (hnext : e + 1 < st.stsc.n → c + 1 < stscFirst p st (e + 1)) : entryOf p st c = e := by
  refine Nat.findGreatest_eq_iff.2 ⟨by omega, fun _ => hfirst, fun e' hlt hle hfirst' => ?_⟩
  have hin : e' < st.stsc.n := by
    have := h.entries
    omega
  have hmono : stscFirst p st (e + 1) ≤ stscFirst p st e' := h.first_mono (Nat.succ_le_of_lt hlt) hin
  have hbehind := hnext (by omega)
  omega

theorem stscEntry_exact (hk : st.stsc.n ≤ e + 1 + k) (he : e < st.stsc.n) (hfirst : stscFirst p st e ≤ c + 1) :
    (stscEntry p st.stsc c k e).Returns fun e' => e' = entryOf p st c := by
  induction k generalizing e with
  | zero => exact returns_ok.2 (entryOf_eq h he hfirst fun hlt => by omega).symm
  | succ k ih =>
    rw [stscEntry]
    refine .ite (fun hlt => ?_) fun hlast => returns_ok.2 (entryOf_eq h he hfirst fun hlt => absurd hlt hlast).symm
    have hfits := h.tables.stsc
    unfold Mp4Table.Fits at hfits
    refine (rd32_returns (by omega)).bind fun first hread => ?_
    have hvalue : first = stscFirst p st (e + 1) := hread
    refine .ite (fun hle => ih (by omega) hlt (hvalue ▸ hle)) fun hgt =>
      returns_ok.2 (entryOf_eq h he hfirst fun _ => ?_).symm
    omega

theorem entryOf_first : entryOf p st c < st.stsc.n ∧ stscFirst p st (entryOf p st c) ≤ c + 1 := by
  have hpos := h.entries
  have hle : entryOf p st c ≤ st.stsc.n - 1 := Nat.findGreatest_le _
  refine ⟨by omega, ?_⟩
  have hzero : stscFirst p st 0 ≤ c + 1 := by
    rw [h.first]
    omega
  exact @Nat.findGreatest_spec 0 (fun e => stscFirst p st e ≤ c + 1) _ _ (Nat.zero_le _) hzero

theorem sampleSize_exact (hi : i < n) : (sampleSize p st i).Returns fun v => v = tableSize p st i ∧ v < 2 ^ 32 := by
  unfold sampleSize tableSize
  by_cases hfixed : st.stszFixed ≠ 0
  · rw [if_pos hfixed, if_pos hfixed]
    exact returns_ok.2 ⟨rfl, h.fixed⟩
  · rw [if_neg hfixed, if_neg hfixed]
    have hcount := h.count
    have hfits := h.tables.stsz (not_not.1 hfixed)
    rw [if_pos (not_not.1 hfixed)] at hcount
    unfold Mp4Table.Fits at hfits
    exact (rd32_returns (by omega)).mono fun v hv => ⟨hv, hv ▸ word_lt⟩

theorem chunkOffset_exact (hc : c < st.stco.n) (hsmall : chunkPos p st c < 2 ^ 63) :
    (chunkOffset p st c).Returns fun off => off.toInt = chunkPos p st c := by
  have hfits := h.tables.stco
  unfold Mp4Table.Fits at hfits
  unfold chunkPos at hsmall ⊢
  unfold chunkOffset
  by_cases hco : st.co64
  · rw [if_pos hco] at hfits hsmall ⊢
    rw [if_pos hco]
    exact (rd64_returns (by omega)).bind fun v hv =>
      returns_ok.2 (by rw [← hv] at hsmall ⊢; exact Int64.toInt_ofNat_of_lt hsmall)
  · rw [if_neg hco] at hfits hsmall ⊢
    rw [if_neg hco]
    exact (rd32_returns (by omega)).bind fun v hv =>
      returns_ok.2 (by rw [← hv] at hsmall ⊢; exact Int64.toInt_ofNat_of_lt hsmall)

end

theorem toInt_add_ofNat {off : Int64} {a v : Nat} (hoff : off.toInt = a) (hsmall : a + v < 2 ^ 63) :
    (off + Int64.ofNat v).toInt = (a + v : Nat) := by
  rw [Int64.toInt_add, hoff, Int64.toInt_ofNat_of_lt (by omega)]
  exact Int.bmod_eq_of_le (by omega) (by omega)

/-! ### The samples -/

def Placed (p : List UInt8) (st : Stbl) (s : List Mp4Sample) (c j : Nat) : Prop :=
  ∃ x, s[firstSample p st c + j]? = some x ∧ x.offset.toInt = samplePos p st c j ∧
    x.size.toNat = tableSize p st (firstSample p st c + j)

def Unmarked (s : List Mp4Sample) : Prop := ∀ x ∈ s, x.sync = false

theorem Placed.congr (h : Placed p st s c j) (hsame : s'[firstSample p st c + j]? = s[firstSample p st c + j]?) :
    Placed p st s' c j := by
  obtain ⟨x, hx, hfields⟩ := h
  exact ⟨x, hsame.trans hx, hfields⟩

theorem storeSample_exact {f : Mp4Sample → Mp4Sample} (hi : i < s.length) : (storeSample s i f).Returns fun s' =>
    s'.length = s.length ∧ (∀ i', i' ≠ i → s'[i']? = s[i']?) ∧ ∃ x ∈ s, s'[i]? = some (f x) ∧
      ∀ y ∈ s', y ∈ s ∨ y = f x := by
  unfold storeSample
  rw [List.getElem?_eq_getElem hi]
  refine returns_ok.2 ⟨List.length_set, fun i' hne => List.getElem?_set_ne hne.symm, _, List.getElem_mem hi,
    List.getElem?_set_self hi, fun y hy => ?_⟩
  exact List.mem_or_eq_of_mem_set hy

theorem chunkSamples_exact (h : st.WellFormed p n) (hc : c < st.stco.n) (hj : j + k = perChunk p st c)
    (hroom : firstSample p st c + perChunk p st c ≤ n) (hs : s.length = n) (hmarks : Unmarked s) {off : Int64}
    (hoff : off.toInt = samplePos p st c j) :
    (chunkSamples p st n k (firstSample p st c + j) off s).Returns fun r => r.1 = firstSample p st (c + 1) ∧
      r.2.length = n ∧ Unmarked r.2 ∧
      (∀ i < firstSample p st c + j, r.2[i]? = s[i]?) ∧ ∀ j', j ≤ j' → j' < perChunk p st c → Placed p st r.2 c j' := by
  induction k generalizing j off s with
  | zero => exact returns_ok.2 ⟨by rw [firstSample_succ]; omega, hs, hmarks, fun _ _ => rfl, fun j' h1 h2 => by omega⟩
  | succ k ih =>
    have hlt : firstSample p st c + j < n := by omega
    rw [chunkSamples, if_pos hlt]
    refine (sampleSize_exact h hlt).bind fun size hsize => (storeSample_exact (hs.symm ▸ hlt)).bind fun s₁ hs₁ => ?_
    obtain ⟨hlen, hothers, x, hx, hstored, hall⟩ := hs₁
    obtain ⟨hsize, hword⟩ := hsize
    have hmarks₁ : Unmarked s₁ := fun y hy => by
      rcases hall y hy with hy | rfl
      · exact hmarks y hy
      · exact hmarks x hx
    have hend : samplePos p st c (j + 1) < 2 ^ 63 := (samplePos_mono (by omega)).trans_lt (h.offsets c hc)
    have hnext : (off + Int64.ofNat size).toInt = samplePos p st c (j + 1) := by
      rw [samplePos_succ, ← hsize] at hend ⊢
      exact toInt_add_ofNat hoff hend
    refine (@ih s₁ (j + 1) (by omega) (hlen.trans hs) hmarks₁ _ hnext).mono fun r hr => ?_
    obtain ⟨h1, h2, h3, h4, h5⟩ := hr
    refine ⟨h1, h2, h3, fun i hi => (h4 i (by omega)).trans (hothers i (by omega)), fun j' hle hlt' => ?_⟩
    rcases Nat.eq_or_lt_of_le hle with rfl | hgt
    · refine ⟨_, (h4 _ (by omega)).trans hstored, hoff, ?_⟩
      dsimp only
      rw [UInt32.toNat_ofNat_of_lt' hword, hsize]
    · exact h5 j' hgt hlt'

/-- The rest of the chunks. -/
theorem fillChunks_exact (h : st.WellFormed p n) (hc : c + k = st.stco.n) (he : e < st.stsc.n)
    (hfirst : stscFirst p st e ≤ c + 1) (hs : s.length = n) (hmarks : Unmarked s) :
    (fillChunks p st n k c (firstSample p st c) e s).Returns fun r => r.1 = n ∧ r.2.length = n ∧ Unmarked r.2 ∧
      (∀ i < firstSample p st c, r.2[i]? = s[i]?) ∧ ∀ c' j, c ≤ c' → c' < st.stco.n → j < perChunk p st c' →
        Placed p st r.2 c' j := by
  induction k generalizing c e s with
  | zero =>
    have hlast : firstSample p st c = n := by
      rw [← h.chunks, ← hc, Nat.add_zero]
    exact returns_ok.2 ⟨hlast, hs, hmarks, fun _ _ => rfl, fun c' j h1 h2 => by omega⟩
  | succ k ih =>
    have hcount : firstSample p st (c + 1) ≤ n := by
      rw [← h.chunks]
      exact firstSample_mono (by omega)
    rw [fillChunks]
    by_cases hlt : firstSample p st c < n
    swap
    · -- the chunks that are left have no samples
      rw [if_neg hlt]
      refine returns_ok.2 ⟨?_, hs, hmarks, fun _ _ => rfl, fun c' j h1 h2 h3 => ?_⟩
      · rw [firstSample_succ] at hcount
        dsimp only
        omega
      · have hle : firstSample p st c ≤ firstSample p st c' := firstSample_mono h1
        have hle' : firstSample p st (c' + 1) ≤ n := by
          rw [← h.chunks]
          exact firstSample_mono h2
        rw [firstSample_succ] at hle'
        omega
    rw [if_pos hlt]
    refine (stscEntry_exact h (by omega) he hfirst).bind fun e' he' => ?_
    subst he'
    obtain ⟨hin, hfirst'⟩ := @entryOf_first p st n c h
    have hfits := h.tables.stsc
    unfold Mp4Table.Fits at hfits
    refine (rd32_returns (by omega)).bind fun per hper => ?_
    have hsmall : chunkPos p st c < 2 ^ 63 := by
      refine Nat.lt_of_le_of_lt ?_ (h.offsets c (by omega))
      exact Nat.le_add_right _ _
    refine (chunkOffset_exact h (by omega) hsmall).bind fun off hoff => ?_
    have hperChunk : per = perChunk p st c := hper
    rw [hperChunk]
    have hchunk := @chunkSamples_exact p st s n c 0 (perChunk p st c) h (by omega) (Nat.zero_add _)
      (firstSample_succ ▸ hcount) hs hmarks off hoff
    refine hchunk.bind fun r hr => ?_
    obtain ⟨sample, s₁⟩ := r
    obtain ⟨rfl, hlen, hmarks₁, hbefore, hplaced⟩ := hr
    refine (@ih s₁ (c + 1) (entryOf p st c) (by omega) hin (by omega) hlen hmarks₁).mono fun r hr => ?_
    obtain ⟨h1, h2, h3, h4, h5⟩ := hr
    refine ⟨h1, h2, h3, fun i hi => ?_, fun c' j hle hlt' hj => ?_⟩
    · exact (h4 i (by rw [firstSample_succ]; omega)).trans (hbefore i (by omega))
    · rcases Nat.eq_or_lt_of_le hle with rfl | hgt
      · exact (hplaced j (Nat.zero_le _) hj).congr (h4 _ (by rw [firstSample_succ]; omega))
      · exact h5 c' j hgt hlt' hj

/-! ### The number of samples, times and marks -/

theorem sttsTotal_exact {stts : Mp4Table} (hfits : stts.Fits p 8) (hk : i + k = stts.n) {m : Nat}
    (hsmall : m + ∑ x ∈ range k, word p (stts.pos + (i + x) * 8) 4 < 2 ^ 32) :
    (sttsTotal p stts k i m).Returns fun r => r = m + ∑ x ∈ range k, word p (stts.pos + (i + x) * 8) 4 := by
  induction k generalizing i m with
  | zero => exact returns_ok.2 rfl
  | succ k ih =>
    have hfits' := hfits
    unfold Mp4Table.Fits at hfits'
    have hsum : ∑ x ∈ range (k + 1), word p (stts.pos + (i + x) * 8) 4 =
        word p (stts.pos + i * 8) 4 + ∑ x ∈ range k, word p (stts.pos + (i + 1 + x) * 8) 4 := by
      rw [sum_range_succ', Nat.add_zero, Nat.add_comm]
      simp only [Nat.add_right_comm, Nat.add_assoc]
    rw [hsum] at hsmall ⊢
    rw [sttsTotal]
    refine (rd32_returns (by omega)).bind fun v hv => ?_
    rw [← hv] at hsmall ⊢
    rw [add_of_lt (by omega)]
    refine (ih (by omega) (by omega)).mono fun r hr => ?_
    rw [hr, Nat.add_assoc]

theorem stblCount_exact (h : st.WellFormed p n) : (stblCount p st).Returns fun m => m = n := by
  have hcount := h.count
  unfold stblCount
  by_cases hfixed : st.stszFixed = 0
  · rw [if_pos hfixed] at hcount
    rw [if_neg (not_not.2 hfixed)]
    exact returns_ok.2 hcount
  · rw [if_neg hfixed] at hcount
    rw [if_pos hfixed]
    have hsum : ∑ x ∈ range st.stts.n, word p (st.stts.pos + (0 + x) * 8) 4 = n := by
      simpa [timedSamples] using hcount
    have hsmall := h.small
    refine (sttsTotal_exact h.tables.stts (Nat.zero_add _) (by omega)).mono fun r hr => ?_
    rw [hr, Nat.zero_add, hsum]

def markAt (s : List Mp4Sample) (i : Nat) : Option Bool := s[i]?.map Mp4Sample.sync

theorem storeSample_mark (hi : i < s.length) : (storeSample s i fun x => { x with sync := true }).Returns fun s' =>
    s'.map (fun x => (x.offset, x.size)) = s.map (fun x => (x.offset, x.size)) ∧
    ∀ m, markAt s' m = if m = i then some true else markAt s m := by
  obtain ⟨s', hs', hplace⟩ := @storeSample_place s i (Int64 × UInt32) (fun x => (x.offset, x.size))
    (fun x => { x with sync := true }) (fun x => rfl) hi
  obtain ⟨s'', hs'', -, hothers, x, -, hx, -⟩ := @storeSample_exact s i (fun x => { x with sync := true }) hi
  cases hs'.symm.trans hs''
  refine ⟨s', hs', hplace, fun m => ?_⟩
  unfold markAt
  split_ifs with hm
  · rw [hm, hx]
    rfl
  · rw [hothers m hm]

theorem syncSamples_exact {stss : Mp4Table} (hfits : stss.Fits p 4) (hk : i + k ≤ stss.n) :
    (syncSamples p s.length stss k i s).Returns fun s' =>
    s'.map (fun x => (x.offset, x.size)) = s.map (fun x => (x.offset, x.size)) ∧
    ∀ m < s.length, markAt s' m = some true ↔ markAt s m = some true ∨ ∃ e, i ≤ e ∧ e < i + k ∧
      word p (stss.pos + e * 4) 4 = m + 1 := by
  induction k generalizing i s with
  | zero => exact returns_ok.2 ⟨rfl, fun m _ => ⟨.inl, fun h => h.elim id fun ⟨e, h1, h2, _⟩ => by omega⟩⟩
  | succ k ih =>
    have hfits' := hfits
    unfold Mp4Table.Fits at hfits'
    rw [syncSamples]
    refine (rd32_returns (by omega)).bind fun idx hidx => ?_
    have hsplit : ∀ m, (∃ e, i ≤ e ∧ e < i + (k + 1) ∧ word p (stss.pos + e * 4) 4 = m + 1) ↔
        idx = m + 1 ∨ ∃ e, i + 1 ≤ e ∧ e < i + 1 + k ∧ word p (stss.pos + e * 4) 4 = m + 1 := fun m => by
      constructor
      · rintro ⟨e, h1, h2, h3⟩
        rcases Nat.eq_or_lt_of_le h1 with rfl | hlt
        · exact .inl (hidx.trans h3)
        · exact .inr ⟨e, hlt, by omega, h3⟩
      · rintro (h | ⟨e, h1, h2, h3⟩)
        · exact ⟨i, le_rfl, by omega, hidx ▸ h⟩
        · exact ⟨e, by omega, by omega, h3⟩
    refine .ite (fun hin => ?_) fun hout => ?_
    · refine (storeSample_mark (i := idx - 1) (by omega)).bind fun s₁ hs₁ => ?_
      obtain ⟨hplace, hmark⟩ := hs₁
      have hlen := length_of_map hplace
      rw [← hlen]
      refine (ih (by omega)).mono fun s' hs' => ⟨hs'.1.trans hplace, fun m hm => ?_⟩
      rw [hs'.2 m hm, hmark, hsplit m, ← or_assoc]
      refine or_congr_left ?_
      split_ifs with heq
      · exact iff_of_true rfl (.inr (by omega))
      · exact ⟨.inl, fun h => h.elim id fun h => absurd (by omega) heq⟩
    · refine (ih (by omega)).mono fun s' hs' => ⟨hs'.1, fun m hm => ?_⟩
      rw [hs'.2 m hm, hsplit m]
      exact or_congr_right ⟨.inr, fun h => h.elim (fun h => absurd ⟨by omega, by omega⟩ hout) id⟩

theorem allSync_exact (hk : i + k = s.length) : (allSync k i s).Returns fun s' =>
    s'.map (fun x => (x.offset, x.size)) = s.map (fun x => (x.offset, x.size)) ∧
    ∀ m < s.length, markAt s' m = if i ≤ m then some true else markAt s m := by
  induction k generalizing i s with
  | zero => exact returns_ok.2 ⟨rfl, fun m hm => by rw [if_neg (by omega)]⟩
  | succ k ih =>
    rw [allSync]
    refine (storeSample_mark (by omega)).bind fun s₁ hs₁ => ?_
    obtain ⟨hplace, hmark⟩ := hs₁
    have hlen := length_of_map hplace
    refine (ih (by omega)).mono fun s' hs' => ⟨hs'.1.trans hplace, fun m hm => ?_⟩
    rw [hs'.2 m (by omega), hmark]
    split_ifs <;> first | rfl | omega

theorem buildSync_exact (h : st.Ok p) (hmarks : Unmarked s) : (buildSync p st s.length s).Returns fun s' =>
    s'.map (fun x => (x.offset, x.size)) = s.map (fun x => (x.offset, x.size)) ∧
    ∀ m < s.length, markAt s' m = some true ↔ IsSync p st m := by
  have hno : ∀ m, markAt s m ≠ some true := fun m hm => by
    obtain ⟨x, hx, hsync⟩ := Option.map_eq_some_iff.1 hm
    rw [hmarks x (List.mem_of_getElem? hx)] at hsync
    cases hsync
  unfold buildSync IsSync
  cases hstss : st.stss with
  | none =>
    refine (allSync_exact (Nat.zero_add _)).mono fun s' hs' => ⟨hs'.1, fun m hm => ?_⟩
    rw [hs'.2 m hm, if_pos (Nat.zero_le _)]
    exact iff_of_true rfl fun t ht => nomatch ht
  | some stss =>
    refine (syncSamples_exact (h.stss stss hstss) (Nat.zero_add _).le).mono fun s' hs' => ⟨hs'.1, fun m hm => ?_⟩
    rw [hs'.2 m hm]
    constructor
    · rintro (h | ⟨e, -, h2, h3⟩) t ht
      · exact absurd h (hno m)
      · cases ht
        exact ⟨e, by omega, h3⟩
    · intro h
      obtain ⟨e, h1, h2⟩ := h stss rfl
      exact .inr ⟨e, Nat.zero_le _, by omega, h2⟩

/-! ### The table -/

def SampleExact (p : List UInt8) (st : Stbl) (s : List Mp4Sample) (c j : Nat) : Prop :=
  ∃ x, s[firstSample p st c + j]? = some x ∧ x.offset.toInt = samplePos p st c j ∧
    x.size.toNat = tableSize p st (firstSample p st c + j) ∧ (x.sync = true ↔ IsSync p st (firstSample p st c + j))

theorem lmStblBuild_exact (h : st.WellFormed p n) (halloc : env.alloc (n * 32) = true) :
    (lmStblBuild env p st).Returns fun tr =>
    tr.ns = (Int32.ofNat n).toInt ∧ tr.s.length = n ∧ ∀ c j, c < st.stco.n → j < perChunk p st c →
      SampleExact p st tr.s c j := by
  have hchunks : st.stco.n ≠ 0 := fun hzero => by
    have hpos := h.pos
    have hlast := h.chunks
    rw [hzero] at hlast
    simp only [firstSample, range_zero, sum_empty] at hlast
    omega
  unfold lmStblBuild
  refine (stblCount_exact h).bind fun m hm => ?_
  subst hm
  have hgo : ¬(m = 0 ∨ st.stco.n = 0 ∨ st.stsc.n = 0 ∨ (!env.alloc (m * 32)) = true) := by
    rw [halloc]
    have hpos := h.pos
    have hentries := h.entries
    rintro (h | h | h | h)
    · omega
    · exact hchunks h
    · omega
    · cases h
  rw [if_neg hgo]
  have hstart : Unmarked (List.replicate m ⟨0, 0, 0, false⟩) := fun x hx => by rw [List.eq_of_mem_replicate hx]
  have hfill := @fillChunks_exact p st (List.replicate m ⟨0, 0, 0, false⟩) m 0 st.stco.n 0 h (Nat.zero_add _) h.entries
    (h.first.le) List.length_replicate hstart
  refine hfill.bind fun r hr => ?_
  obtain ⟨count, s⟩ := r
  obtain ⟨hcount, hlen, hmarks, -, hplaced⟩ := hr
  dsimp only at hcount hlen hmarks hplaced
  subst hcount
  refine (buildTimes_place h.tables hlen.ge).bind fun s₁ hs₁ => ?_
  have hlen₁ := length_of_map hs₁
  have hmarks₁ : Unmarked s₁ := fun x hx => by
    have hplace : x.place ∈ s.map Mp4Sample.place := hs₁ ▸ List.mem_map_of_mem hx
    obtain ⟨y, hy, heq⟩ := List.mem_map.1 hplace
    have hsync : y.sync = x.sync := congrArg (fun t => t.2.2) heq
    rw [← hsync]
    exact hmarks y hy
  have hsync := @buildSync_exact p st s₁ h.tables hmarks₁
  rw [hlen₁, hlen] at hsync
  refine hsync.bind fun s₂ hs₂ => returns_ok.2 ?_
  obtain ⟨hplace₂, hmark⟩ := hs₂
  have hlen₂ := length_of_map hplace₂
  refine ⟨rfl, hlen₂.trans (hlen₁.trans hlen), fun c j hc hj => ?_⟩
  obtain ⟨x, hx, hoffset, hsize⟩ := hplaced c j (Nat.zero_le _) hc hj
  have hlt : firstSample p st c + j < count := hlen ▸ (List.getElem?_eq_some_iff.1 hx).1
  have hfields : (s₂[firstSample p st c + j]?).map (fun x => (x.offset, x.size)) = some (x.offset, x.size) := by
    have h1 := congrArg (·[firstSample p st c + j]?) hplace₂
    have h2 := congrArg (·[firstSample p st c + j]?) hs₁
    simp only [List.getElem?_map] at h1 h2
    rw [hx] at h2
    obtain ⟨y, hy, hyplace⟩ := Option.map_eq_some_iff.1 h2
    rw [h1, hy]
    have ho : y.offset = x.offset := congrArg Prod.fst hyplace
    have hz : y.size = x.size := congrArg (fun t => t.2.1) hyplace
    rw [Option.map_some, ho, hz]
  obtain ⟨z, hz, hzfields⟩ := Option.map_eq_some_iff.1 hfields
  refine ⟨z, hz, ?_, ?_, ?_⟩
  · have ho : z.offset = x.offset := congrArg Prod.fst hzfields
    rw [ho]
    exact hoffset
  · have hs : z.size = x.size := congrArg Prod.snd hzfields
    rw [hs]
    exact hsize
  · rw [← hmark _ hlt, markAt, hz]
    exact ⟨fun h => congrArg some h, Option.some.inj⟩

end Exact

end Lunaria.Media
