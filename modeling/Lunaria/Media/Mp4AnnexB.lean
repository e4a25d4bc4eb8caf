import Mathlib
import Lunaria.Media.Mp4Sample
import Lunaria.Media.Mp4Tables

/-! A sample of whole units is delivered with a start code before each unit, but for the narrower lengths only so many units. -/

namespace Lunaria.Media
open Word Checked BigEndian List

/-! ### Units -/

/-- A unit with its length before it. -/
def frame (nl : Nat) (u : List UInt8) : List UInt8 := encode nl u.length ++ u

def frames (nl : Nat) (units : List (List UInt8)) : List UInt8 := units.flatMap (frame nl)

def delivered (units : List (List UInt8)) : List UInt8 := units.flatMap (startCode ++ ·)

/-- Where the units are behind their lengths. -/
def places (nl : Nat) : Nat → List (List UInt8) → List (Nat × Nat)
  | _, [] => []
  | off, u :: units => (off + nl, u.length) :: places nl (off + nl + u.length) units

section Units
variable {nl off i n : Nat} {u : List UInt8} {units : List (List UInt8)} {pre tail buf bytes : List UInt8}

@[simp] theorem length_frame : (frame nl u).length = nl + u.length := by simp [frame]

@[simp] theorem frames_cons : frames nl (u :: units) = encode nl u.length ++ u ++ frames nl units := by simp [frames, frame]

@[simp] theorem delivered_cons : delivered (u :: units) = startCode ++ u ++ delivered units := by simp [delivered]

theorem delivered_append (units' : List (List UInt8)) : delivered (units ++ units') = delivered units ++
    delivered units' := flatMap_append

theorem length_frames_cons : (frames nl (u :: units)).length = nl + u.length + (frames nl units).length := by
  rw [frames_cons, length_append, length_append, length_encode]

theorem length_startCode : startCode.length = 4 := rfl

theorem length_delivered (hnl : nl ≤ 4) :
    (delivered units).length = (frames nl units).length + units.length * (4 - nl) := by
  induction units with
  | nil => simp [delivered, frames]
  | cons u units ih =>
    simp only [frames_cons, delivered_cons, length_append, length_cons, length_encode, length_startCode, ih, Nat.add_mul]
    omega

theorem frames_le (hnl : nl ≤ 4) : (frames nl units).length ≤ (delivered units).length := by
  rw [length_delivered hnl]
  exact Nat.le_add_right _ _

theorem delivered_take_le : (delivered (units.take n)).length ≤ (delivered units).length := by
  rw [← take_append_drop n units, delivered_append, length_append, take_append_drop]
  exact Nat.le_add_right _ _

theorem front_frame : pre ++ (frames nl (u :: units) ++ tail) = pre ++ frame nl u ++ (frames nl units ++ tail) := by
  simp [frame]

theorem readFrom_unit (hu : u.length < 256 ^ nl) (hpre : pre.length = off) :
    readFrom (pre ++ (frames nl (u :: units) ++ tail)) off nl 0 = .ok u.length := by
  rw [front_frame, frame, ← append_assoc pre, append_assoc _ u, readFrom_eq (by simp [hpre]), word_append hpre,
    Nat.zero_mul, Nat.zero_add, Nat.mod_eq_of_lt hu]

theorem store_exact (h : i + bytes.length ≤ buf.length) : (store buf i bytes).Returns fun buf' => buf'.length = buf.length ∧
    buf'.take i = buf.take i ∧ buf'.drop i = bytes ++ buf.drop (i + bytes.length) := by
  have hlen : (buf.take i).length = i := length_take_of_le (by omega)
  refine ⟨_, if_pos h, ?_, ?_, ?_⟩
  · simp only [length_append, length_take, length_drop]
    omega
  · rw [append_assoc, take_left' hlen]
  · rw [append_assoc, drop_left' hlen]

theorem moveBytes_exact {dst src : Nat} (hdst : dst + n ≤ buf.length) (hsrc : src + n ≤ buf.length) :
    (moveBytes buf dst src n).Returns
    fun buf' => buf'.length = buf.length ∧ buf'.take dst = buf.take dst ∧ buf'.drop dst = (buf.drop src).take n ++
      buf.drop (dst + n) := by
  have hlen : ((buf.drop src).take n).length = n := by
    rw [length_take, length_drop]
    omega
  unfold moveBytes readRange
  rw [if_pos hsrc, bind_ok]
  refine (store_exact (hlen.symm ▸ hdst)).mono fun buf' h => ?_
  rwa [hlen] at h

theorem store_startCode (hpre : pre.length = off) :
    store (pre ++ (encode 4 n ++ tail)) off startCode = .ok (pre ++ startCode ++ tail) := by
  unfold store
  rw [if_pos (by simp [hpre, length_startCode]), take_left' hpre, ← append_assoc,
    drop_left' (by simp [hpre, length_startCode])]

/-! ### The loops -/

theorem rewriteFour_exact {need k : Nat} (hunits : ∀ u ∈ units, u.length < 256 ^ 4) (hpre : pre.length = off)
    (hneed : need = off + (frames 4 units).length) (hsmall : need < 2 ^ 32) (hk : need - off < k) :
    rewriteFour need k off (pre ++ (frames 4 units ++ tail)) = .ok (pre ++ delivered units ++ tail) := by
  induction units generalizing off pre k with
  | nil =>
    obtain ⟨k, rfl⟩ : ∃ k', k = k' + 1 := ⟨k - 1, by omega⟩
    have hend : ¬off + 4 ≤ need := by simp [hneed, frames]
    rw [rewriteFour, if_neg hend]
    simp [frames, delivered]
  | cons u units ih =>
    obtain ⟨k, rfl⟩ : ∃ k', k = k' + 1 := ⟨k - 1, by omega⟩
    have hlen := @length_frames_cons 4 u units
    have hu := hunits u mem_cons_self
    have hread := @readFrom_unit 4 off u units pre tail hu hpre
    have hstore := @store_startCode off u.length pre (u ++ (frames 4 units ++ tail)) hpre
    have hfront : pre ++ (frames 4 (u :: units) ++ tail) = pre ++
      (encode 4 u.length ++ (u ++ (frames 4 units ++ tail))) := by simp
    have hrest := @ih (off + (4 + u.length)) (pre ++ startCode ++ u) k (fun v hv => hunits v (mem_cons_of_mem _ hv))
      (by simp [hpre, length_startCode]) (by omega) (by omega)
    rw [rewriteFour, if_pos (by omega)]
    unfold rd32
    rw [hread, bind_ok, hfront, hstore, bind_ok, if_neg (by omega), add_of_lt (by omega)]
    simpa using hrest

theorem countNals_exact {need k m : Nat} (hnl : 0 < nl) (hunits : ∀ u ∈ units, u.length < 256 ^ nl)
    (hpre : pre.length = off) (hneed : need = off + (frames nl units).length) (hk : need - off < k) :
    countNals (pre ++ (frames nl units ++ tail)) nl need k off m = .ok (m + units.length) := by
  obtain _ | k := k
  · omega
  induction units generalizing off pre k m with
  | nil =>
    have hend : ¬off + nl ≤ need := by
      simp [hneed, frames]
      omega
    rw [countNals, if_neg hend]
    rfl
  | cons u units ih =>
    have hlen := @length_frames_cons nl u units
    obtain _ | k := k
    · omega
    have hrest := @ih (off + nl + u.length) (pre ++ frame nl u) (m + 1) (fun v hv => hunits v (mem_cons_of_mem _ hv))
      (by simp [hpre, Nat.add_assoc]) (by omega) k (by omega)
    have hcount : m + (u :: units).length = m + 1 + units.length := by
      rw [length_cons]
      omega
    rw [countNals, if_pos (by omega), readFrom_unit (hunits u mem_cons_self) hpre, bind_ok, if_neg (by omega), hcount,
      front_frame]
    exact hrest

theorem recordNals_exact {need k m : Nat} (hnl : 0 < nl) (hunits : ∀ u ∈ units, u.length < 256 ^ nl)
    (hpre : pre.length = off) (hneed : need = off + (frames nl units).length) (hk : need - off < k) :
    recordNals (pre ++ (frames nl units ++ tail)) nl need k off m = .ok (places nl off (units.take (maxNals - m))) := by
  induction units generalizing off pre k m with
  | nil =>
    obtain ⟨k, rfl⟩ : ∃ k', k = k' + 1 := ⟨k - 1, by omega⟩
    have hend : ¬(off + nl ≤ need ∧ m < maxNals) := by
      simp [hneed, frames]
      omega
    rw [recordNals, if_neg hend, take_nil]
    rfl
  | cons u units ih =>
    obtain ⟨k, rfl⟩ : ∃ k', k = k' + 1 := ⟨k - 1, by omega⟩
    have hlen := @length_frames_cons nl u units
    by_cases hroom : m < maxNals
    swap
    · -- the arrays are full
      rw [recordNals, if_neg fun h => hroom h.2, Nat.sub_eq_zero_of_le (Nat.le_of_not_lt hroom)]
      rfl
    have hrest := @ih (off + nl + u.length) (pre ++ frame nl u) k (m + 1) (fun v hv => hunits v (mem_cons_of_mem _ hv))
      (by simp [hpre, Nat.add_assoc]) (by omega) (by omega)
    rw [← front_frame] at hrest
    obtain ⟨d, hd⟩ : ∃ d, maxNals - m = d + 1 := ⟨maxNals - m - 1, by omega⟩
    have hd' : maxNals - (m + 1) = d := by omega
    rw [recordNals, if_pos ⟨by omega, hroom⟩, readFrom_unit (hunits u mem_cons_self) hpre, bind_ok, if_neg (by omega),
      hrest, bind_ok, hd, hd', take_succ_cons]
    rfl

/-- The units from the last one on: they come together before `dst`, and what is before the first one stays. -/
theorem moveNals_exact {dst : Nat} (hnl : nl ≤ 4)
    (hfront : buf.take off ++ frames nl units = buf.take (off + (frames nl units).length))
    (hbuf : dst ≤ buf.length) (hdst : off + (delivered units).length ≤ dst) :
    (moveNals (places nl off units) dst buf).Returns fun r => r.1 + (delivered units).length = dst ∧
      r.2.length = buf.length ∧ r.2.take off = buf.take off ∧ r.2.drop r.1 = delivered units ++ buf.drop dst := by
  induction units generalizing off with
  | nil => exact returns_ok.2 ⟨rfl, rfl, rfl, rfl⟩
  | cons u units ih =>
    have hlen := @length_frames_cons nl u units
    have hdlen : (delivered (u :: units)).length = 4 + u.length + (delivered units).length := by
      rw [delivered_cons, length_append, length_append, length_startCode]
    have hle := @frames_le nl units hnl
    have hoff : (buf.take off).length = off := length_take_of_le (by omega)
    -- the frame of the first unit is before the others
    have hframe : buf.take (off + nl + u.length) = buf.take off ++ frame nl u := by
      have htake := congrArg (List.take (off + nl + u.length)) hfront
      rw [take_take, Nat.min_eq_left (by omega), frames_cons, ← append_assoc] at htake
      rw [← htake]
      exact take_left' (by simp [hoff, Nat.add_assoc])
    have hothers : buf.take (off + nl + u.length) ++
        frames nl units = buf.take (off + nl + u.length + (frames nl units).length) := by
      rw [hframe, append_assoc, Nat.add_assoc off, Nat.add_assoc off, ← hlen, ← hfront, frames_cons]
      rfl
    rw [places, moveNals]
    refine (@ih (off + nl + u.length) hothers (by omega)).bind fun r hr => ?_
    obtain ⟨dst₁, buf₁⟩ := r
    obtain ⟨hsum, hlen₁, hkeep, hmoved⟩ := hr
    dsimp only at hsum hlen₁ hkeep hmoved ⊢
    refine returns_assert.2 ⟨by omega, ?_⟩
    -- what is moved is the unit, since its bytes are before the places written
    have hunit : (buf₁.drop (off + nl)).take u.length = u := by
      rw [take_drop, hkeep, hframe, frame, ← append_assoc]
      exact drop_left' (by simp [hoff])
    refine (moveBytes_exact (by omega) (by omega)).bind fun buf₂ h₂ => ?_
    obtain ⟨hlen₂, hkeep₂, hmoved₂⟩ := h₂
    have hcode : dst₁ - u.length - 4 + startCode.length ≤ buf₂.length := by
      rw [length_startCode]
      omega
    refine (store_exact hcode).bind fun buf₃ h₃ => returns_ok.2 ?_
    obtain ⟨hlen₃, hkeep₃, hmoved₃⟩ := h₃
    have hjoin : dst₁ - u.length - 4 + startCode.length = dst₁ - u.length := by
      rw [length_startCode]
      omega
    have hback : dst₁ - u.length + u.length = dst₁ := by omega
    rw [hjoin, hmoved₂, hunit, hback, hmoved] at hmoved₃
    refine ⟨by dsimp only; omega, hlen₃.trans (hlen₂.trans hlen₁), ?_, ?_⟩
    · have h₁ := congrArg (List.take off) hkeep₃
      have h₂ := congrArg (List.take off) hkeep₂
      have h₃ := congrArg (List.take off) hkeep
      rw [take_take, take_take, Nat.min_eq_left (by omega)] at h₁ h₂ h₃
      exact h₁.trans (h₂.trans h₃)
    · rw [hmoved₃, delivered_cons]
      simp only [append_assoc]

end Units

/-! ### The sample -/

/-- The units that come out: all if a length has four bytes, else as many as there is room for. -/
def unitsOut (nl : Nat) (units : List (List UInt8)) : List (List UInt8) := if nl = 4 then units else units.take maxNals

section Sample
variable {env : Mp4Env} {nl : Nat} {units : List (List UInt8)} {tail buf : List UInt8}

theorem growBuf_exact {need : Nat} (halloc : env.alloc need = true) :
    ∃ rest, growBuf env buf need = some (buf ++ rest) ∧ (buf ++ rest).length = max buf.length need := by
  unfold growBuf
  by_cases hlt : buf.length < need
  · refine ⟨replicate (need - buf.length) 0, by rw [if_pos hlt, if_pos halloc], ?_⟩
    rw [length_append, length_replicate]
    omega
  · refine ⟨[], by rw [if_neg hlt, append_nil], ?_⟩
    rw [append_nil]
    omega

theorem expandNals_exact (hnl : 0 < nl) (hnl' : nl < 4) (hunits : ∀ u ∈ units, u.length < 256 ^ nl)
    (halloc : env.alloc (delivered units).length = true) :
    (expandNals env nl (frames nl units).length (frames nl units ++ tail)).Returns fun r =>
      ∃ n buf', r = some (n, buf') ∧ buf'.take n = delivered (units.take maxNals) ∧
        n = (delivered (units.take maxNals)).length ∧
        buf'.length = max (frames nl units ++ tail).length (delivered units).length := by
  have hcount :=
    @countNals_exact nl 0 units [] tail (frames nl units).length ((frames nl units).length + 1) 0 hnl hunits rfl
    (Nat.zero_add _).symm (by omega)
  have hgrown := @length_delivered nl units hnl'.le
  obtain ⟨rest, hgrow, hroom⟩ := @growBuf_exact env (frames nl units ++ tail) (delivered units).length halloc
  have hrecord := @recordNals_exact nl 0 units [] (tail ++ rest) (frames nl units).length ((frames nl units).length + 1)
    0 hnl hunits rfl (Nat.zero_add _).symm (by omega)
  rw [nil_append] at hcount hrecord
  rw [← append_assoc, Nat.sub_zero] at hrecord
  unfold expandNals
  rw [hcount, bind_ok, Nat.zero_add, ← hgrown, hgrow]
  dsimp only
  rw [hrecord, bind_ok]
  -- the units recorded are before all others
  have hle := @frames_le nl (units.take maxNals) hnl'.le
  have hcut := @delivered_take_le maxNals units
  have hfront : (frames nl units ++ tail ++ rest).take 0 ++ frames nl (units.take maxNals) =
      (frames nl units ++ tail ++ rest).take (0 + (frames nl (units.take maxNals)).length) := by
    have hsplit : frames nl units = frames nl (units.take maxNals) ++ frames nl (units.drop maxNals) := by
      rw [frames, frames, frames, ← flatMap_append, take_append_drop]
    rw [Nat.zero_add, hsplit, append_assoc, append_assoc]
    exact (take_left' rfl).symm
  refine (moveNals_exact hnl'.le hfront (hroom ▸ Nat.le_max_right _ _) (by omega)).bind fun r hr => ?_
  obtain ⟨dst, buf₁⟩ := r
  obtain ⟨hsum, hlen, -, hmoved⟩ := hr
  dsimp only at hsum hlen hmoved ⊢
  have hn : (delivered units).length - dst = (delivered (units.take maxNals)).length := by omega
  have hmove : (toFront buf₁ dst ((delivered units).length - dst)).Returns fun buf₂ =>
      buf₂.length = buf₁.length ∧ buf₂.take ((delivered units).length - dst) = delivered (units.take maxNals) := by
    rw [hn]
    unfold toFront
    by_cases hdst : dst = 0
    · subst hdst
      rw [drop_zero] at hmoved
      exact returns_ok.2 ⟨rfl, by rw [hmoved]; exact take_left' rfl⟩
    · rw [if_pos hdst]
      refine (moveBytes_exact (by omega) (by omega)).mono fun buf₂ h₂ => ⟨h₂.1, ?_⟩
      have hall := h₂.2.2
      rw [drop_zero, hmoved, take_left' rfl] at hall
      rw [hall]
      exact take_left' rfl
  exact hmove.bind fun buf₂ h₂ => returns_ok.2 ⟨_, _, rfl, h₂.2, hn, h₂.1.trans (hlen.trans hroom)⟩

/-- A sample of whole units gets start codes; the bytes of the buffer behind it do not matter. -/
theorem annexB_exact (hnl : 0 < nl) (hnl' : nl ≤ 4) (hunits : ∀ u ∈ units, u.length < 256 ^ nl)
    (hsmall : (frames nl units).length < 2 ^ 32) (halloc : env.alloc (delivered units).length = true) :
    (annexB env nl (frames nl units).length (frames nl units ++ tail)).Returns fun r =>
      ∃ n buf', r = some (n, buf') ∧ buf'.take n = delivered (unitsOut nl units) ∧
        n = (delivered (unitsOut nl units)).length ∧
        buf'.length = max (frames nl units ++ tail).length (delivered units).length := by
  unfold annexB unitsOut
  by_cases hfour : nl = 4
  · subst hfour
    have hlen := @length_delivered 4 units le_rfl
    rw [Nat.sub_self, Nat.mul_zero, Nat.add_zero] at hlen
    have hrewrite := @rewriteFour_exact 0 units [] tail (frames 4 units).length ((frames 4 units).length + 1) hunits rfl
      (Nat.zero_add _).symm hsmall (by omega)
    rw [nil_append, nil_append] at hrewrite
    rw [if_pos rfl, if_pos rfl, hrewrite, bind_ok]
    refine returns_ok.2 ⟨_, _, rfl, take_left' hlen, hlen.symm, ?_⟩
    rw [length_append, length_append, hlen]
    omega
  · rw [if_neg hfour, if_neg hfour]
    exact expandNals_exact hnl (by omega) hunits halloc

end Sample

/-! ### What is read -/

/-- The reads of a file: some bytes that are next, and at least one where there is one. -/
structure PreadOf (file : List UInt8) (pread : Int64 → Nat → List UInt8) : Prop where
  long : file.length < 2 ^ 63
  next : ∀ (off : Int64) (a len : Nat), off.toInt = a → a < file.length → 0 < len →
    ∃ k, 0 < k ∧ k ≤ len ∧ pread off len = (file.drop a).take k

structure UnitsIn (env : Mp4Env) (file : List UInt8) (m : Mp4) (tr : Mp4Track) (s : Mp4Sample)
    (units : List (List UInt8)) : Prop where
  pos : 0 < tr.nalLen
  le : tr.nalLen ≤ 4
  lengths : ∀ u ∈ units, u.length < 256 ^ tr.nalLen
  size : s.size.toNat = (frames tr.nalLen units).length
  place : ∃ a : Nat, (m.base + s.offset).toInt = a ∧ (file.drop a).take s.size.toNat = frames tr.nalLen units
  read : env.alloc s.size.toNat = true
  grown : env.alloc (delivered units).length = true

section Read
variable {env : Mp4Env} {file : List UInt8} {pread : Int64 → Nat → List UInt8} {m : Mp4} {tr : Mp4Track} {s : Mp4Sample}
  {units : List (List UInt8)}

theorem readAtLoop_exact (hfile : PreadOf file pread) {k len a : Nat} {off : Int64} (hoff : off.toInt = a)
    (hin : a + len ≤ file.length) (hk : len ≤ k) : readAtLoop pread k off len = some ((file.drop a).take len) := by
  induction k generalizing len a off with
  | zero =>
    obtain rfl : len = 0 := by omega
    rw [readAtLoop, if_pos rfl, take_zero]
  | succ k ih =>
    rw [readAtLoop]
    by_cases hzero : len = 0
    · rw [if_pos hzero, hzero, take_zero]
    obtain ⟨n, hpos, hle, hread⟩ := hfile.next off a len hoff (by omega) (by omega)
    have hlen : ((file.drop a).take n).length = n := by
      rw [length_take, length_drop]
      omega
    have hsome : (file.drop a).take n ≠ [] := fun h => by
      rw [h] at hlen
      exact hpos.ne hlen
    have hlong := hfile.long
    have hrest := @ih (len - n) (a + n) (off + Int64.ofNat n) (toInt_add_ofNat hoff (by omega)) (by omega) (by omega)
    rw [if_neg hzero, hread]
    dsimp only
    rw [if_neg hsome, hlen, hrest, Option.map_some, ← drop_drop, ← take_add, Nat.add_sub_cancel' hle]

theorem sampleData_exact (hfile : PreadOf file pread) (h : UnitsIn env file m tr s units) :
    (sampleData env pread m tr s).Returns fun r =>
    r.1 = if units = [] ∧ m.buf = [] then none else some (delivered (unitsOut tr.nalLen units)) := by
  obtain ⟨a, hoff, hbytes⟩ := h.place
  have hsize := h.size
  have hlen := congrArg List.length hbytes
  rw [length_take, length_drop] at hlen
  obtain ⟨rest, hgrow, hroom⟩ := @growBuf_exact env m.buf s.size.toNat h.read
  have hread : lmReadAt pread (m.base + s.offset) s.size.toNat = some (frames tr.nalLen units) := by
    rcases Nat.eq_zero_or_pos s.size.toNat with hzero | hpos
    · have hnone : frames tr.nalLen units = [] := by
        rw [← hbytes, hzero, take_zero]
      rw [hzero, hnone]
      rfl
    · rw [← hbytes]
      exact readAtLoop_exact hfile hoff (by omega) le_rfl
  have hstore : store (m.buf ++ rest) 0 (frames tr.nalLen units) = .ok (frames tr.nalLen units ++
      (m.buf ++ rest).drop (frames tr.nalLen units).length) := by
    unfold store
    rw [if_pos (by omega), take_zero, nil_append, Nat.zero_add]
  have hsmall := s.size.toNat_lt
  unfold sampleData
  rw [hgrow]
  dsimp only
  rw [hread]
  dsimp only
  rw [hstore, bind_ok, if_pos ⟨h.pos, h.le⟩, hsize]
  refine (annexB_exact h.pos h.le h.lengths (by omega) h.grown).bind fun r hr => ?_
  obtain ⟨n, buf, rfl, htake, -, hbuf⟩ := hr
  refine returns_ok.2 ?_
  dsimp only
  rw [htake]
  have hback :
      (frames tr.nalLen units ++ (m.buf ++ rest).drop (frames tr.nalLen units).length).length = max m.buf.length
        s.size.toNat := by
    rw [length_append, length_drop, hroom]
    omega
  have hempty : buf = [] ↔ units = [] ∧ m.buf = [] := by
    rw [← length_eq_zero_iff, hbuf, hback, ← @length_eq_zero_iff _ m.buf]
    cases units with
    | nil =>
      simp only [frames, delivered, flatMap_nil, length_nil] at hsize ⊢
      rw [hsize]
      simp
    | cons u units =>
      have hcons := @length_frames_cons tr.nalLen u units
      have hpos := h.pos
      refine iff_of_false (by omega) fun hnil => ?_
      cases hnil.1
  simp only [hempty]

theorem delivered_unitsOut {nl : Nat} : delivered (unitsOut nl units) = delivered units ↔ nl = 4 ∨
    units.length ≤ maxNals := by
  unfold unitsOut
  split_ifs with hfour
  · exact iff_of_true rfl (.inl hfour)
  · constructor
    · intro h
      refine .inr (Nat.le_of_not_lt fun hlt => ?_)
      have hsplit := congrArg delivered (take_append_drop maxNals units)
      rw [delivered_append, h] at hsplit
      have hdrop : delivered (units.drop maxNals) = [] := append_right_eq_self.1 hsplit
      cases hrest : units.drop maxNals with
      | nil =>
        have hle := drop_eq_nil_iff.1 hrest
        omega
      | cons u rest =>
        rw [hrest, delivered_cons] at hdrop
        cases hdrop
    · rintro (h | h)
      · exact absurd h hfour
      · rw [take_of_length_le h]

theorem lmMp4Sample_exact (hfile : PreadOf file pread) {t i : Nat} (htrack : m.tracks[t]? = some tr)
    (hi : (i : Int) < tr.ns)
    (hs : tr.s[i]? = some s) (h : UnitsIn env file m tr s units) : (lmMp4Sample env pread m t i).Returns fun r =>
      r.1 = some ⟨s.ptsUs, s.sync, if units = [] ∧
        m.buf = [] then none else some (delivered (unitsOut tr.nalLen units))⟩ := by
  unfold lmMp4Sample
  rw [if_neg (by omega), Int.toNat_natCast, htrack]
  dsimp only
  rw [if_neg (by omega), Int.toNat_natCast, hs]
  refine (sampleData_exact hfile h).bind fun r hr => returns_ok.2 ?_
  rw [hr]

/-- The samples are where the tables say and as they say, and a sample of whole units comes out whole if and only if its
    lengths have four bytes or there is room to record its units, and there is a unit or a buffer. -/
theorem mp4_samples_exact (env : Mp4Env) :
    (∀ (p : List UInt8) (st : Stbl) (n : Nat), st.WellFormed p n → env.alloc (n * 32) = true →
      (lmStblBuild env p st).Returns fun tr => tr.ns = (Int32.ofNat n).toInt ∧ tr.s.length = n ∧
        ∀ c j, c < st.stco.n → j < perChunk p st c → SampleExact p st tr.s c j) ∧
    ∀ (file : List UInt8) (pread : Int64 → Nat → List UInt8) (m : Mp4) (t i : Nat) (tr : Mp4Track) (s : Mp4Sample)
      (units : List (List UInt8)), PreadOf file pread → m.tracks[t]? = some tr → (i : Int) < tr.ns → tr.s[i]? = some s →
      UnitsIn env file m tr s units →
      (((lmMp4Sample env pread m t i).Returns fun r => r.1 = some ⟨s.ptsUs, s.sync, some (delivered units)⟩) ↔
        (tr.nalLen = 4 ∨ units.length ≤ maxNals) ∧ (units ≠ [] ∨ m.buf ≠ [])) := by
  refine ⟨fun p st n h halloc => lmStblBuild_exact h halloc, fun file pread m t i tr s units hfile htrack hi hs h => ?_⟩
  obtain ⟨r, hr, hread⟩ := lmMp4Sample_exact hfile htrack hi hs h
  rw [hr, returns_ok, hread, ← delivered_unitsOut]
  by_cases hnone : units = [] ∧ m.buf = []
  · rw [if_pos hnone]
    refine iff_of_false (fun h => ?_) fun h => h.2.elim (fun h => h hnone.1) fun h => h hnone.2
    cases h
  · rw [if_neg hnone]
    constructor
    · intro h
      injection h with h
      injection h with _ _ h
      exact ⟨Option.some.inj h, not_and_or.1 hnone⟩
    · rintro ⟨h, -⟩
      rw [h]

end Read

/-- `pread` of a file. -/
def filePread (file : List UInt8) (off : Int64) (len : Nat) : List UInt8 :=
  if off < 0 then [] else (file.drop off.toInt.toNat).take len

theorem filePread_next {file : List UInt8} (h : file.length < 2 ^ 63) : PreadOf file (filePread file) := by
  refine ⟨h, fun off a len hoff _ hlen => ⟨len, hlen, le_rfl, ?_⟩⟩
  have hpos : ¬off < 0 := fun hneg => by
    have hneg := Int64.lt_iff_toInt_lt.1 hneg
    rw [hoff, Int64.toInt_zero] at hneg
    omega
  unfold filePread
  rw [if_neg hpos, hoff, Int.toNat_natCast]

/-- Allocations succeed, and times do not matter. -/
def plainEnv : Mp4Env := ⟨fun _ => true, fun _ _ => 0⟩

/-- A movie with one sample, which is the whole file. -/
def sampleMovie (nl : Nat) (units : List (List UInt8)) : Mp4 :=
  ⟨0, [{ Mp4Track.zero with nalLen := nl, s := [⟨0, UInt32.ofNat (frames nl units).length, 0, true⟩], ns := 1 }], []⟩

theorem unitsIn_sampleMovie {nl : Nat} {units : List (List UInt8)} (hnl : 0 < nl) (hnl' : nl ≤ 4)
    (hunits : ∀ u ∈ units, u.length < 256 ^ nl) (hsmall : (frames nl units).length < 2 ^ 32) :
    UnitsIn plainEnv (frames nl units) (sampleMovie nl units)
      { Mp4Track.zero with nalLen := nl, s := [⟨0, UInt32.ofNat (frames nl units).length, 0, true⟩], ns := 1 }
      ⟨0, UInt32.ofNat (frames nl units).length, 0, true⟩ units := by
  have hsize : (UInt32.ofNat (frames nl units).length).toNat = (frames nl units).length := UInt32.toNat_ofNat_of_lt' hsmall
  refine ⟨hnl, hnl', hunits, hsize, ⟨0, rfl, ?_⟩, rfl, rfl⟩
  dsimp only
  rw [hsize, drop_zero, take_length]

/-- One more unit than there is room for, each of no bytes. -/
def manyUnits : List (List UInt8) := replicate 513 []

theorem frames_manyUnits : frames 1 manyUnits = replicate 513 0 := by
  have hframe : frame 1 [] = [0] := by decide
  rw [frames, manyUnits, flatMap_replicate, hframe, flatten_replicate_singleton]

/-- A sample of 513 zeros comes back with one unit less. -/
theorem mp4_samples_cut : frames 1 manyUnits = replicate 513 0 ∧
    ¬(lmMp4Sample plainEnv (filePread (frames 1 manyUnits)) (sampleMovie 1 manyUnits) 0 0).Returns
      fun r => r.1 = some ⟨0, true, some (delivered manyUnits)⟩ := by
  refine ⟨frames_manyUnits, fun ⟨r, hr, hread⟩ => ?_⟩
  have hlen : (frames 1 manyUnits).length = 513 := by
    rw [frames_manyUnits, length_replicate]
  have hunits : ∀ u ∈ manyUnits, u.length < 256 ^ 1 := fun u hu => by
    rw [eq_of_mem_replicate hu]
    decide
  have hin := unitsIn_sampleMovie Nat.one_pos (by decide) hunits (by omega)
  obtain ⟨r', hr', hexact⟩ := lmMp4Sample_exact (t := 0) (i := 0) (filePread_next (by omega)) rfl (by decide) rfl hin
  cases hr.symm.trans hr'
  have hsome : ¬(manyUnits = [] ∧ (sampleMovie 1 manyUnits).buf = []) := fun h => by
    have hnil := congrArg List.length h.1
    rw [manyUnits, length_replicate] at hnil
    cases hnil
  rw [hread, if_neg hsome] at hexact
  injection hexact with hexact
  injection hexact with _ _ hexact
  rcases delivered_unitsOut.1 (Option.some.inj hexact).symm with h | h
  · cases h
  · rw [manyUnits, length_replicate] at h
    exact absurd h (by decide)

def twoSamples : List UInt8 := [0, 0, 0, 1, 0, 0, 0, 2, 0, 0, 0, 1, 0, 0, 0, 100, 0, 0, 0, 5, 0, 0, 0, 7]

def twoSamplesStbl : Stbl :=
  { tr := .zero, stts := ⟨0, 0⟩, ctts := none, cttsVer := 0, stss := none, stsz := ⟨16, 2⟩, stszFixed := 0, stsc := ⟨0, 1⟩, stco := ⟨12, 1⟩,
    co64 := false }

theorem twoSamplesStbl_wellFormed : twoSamplesStbl.WellFormed twoSamples 2 where
  tables := ⟨Int.le_refl 0, by decide, fun _ h => (nomatch h), fun _ h => (nomatch h),
    fun _ => by decide, by decide, by decide⟩
  pos := by decide
  small := by decide
  count := by decide
  fixed := by decide
  entries := by decide
  first := by decide
  increasing := fun e he => absurd he (by simp [twoSamplesStbl])
  chunks := by rfl
  offsets := by decide

/-- The second of two samples is behind the first, and two units with lengths of two bytes come out with start codes. -/
theorem mp4_samples_two :
    ((lmStblBuild plainEnv twoSamples twoSamplesStbl).Returns fun tr => SampleExact twoSamples twoSamplesStbl tr.s 0 1) ∧
    samplePos twoSamples twoSamplesStbl 0 1 = 105 ∧
    (lmMp4Sample plainEnv (filePread (frames 2 [[7], []])) (sampleMovie 2 [[7], []]) 0 0).Returns
      fun r => r.1 = some ⟨0, true, some [0, 0, 0, 1, 7, 0, 0, 0, 1]⟩ := by
  refine ⟨?_, by decide +kernel, ?_⟩
  · exact ((mp4_samples_exact plainEnv).1 _ _ 2 twoSamplesStbl_wellFormed rfl).mono fun tr h =>
      h.2.2 0 1 (by decide) (by decide +kernel)
  · have hin : UnitsIn plainEnv _ _ _ _ [[7], []] := @unitsIn_sampleMovie 2 _ (by decide) (by decide)
      (by decide) (by decide)
    exact ((mp4_samples_exact plainEnv).2 _ _ _ 0 0 _ _ _ (filePread_next (by decide)) rfl (by decide) rfl hin).2
      ⟨.inr (by decide), .inl (by decide)⟩

end Lunaria.Media
