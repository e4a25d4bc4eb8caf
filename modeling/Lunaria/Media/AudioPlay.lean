import Lunaria.Lib.Resampling
import Lunaria.Lib.RingBuffer
import Lunaria.Media.AudioStream

/-! What an audio stream plays is what its frames are at the other rate, in whatever portions one writes them and plays them. -/

namespace Lunaria.Media
open Function Resampling RingBuffer List Nat UInt32

/-! ### Positions of 32 bits -/

section Positions
variable {a b c : UInt32}

theorem toNat_min32 : (min a b).toNat = min a.toNat b.toNat := by
  by_cases h : a ≤ b
  · rw [show min a b = a from if_pos h, Nat.min_eq_left (UInt32.le_iff_toNat_le.1 h)]
  · rw [show min a b = b from if_neg h, Nat.min_eq_right (UInt32.lt_iff_toNat_lt.1 (UInt32.not_le.1 h)).le]

theorem toNat_add32 (h : a.toNat + b.toNat < 2 ^ 32) : (a + b).toNat = a.toNat + b.toNat := by
  rw [UInt32.toNat_add]
  exact mod_eq_of_lt h

/-- A part and the rest of a number are the number when they are counted with 64 bits. -/
theorem toUInt64_add_sub (h : a ≤ b) : a.toUInt64 + (b - a).toUInt64 = b.toUInt64 := by
  have hle := UInt32.le_iff_toNat_le.1 h
  have hb := b.toNat_lt
  rw [← UInt64.toNat_inj, UInt64.toNat_add, toNat_toUInt64, toNat_toUInt64, toNat_toUInt64,
    UInt32.toNat_sub_of_le _ _ h, Nat.add_sub_cancel' hle]
  exact mod_eq_of_lt (by omega)

end Positions

/-! ### Settling -/

/-- A place in a ring of so many cells. -/
structure Mixing.Ok (m : Mixing) (cells : UInt32) : Prop where
  pos : m.pos < cells
  left : m.left ≤ cells

/-- What a place in the ring is for playing: what is owed, and the frames from there on. -/
def Mixing.view (m : Mixing) (cells : UInt32) (ring : Nat → List Int) : Nat × List (List Int) :=
  (m.remainder.toNat, window cells.toNat ring m.pos.toNat m.left.toNat)

section Settle
variable {m : Mixing} {cells : UInt32}

theorem settle_numbers (outputRate : UInt32) (hm : m.Ok cells) (hcells : cells.toNat < 2 ^ 31) :
    let n := min m.left (m.remainder / outputRate)
    n.toNat = min m.left.toNat (m.remainder.toNat / outputRate.toNat) ∧ m.pos.toNat + n.toNat < 2 ^ 32 ∧ n ≤ m.left ∧
      n.toNat * outputRate.toNat < 2 ^ 32 ∧ n * outputRate ≤ m.remainder := by
  have hn : (min m.left (m.remainder / outputRate)).toNat = min m.left.toNat (m.remainder.toNat / outputRate.toNat) := by
    rw [toNat_min32, UInt32.toNat_div]
  have hpos := UInt32.lt_iff_toNat_lt.1 hm.pos
  have hleft := UInt32.le_iff_toNat_le.1 hm.left
  have hmul : (min m.left (m.remainder / outputRate)).toNat * outputRate.toNat ≤ m.remainder.toNat := by
    rw [hn]
    exact (Nat.mul_le_mul_right _ (Nat.min_le_right _ _)).trans (div_mul_le_self _ _)
  have hlt := m.remainder.toNat_lt
  refine ⟨hn, by omega, ?_, by omega, ?_⟩
  · rw [le_iff_toNat_le, hn]
    exact Nat.min_le_left _ _
  · rw [le_iff_toNat_le, UInt32.toNat_mul, mod_eq_of_lt (by omega)]
    exact hmul

theorem settle_view (outputRate : UInt32) (ring : Nat → List Int) (hm : m.Ok cells) (hcells : cells.toNat < 2 ^ 31) :
    (m.settle cells outputRate).view cells ring = Resampling.settle outputRate.toNat (m.view cells ring) := by
  obtain ⟨hn, hpos, hle, hmul, hsub⟩ := settle_numbers outputRate hm hcells
  have hleft : min m.left.toNat (m.remainder.toNat / outputRate.toNat) ≤ m.left.toNat := Nat.min_le_left _ _
  unfold Mixing.view Mixing.settle Resampling.settle
  dsimp only
  rw [UInt32.toNat_sub_of_le _ _ hsub, UInt32.toNat_mul, mod_eq_of_lt hmul, UInt32.toNat_mod, toNat_add32 hpos, window_mod,
    UInt32.toNat_sub_of_le _ _ hle, hn, length_window, window_drop hleft]

theorem settle_ok (outputRate : UInt32) (hm : m.Ok cells) (hcells : cells.toNat < 2 ^ 31) :
    (m.settle cells outputRate).Ok cells ∧
    (m.settle cells outputRate).consumed + (m.settle cells outputRate).left.toUInt64 = m.consumed + m.left.toUInt64 := by
  obtain ⟨-, -, hle, -⟩ := settle_numbers outputRate hm hcells
  have hpos := UInt32.lt_iff_toNat_lt.1 hm.pos
  refine ⟨⟨?_, ?_⟩, ?_⟩
  · rw [lt_iff_toNat_lt]
    unfold Mixing.settle
    dsimp only
    rw [UInt32.toNat_mod]
    exact mod_lt _ (by omega)
  · have hleft := UInt32.le_iff_toNat_le.1 hm.left
    rw [le_iff_toNat_le]
    unfold Mixing.settle
    dsimp only
    rw [UInt32.toNat_sub_of_le _ _ hle]
    omega
  · unfold Mixing.settle
    dsimp only
    rw [UInt64.add_assoc, toUInt64_add_sub hle]

end Settle

/-! ### Playing -/

def AudioStream.grow (s : AudioStream) (remainder : Nat) : Nat := (remainder + s.rate.toNat) % 2 ^ 32

def AudioStream.ring (s : AudioStream) : Nat → List Int := frameAt s.pcm s.width

def AudioStream.frames (s : AudioStream) : List (List Int) := window s.cells.toNat s.ring s.head.toNat s.queued.toNat

section Play
variable {s : AudioStream} {m : Mixing}

theorem mixLoop_eq (outputRate outputChannels : UInt32) (hm : m.Ok s.cells) (hcells : s.cells.toNat < 2 ^ 31) (n : Nat) :
    (mixLoop s outputRate outputChannels n m).1 =
      (play outputRate.toNat s.grow n (m.view s.cells s.ring)).1.map (outputFrame s.width outputChannels.toNat) ∧
    (mixLoop s outputRate outputChannels n m).2.view s.cells s.ring = (play outputRate.toNat s.grow n
    (m.view s.cells s.ring)).2 ∧
    (mixLoop s outputRate outputChannels n m).2.Ok s.cells ∧
    (mixLoop s outputRate outputChannels n m).2.consumed + (mixLoop s outputRate outputChannels n m).2.left.toUInt64 =
      m.consumed + m.left.toUInt64 := by
  induction n generalizing m with
  | zero => exact ⟨rfl, rfl, hm, rfl⟩
  | succ n ih =>
    by_cases hleft : m.left = 0
    · have hview : m.view s.cells s.ring = (m.remainder.toNat, []) := by
        rw [Mixing.view, hleft]
        rfl
      rw [hview, mixLoop, if_pos hleft]
      exact ⟨rfl, hview, hm, rfl⟩
    · obtain ⟨k, hk⟩ := exists_eq_succ_of_ne_zero fun hzero => hleft (UInt32.toNat_inj.1 hzero)
      have hframes : window s.cells.toNat s.ring m.pos.toNat m.left.toNat =
          s.ring m.pos.toNat :: window s.cells.toNat s.ring (m.pos.toNat + 1) k := by
        rw [hk, window_cons, mod_eq_of_lt (UInt32.lt_iff_toNat_lt.1 hm.pos)]
      let m' : Mixing := { m with remainder := m.remainder + s.rate }
      have hm' : m'.Ok s.cells := ⟨hm.pos, hm.left⟩
      have hgrow : m'.view s.cells s.ring =
          (s.grow m.remainder.toNat, s.ring m.pos.toNat :: window s.cells.toNat s.ring (m.pos.toNat + 1) k) :=
        Prod.ext (UInt32.toNat_add _ _) hframes
      have hview' := settle_view outputRate s.ring hm' hcells
      rw [hgrow] at hview'
      obtain ⟨hok, hcount⟩ := settle_ok outputRate hm' hcells
      obtain ⟨hout, hend, hend', hcount'⟩ := ih hok
      rw [hview'] at hout hend
      rw [Mixing.view, hframes, mixLoop, if_neg hleft]
      refine ⟨?_, hend, hend', hcount'.trans hcount⟩
      rw [play, map_cons]
      exact congrArg _ hout

end Play

/-! ### Writing -/

section Write
variable {pcm : Nat → Int} {cells width p : Nat} {f : List Int} {frames : List (List Int)}

theorem writeFrame_apply (j : Nat) : writeFrame pcm p f j = if p ≤ j then f.getD (j - p) (pcm j) else pcm j := by
  induction f generalizing pcm p with
  | nil => simp [writeFrame]
  | cons v f ih =>
    rw [writeFrame, ih]
    rcases Nat.lt_trichotomy j p with hlt | rfl | hgt
    · rw [if_neg (by omega), if_neg (by omega), update_of_ne hlt.ne]
    · rw [if_neg (by omega), if_pos le_rfl, update_self, Nat.sub_self]
      rfl
    · obtain ⟨k, rfl⟩ := Nat.exists_eq_add_of_lt hgt
      rw [if_pos (by omega), if_pos (by omega), update_of_ne (by omega), show p + k + 1 - (p + 1) = k by omega,
        show p + k + 1 - p = k + 1 by omega, getD_cons_succ]

/-- A frame that is written is there, and the others are as they were. -/
theorem frameAt_writeFrame (hf : f.length = width) :
    frameAt (writeFrame pcm (p * width) f) width = update (frameAt pcm width) p f := by
  funext q
  by_cases hq : q = p
  · rw [hq, update_self]
    refine ext_getElem? fun c => ?_
    rcases Nat.lt_or_ge c width with hc | hc
    · simp [frameAt, hc, writeFrame_apply, hf]
    · simp [frameAt, hc, hf]
  · rw [update_of_ne hq]
    refine map_congr_left fun c hc => ?_
    have hc := mem_range.1 hc
    rw [writeFrame_apply]
    rcases Nat.lt_or_gt_of_ne hq with hlt | hgt
    · have := Nat.mul_le_mul_right width (succ_le_of_lt hlt)
      rw [succ_mul] at this
      rw [if_neg (by omega)]
    · have := Nat.mul_le_mul_right width (succ_le_of_lt hgt)
      rw [succ_mul] at this
      rw [if_pos (by omega), getD_eq_getElem?_getD, getElem?_eq_none (by omega), Option.getD_none]

theorem frameAt_writeFrames {pos : Nat} (hframes : ∀ f ∈ frames, f.length = width) :
    frameAt (writeFrames cells width pcm pos frames) width = put cells (frameAt pcm width) (pos % cells) frames := by
  induction frames generalizing pcm pos with
  | nil => rfl
  | cons f frames ih =>
    obtain ⟨hf, hframes⟩ := forall_mem_cons.1 hframes
    rw [writeFrames, ih hframes, frameAt_writeFrame hf, put, mod_add_mod]

end Write

/-! ### Calls -/

/-- What holds of a stream at all times. -/
structure AudioOk (s : AudioStream) : Prop where
  capacity : s.cells.toNat < 2 ^ 31
  cells : s.cells.toNat = s.capacity.toNat
  rate : s.rate.toNat ≤ 1600000
  head : s.head < s.cells
  queued : s.queued ≤ s.cells
  buffer : s.bufferSize ≤ s.cells
  written : s.framesWritten = s.framesRead + s.queued.toUInt64

section Calls
variable {s s' : AudioStream} {outputRate outputChannels frames : UInt32} {float : Nat → Int} {data : Nat → UInt8}
    {c : AudioConfig}

theorem AudioOk.start (h : AudioOk s) : Mixing.Ok ⟨s.head, s.queued, s.phase, 0⟩ s.cells := ⟨h.head, h.queued⟩

/-- What a stream has to play: what is owed, and the frames that are queued. -/
def AudioStream.view (s : AudioStream) : Nat × List (List Int) := (s.phase.toNat, s.frames)

theorem mix_eq (frames : UInt32) (h : AudioOk s) (hrate : outputRate ≠ 0) (hchannels : outputChannels ≠ 0)
    (advance : Bool) : let y := play outputRate.toNat s.grow frames.toNat (Resampling.settle outputRate.toNat s.view)
    (s.mix frames outputRate outputChannels advance).1 = y.1.map (outputFrame s.width outputChannels.toNat) ∧
    AudioOk (s.mix frames outputRate outputChannels advance).2 ∧
    (s.mix frames outputRate outputChannels advance).2.rate = s.rate ∧
    (s.mix frames outputRate outputChannels advance).2.width = s.width ∧
    (s.mix frames outputRate outputChannels advance).2.view = if advance then y.2 else s.view := by
  unfold AudioStream.mix
  by_cases hempty : s.queued = 0
  · have hframes : s.frames = [] := by
      rw [AudioStream.frames, hempty]
      rfl
    have hplay :
        play outputRate.toNat s.grow frames.toNat (s.phase.toNat, ([] : List (List Int))) = ([], (s.phase.toNat, [])) := by
      cases frames.toNat <;> rfl
    rw [if_pos (.inr (.inr hempty))]
    dsimp only
    rw [AudioStream.view, hframes, settle_nil, hplay]
    exact ⟨rfl, h, rfl, rfl, (ite_self _).symm⟩
  · rw [if_neg (by simp [hrate, hchannels, hempty])]
    obtain ⟨hok, hcount⟩ := settle_ok outputRate h.start h.capacity
    obtain ⟨hout, hview, hend, hcount'⟩ := mixLoop_eq outputRate outputChannels hok h.capacity frames.toNat
    rw [settle_view outputRate s.ring h.start h.capacity] at hout hview
    generalize mixLoop s outputRate outputChannels frames.toNat
      (Mixing.settle ⟨s.head, s.queued, s.phase, 0⟩ s.cells outputRate) = r at hout hview hend hcount' ⊢
    obtain ⟨out, m⟩ := r
    refine ⟨hout, ?_, ?_, ?_, ?_⟩
    · cases advance with
      | false => exact h
      | true =>
        refine ⟨h.capacity, h.cells, h.rate, hend.pos, hend.left, h.buffer, ?_⟩
        have hsum : m.consumed + m.left.toUInt64 = 0 + s.queued.toUInt64 := hcount'.trans hcount
        show s.framesWritten = s.framesRead + m.consumed + m.left.toUInt64
        rw [UInt64.add_assoc, hsum, UInt64.zero_add]
        exact h.written
    · cases advance <;> rfl
    · cases advance <;> rfl
    · cases advance with
      | false => rfl
      | true => exact hview

theorem length_input {n : Nat} : ∀ f ∈ s.input float data n, f.length = s.width := by
  intro f hf
  obtain ⟨i, -, rfl⟩ := List.mem_map.1 hf
  rw [length_map, length_range]

theorem available_le (h : AudioOk s) : s.queued.toNat + s.available.toNat ≤ s.cells.toNat := by
  have hqueued := UInt32.le_iff_toNat_le.1 h.queued
  have hbuffer := UInt32.le_iff_toNat_le.1 h.buffer
  unfold AudioStream.available
  split_ifs with hfull
  · exact hqueued
  · have hle := (UInt32.not_le.1 hfull)
    rw [UInt32.toNat_sub_of_le _ _ (UInt32.le_of_lt hle)]
    have := UInt32.lt_iff_toNat_lt.1 hle
    omega

theorem enqueue_eq (float : Nat → Int) (data : Nat → UInt8) (frames : UInt32) (h : AudioOk s) :
    AudioOk (s.enqueue float (some data) frames).2 ∧
    (s.enqueue float (some data) frames).2.rate = s.rate ∧ (s.enqueue float (some data) frames).2.width = s.width ∧
    (s.enqueue float (some data) frames).2.view =
      (s.phase.toNat, s.frames ++ s.input float data (min frames s.available).toNat) := by
  have hroom := available_le h
  have hcapacity := h.capacity
  unfold AudioStream.enqueue
  dsimp only
  generalize hn : min frames s.available = n
  have hle : n.toNat ≤ s.available.toNat := by
    rw [← hn, toNat_min32]
    exact Nat.min_le_right _ _
  by_cases hzero : n = 0
  · rw [if_pos hzero, hzero]
    refine ⟨h, rfl, rfl, ?_⟩
    rw [AudioStream.view]
    simp [AudioStream.input]
  rw [if_neg hzero]
  have hsum : (s.queued + n).toNat = s.queued.toNat + n.toNat := toNat_add32 (by omega)
  refine ⟨⟨h.capacity, h.cells, h.rate, h.head, ?_, h.buffer, ?_⟩, rfl, rfl, ?_⟩
  · rw [le_iff_toNat_le, hsum]
    show _ ≤ s.cells.toNat
    omega
  · show s.framesWritten + n.toUInt64 = s.framesRead + (s.queued + n).toUInt64
    have hwide : (s.queued + n).toUInt64 = s.queued.toUInt64 + n.toUInt64 := by
      have hq := s.queued.toNat_lt
      have hn' := n.toNat_lt
      rw [← UInt64.toNat_inj, toNat_toUInt64, hsum, UInt64.toNat_add, toNat_toUInt64, toNat_toUInt64]
      exact (mod_eq_of_lt (by omega)).symm
    rw [hwide, ← UInt64.add_assoc, ← h.written]
  · have hlength : (s.input float data n.toNat).length = n.toNat := by
      rw [AudioStream.input, length_map, length_range]
    refine Prod.ext rfl ?_
    show window s.cells.toNat (frameAt (writeFrames s.cells.toNat s.width s.pcm (s.head.toNat + s.queued.toNat)
      (s.input float data n.toNat)) s.width) s.head.toNat (s.queued + n).toNat = s.frames ++ s.input float data n.toNat
    rw [frameAt_writeFrames length_input, hsum]
    have hput : s.queued.toNat + (s.input float data n.toNat).length ≤ s.cells.toNat →
        window s.cells.toNat (put s.cells.toNat s.ring ((s.head.toNat + s.queued.toNat) % s.cells.toNat)
          (s.input float data n.toNat))
          s.head.toNat (s.queued.toNat + (s.input float data n.toNat).length) = s.frames ++ s.input float data n.toNat :=
            window_put
    rw [hlength] at hput
    exact hput (by omega)

theorem mix_zero (h : outputRate = 0 ∨ outputChannels = 0) (advance : Bool) :
    s.mix frames outputRate outputChannels advance = ([], s) := by
  unfold AudioStream.mix
  rw [if_pos (h.imp_right Or.inl)]

theorem check_passed {p : Prop} [Decidable p] {e r : AudioResult} (h : (if p then e else r) = .ok) (he : e ≠ .ok) :
    ¬p ∧ r = .ok := by
  by_cases hp : p
  · rw [if_pos hp] at h
    exact absurd h he
  · rw [if_neg hp] at h
    exact ⟨hp, h⟩

theorem validate_rate (h : c.validate = .ok) : c.sampleRate = 0 ∨ 8000 ≤ c.sampleRate ∧ c.sampleRate ≤ 1600000 := by
  unfold AudioConfig.validate at h
  iterate 8 obtain ⟨-, h⟩ := check_passed h nofun
  obtain ⟨hrate, -⟩ := check_passed h nofun
  omega

theorem filled_rate (h : c.validate = .ok) : 8000 ≤ c.filled.sampleRate ∧ c.filled.sampleRate ≤ 1600000 := by
  rcases validate_rate h with hzero | hrange
  · simp [AudioConfig.filled, hzero]
  · have hne : c.sampleRate ≠ 0 := by omega
    simpa [AudioConfig.filled, hne] using hrange

theorem two_le_requested (c : AudioConfig) : 2 ≤ c.requested := by
  have hburst : 1 ≤ c.burst := le_max_left 1 _
  have hle : c.burst * 2 ≤ c.requested := le_max_right _ _
  omega

theorem negotiate_ok (h : negotiate c true = .ok s) : AudioOk s ∧ s.view = (0, []) := by
  unfold negotiate at h
  split_ifs at h with hvalid hdirection hdevice hrange
  cases h
  obtain ⟨hlow, hhigh⟩ := filled_rate (not_not.1 hvalid)
  obtain ⟨hsmall, -⟩ := not_or.1 hrange
  have htwo := two_le_requested c.filled
  have hcells : (AudioStream.new c.filled).cells.toNat = c.filled.requested.toNat := by
    show (UInt32.ofNat c.filled.requested.toNat).toNat = _
    rw [toNat_ofNat']
    omega
  refine ⟨⟨by omega, hcells, ?_, ?_, UInt32.zero_le, UInt32.le_refl _, rfl⟩, rfl⟩
  · show (UInt32.ofNat c.filled.sampleRate.toNat).toNat ≤ 1600000
    rw [toNat_ofNat']
    omega
  · rw [lt_iff_toNat_lt, hcells]
    show 0 < _
    omega

theorem resize_ok {requested : Int} (h : AudioOk s) (hs : s.resize requested = .ok s') : AudioOk s' ∧ s'.rate = s.rate ∧
    s'.width = s.width ∧ s'.view = s.view := by
  unfold AudioStream.resize at hs
  by_cases hneg : requested < 0
  · rw [if_pos hneg] at hs
    cases hs
  rw [if_neg hneg] at hs
  cases hs
  refine ⟨⟨h.capacity, h.cells, h.rate, h.head, h.queued, ?_, h.written⟩, rfl, rfl, rfl⟩
  have hcapacity := h.capacity
  have hcells := h.cells
  rw [le_iff_toNat_le, toNat_ofNat']
  show _ ≤ s.cells.toNat
  omega

theorem clear_ok (h : AudioOk s) : AudioOk s.clear ∧ s.clear.rate = s.rate ∧ s.clear.width = s.width ∧
    s.clear.view = (0, []) := by
  refine ⟨⟨h.capacity, h.cells, h.rate, ?_, UInt32.zero_le, h.buffer, ?_⟩, rfl, rfl, rfl⟩
  · exact UInt32.lt_of_le_of_lt UInt32.zero_le h.head
  · show s.framesWritten = s.framesRead + s.queued.toUInt64 + (0 : UInt32).toUInt64
    rw [← h.written]
    exact (UInt64.add_zero _).symm

end Calls

/-! ### Runs -/

section Runs
variable {s : AudioStream} {outputRate outputChannels : UInt32} {float : Nat → Int} {input output : List (List Int)}
    {m : Mixing}

theorem AudioReach.ok (h : AudioReach float outputRate outputChannels s input output) : AudioOk s := by
  induction h with
  | negotiated hs => exact (negotiate_ok hs).1
  | enqueue data frames _ ih => exact (enqueue_eq _ data frames ih).1
  | refused frames _ ih =>
    unfold AudioStream.enqueue
    dsimp only
    split_ifs <;> exact ih
  | mix frames _ ih =>
    by_cases hzero : outputRate = 0 ∨ outputChannels = 0
    · rwa [mix_zero hzero]
    · obtain ⟨hrate, hchannels⟩ := not_or.1 hzero
      exact (mix_eq frames ih hrate hchannels true).2.1
  | look frames _ ih =>
    by_cases hzero : outputRate = 0 ∨ outputChannels = 0
    · rwa [mix_zero hzero]
    · obtain ⟨hrate, hchannels⟩ := not_or.1 hzero
      exact (mix_eq frames ih hrate hchannels false).2.1
  | resize requested _ hs ih => exact (resize_ok ih hs).1
  | clear _ ih => exact (clear_ok ih).1

/-- A call that does not advance changes nothing. -/
theorem mix_look (s : AudioStream) (frames outputRate outputChannels : UInt32) :
    (s.mix frames outputRate outputChannels false).2 = s := by
  unfold AudioStream.mix
  by_cases hzero : outputRate = 0 ∨ outputChannels = 0 ∨ s.queued = 0
  · rw [if_pos hzero]
  · rw [if_neg hzero]
    rfl

theorem refused_eq (s : AudioStream) (frames : UInt32) : (s.enqueue float none frames).2 = s := by
  unfold AudioStream.enqueue
  dsimp only
  split_ifs <;> rfl

/-- The output so far is what the input gives, and what is queued gives what comes then, whatever else is queued behind. -/
def PlaysOn (outputRate outputChannels : Nat) (s : AudioStream) (input output : List (List Int)) : Prop :=
  ∃ raw : List (List Int), output = raw.map (outputFrame s.width outputChannels) ∧ ∀ (m : Nat) (more : List (List Int)),
    play outputRate s.grow (raw.length + m) (Resampling.settle outputRate (0, input ++ more)) =
      let rest := play outputRate s.grow m (Resampling.settle outputRate (s.phase.toNat, s.frames ++ more))
      (raw ++ rest.1, rest.2)

theorem playsOn_empty {rate channels : Nat} (h : s.view = (0, [])) : PlaysOn rate channels s [] [] := by
  obtain ⟨hphase, hframes⟩ := Prod.mk.inj h
  refine ⟨[], rfl, fun m more => ?_⟩
  rw [hphase, hframes, length_nil, Nat.zero_add]
  rfl

theorem AudioReach.playsOn (h : AudioReach float outputRate outputChannels s input output) (hrate : outputRate ≠ 0)
    (hchannels : outputChannels ≠ 0) : PlaysOn outputRate.toNat outputChannels.toNat s input output := by
  have hpos : 0 < outputRate.toNat := Nat.pos_of_ne_zero fun hzero => hrate (UInt32.toNat_inj.1 hzero)
  induction h with
  | negotiated hs => exact playsOn_empty (negotiate_ok hs).2
  | @enqueue s input output data frames hreach ih =>
    obtain ⟨raw, rfl, hraw⟩ := ih
    obtain ⟨-, hsame, hwidth, hview⟩ := enqueue_eq float data frames hreach.ok
    obtain ⟨hphase, hframes⟩ := Prod.mk.inj hview
    refine ⟨raw, by rw [hwidth], fun m more => ?_⟩
    have hgrow : (s.enqueue float (some data) frames).2.grow = s.grow := by
      funext x
      rw [AudioStream.grow, hsame, AudioStream.grow]
    rw [hgrow, hphase, hframes, append_assoc, append_assoc]
    exact hraw m _
  | refused frames _ ih => rwa [refused_eq]
  | @mix s input output frames hreach ih =>
    obtain ⟨raw, rfl, hraw⟩ := ih
    obtain ⟨hout, -, hsame, hwidth, hview⟩ := mix_eq frames hreach.ok hrate hchannels true
    obtain ⟨hphase, hframes⟩ := Prod.mk.inj hview
    have hgrow : (s.mix frames outputRate outputChannels true).2.grow = s.grow := by
      funext x
      rw [AudioStream.grow, hsame, AudioStream.grow]
    refine ⟨raw ++ (play outputRate.toNat s.grow frames.toNat (Resampling.settle outputRate.toNat s.view)).1, ?_,
      fun m more => ?_⟩
    · rw [hout, hwidth, map_append]
    · have hnext : play outputRate.toNat s.grow
          ((play outputRate.toNat s.grow frames.toNat (Resampling.settle outputRate.toNat s.view)).1.length + m)
          (Resampling.settle outputRate.toNat (s.phase.toNat, s.frames ++ more)) =
          let y := play outputRate.toNat s.grow frames.toNat (Resampling.settle outputRate.toNat s.view)
          let rest := play outputRate.toNat s.grow m (Resampling.settle outputRate.toNat (y.2.1, y.2.2 ++ more))
          (y.1 ++ rest.1, rest.2) := by
        rw [← settle_append hpos]
        exact play_append hpos (settle_settle hpos)
      rw [hgrow, hphase, hframes, length_append, Nat.add_assoc, hraw _ more, hnext]
      dsimp only
      rw [append_assoc]
  | look frames _ ih => rwa [mix_look]
  | @resize s s' input output requested hreach hs ih =>
    obtain ⟨raw, rfl, hraw⟩ := ih
    obtain ⟨-, hsame, hwidth, hview⟩ := resize_ok hreach.ok hs
    obtain ⟨hphase, hframes⟩ := Prod.mk.inj hview
    have hgrow : s'.grow = s.grow := by
      funext x
      rw [AudioStream.grow, hsame, AudioStream.grow]
    refine ⟨raw, by rw [hwidth], fun m more => ?_⟩
    rw [hgrow, hphase, hframes]
    exact hraw m more
  | clear hreach _ => exact playsOn_empty (clear_ok hreach.ok).2.2.2

theorem AudioReach.output_nil (h : AudioReach float outputRate outputChannels s input output)
    (hzero : outputRate = 0 ∨ outputChannels = 0) : output = [] := by
  induction h with
  | negotiated hs => rfl
  | enqueue data frames _ ih => exact ih
  | refused frames _ ih => exact ih
  | mix frames _ ih => rw [mix_zero hzero, ih, append_nil]
  | look frames _ ih => exact ih
  | resize requested _ hs ih => exact ih
  | clear _ ih => rfl

theorem AudioOk.settles (h : AudioOk s) (hm : s.Settles outputRate m) : m.Ok s.cells := by
  induction hm with
  | start => exact h.start
  | next _ _ ih =>
    have hok := (settle_ok outputRate ih h.capacity).1
    exact ⟨hok.pos, hok.left⟩

theorem settled_lt {cells : UInt32} (hm : m.Ok cells) (hcells : cells.toNat < 2 ^ 31) (hrate : outputRate ≠ 0)
    (hleft : (m.settle cells outputRate).left ≠ 0) : (m.settle cells outputRate).remainder.toNat < outputRate.toNat := by
  have hpos : 0 < outputRate.toNat := Nat.pos_of_ne_zero fun hzero => hrate (UInt32.toNat_inj.1 hzero)
  have hview := settle_view outputRate (fun _ => []) hm hcells
  have hne : (Resampling.settle outputRate.toNat (m.view cells fun _ => [])).2 ≠ [] := by
    rw [← hview, ← length_pos_iff, Mixing.view, length_window]
    exact Nat.pos_of_ne_zero fun hzero => hleft (UInt32.toNat_inj.1 hzero)
  have hlt := settle_lt hpos hne
  rwa [← hview] at hlt

/-- Whatever is written and played in whatever portions, the output is the beginning of what the input gives at once, in an
    abstract queue and in any stream that holds it. Positions stay in the ring, and nothing wraps, but what is owed when the
    output rate and the rate of the stream are together more than 2^32. -/
theorem audio_independent (h : AudioReach float outputRate outputChannels s input output) :
    (s.head < s.cells ∧ s.queued ≤ s.cells ∧ s.framesWritten = s.framesRead + s.queued.toUInt64) ∧
    (∀ frames, (s.mix frames outputRate outputChannels false).2 = s) ∧
    (outputRate ≠ 0 → ∀ m, s.Settles outputRate m →
      let n := min m.left (m.remainder / outputRate)
      m.pos.toNat + n.toNat < 2 ^ 32 ∧ n ≤ m.left ∧ n.toNat * outputRate.toNat < 2 ^ 32 ∧ n * outputRate ≤ m.remainder ∧
        (outputRate.toNat + s.rate.toNat ≤ 2 ^ 32 → (m.settle s.cells outputRate).left ≠ 0 →
          (m.settle s.cells outputRate).remainder.toNat + s.rate.toNat < 2 ^ 32)) ∧
    (∀ n, output.length ≤ n →
      output <+: (play outputRate.toNat s.grow n (Resampling.settle outputRate.toNat (0, input))).1.map
      (outputFrame s.width outputChannels.toNat)) ∧
    ∀ t : AudioStream, AudioOk t → t.rate = s.rate → t.width = s.width → t.phase = 0 → t.frames = input →
      ∀ frames advance, output.length ≤ frames.toNat → output <+: (t.mix frames outputRate outputChannels advance).1 := by
  have hok := h.ok
  have hplay :
      ∀ n, output.length ≤ n →
        output <+: (play outputRate.toNat s.grow n (Resampling.settle outputRate.toNat (0, input))).1.map
      (outputFrame s.width outputChannels.toNat) := by
    intro n hn
    by_cases hzero : outputRate = 0 ∨ outputChannels = 0
    · rw [h.output_nil hzero]
      exact nil_prefix
    obtain ⟨hrate, hchannels⟩ := not_or.1 hzero
    obtain ⟨raw, rfl, hraw⟩ := h.playsOn hrate hchannels
    rw [length_map] at hn
    obtain ⟨m, rfl⟩ := Nat.exists_eq_add_of_le hn
    have hmore := hraw m []
    rw [append_nil] at hmore
    rw [hmore, map_append]
    exact prefix_append _ _
  refine ⟨⟨hok.head, hok.queued, hok.written⟩, fun frames => mix_look s frames _ _, fun hrate m hm => ?_, hplay, ?_⟩
  · have hm' := hok.settles hm
    obtain ⟨-, hpos, hle, hmul, hsub⟩ := settle_numbers outputRate hm' hok.capacity
    refine ⟨hpos, hle, hmul, hsub, fun hsum hleft => ?_⟩
    have hlt := settled_lt hm' hok.capacity hrate hleft
    omega
  · intro t ht hrate hwidth hphase hframes frames advance hlength
    by_cases hzero : outputRate = 0 ∨ outputChannels = 0
    · rw [h.output_nil hzero]
      exact nil_prefix
    obtain ⟨hrate', hchannels⟩ := not_or.1 hzero
    have hgrow : t.grow = s.grow := by
      funext x
      rw [AudioStream.grow, hrate, AudioStream.grow]
    have hview : t.view = (0, input) := by
      rw [AudioStream.view, hphase, hframes]
      rfl
    rw [(mix_eq frames ht hrate' hchannels advance).1, hgrow, hview, hwidth]
    exact hplay frames.toNat hlength

/-- A stream of one channel and 8000 frames a second. -/
def monoConfig : AudioConfig := ⟨0, 1, 1, 8000, 0, 0, 1, 10, 0, 1, 2, 6, 0⟩

def monoStream : AudioStream := ((AudioStream.new monoConfig.filled).enqueue (fun _ => 0) (some fun _ => 0) 1).2

theorem monoStream_reach (outputRate : UInt32) :
    AudioReach (fun _ => 0) outputRate 1 monoStream ([] ++
      (AudioStream.new monoConfig.filled).input (fun _ => 0) (fun _ => 0) 1) [] :=
  AudioReach.enqueue (fun _ => 0) 1 (.negotiated (c := monoConfig) rfl)

/-- The samples 1, 2, 3 and so on. -/
def counting (p : Nat) : UInt8 := if p % 2 = 0 then UInt8.ofNat (p / 2 + 1) else 0

/-- Three frames are written and two are played, then two are written and five are played, at twice the rate. -/
theorem audio_independent_portions : ∃ (s : AudioStream) (input output : List (List Int)),
    AudioReach (fun _ => 0) 16000 1 s input output ∧ input = [[1], [2], [3], [1], [2]] ∧
    output = [[1], [1], [2], [2], [3], [3], [1]] ∧
    output <+: (play 16000 s.grow 7 (Resampling.settle 16000 (0, input))).1.map (outputFrame s.width 1) := by
  have h₁ : AudioReach (fun _ => 0) 16000 1 _ _ [] := AudioReach.enqueue counting 3 (.negotiated (c := monoConfig) rfl)
  have h₂ := (h₁.mix 2).enqueue counting 2
  have h₃ := h₂.mix 5
  refine ⟨_, _, _, h₃, by decide +kernel, by decide +kernel, ?_⟩
  exact (audio_independent h₃).2.2.2.1 7 (by decide +kernel)

theorem settle_self {cells : UInt32} (hm : m.Ok cells) (hlt : m.remainder < outputRate) :
    m.settle cells outputRate = m := by
  have hn : min m.left (m.remainder / outputRate) = 0 := by
    rw [← UInt32.toNat_inj, toNat_min32, UInt32.toNat_div, div_eq_of_lt (UInt32.lt_iff_toNat_lt.1 hlt)]
    exact Nat.min_zero _
  have hpos : m.pos % cells = m.pos := by
    rw [← UInt32.toNat_inj, UInt32.toNat_mod, mod_eq_of_lt (UInt32.lt_iff_toNat_lt.1 hm.pos)]
  unfold Mixing.settle
  rw [hn]
  simp [hpos]

theorem monoStream_settle {k : Nat} (hk : 8000 * k < 4294967295) :
    Mixing.settle ⟨0, 1, UInt32.ofNat (8000 * k), 0⟩ monoStream.cells 4294967295 = ⟨0, 1, UInt32.ofNat (8000 * k), 0⟩ := by
  have hpos : (0 : UInt32) < monoStream.cells := by decide
  have hleft : (1 : UInt32) ≤ monoStream.cells := by decide
  refine settle_self ⟨hpos, hleft⟩ ?_
  rw [lt_iff_toNat_lt, toNat_ofNat']
  exact Nat.lt_of_le_of_lt (mod_le _ _) hk

theorem monoStream_settles : ∀ k : Nat, 8000 * k < 4294967295 →
    monoStream.Settles 4294967295 ⟨0, 1, UInt32.ofNat (8000 * k), 0⟩
  | 0, _ => .start
  | k + 1, hk => by
    have hk' : 8000 * k < 4294967295 := by omega
    have hleft : (1 : UInt32) ≠ 0 := by decide
    have hnext := (monoStream_settles k hk').next (by rw [monoStream_settle hk']; exact hleft)
    have hrate : monoStream.rate = UInt32.ofNat 8000 := rfl
    rwa [monoStream_settle hk', hrate, ← ofNat_add] at hnext

/-- At an output rate near 2^32 what is owed wraps. -/
theorem audio_phase_wraps : ∃ (s : AudioStream) (input output : List (List Int)) (outputRate : UInt32) (m : Mixing),
    AudioReach (fun _ => 0) outputRate 1 s input output ∧ outputRate ≠ 0 ∧ s.Settles outputRate m ∧
      (m.settle s.cells outputRate).left ≠ 0 ∧ 2 ^ 32 ≤ (m.settle s.cells outputRate).remainder.toNat + s.rate.toNat := by
  have hk : 8000 * 536870 < 4294967295 := by decide
  refine ⟨monoStream, _, [], 4294967295, _, monoStream_reach _, by decide, monoStream_settles 536870 hk, ?_, ?_⟩ <;>
    rw [monoStream_settle hk] <;> decide

end Runs

end Lunaria.Media
