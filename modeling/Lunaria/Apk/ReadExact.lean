import Lunaria.Apk.View

/-! `zip_read` with what it writes: it delivers an entry exactly when the archive holds one that decodes to the size and the
    sum that the directory says, however the decoder cuts its output, and it never writes more than that size. -/

namespace Lunaria.Apk
open List Option

section Into
variable (zlib : Inflate) (e : Entry)

/-- A piece of the data is written, unless there is more than the entry says. -/
def deliverInto {σ : Type} (r : Reading σ) (data : List UInt8) : Bool × Reading σ :=
  if e.size < r.data.length ∨ e.size - r.data.length < data.length then (false, r)
  else (true, { r with data := r.data ++ data, crc := crc32 r.crc data })

/-- The inner loop, whether it leaves without an error, and what was written; nothing when the number of rounds is
    exceeded. -/
def inflateInto (left : Nat) : Nat → List UInt8 → Reading zlib.Stream → Option (Bool × Reading zlib.Stream)
  | 0, _, _ => none
  | fuel + 1, input, r =>
    match zlib.inflate r.stream input with
    | (.streamEnd, out, input, stream) =>
      if left ≠ 0 ∨ input ≠ [] then some (false, { r with stream := stream, ended := true })
      else some (deliverInto e { r with stream := stream, ended := true } out)
    | (.bufError, out, input, stream) => some (decide (input = [] ∧ out = []), { r with stream := stream })
    | (.other, _, _, stream) => some (false, { r with stream := stream })
    | (.ok, out, input, stream) =>
      let d := deliverInto e { r with stream := stream } out
      if d.1 = false then some d
      else if input ≠ [] ∨ out.length = 65536 then inflateInto left fuel input d.2
      else some d

variable (fuel : Nat) (cancelled : Nat → Bool)

/-- The outer loop. -/
def readInto {σ : Type} (next : Nat → List UInt8 → Reading σ → Option (Bool × Reading σ)) :
    List (List UInt8) → Nat → Reading σ → Option ((Bool × Reading σ) × Nat)
  | [], polls, r => some ((true, r), polls)
  | input :: rest, polls, r =>
    if cancelled polls then some ((false, r), polls + 1)
    else
      (next (rest.map List.length).sum input r).bind fun p =>
        if p.1 = false ∨ (e.method = 8 ∧ p.2.ended) then some (p, polls + 1) else readInto next rest (polls + 1) p.2

/-- The checks after the loops. -/
def finishInto {σ : Type} (p : (Bool × Reading σ) × Nat) : (Bool × List UInt8) × Nat :=
  ((p.1.1 && complete e p.1.2, p.1.2.data), p.2)

def readDataInto (input : List UInt8) (polls : Nat) : Option ((Bool × List UInt8) × Nat) :=
  if e.method = 8 then
    match zlib.init with
    | none => some ((false, []), polls)
    | some stream =>
      (readInto e cancelled (fun left => inflateInto zlib e left fuel) (pieces input.length input) polls
        ⟨[], crc32 0 [], stream, false⟩).map (finishInto e)
  else
    (readInto e cancelled (fun _ input r => some (deliverInto e r input)) (pieces input.length input) polls
      (⟨[], crc32 0 [], (), true⟩ : Reading Unit)).map (finishInto e)

/-- `zip_read`: whether it returns 0, and what it has written then. -/
def zipReadInto (z : Zip) (capacity : Option Nat) (polls : Nat) : Option ((Bool × List UInt8) × Nat) :=
  if e.flags % 2 = 1 ∨ ¬ (e.method = 0 ∨ e.method = 8) then some ((false, []), polls)
  else
    match dataAt e z with
    | none => some ((false, []), polls)
    | some at' =>
      if capacity.any (· < e.size) then some ((false, []), polls)
      else
        match z.fread at' e.compressed with
        | none => some ((false, []), polls)
        | some input => readDataInto zlib e fuel cancelled input polls

end Into

/-! ### The data alone -/

section Data
variable {zlib : Inflate} {e : Entry} {cancelled : Nat → Bool}

/-- What is left of a result when only the data of a read that went well is kept. -/
def dataOnly {β : Type} (p : Bool × β) : Option β := if p.1 then some p.2 else none

variable {σ : Type}

theorem deliver_eq (r : Reading σ) (data : List UInt8) : deliver e r data = dataOnly (deliverInto e r data) := by
  unfold deliver deliverInto dataOnly
  split <;> rfl

theorem inflateLoop_eq {left : Nat} : ∀ {fuel : Nat} {input : List UInt8} {r : Reading zlib.Stream}
    {p : Bool × Reading zlib.Stream}, inflateInto zlib e left fuel input r = some p →
    inflateLoop zlib e left fuel input r = dataOnly p
  | fuel + 1, input, r, p, h => by
    rw [inflateInto] at h
    rw [inflateLoop]
    obtain ⟨⟨code, out, rest, stream⟩, hstep⟩ : ∃ q, zlib.inflate r.stream input = q := ⟨_, rfl⟩
    rw [hstep] at h ⊢
    cases code with
    | streamEnd =>
      dsimp only at h ⊢
      by_cases htrail : left ≠ 0 ∨ rest ≠ []
      · rw [if_pos htrail] at h ⊢
        rw [← some.inj h]
        rfl
      · rw [if_neg htrail] at h ⊢
        rw [← some.inj h, deliver_eq]
    | bufError =>
      rw [← some.inj h]
      dsimp only [dataOnly]
      by_cases hstall : rest = [] ∧ out = [] <;> simp [hstall]
    | other =>
      rw [← some.inj h]
      rfl
    | ok =>
      dsimp only at h ⊢
      rw [deliver_eq]
      cases hd : deliverInto e { r with stream := stream } out with
      | mk ok r' =>
        rw [hd] at h
        cases ok with
        | false =>
          rw [if_pos rfl] at h
          rw [← some.inj h]
          rfl
        | true =>
          rw [if_neg (by simp)] at h
          show (if rest ≠ [] ∨ out.length = 65536 then inflateLoop zlib e left fuel rest r' else some r') = dataOnly p
          by_cases hmore : rest ≠ [] ∨ out.length = 65536
          · rw [if_pos hmore] at h ⊢
            exact inflateLoop_eq h
          · rw [if_neg hmore] at h ⊢
            rw [← some.inj h]
            rfl

theorem readLoop_eq {next : Nat → List UInt8 → Reading σ → Option (Reading σ)}
    {next' : Nat → List UInt8 → Reading σ → Option (Bool × Reading σ)}
    (hnext : ∀ left input r p, next' left input r = some p → next left input r = dataOnly p) :
    ∀ {l : List (List UInt8)} {polls n : Nat} {r : Reading σ} {p : Bool × Reading σ},
      readInto e cancelled next' l polls r = some (p, n) → readLoop e cancelled next l polls r = (dataOnly p, n)
  | [], polls, n, r, p, h => by
    rw [readInto] at h
    cases h
    rfl
  | input :: rest, polls, n, r, p, h => by
    rw [readInto] at h
    rw [readLoop]
    by_cases hcancel : cancelled polls = true
    · rw [if_pos hcancel] at h ⊢
      cases h
      rfl
    · rw [if_neg hcancel] at h ⊢
      obtain ⟨⟨ok, r'⟩, hp, h⟩ := bind_eq_some_iff.1 h
      rw [hnext _ _ _ _ hp]
      cases ok with
      | false =>
        rw [if_pos (.inl rfl)] at h
        cases h
        rfl
      | true =>
        show (if e.method = 8 ∧
          r'.ended = true then (some r', polls + 1) else readLoop e cancelled next rest (polls + 1) r') = _
        by_cases hended : e.method = 8 ∧ r'.ended = true
        · rw [if_pos (.inr hended)] at h
          rw [if_pos hended]
          cases h
          rfl
        · rw [if_neg (by simp [hended])] at h
          rw [if_neg hended]
          exact readLoop_eq hnext h

theorem finish_eq {p : Bool × Reading σ} {n : Nat} :
    finish e (dataOnly p, n) = (dataOnly (finishInto e (p, n)).1, n) := by
  obtain ⟨ok, r⟩ := p
  cases ok <;> rfl

variable {fuel : Nat} {polls n : Nat}

theorem readData_eq {input : List UInt8} {p : Bool × List UInt8}
    (h : readDataInto zlib e fuel cancelled input polls = some (p, n)) :
    readData zlib e fuel cancelled input polls = (dataOnly p, n) := by
  unfold readDataInto at h
  unfold readData
  by_cases hmethod : e.method = 8
  · rw [if_pos hmethod] at h ⊢
    cases hinit : zlib.init with
    | none =>
      rw [hinit] at h
      cases h
      rfl
    | some stream =>
      rw [hinit] at h
      obtain ⟨⟨q, m⟩, hq, hp⟩ := map_eq_some_iff.1 h
      obtain ⟨hfirst, rfl⟩ := Prod.mk.inj hp
      dsimp only
      rw [readLoop_eq (fun left input r p => inflateLoop_eq) hq, finish_eq, ← hfirst]
      rfl
  · rw [if_neg hmethod] at h ⊢
    obtain ⟨⟨q, m⟩, hq, hp⟩ := map_eq_some_iff.1 h
    obtain ⟨hfirst, rfl⟩ := Prod.mk.inj hp
    have hnext : ∀ (left : Nat) (input : List UInt8) (r : Reading Unit) (p : Bool × Reading Unit),
        some (deliverInto e r input) = some p → deliver e r input = dataOnly p := by
      intro left input r p hp
      rw [deliver_eq, some.inj hp]
    rw [readLoop_eq hnext hq, finish_eq, ← hfirst]
    rfl

end Data

/-! ### A decoder -/

/-- The complete streams of a decoder, and what they decode to: a stream says itself where it ends. -/
structure Deflate where
  decodes : List UInt8 → List UInt8 → Prop
  ne_nil : ∀ {c d}, decodes c d → c ≠ []
  unique : ∀ {c c' d d'}, decodes c d → decodes c' d' → c <+: c' → c = c' ∧ d = d'

/-- What `inflate` is documented to do: `at' s i o` says that a stream in the state `s` has taken the bytes `i` and given
    the bytes `o`. A call takes input and gives output until the one is used up or there is no more room for the other,
    and says where the stream ends, that it could do nothing, or that no stream goes on like this. -/
structure Incremental (zlib : Inflate) (D : Deflate) (at' : zlib.Stream → List UInt8 → List UInt8 → Prop) : Prop where
  init : ∃ s, zlib.init = some s ∧ at' s [] []
  given : ∀ {s i o c d}, at' s i o → D.decodes c d → i <+: c → o <+: d
  streamEnd : ∀ {s i o input out rest s'}, at' s i o → zlib.inflate s input = (.streamEnd, out, rest, s') →
    ∃ used, input = used ++ rest ∧ D.decodes (i ++ used) (o ++ out)
  ok : ∀ {s i o input out rest s'}, at' s i o → zlib.inflate s input = (.ok, out, rest, s') →
    ∃ used, input = used ++ rest ∧ at' s' (i ++ used) (o ++ out) ∧ (used ≠ [] ∨ out ≠ []) ∧
      (rest = [] → out.length ≠ 65536 → ∀ d, ¬ D.decodes (i ++ used) d)
  bufError : ∀ {s i o input out rest s'}, at' s i o → zlib.inflate s input = (.bufError, out, rest, s') →
    input = [] ∧ rest = [] ∧ out = [] ∧ at' s' i o ∧ ∀ d, ¬ D.decodes i d
  other : ∀ {s i o input out rest s'}, at' s i o → zlib.inflate s input = (.other, out, rest, s') →
    ∀ c d, D.decodes c d → ¬ i ++ input <+: c

section Exact
variable {zlib : Inflate} {e : Entry} {D : Deflate} {at' : zlib.Stream → List UInt8 → List UInt8 → Prop}
  {cancelled : Nat → Bool}

/-- What was written is no more than the entry says, and is what was summed. -/
structure Written {σ : Type} (e : Entry) (r : Reading σ) : Prop where
  size : r.data.length ≤ e.size
  crc : r.crc = crc32 0 r.data

theorem crc32_append (a b : List UInt8) : crc32 (crc32 0 a) b = crc32 0 (a ++ b) := by
  unfold crc32
  rw [UInt32.not_not, foldl_append]

variable {σ : Type} {r : Reading σ} {z : Zip} {place : Nat} {fuel polls : Nat} {capacity : Option Nat}

theorem deliverInto_spec (h : Written e r) (data : List UInt8) :
    (r.data.length + data.length ≤ e.size ∧
      deliverInto e r data = (true, { r with data := r.data ++ data, crc := crc32 0 (r.data ++ data) })) ∨
    (e.size < r.data.length + data.length ∧ deliverInto e r data = (false, r)) := by
  have hsize := h.size
  unfold deliverInto
  by_cases hfits : e.size < r.data.length ∨ e.size - r.data.length < data.length
  · rw [if_pos hfits]
    exact .inr ⟨by omega, rfl⟩
  · rw [if_neg hfits, h.crc, crc32_append]
    exact .inl ⟨by omega, rfl⟩

/-- What the inner loop does with one piece of the input, when `i` was taken before: it ends, and without an error only
    when the piece was taken, at the end of the stream or before it. A stream that goes on to its end is followed. -/
theorem inflateInto_spec (hI : Incremental zlib D at') {left : Nat} : ∀ {fuel : Nat} {input i : List UInt8}
    {r : Reading zlib.Stream}, Written e r → r.ended = false → at' r.stream i r.data →
    input.length + (e.size - r.data.length) < fuel →
    ∃ ok r', inflateInto zlib e left fuel input r = some (ok, r') ∧ Written e r' ∧
      (ok = true → (r'.ended = false ∧ at' r'.stream (i ++ input) r'.data) ∨
        (r'.ended = true ∧ left = 0 ∧ D.decodes (i ++ input) r'.data)) ∧
      ∀ later d, later.length = left → D.decodes (i ++ input ++ later) d → d.length ≤ e.size →
        ok = true ∧ (left = 0 → r'.ended = true)
  | 0, _, _, _, _, _, _, hfuel => absurd hfuel (Nat.not_lt_zero _)
  | fuel + 1, input, i, r, hw, hended, hat, hfuel => by
    rw [inflateInto]
    cases hstep : zlib.inflate r.stream input with
    | mk code p =>
    obtain ⟨out, rest, s'⟩ := p
    cases code with
    | streamEnd =>
      obtain ⟨used, rfl, hdec⟩ := hI.streamEnd hat hstep
      dsimp only
      by_cases htrail : left ≠ 0 ∨ rest ≠ []
      · rw [if_pos htrail]
        refine ⟨false, _, rfl, ⟨hw.size, hw.crc⟩, fun h => Bool.noConfusion h, fun later d hlater hd _ => ?_⟩
        -- the stream ends here, so that nothing comes after it
        exfalso
        have hprefix : i ++ used <+: i ++ (used ++ rest) ++ later := ⟨rest ++ later, by simp⟩
        have hlen := congrArg List.length (D.unique hdec hd hprefix).1
        simp only [length_append] at hlen
        rcases htrail with hleft | hrest
        · omega
        · have hpos := length_pos_of_ne_nil hrest
          omega
      · rw [if_neg htrail]
        obtain ⟨rfl, rfl⟩ : left = 0 ∧ rest = [] := by simpa [not_or] using htrail
        have hw' : Written e { r with stream := s', ended := true } := ⟨hw.size, hw.crc⟩
        rw [append_nil] at *
        rcases deliverInto_spec hw' out with ⟨hfits, heq⟩ | ⟨hover, heq⟩
        · rw [heq]
          exact ⟨true, _, rfl, ⟨by simpa using hfits, rfl⟩, fun _ => .inr ⟨rfl, rfl, hdec⟩,
            fun _ _ _ _ _ => ⟨rfl, fun _ => rfl⟩⟩
        · rw [heq]
          refine ⟨false, _, rfl, hw', fun h => Bool.noConfusion h, fun later d hlater hd hsize => ?_⟩
          exfalso
          obtain rfl := length_eq_zero_iff.1 hlater
          rw [append_nil] at hd
          obtain ⟨-, rfl⟩ := D.unique hdec hd (prefix_refl _)
          rw [length_append] at hsize
          exact absurd hover (by dsimp only; omega)
    | bufError =>
      obtain ⟨rfl, rfl, rfl, hat', hno⟩ := hI.bufError hat hstep
      refine ⟨true, _, rfl, ⟨hw.size, hw.crc⟩, fun _ => .inl ⟨hended, by rwa [append_nil]⟩, fun later d hlater hd _ => ?_⟩
      refine ⟨rfl, fun hleft => ?_⟩
      obtain rfl := length_eq_zero_iff.1 (hlater.trans hleft)
      rw [append_nil, append_nil] at hd
      exact absurd hd (hno d)
    | other =>
      refine ⟨false, _, rfl, ⟨hw.size, hw.crc⟩, fun h => Bool.noConfusion h, fun later d _ hd _ => ?_⟩
      exact absurd (prefix_append _ later) (hI.other hat hstep _ d hd)
    | ok =>
      obtain ⟨used, rfl, hat', hprogress, hstop⟩ := hI.ok hat hstep
      have hw' : Written e { r with stream := s' } := ⟨hw.size, hw.crc⟩
      dsimp only
      rcases deliverInto_spec hw' out with ⟨hfits, heq⟩ | ⟨hover, heq⟩
      · rw [heq, if_neg (by simp)]
        have hw₁ : Written e ({ r with stream := s', data := r.data ++ out, crc := crc32 0 (r.data ++ out) } : Reading _) :=
          ⟨by simpa using hfits, rfl⟩
        by_cases hmore : rest ≠ [] ∨ out.length = 65536
        · rw [if_pos hmore]
          have hless : rest.length + (e.size - (r.data ++ out).length) < fuel := by
            have hsome : 0 < used.length + out.length := by
              rcases hprogress with hne | hne
              · exact Nat.add_pos_left (length_pos_of_ne_nil hne) _
              · exact Nat.add_pos_right _ (length_pos_of_ne_nil hne)
            rw [length_append] at hfuel ⊢
            dsimp only at hfits
            omega
          obtain ⟨ok, r', hrun, hwritten, hsound, hfollow⟩ := inflateInto_spec hI hw₁ hended hat' hless
          refine ⟨ok, r', hrun, hwritten, ?_, ?_⟩
          · rw [← append_assoc]
            exact hsound
          · rw [← append_assoc]
            exact hfollow
        · rw [if_neg hmore]
          obtain ⟨hrest, hroom⟩ := not_or.1 hmore
          obtain rfl : rest = [] := not_not.1 hrest
          rw [append_nil] at *
          refine ⟨true, _, rfl, hw₁, fun _ => .inl ⟨hended, hat'⟩, fun later d hlater hd _ => ⟨rfl, fun hleft => ?_⟩⟩
          obtain rfl := length_eq_zero_iff.1 (hlater.trans hleft)
          rw [append_nil] at hd
          exact absurd hd (hstop rfl hroom d)
      · rw [heq, if_pos rfl]
        refine ⟨false, _, rfl, hw', fun h => Bool.noConfusion h, fun later d hlater hd hsize => ?_⟩
        exfalso
        have hgiven := (hI.given hat' hd ⟨rest ++ later, by simp⟩).length_le
        rw [length_append] at hgiven
        dsimp only at hover
        omega

theorem pieces_spec : ∀ {n : Nat} {data : List UInt8}, data.length ≤ n →
    (pieces n data).flatten = data ∧ (pieces n data).length = (data.length + 65535) / 65536 ∧
    ∀ p ∈ pieces n data, p ≠ [] ∧ p.length ≤ 65536
  | 0, data, h => by
    obtain rfl := length_eq_zero_iff.1 (Nat.le_zero.1 h)
    exact ⟨rfl, rfl, fun _ hp => absurd hp not_mem_nil⟩
  | n + 1, data, h => by
    rw [pieces]
    by_cases hnil : data = []
    · rw [if_pos hnil, hnil]
      exact ⟨rfl, rfl, fun _ hp => absurd hp not_mem_nil⟩
    · have hpos := length_pos_of_ne_nil hnil
      obtain ⟨hflat, hcount, hall⟩ := @pieces_spec n (data.drop 65536) (by rw [length_drop]; omega)
      rw [if_neg hnil]
      refine ⟨by rw [flatten_cons, hflat, take_append_drop], ?_, fun p hp => ?_⟩
      · rw [length_cons, hcount, length_drop]
        omega
      · rcases mem_cons.1 hp with rfl | hp
        · exact ⟨fun h0 => hnil (by simpa using h0), length_take_le _ _⟩
        · exact hall p hp

/-- The launcher is asked once for each piece. -/
theorem not_cancelled_cons {polls n : Nat} : (∀ k < n + 1, cancelled (polls + k) = false) ↔
    cancelled polls = false ∧ ∀ k < n, cancelled (polls + 1 + k) = false := by
  constructor
  · intro h
    exact ⟨h 0 (Nat.succ_pos n), fun k hk => (Nat.add_right_comm polls 1 k) ▸ h (k + 1) (Nat.succ_lt_succ hk)⟩
  · rintro ⟨h0, hrest⟩ k hk
    cases k with
    | zero => exact h0
    | succ k =>
      have h := hrest k (Nat.lt_of_succ_lt_succ hk)
      rwa [Nat.add_right_comm] at h

theorem readInto_stored (hmethod : e.method ≠ 8) : ∀ {l : List (List UInt8)} {r : Reading σ} {polls : Nat},
    Written e r → ∃ ok r' n,
      readInto e cancelled (fun _ input r => some (deliverInto e r input)) l polls r = some ((ok, r'), n) ∧ Written e r' ∧
      (ok = true ↔ (r.data ++ l.flatten).length ≤ e.size ∧ ∀ k < l.length, cancelled (polls + k) = false) ∧
      (ok = true → r'.data = r.data ++ l.flatten ∧ r'.ended = r.ended)
  | [], r, polls, hw => by
    refine ⟨true, r, polls, rfl, hw, ⟨fun _ => ⟨?_, nofun⟩, fun _ => rfl⟩, fun _ => ⟨?_, rfl⟩⟩
    · rw [flatten_nil, append_nil]
      exact hw.size
    · rw [flatten_nil, append_nil]
  | input :: rest, r, polls, hw => by
    rw [readInto, length_cons, not_cancelled_cons, flatten_cons, ← append_assoc]
    cases hcancel : cancelled polls with
    | true =>
      rw [if_pos rfl]
      exact ⟨false, r, _, rfl, hw, by simp, by simp⟩
    | false =>
      rw [if_neg Bool.false_ne_true, bind_some]
      rcases deliverInto_spec hw input with ⟨hfits, heq⟩ | ⟨hover, heq⟩
      · have hw' : Written e { r with data := r.data ++ input, crc := crc32 0 (r.data ++ input) } :=
          ⟨by simpa using hfits, rfl⟩
        rw [heq, if_neg (by simp [hmethod])]
        obtain ⟨ok, r', n, hrun, hwritten, hok, hdata⟩ := readInto_stored hmethod (l := rest) hw'
        refine ⟨ok, r', n, hrun, hwritten, ?_, hdata⟩
        rw [hok]
        simp only [true_and]
      · rw [heq, if_pos (.inl rfl)]
        refine ⟨false, r, _, rfl, hw, ⟨fun h => Bool.noConfusion h, fun h => ?_⟩, fun h => Bool.noConfusion h⟩
        have hle := h.1
        rw [length_append, length_append] at hle
        omega

/-- The pieces of a compressed entry, when `i` was taken before them: they end in the end of the stream exactly when they
    make up a stream that fits. -/
theorem readInto_stream (hI : Incremental zlib D at') {fuel : Nat} (hmethod : e.method = 8)
    (hfuel : 65536 + e.size < fuel) :
    ∀ {l : List (List UInt8)} {i : List UInt8} {r : Reading zlib.Stream} {polls : Nat},
      (∀ p ∈ l, p ≠ [] ∧ p.length ≤ 65536) → Written e r → r.ended = false → at' r.stream i r.data →
      ∃ ok r' n, readInto e cancelled (fun left => inflateInto zlib e left fuel) l polls r = some ((ok, r'), n) ∧
        Written e r' ∧ (ok = true → r'.ended = true →
          D.decodes (i ++ l.flatten) r'.data ∧ ∀ k < l.length, cancelled (polls + k) = false) ∧
        ∀ d, D.decodes (i ++ l.flatten) d → d.length ≤ e.size → l ≠ [] → (∀ k < l.length, cancelled (polls + k) = false) →
          ok = true ∧ r'.ended = true
  | [], i, r, polls, _, hw, hended, _ =>
    ⟨true, r, polls, rfl, hw, fun _ h => absurd (hended.symm.trans h) Bool.false_ne_true, fun _ _ _ h _ => absurd rfl h⟩
  | input :: rest, i, r, polls, hl, hw, hended, hat => by
    obtain ⟨hinput, hrest⟩ := forall_mem_cons.1 hl
    rw [readInto, length_cons, not_cancelled_cons, flatten_cons, ← append_assoc]
    cases hcancel : cancelled polls with
    | true =>
      rw [if_pos rfl]
      exact ⟨false, r, _, rfl, hw, fun h => Bool.noConfusion h, by simp⟩
    | false =>
      rw [if_neg Bool.false_ne_true]
      obtain ⟨ok, r', hrun, hw', hsound, hfollow⟩ :=
        @inflateInto_spec _ _ _ _ hI (rest.map List.length).sum fuel input _ _ hw hended hat (by omega)
      rw [hrun, bind_some]
      have hflat : rest.flatten.length = (rest.map List.length).sum := length_flatten
      have hnil : (rest.map List.length).sum = 0 → rest = [] := by
        intro hzero
        cases rest with
        | nil => rfl
        | cons p rest =>
          have hpos := length_pos_of_ne_nil (hrest p mem_cons_self).1
          rw [map_cons, sum_cons] at hzero
          omega
      cases ok with
      | false =>
        rw [if_pos (.inl rfl)]
        refine ⟨false, r', _, rfl, hw', fun h => Bool.noConfusion h, fun d hd hsize _ _ => ?_⟩
        cases (hfollow rest.flatten d hflat hd hsize).1
      | true =>
        rcases hsound rfl with ⟨hopen, hat'⟩ | ⟨hend, hleft, hdec⟩
        · rw [if_neg (by simp [hopen])]
          by_cases hlast : rest = []
          · -- the last piece was taken, and the stream has not ended
            subst hlast
            refine ⟨true, r', _, rfl, hw', fun _ h => absurd (hopen.symm.trans h) Bool.false_ne_true,
              fun d hd hsize _ _ => ?_⟩
            cases hopen.symm.trans ((hfollow [] d rfl hd hsize).2 rfl)
          · obtain ⟨ok, r₂, n, hrun₂, hw₂, hsound₂, hfollow₂⟩ :=
              readInto_stream hI hmethod hfuel (l := rest) hrest hw' hopen hat'
            exact ⟨ok, r₂, n, hrun₂, hw₂, fun h1 h2 => ⟨(hsound₂ h1 h2).1, rfl, (hsound₂ h1 h2).2⟩,
              fun d hd hsize _ hno => hfollow₂ d hd hsize hlast hno.2⟩
        · rw [if_pos (.inr ⟨hmethod, hend⟩)]
          obtain rfl := hnil hleft
          refine ⟨true, r', _, rfl, hw', fun _ _ => ⟨?_, rfl, nofun⟩, fun _ _ _ _ _ => ⟨rfl, hend⟩⟩
          rw [flatten_nil, append_nil]
          exact hdec

/-- The archive holds the entry's data, and it decodes to what the directory says. -/
structure Readable (D : Deflate) (e : Entry) (z : Zip) (capacity : Option Nat) (data : List UInt8) : Prop where
  plain : e.flags % 2 = 0
  method : e.method = 0 ∨ e.method = 8
  held : ∃ header place input, z.fread e.offset 30 = some header ∧ le32 header 0 = 0x04034b50 ∧
    place = e.offset + 30 + le16 header 26 + le16 header 28 ∧ place + e.compressed ≤ z.size ∧
    z.fread place e.compressed = some input ∧ (e.method = 0 → data = input) ∧ (e.method = 8 → D.decodes input data)
  size : data.length = e.size
  crc : (crc32 0 data).toNat = e.crc
  room : ∀ n ∈ capacity, e.size ≤ n

theorem dataAt_eq_some : dataAt e z = some place ↔ ∃ header, z.fread e.offset 30 = some header ∧
    le32 header 0 = 0x04034b50 ∧ place = e.offset + 30 + le16 header 26 + le16 header 28 ∧
      place + e.compressed ≤ z.size := by
  unfold dataAt
  simp only [bind_eq_bind, bind_none, Option.pure_def, bind_eq_some_iff]
  refine exists_congr fun header => and_congr_right fun _ => ?_
  by_cases hsign : le32 header 0 = 0x04034b50
  · rw [if_neg (not_not.2 hsign)]
    by_cases hin : z.size < e.offset + 30 + le16 header 26 + le16 header 28 ∨
        z.size - (e.offset + 30 + le16 header 26 + le16 header 28) < e.compressed
    · rw [if_pos hin]
      exact ⟨nofun, fun h => absurd h.2 (by omega)⟩
    · rw [if_neg hin, Option.some.injEq]
      exact ⟨fun h => ⟨hsign, h.symm, by omega⟩, fun h => h.2.1.symm⟩
  · rw [if_pos hsign]
    exact ⟨nofun, fun h => absurd h.1 hsign⟩

theorem fread_length {off n : Nat} {data : List UInt8} (h : z.fread off n = some data) : data.length = n := by
  unfold Zip.fread at h
  split at h
  · cases h
  split at h
  · rw [← some.inj h, length_take, length_drop]
    omega
  · cases h

/-- What was read is all there is exactly when the checks after the loops say so. -/
theorem complete_iff (hw : Written e r) :
    complete e r = true ↔ r.ended = true ∧ r.data.length = e.size ∧ (crc32 0 r.data).toNat = e.crc := by
  rw [← hw.crc]
  simp [complete]

theorem readDataInto_stored (hmethod : e.method ≠ 8) (input : List UInt8) :
    ∃ ok written n, readDataInto zlib e fuel cancelled input polls = some ((ok, written), n) ∧ written.length ≤ e.size ∧
      (ok = true ↔ (input.length = e.size ∧ (crc32 0 input).toNat = e.crc) ∧
        ∀ k < (input.length + 65535) / 65536, cancelled (polls + k) = false) ∧
      (ok = true → written = input) := by
  obtain ⟨hflat, hcount, -⟩ := pieces_spec (Nat.le_refl input.length)
  have hw : Written e (⟨[], crc32 0 [], (), true⟩ : Reading Unit) := ⟨Nat.zero_le _, rfl⟩
  obtain ⟨ok, r, n, hrun, hwritten, hok, hdata⟩ :=
    readInto_stored hmethod (l := pieces input.length input) hw
  rw [nil_append, hflat] at hok hdata
  rw [hcount] at hok
  refine ⟨ok && complete e r, r.data, n, ?_, hwritten.size, ?_, fun h => (hdata (Bool.and_eq_true_iff.1 h).1).1⟩
  · rw [readDataInto, if_neg hmethod, hrun]
    rfl
  · rw [Bool.and_eq_true_iff, complete_iff hwritten]
    constructor
    · rintro ⟨h1, hended, hsize, hcrc⟩
      rw [(hdata h1).1] at hsize hcrc
      exact ⟨⟨hsize, hcrc⟩, (hok.1 h1).2⟩
    · rintro ⟨⟨hsize, hcrc⟩, hno⟩
      have h1 := hok.2 ⟨hsize.le, hno⟩
      rw [(hdata h1).1, (hdata h1).2]
      exact ⟨h1, rfl, hsize, hcrc⟩

theorem readDataInto_stream (hI : Incremental zlib D at') (hmethod : e.method = 8)
    (hfuel : 65536 + e.size < fuel) (input : List UInt8) :
    ∃ ok written n, readDataInto zlib e fuel cancelled input polls = some ((ok, written), n) ∧ written.length ≤ e.size ∧
      (ok = true ↔ (∃ d, D.decodes input d ∧ d.length = e.size ∧ (crc32 0 d).toNat = e.crc) ∧
        ∀ k < (input.length + 65535) / 65536, cancelled (polls + k) = false) ∧
      (ok = true → D.decodes input written ∧ written.length = e.size ∧ (crc32 0 written).toNat = e.crc) := by
  obtain ⟨hflat, hcount, hpieces⟩ := pieces_spec (Nat.le_refl input.length)
  obtain ⟨s, hinit, hat⟩ := hI.init
  have hw : Written e (⟨[], crc32 0 [], s, false⟩ : Reading zlib.Stream) := ⟨Nat.zero_le _, rfl⟩
  obtain ⟨ok, r, n, hrun, hwritten, hsound, hfollow⟩ :=
    readInto_stream hI hmethod hfuel hpieces hw rfl hat
  rw [nil_append, hflat, hcount] at hsound hfollow
  have hdone : (ok && complete e r) = true → D.decodes input r.data ∧ r.data.length = e.size ∧
      (crc32 0 r.data).toNat = e.crc ∧ ∀ k < (input.length + 65535) / 65536, cancelled (polls + k) = false := by
    intro h
    obtain ⟨h1, h2⟩ := Bool.and_eq_true_iff.1 h
    obtain ⟨hended, hsize, hcrc⟩ := (complete_iff hwritten).1 h2
    exact ⟨(hsound h1 hended).1, hsize, hcrc, (hsound h1 hended).2⟩
  refine ⟨ok && complete e r, r.data, n, ?_, hwritten.size, ⟨fun h => ?_, ?_⟩, fun h => ?_⟩
  · rw [readDataInto, if_pos hmethod, hinit]
    dsimp only
    rw [hrun]
    rfl
  · obtain ⟨hdec, hsize, hcrc, hno⟩ := hdone h
    exact ⟨⟨r.data, hdec, hsize, hcrc⟩, hno⟩
  · rintro ⟨⟨d, hdec, hsize, hcrc⟩, hno⟩
    have hne : pieces input.length input ≠ [] := fun hnil => D.ne_nil hdec (by rw [← hflat, hnil]; rfl)
    obtain ⟨h1, hended⟩ := hfollow d hdec hsize.le hne hno
    obtain ⟨-, rfl⟩ := D.unique (hsound h1 hended).1 hdec (prefix_refl _)
    exact Bool.and_eq_true_iff.2 ⟨h1, (complete_iff hwritten).2 ⟨hended, hsize, hcrc⟩⟩
  · obtain ⟨hdec, hsize, hcrc, -⟩ := hdone h
    exact ⟨hdec, hsize, hcrc⟩

/-- A read is exact: it ends with at most the size of the entry written, and returns 0 exactly when the
    entry is readable and the launcher does not cancel at one of the pieces; what is written then is the data. -/
def Exactly (zlib : Inflate) (D : Deflate) (e : Entry) (fuel : Nat) (cancelled : Nat → Bool) (z : Zip)
    (capacity : Option Nat) (polls : Nat) : Prop :=
  ∃ ok written n, zipReadInto zlib e fuel cancelled z capacity polls = some ((ok, written), n) ∧ written.length ≤ e.size ∧
    (ok = true ↔ (∃ data, Readable D e z capacity data) ∧
      ∀ k < (e.compressed + 65535) / 65536, cancelled (polls + k) = false) ∧
    (ok = true → Readable D e z capacity written)

theorem exactly_unreadable (hno : ∀ data, ¬ Readable D e z capacity data)
    (hrun : zipReadInto zlib e fuel cancelled z capacity polls = some ((false, []), polls)) :
    Exactly zlib D e fuel cancelled z capacity polls := by
  refine ⟨false, [], polls, hrun, Nat.zero_le _, ⟨fun h => Bool.noConfusion h, fun h => ?_⟩, fun h => Bool.noConfusion h⟩
  obtain ⟨data, hdata⟩ := h.1
  exact absurd hdata (hno data)

theorem readable_iff {input data : List UInt8} (hflag : ¬ e.flags % 2 = 1)
    (hmethod : e.method = 0 ∨ e.method = 8) (hat : dataAt e z = some place)
    (hread : z.fread place e.compressed = some input)
    (hroom : ∀ n ∈ capacity, e.size ≤ n) :
    Readable D e z capacity data ↔ data.length = e.size ∧ (crc32 0 data).toNat = e.crc ∧
      (e.method = 0 → data = input) ∧ (e.method = 8 → D.decodes input data) := by
  obtain ⟨header, hheader, hsign, hplace, hin⟩ := dataAt_eq_some.1 hat
  constructor
  · intro h
    obtain ⟨header', place', input', h1, -, h3, -, h5, h6, h7⟩ := h.held
    cases hheader.symm.trans h1
    rw [h3, ← hplace, hread] at h5
    cases h5
    exact ⟨h.size, h.crc, h6, h7⟩
  · rintro ⟨hsize, hcrc, h0, h8⟩
    exact ⟨by omega, hmethod, ⟨header, place, input, hheader, hsign, hplace, hin, hread, h0, h8⟩, hsize, hcrc, hroom⟩

theorem exactly_found (hI : Incremental zlib D at') {polls fuel place : Nat}
    {input : List UInt8} (hfuel : 65536 + e.size < fuel) (hmethod : e.method = 0 ∨ e.method = 8)
    (hread : z.fread place e.compressed = some input)
    (hrun : zipReadInto zlib e fuel cancelled z capacity polls = readDataInto zlib e fuel cancelled input polls)
    (hreadable : ∀ data, Readable D e z capacity data ↔ data.length = e.size ∧ (crc32 0 data).toNat = e.crc ∧
      (e.method = 0 → data = input) ∧ (e.method = 8 → D.decodes input data)) :
    Exactly zlib D e fuel cancelled z capacity polls := by
  unfold Exactly
  rw [hrun, ← fread_length hread]
  rcases hmethod with h0 | h8
  · have h8 : e.method ≠ 8 := by omega
    obtain ⟨ok, written, n, hdata, hsize, hok, hwritten⟩ :=
      readDataInto_stored h8 input
    refine ⟨ok, written, n, hdata, hsize, hok.trans (and_congr_left' ⟨fun h => ⟨input, ?_⟩, ?_⟩), fun h => ?_⟩
    · exact (hreadable _).2 ⟨h.1, h.2, fun _ => rfl, fun h => absurd h h8⟩
    · rintro ⟨data, hr⟩
      obtain ⟨hs, hc, heq, -⟩ := (hreadable _).1 hr
      obtain rfl := heq h0
      exact ⟨hs, hc⟩
    · obtain rfl := hwritten h
      exact (hreadable _).2 ⟨(hok.1 h).1.1, (hok.1 h).1.2, fun _ => rfl, fun h => absurd h h8⟩
  · have h0 : e.method ≠ 0 := by omega
    obtain ⟨ok, written, n, hdata, hsize, hok, hwritten⟩ :=
      readDataInto_stream hI h8 hfuel input
    refine ⟨ok, written, n, hdata, hsize, hok.trans (and_congr_left' (exists_congr fun d => ?_)), fun h => ?_⟩
    · rw [hreadable]
      exact ⟨fun ⟨h1, h2, h3⟩ => ⟨h2, h3, fun h => absurd h h0, fun _ => h1⟩, fun ⟨h1, h2, _, h4⟩ => ⟨h4 h8, h1, h2⟩⟩
    · obtain ⟨hdec, hs, hc⟩ := hwritten h
      exact (hreadable _).2 ⟨hs, hc, fun h => absurd h h0, fun _ => hdec⟩

/-- Whatever the archive holds and wherever the decoder cuts its output, an entry is read exactly. -/
theorem zipRead_exact (hI : Incremental zlib D at') (z : Zip) (capacity : Option Nat) (polls : Nat) {fuel : Nat}
    (hfuel : 65536 + e.size < fuel) : Exactly zlib D e fuel cancelled z capacity polls := by
  by_cases hkind : e.flags % 2 = 1 ∨ ¬ (e.method = 0 ∨ e.method = 8)
  · refine exactly_unreadable (fun data h => ?_) (by rw [zipReadInto, if_pos hkind])
    rcases hkind with hflag | hmethod
    · exact absurd (hflag.symm.trans h.plain) Nat.one_ne_zero
    · exact hmethod h.method
  obtain ⟨hflag, hmethod⟩ := not_or.1 hkind
  cases hat : dataAt e z with
  | none =>
    refine exactly_unreadable (fun data h => ?_) (by rw [zipReadInto, if_neg hkind, hat])
    obtain ⟨header, place, input, h1, h2, h3, h4, -⟩ := h.held
    cases hat.symm.trans (dataAt_eq_some.2 ⟨header, h1, h2, h3, h4⟩)
  | some place =>
    by_cases hcap : capacity.any (· < e.size)
    · refine exactly_unreadable (fun data h => ?_) (by rw [zipReadInto, if_neg hkind, hat]; dsimp only; rw [if_pos hcap])
      cases capacity with
      | none => simp at hcap
      | some n => exact absurd (h.room n rfl) (by simpa using hcap)
    have hroom : ∀ n ∈ capacity, e.size ≤ n := by
      rintro n rfl
      simpa using hcap
    cases hread : z.fread place e.compressed with
    | none =>
      refine exactly_unreadable (fun data h => ?_)
        (by rw [zipReadInto, if_neg hkind, hat]; dsimp only; rw [if_neg hcap, hread])
      obtain ⟨header, place', input, h1, h2, h3, h4, h5, -⟩ := h.held
      cases hat.symm.trans (dataAt_eq_some.2 ⟨header, h1, h2, h3, h4⟩)
      cases hread.symm.trans h5
    | some input =>
      refine exactly_found hI hfuel (not_not.1 hmethod) hread ?_ fun data =>
        readable_iff hflag (not_not.1 hmethod) hat hread hroom
      rw [zipReadInto, if_neg hkind, hat]
      dsimp only
      rw [if_neg hcap, hread]

end Exact

/-! ### Entries that are read, and entries that are not -/

/-- The header of a stored block that is the last one. -/
def blockHeader (n : Nat) : List UInt8 := 1 :: (number 2 n ++ number 2 (65535 - n))

/-- A decoder of streams of one stored block. -/
inductive Block
  | more
  | bad
  | done (data rest : List UInt8)
  deriving DecidableEq

def readBlock (buf : List UInt8) : Block :=
  if buf.length < 5 then .more
  else if buf.take 5 ≠ blockHeader (le16 buf 1) then .bad
  else if buf.length < 5 + le16 buf 1 then .more
  else .done ((buf.drop 5).take (le16 buf 1)) (buf.drop (5 + le16 buf 1))

def blockStep (buf input : List UInt8) : InflateCode × List UInt8 × List UInt8 × List UInt8 :=
  match readBlock (buf ++ input) with
  | .more => if input = [] then (.bufError, [], [], buf) else (.ok, [], [], buf ++ input)
  | .bad => (.other, [], input, buf)
  | .done data rest => (.streamEnd, data, rest, buf)

def blockInflate : Inflate := ⟨List UInt8, some [], blockStep⟩

section Block

theorem blockHeader_length (n : Nat) : (blockHeader n).length = 5 := rfl

theorem le16_block {n : Nat} (hn : n < 65536) (data : List UInt8) : le16 (blockHeader n ++ data) 1 = n := by
  show (UInt8.ofNat (n / 256 ^ 0)).toNat + (UInt8.ofNat (n / 256 ^ 1)).toNat * 2 ^ 8 = n
  simp only [UInt8.toNat_ofNat']
  omega

theorem readBlock_done {buf data rest : List UInt8} (h : readBlock buf = .done data rest) :
    buf = blockHeader data.length ++ data ++ rest ∧ data.length < 65536 := by
  unfold readBlock at h
  split at h
  · cases h
  rename_i hlong
  split at h
  · cases h
  rename_i hheader
  split at h
  · cases h
  rename_i hroom
  cases h
  have hlen : ((buf.drop 5).take (le16 buf 1)).length = le16 buf 1 := by
    rw [length_take, length_drop]
    omega
  refine ⟨?_, ?_⟩
  · rw [hlen, ← not_not.1 hheader, append_assoc, ← drop_drop, take_append_drop, take_append_drop]
  · have hlo := (buf.getD 1 0).toNat_lt
    have hhi := (buf.getD 2 0).toNat_lt
    rw [hlen]
    show (buf.getD 1 0).toNat + (buf.getD 2 0).toNat * 2 ^ 8 < 65536
    omega

theorem readBlock_block {data : List UInt8} (hdata : data.length < 65536) (rest : List UInt8) :
    readBlock (blockHeader data.length ++ data ++ rest) = .done data rest := by
  have hlen : le16 (blockHeader data.length ++ data ++ rest) 1 = data.length := by
    rw [append_assoc]
    exact le16_block hdata _
  unfold readBlock
  rw [hlen, if_neg (by simp [blockHeader_length]), if_neg, if_neg (by simp [blockHeader_length])]
  · rw [append_assoc, drop_left' (blockHeader_length _), take_left, ← drop_drop,
      drop_left' (blockHeader_length _), drop_left]
  · rw [append_assoc, take_left' (blockHeader_length _)]
    exact not_not.2 rfl

theorem readBlock_prefix {buf data : List UInt8} (hdata : data.length < 65536)
    (h : buf <+: blockHeader data.length ++ data) : readBlock buf = .more ∨ buf = blockHeader data.length ++ data := by
  unfold readBlock
  by_cases hshort : buf.length < 5
  · exact .inl (if_pos hshort)
  have htake : buf.take 5 = blockHeader data.length := by
    rw [prefix_iff_eq_take.1 h, take_take, Nat.min_eq_left (by omega), take_left' (blockHeader_length _)]
  have hlen : le16 buf 1 = data.length := by
    rw [← take_append_drop 5 buf, htake]
    exact le16_block hdata _
  rw [if_neg hshort, hlen, if_neg (not_not.2 htake)]
  by_cases hroom : buf.length < 5 + data.length
  · exact .inl (if_pos hroom)
  · refine .inr (h.eq_of_length_le ?_)
    rw [length_append, blockHeader_length]
    omega

/-- Streams of one stored block. -/
def block : Deflate where
  decodes c d := c = blockHeader d.length ++ d ∧ d.length < 65536
  ne_nil := by
    rintro c d ⟨rfl, -⟩
    exact cons_ne_nil _ _
  unique := by
    rintro c c' d d' ⟨rfl, hd⟩ ⟨rfl, hd'⟩ hprefix
    rcases readBlock_prefix hd' hprefix with hmore | heq
    · have hdone := readBlock_block hd []
      rw [append_nil, hmore] at hdone
      cases hdone
    · have hdone := readBlock_block hd []
      have hdone' := readBlock_block hd' []
      rw [append_nil] at hdone hdone'
      rw [heq, hdone'] at hdone
      exact ⟨heq, (Block.done.inj hdone).1.symm⟩

theorem blockStep_cases (buf input : List UInt8) :
    (readBlock (buf ++ input) = .more ∧ input = [] ∧ blockStep buf input = (.bufError, [], [], buf)) ∨
    (readBlock (buf ++ input) = .more ∧ input ≠ [] ∧ blockStep buf input = (.ok, [], [], buf ++ input)) ∨
    (readBlock (buf ++ input) = .bad ∧ blockStep buf input = (.other, [], input, buf)) ∨
    ∃ data rest, readBlock (buf ++ input) = .done data rest ∧ blockStep buf input = (.streamEnd, data, rest, buf) := by
  unfold blockStep
  cases readBlock (buf ++ input) with
  | more =>
    by_cases hnil : input = []
    · exact .inl ⟨rfl, hnil, if_pos hnil⟩
    · exact .inr (.inl ⟨rfl, hnil, if_neg hnil⟩)
  | bad => exact .inr (.inr (.inl ⟨rfl, rfl⟩))
  | done data rest => exact .inr (.inr (.inr ⟨data, rest, rfl, rfl⟩))

theorem not_decodes_of_more {c : List UInt8} (h : readBlock c = .more) (d : List UInt8) : ¬ block.decodes c d := by
  rintro ⟨rfl, hd⟩
  have hdone := readBlock_block hd []
  rw [append_nil, h] at hdone
  cases hdone

theorem block_incremental : Incremental blockInflate block fun buf i o => buf = i ∧ o = [] ∧ readBlock i = .more where
  init := ⟨[], rfl, rfl, rfl, by decide⟩
  given := by
    rintro _ i o c d ⟨-, rfl, -⟩ _ _
    exact nil_prefix
  streamEnd := by
    rintro buf _ _ input out rest s' ⟨rfl, rfl, hmore⟩ h
    change blockStep buf input = _ at h
    rcases blockStep_cases buf input with ⟨-, -, heq⟩ | ⟨-, -, heq⟩ | ⟨-, heq⟩ | ⟨data, rest', hread, heq⟩
    · cases heq.symm.trans h
    · cases heq.symm.trans h
    · cases heq.symm.trans h
    · cases heq.symm.trans h
      obtain ⟨hbuf, hdata⟩ := readBlock_done hread
      -- what was there before is less than the block
      rcases append_eq_append_iff.1 hbuf with ⟨used, hblock, hinput⟩ | ⟨extra, hextra, -⟩
      · exact ⟨used, hinput, hblock.symm, hdata⟩
      · rw [hextra, readBlock_block hdata] at hmore
        cases hmore
  ok := by
    rintro buf _ _ input out rest s' ⟨rfl, rfl, hmore⟩ h
    change blockStep buf input = _ at h
    rcases blockStep_cases buf input with ⟨-, -, heq⟩ | ⟨hread, hne, heq⟩ | ⟨-, heq⟩ | ⟨data, rest', -, heq⟩
    · cases heq.symm.trans h
    · cases heq.symm.trans h
      exact ⟨input, (append_nil _).symm, ⟨rfl, rfl, hread⟩, .inl hne, fun _ _ => not_decodes_of_more hread⟩
    · cases heq.symm.trans h
    · cases heq.symm.trans h
  bufError := by
    rintro buf _ _ input out rest s' ⟨rfl, rfl, hmore⟩ h
    change blockStep buf input = _ at h
    rcases blockStep_cases buf input with ⟨-, hnil, heq⟩ | ⟨-, -, heq⟩ | ⟨-, heq⟩ | ⟨data, rest', -, heq⟩
    · cases heq.symm.trans h
      exact ⟨hnil, rfl, rfl, ⟨rfl, rfl, hmore⟩, not_decodes_of_more hmore⟩
    · cases heq.symm.trans h
    · cases heq.symm.trans h
    · cases heq.symm.trans h
  other := by
    rintro buf _ _ input out rest s' ⟨rfl, rfl, hmore⟩ h c d ⟨rfl, hd⟩ hprefix
    change blockStep buf input = _ at h
    rcases blockStep_cases buf input with ⟨-, -, heq⟩ | ⟨-, -, heq⟩ | ⟨hread, -⟩ | ⟨data, rest', -, heq⟩
    · cases heq.symm.trans h
    · cases heq.symm.trans h
    · rcases readBlock_prefix hd hprefix with hread' | hwhole
      · cases hread.symm.trans hread'
      · have hdone := readBlock_block hd []
        rw [append_nil, ← hwhole, hread] at hdone
        cases hdone
    · cases heq.symm.trans h

end Block

/-- An archive with one compressed entry of one byte, which is 7. -/
def packed : List UInt8 :=
  number 4 0x04034b50 ++ number 2 20 ++ number 2 0 ++ number 2 8 ++ number 4 0 ++ number 4 (crc32 0 [7]).toNat ++
    number 4 6 ++ number 4 1 ++ number 2 1 ++ number 2 0 ++ [ch 'a'] ++ blockHeader 1 ++ [7]

def packedEntry : Entry := ⟨[ch 'a'], 0, 6, 1, (crc32 0 [7]).toNat, 0, 8, 0⟩

def packedZip : Zip := ⟨packed, 0, 37, [packedEntry]⟩

theorem packed_exact : Exactly blockInflate block packedEntry 65538 (fun _ => false) packedZip none 0 ∧
    (zipReadInto blockInflate packedEntry 65538 (fun _ => false) packedZip none 0).map (·.1) = some (true, [7]) :=
  ⟨zipRead_exact block_incremental packedZip none 0 (by decide), by decide +kernel⟩

/-- The archive with one stored entry, without the signature of its local header. -/
def unsigned : List UInt8 := number 4 0 ++ single.drop 4

def unsignedZip : Zip := ⟨unsigned, 0, 101, [storedEntry 1 0]⟩

/-- The entry is neither encrypted nor of another method, its data is in the archive and has the size and the sum of the
    directory, and yet it is not read: for want of a signature; nor is one with a signature when the launcher cancels. -/
theorem unsigned_unread :
    (zipOpen unsigned = some unsignedZip ∧ unsignedZip.fread 31 1 = some [1] ∧ (storedEntry 1 0).size = 1 ∧
      (crc32 0 [1]).toNat = (storedEntry 1 0).crc ∧
      (zipReadInto blockInflate (storedEntry 1 0) 65538 (fun _ => false) unsignedZip none 0).map (·.1) = some (false, [])) ∧
    zipOpen single = some singleZip ∧
      (zipReadInto blockInflate (storedEntry 1 0) 65538 (fun _ => false) singleZip none 0).map (·.1) = some (true, [1]) ∧
      (zipReadInto blockInflate (storedEntry 1 0) 65538 (fun _ => true) singleZip none 0).map (·.1) = some (false, []) := by
  refine ⟨⟨?_, ?_, ?_, ?_, ?_⟩, ?_, ?_, ?_⟩
  all_goals decide +kernel

end Lunaria.Apk
