import Mathlib.Data.Nat.Bitwise
import Mathlib.Tactic.NormNum
import Lunaria.Ipc.Channel

/-! Messages arrive once and in order. For each direction the bytes the reader has begun, those in flight and those still
    queued are together the stream of the messages that were posted and have not been passed on. -/

namespace Lunaria.Ipc
open List Option Function Nat

/-! ### The frames -/

theorem get32_put32 {v : Nat} (h : v < 2 ^ 32) : get32 (put32 v) = v := by
  have hbyte (k : Nat) : (UInt8.ofNat (v >>> k)).toNat = v >>> k % 2 ^ 8 := rfl
  simp only [get32, put32, List.range, List.range.loop, map_cons, map_nil, getD_cons_zero,
    getD_cons_succ, hbyte]
  apply eq_of_testBit_eq
  intro i
  simp only [testBit_or, testBit_shiftLeft, testBit_mod_two_pow, testBit_shiftRight]
  by_cases hi : i < 32
  · rcases (by omega : i < 8 ∨ (8 ≤ i ∧ i < 16) ∨ (16 ≤ i ∧ i < 24) ∨ (24 ≤ i ∧ i < 32)) with h | h | h | h
    · simp [h, show ¬8 ≤ i by omega, show ¬16 ≤ i by omega, show ¬24 ≤ i by omega]
    · simp [h, show ¬i < 8 by omega, show i - 8 < 8 by omega, show ¬16 ≤ i by omega, show ¬24 ≤ i by omega]
    · simp [h, show ¬i < 8 by omega, show ¬i - 8 < 8 by omega, show i - 16 < 8 by omega, show ¬24 ≤ i by omega]
    · simp [h, show ¬i < 8 by omega, show ¬i - 8 < 8 by omega, show ¬i - 16 < 8 by omega, show i - 24 < 8 by omega]
  · have hv : v.testBit i = false :=
      testBit_lt_two_pow (lt_of_lt_of_le h (Nat.pow_le_pow_right (by norm_num) (by omega)))
    simp [hv, show ¬i < 8 by omega, show ¬i - 8 < 8 by omega, show ¬i - 16 < 8 by omega, show ¬i - 24 < 8 by omega]

theorem length_put32 (v : Nat) : (put32 v).length = 4 := by simp [put32]

/-- A packet on the stream. -/
def framing : Framing Message UInt8 where
  head m := magic ++ put32 m.length
  body m := m
  size := 8
  size_pos := by norm_num
  head_length m := by rw [length_append, length_put32]; rfl

theorem take_head (m : Message) : (framing.head m).take 4 = magic := take_left' rfl

theorem get32_head {m : Message} (hm : m.length ≤ messageMax) : get32 ((framing.head m).drop 4) = m.length := by
  have hdrop : (framing.head m).drop 4 = put32 m.length := drop_left' rfl
  rw [hdrop]
  exact get32_put32 (lt_of_le_of_lt hm (by norm_num [messageMax]))

namespace Channel

/-! ### The outgoing half -/

/-- The bytes of the queue that the socket has not taken. -/
def unsent (c : Channel) : List UInt8 := c.packets.flatMap fun p => p.bytes.drop p.offset

structure Outgoing (c : Channel) : Prop where
  packets : ∀ p ∈ c.packets, p.offset < p.size ∧ p.bytes.length = p.size
  queued : c.queued = c.unsent.length

/-- The fields that reading uses are the same. -/
def SameIn (c c' : Channel) : Prop :=
  c'.header = c.header ∧ c'.headerSize = c.headerSize ∧ c'.received = c.received ∧ c'.incoming = c.incoming

theorem outgoing_moved {c : Channel} {p : Packet} {rest : List Packet} {n : Nat} (hc : c.Outgoing)
    (hp : c.packets = p :: rest) (hn : n ≤ p.size - p.offset) :
    let p' : Packet := { p with offset := p.offset + n }
    let c' : Channel := { c with packets := if p'.offset = p'.size then rest else p' :: rest, queued := c.queued - n }
    c'.Outgoing ∧ c.unsent = (p.bytes.drop p.offset).take n ++ c'.unsent := by
  intro p' c'
  obtain ⟨hlt, hlen⟩ := hc.packets p (hp ▸ mem_cons_self)
  have hrest : ∀ q ∈ rest, q.offset < q.size ∧ q.bytes.length = q.size := fun q hq =>
    hc.packets q (hp ▸ mem_cons_of_mem _ hq)
  have hsplit : c.unsent = (p.bytes.drop p.offset).take n ++ c'.unsent := by
    have hcut : p.bytes.drop p.offset = (p.bytes.drop p.offset).take n ++ p.bytes.drop (p.offset + n) := by
      rw [← drop_drop, take_append_drop]
    have hun : c.unsent = p.bytes.drop p.offset ++ rest.flatMap fun q => q.bytes.drop q.offset := by
      rw [unsent, hp, flatMap_cons]
    have hun' : c'.unsent = p.bytes.drop (p.offset + n) ++ rest.flatMap fun q => q.bytes.drop q.offset := by
      by_cases hdone : p.offset + n = p.size
      · have hnil : p.bytes.drop (p.offset + n) = [] := drop_eq_nil_of_le (by omega)
        have hc' : c'.packets = rest := if_pos hdone
        rw [unsent, hc', hnil, nil_append]
      · have hc' : c'.packets = p' :: rest := if_neg hdone
        rw [unsent, hc', flatMap_cons]
    rw [hun, hun', ← append_assoc, ← hcut]
  refine ⟨⟨?_, ?_⟩, hsplit⟩
  · intro q hq
    by_cases hdone : p.offset + n = p.size
    · have hc' : c'.packets = rest := if_pos hdone
      exact hrest q (hc' ▸ hq)
    · have hc' : c'.packets = p' :: rest := if_neg hdone
      rw [hc', mem_cons] at hq
      rcases hq with rfl | hq
      · have hlt' : p.offset + n < p.size := by omega
        exact ⟨hlt', hlen⟩
      · exact hrest q hq
  · have hq := hc.queued
    rw [hsplit, length_append, length_take, length_drop] at hq
    show c.queued - n = c'.unsent.length
    omega

/-- The socket took `out` from the front of the queue, and nothing else changed. -/
structure Flushed (c : Channel) (out : List UInt8) (c' : Channel) : Prop where
  outgoing : c'.Outgoing
  sameIn : SameIn c c'
  error : c'.error = c.error
  unsent : c.unsent = out ++ c'.unsent

theorem flush_spec (answers : List Answer) {c : Channel} (hc : c.Outgoing) :
    Flushed c (c.flush answers).2.1 (c.flush answers).1 := by
  induction answers generalizing c with
  | nil => exact ⟨hc, ⟨rfl, rfl, rfl, rfl⟩, rfl, rfl⟩
  | cons a answers ih =>
    have same : Flushed c [] c := ⟨hc, ⟨rfl, rfl, rfl, rfl⟩, rfl, rfl⟩
    rw [flush]
    cases hp : c.packets with
    | nil => exact same
    | cons p rest =>
      cases a with
      | closed => exact same
      | failed e => cases e <;> first | exact ih hc | exact same
      | moved k =>
        dsimp only
        by_cases hn : min (k + 1) (p.size - p.offset) = 0
        · rw [if_pos hn]
          exact same
        · rw [if_neg hn]
          obtain ⟨hout, hsplit⟩ := outgoing_moved hc hp (Nat.min_le_right (k + 1) (p.size - p.offset))
          have hrest := ih hout
          refine ⟨hrest.outgoing, hrest.sameIn, hrest.error, ?_⟩
          rw [hsplit, hrest.unsent, append_assoc]

theorem outgoing_packet {c : Channel} (hc : c.Outgoing) (data : Message) :
    let c' : Channel := { c with packets := c.packets ++ [packet data], queued := c.queued + (packet data).size }
    c'.Outgoing ∧ c'.unsent = c.unsent ++ framing.stream [data] := by
  intro c'
  have hlen : (packet data).bytes.length = (packet data).size := by
    simp only [packet, length_append, length_put32]
    simp only [magic, length_cons, length_nil]
    omega
  have hun : c'.unsent = c.unsent ++ framing.stream [data] := by
    simp [c', unsent, packet, framing]
  refine ⟨⟨?_, ?_⟩, hun⟩
  · intro p hp
    rcases mem_append.1 hp with hp | hp
    · exact hc.packets p hp
    · rw [mem_singleton.1 hp]
      exact ⟨succ_pos _, hlen⟩
  · have hstream : (framing.stream [data]).length = (packet data).size := by
      rw [← hlen]
      simp [packet, framing]
    rw [hun, length_append, hstream, ← hc.queued]

/-! ### The incoming half -/

/-- What has been read of the next message: a part of its header, or the header and a part of its payload. -/
def begun (c : Channel) : List UInt8 :=
  match c.incoming with
  | none => c.header.take c.headerSize
  | some p => c.header ++ p.bytes.take c.received

structure Incoming (c : Channel) : Prop where
  header : c.header.length = 8
  headerSize : c.headerSize ≤ 8
  incoming : ∀ p, c.incoming = some p →
    c.headerSize = 8 ∧ c.received ≤ p.size ∧ p.bytes.length = p.size ∧ get32 (c.header.drop 4) = p.size

/-- The fields that sending uses are the same. -/
def SameOut (c c' : Channel) : Prop := c'.packets = c.packets ∧ c'.queued = c.queued ∧ c'.error = c.error

theorem SameOut.trans {a b c : Channel} (h : SameOut a b) (h' : SameOut b c) : SameOut a c :=
  ⟨h'.1.trans h.1, h'.2.1.trans h.2.1, h'.2.2.trans h.2.2⟩

/-- How many bytes the next `recv` may store. -/
def room (c : Channel) : Nat :=
  if c.headerSize < 8 then 8 - c.headerSize else (c.incoming.map fun p => p.size - c.received).getD 0

theorem begun_header {c : Channel} (hc : c.Incoming) (hs : ¬c.headerSize < 8) (hi : c.incoming = none) :
    c.begun = c.header := by
  have hlen := hc.header
  simp only [begun, hi]
  exact take_of_length_le (by omega)

theorem store_spec {c : Channel} {piece : List UInt8} (hc : c.Incoming) (hroom : piece.length ≤ c.room) :
    (c.store piece).Incoming ∧ (c.store piece).begun = c.begun ++ piece ∧ SameOut c (c.store piece) := by
  by_cases hs : c.headerSize < 8
  · have hnone : c.incoming = none := by
      by_contra hi
      obtain ⟨p, hp⟩ := ne_none_iff_exists'.1 hi
      have := (hc.incoming p hp).1
      omega
    rw [room, if_pos hs] at hroom
    have hfit : c.headerSize + piece.length ≤ c.header.length := by
      have := hc.header
      omega
    have hstore : c.store piece =
        { c with header := fill c.header c.headerSize piece, headerSize := c.headerSize + piece.length } := if_pos hs
    rw [hstore]
    refine ⟨⟨(length_fill hfit).trans hc.header, ?_, ?_⟩, ?_, ⟨rfl, rfl, rfl⟩⟩
    · show c.headerSize + piece.length ≤ 8
      omega
    · intro p hp
      cases hnone.symm.trans hp
    · simp only [begun, hnone]
      exact take_fill hfit
  · rw [room, if_neg hs] at hroom
    have hstore : c.store piece =
        { c with incoming := c.incoming.map fun p => { p with bytes := fill p.bytes c.received piece },
                 received := c.received + piece.length } := if_neg hs
    rw [hstore]
    cases hi : c.incoming with
    | none =>
      rw [hi, map_none, getD_none, le_zero, length_eq_zero_iff] at hroom
      subst hroom
      refine ⟨⟨hc.header, hc.headerSize, nofun⟩, ?_, ⟨rfl, rfl, rfl⟩⟩
      simp [begun, hi]
    | some p =>
      obtain ⟨hsize, hle, hlen, hget⟩ := hc.incoming p hi
      rw [hi, map_some, getD_some] at hroom
      have hfit : c.received + piece.length ≤ p.bytes.length := by omega
      refine ⟨⟨hc.header, hc.headerSize, ?_⟩, ?_, ⟨rfl, rfl, rfl⟩⟩
      · intro q hq
        cases hq
        refine ⟨hsize, ?_, (length_fill hfit).trans hlen, hget⟩
        show c.received + piece.length ≤ p.size
        omega
      · simp only [begun, hi, map_some]
        rw [take_fill hfit, append_assoc]

/-- The packet under construction agrees with the header, which is the head of the next message: opening it fails for want
    of memory only. -/
theorem open'_spec {c : Channel} (alloc : Option (Nat → UInt8)) {later : List UInt8} {ms : List Message}
    (hc : c.Incoming) (hs : ¬c.headerSize < 8) (hms : ∀ m ∈ ms, m.length ≤ messageMax)
    (hstream : c.begun ++ later = framing.stream ms) :
    c.open' alloc = .error .enomem ∨ ∃ c' p, c.open' alloc = .ok (c', p) ∧ c'.incoming = some p ∧ c'.Incoming ∧
      c'.begun = c.begun ∧ c'.headerSize = c.headerSize ∧ SameOut c c' := by
  rw [open']
  cases hi : c.incoming with
  | some p => exact .inr ⟨c, p, rfl, hi, hc, rfl, rfl, ⟨rfl, rfl, rfl⟩⟩
  | none =>
    have hbegun := begun_header hc hs hi
    rw [hbegun] at hstream
    obtain ⟨m, rest, rfl, hhead, -⟩ := Framing.head_of_stream hc.header hstream
    have hmagic : c.header.take 4 = magic := by rw [hhead, take_head]
    have hm := hms m mem_cons_self
    have hget : get32 (c.header.drop 4) = m.length := by rw [hhead, get32_head hm]
    have hcheck : ¬(c.header.take 4 ≠ magic ∨ messageMax < get32 (c.header.drop 4)) := by
      rw [hget, hmagic]
      simpa using hm
    dsimp only
    rw [if_neg hcheck]
    cases alloc with
    | none => exact .inl rfl
    | some junk =>
      refine .inr ⟨_, _, rfl, rfl, ⟨hc.header, hc.headerSize, ?_⟩, ?_, rfl, ⟨rfl, rfl, rfl⟩⟩
      · intro p hp
        cases hp
        have hle := hc.headerSize
        exact ⟨show c.headerSize = 8 by omega, Nat.zero_le _, by simp, rfl⟩
      · simp [begun, hi, take_of_length_le (show c.header.length ≤ c.headerSize by have := hc.header; omega)]

/-- What a round of the loop does: it fails for want of memory, completes the next message, or finds room to read. -/
theorem turn_spec {c : Channel} (alloc : Option (Nat → UInt8)) {later : List UInt8} {ms : List Message}
    (hc : c.Incoming) (hms : ∀ m ∈ ms, m.length ≤ messageMax) (hstream : c.begun ++ later = framing.stream ms) :
    c.turn alloc = .stop .enomem ∨
    (∃ c' m rest, c.turn alloc = .deliver c' m ∧ ms = m :: rest ∧ c'.Incoming ∧ SameOut c c' ∧
      c'.begun ++ later = framing.stream rest) ∨
    (∃ c', c.turn alloc = .read c' c'.room ∧ 0 < c'.room ∧ c'.Incoming ∧ SameOut c c' ∧ c'.begun = c.begun) := by
  rw [turn]
  by_cases hs : c.headerSize < 8
  · have hroom : c.room = 8 - c.headerSize := if_pos hs
    rw [if_pos hs, ← hroom]
    exact .inr (.inr ⟨c, rfl, by omega, hc, ⟨rfl, rfl, rfl⟩, rfl⟩)
  · rw [if_neg hs]
    rcases open'_spec alloc hc hs hms hstream with he | ⟨c', p, hok, hp, hc', hbegun, hsame, hout⟩
    · exact .inl (by rw [he])
    · obtain ⟨h8, hle, hlen, hget⟩ := hc'.incoming p hp
      rw [hok]
      dsimp only
      by_cases hleft : p.size - c'.received = 0
      · rw [if_pos hleft]
        have hall : c'.begun = c'.header ++ p.bytes := by
          simp only [begun, hp]
          rw [take_of_length_le (by omega)]
        rw [← hbegun, hall, append_assoc] at hstream
        have hbody : ∀ m ∈ ms, framing.head m = c'.header → (framing.body m).length = p.bytes.length := by
          intro m hm hhead
          rw [hlen, ← hget, ← hhead]
          exact (get32_head (hms m hm)).symm
        obtain ⟨m, rest, rfl, rfl, hrest⟩ := Framing.frame_of_stream hc'.header hbody hstream
        refine .inr (.inl ⟨_, _, rest, rfl, rfl, ⟨hc'.header, Nat.zero_le _, nofun⟩, hout, ?_⟩)
        simpa [begun] using hrest
      · rw [if_neg hleft]
        have hroom : c'.room = p.size - c'.received := by
          rw [room, if_neg (by omega), hp]
          rfl
        rw [← hroom]
        exact .inr (.inr ⟨c', rfl, by omega, hc', hout, hbegun⟩)

/-- What the loop has done: some of the messages due were collected, and the rest is still to be read. -/
def Collected (c : Channel) (got : List Message) (later : List UInt8) (ms : List Message)
    (r : Channel × List UInt8 × List Message × Option Errno) : Prop :=
  ∃ new rest, r.2.2.1 = got ++ new ∧ ms = new ++ rest ∧ r.1.Incoming ∧ SameOut c r.1 ∧
    r.1.begun ++ (r.2.1 ++ later) = framing.stream rest

theorem tickLoop_spec (alloc : Nat → Option (Nat → UInt8)) (fuel : Nat) {c : Channel} {wire later : List UInt8}
    {answers : List Answer} {got ms : List Message} (hc : c.Incoming) (hms : ∀ m ∈ ms, m.length ≤ messageMax)
    (hstream : c.begun ++ (wire ++ later) = framing.stream ms) :
    Collected c got later ms (tickLoop alloc fuel c wire answers got) := by
  induction fuel generalizing c wire answers got ms with
  | zero => exact ⟨[], ms, by simp [tickLoop], rfl, hc, ⟨rfl, rfl, rfl⟩, hstream⟩
  | succ fuel ih =>
    -- the loop ends here with nothing more collected
    have leave {c' : Channel} (hc' : c'.Incoming) (hsame : SameOut c c') (hbegun : c'.begun = c.begun)
        (rc : Option Errno) : Collected c got later ms (c', wire, got, rc) :=
      ⟨[], ms, (append_nil got).symm, rfl, hc', hsame, hbegun ▸ hstream⟩
    have same : SameOut c c := ⟨rfl, rfl, rfl⟩
    rw [tickLoop]
    by_cases hcount : 32 ≤ got.length
    · rw [if_pos hcount]
      exact leave hc same rfl none
    rw [if_neg hcount]
    rcases turn_spec (alloc got.length) hc hms hstream with
      ht | ⟨c', m, rest, ht, rfl, hc', hsame, hrest⟩ | ⟨c', ht, hroom, hc', hsame, hbegun⟩
    · rw [ht]
      exact leave hc same rfl _
    · rw [ht]
      obtain ⟨new, rest', hgot, rfl, hin, hout, hstream'⟩ :=
        @ih c' wire answers (got ++ [m]) rest hc' (fun x hx => hms x (mem_cons_of_mem _ hx)) hrest
      exact ⟨m :: new, rest', by rw [hgot, append_assoc]; rfl, rfl, hin, hsame.trans hout, hstream'⟩
    · rw [ht]
      have again {c'' : Channel} {wire' : List UInt8} (answers : List Answer) (hc'' : c''.Incoming)
          (hsame' : SameOut c' c'') (hstream' : c''.begun ++ (wire' ++ later) = framing.stream ms) :
          Collected c got later ms (tickLoop alloc fuel c'' wire' answers got) := by
        obtain ⟨new, rest, hgot, hrest, hin, hout, hs⟩ := @ih c'' wire' answers got ms hc'' hms hstream'
        exact ⟨new, rest, hgot, hrest, hin, (hsame.trans hsame').trans hout, hs⟩
      cases answers with
      | nil => exact leave hc' hsame hbegun none
      | cons a answers =>
        cases a with
        | closed => exact leave hc' hsame hbegun _
        | failed e =>
          cases e <;> first
            | exact again answers hc' ⟨rfl, rfl, rfl⟩ (hbegun ▸ hstream)
            | exact leave hc' hsame hbegun _
        | moved k =>
          dsimp only
          by_cases hempty : wire = []
          · rw [if_pos hempty]
            exact leave hc' hsame hbegun none
          rw [if_neg hempty]
          generalize hn : min (k + 1) (min c'.room wire.length) = n
          have hfit : (wire.take n).length ≤ c'.room := by
            rw [length_take]
            omega
          obtain ⟨hstored, hread, hsame'⟩ := store_spec hc' hfit
          apply again answers hstored hsame'
          rw [hread, hbegun, ← hstream]
          simp only [append_assoc, ← append_assoc (wire.take n), take_append_drop]

/-! ### The two calls -/

@[simp] theorem record_unsent (c : Channel) (rc : Option Errno) : (c.record rc).unsent = c.unsent := by
  cases rc <;> rfl

@[simp] theorem record_begun (c : Channel) (rc : Option Errno) : (c.record rc).begun = c.begun := by
  cases rc <;> rfl

theorem Outgoing.record {c : Channel} (hc : c.Outgoing) (rc : Option Errno) : (c.record rc).Outgoing := by
  cases rc <;> exact ⟨hc.packets, hc.queued⟩

theorem Incoming.record {c : Channel} (hc : c.Incoming) (rc : Option Errno) : (c.record rc).Incoming := by
  cases rc <;> exact ⟨hc.header, hc.headerSize, hc.incoming⟩

theorem record_error {c : Channel} {rc : Option Errno} (h : (c.record rc).error = none) : c.error = none ∧ rc = none := by
  cases rc with
  | none => exact ⟨h, rfl⟩
  | some e => cases h

theorem SameIn.incoming {c c' : Channel} (h : SameIn c c') (hc : c.Incoming) : c'.Incoming := by
  obtain ⟨hh, hs, hr, hi⟩ := h
  refine ⟨hh ▸ hc.header, hs ▸ hc.headerSize, ?_⟩
  intro p hp
  rw [hs, hr, hh]
  exact hc.incoming p (hi ▸ hp)

theorem SameIn.begun {c c' : Channel} (h : SameIn c c') : c'.begun = c.begun := by
  obtain ⟨hh, hs, hr, hi⟩ := h
  simp only [Channel.begun, hh, hs, hr, hi]

theorem SameOut.unsent {c c' : Channel} (h : SameOut c c') : c'.unsent = c.unsent := by
  rw [Channel.unsent, h.1, Channel.unsent]

theorem SameOut.outgoing {c c' : Channel} (h : SameOut c c') (hc : c.Outgoing) : c'.Outgoing := by
  refine ⟨?_, ?_⟩
  · rw [h.1]
    exact hc.packets
  · rw [h.2.1, h.unsent]
    exact hc.queued

theorem send_refused {c : Channel} {data : Message} {malloc : Bool} {e : Errno} (answers : List Answer)
    (h : c.refusal data.length malloc = some e) : c.send data malloc answers = (c, [], some e) := by
  rw [send, h]

theorem refusal_none {c : Channel} {size : Nat} {malloc : Bool} (h : c.refusal size malloc = none) :
    size ≤ messageMax ∧ c.error = none := by
  rw [refusal] at h
  by_cases hsize : messageMax < size
  · rw [if_pos hsize] at h
    cases h
  · rw [if_neg hsize] at h
    cases herr : c.error with
    | none => exact ⟨Nat.le_of_not_lt hsize, rfl⟩
    | some e =>
      rw [herr] at h
      cases h

theorem send_queued {c : Channel} {data : Message} {malloc : Bool} (answers : List Answer) (hc : c.Outgoing)
    (h : c.refusal data.length malloc = none) :
    (c.send data malloc answers).1.Outgoing ∧
    (c.Incoming → (c.send data malloc answers).1.Incoming) ∧
    (c.send data malloc answers).1.begun = c.begun ∧
    c.unsent ++ framing.stream [data] = (c.send data malloc answers).2.1 ++ (c.send data malloc answers).1.unsent ∧
    ((c.send data malloc answers).1.error = none → (c.send data malloc answers).2.2 = none) := by
  obtain ⟨hout, hun⟩ := outgoing_packet hc data
  have hflush := flush_spec answers hout
  rw [send, h]
  dsimp only
  refine ⟨hflush.outgoing.record _, ?_, ?_, ?_, ?_⟩
  · intro hin
    exact (hflush.sameIn.incoming ⟨hin.header, hin.headerSize, hin.incoming⟩).record _
  · rw [record_begun, hflush.sameIn.begun]
    rfl
  · rw [record_unsent, ← hflush.unsent, hun]
  · intro herr
    exact (record_error herr).2

/-- What a tick does to the two streams it is part of. -/
structure TickSpec (c : Channel) (later : List UInt8) (ms : List Message) (t : Ticked) : Prop where
  outgoing : t.chan.Outgoing
  incoming : t.chan.Incoming
  unsent : c.unsent = t.out ++ t.chan.unsent
  stream : ∃ rest, ms = t.messages ++ rest ∧ t.chan.begun ++ (t.wire ++ later) = framing.stream rest
  error : t.chan.error = none → c.error = none

theorem tick_spec {c : Channel} {wire later : List UInt8} {ms : List Message} (alloc : Nat → Option (Nat → UInt8))
    (sends recvs : List Answer) (hout : c.Outgoing) (hin : c.Incoming) (hms : ∀ m ∈ ms, m.length ≤ messageMax)
    (hstream : c.begun ++ (wire ++ later) = framing.stream ms) :
    TickSpec c later ms (c.tick wire alloc sends recvs) := by
  rw [tick]
  cases herr : c.error with
  | some e =>
    exact ⟨hout, hin, rfl, ⟨ms, rfl, hstream⟩, fun h => h⟩
  | none =>
    have hflush := flush_spec sends hout
    generalize c.flush sends = r at hflush
    obtain ⟨c', out, rc⟩ := r
    have hin' := hflush.sameIn.incoming hin
    have hstream' : c'.begun ++ (wire ++ later) = framing.stream ms := by rw [hflush.sameIn.begun, hstream]
    cases rc with
    | some e =>
      exact ⟨hflush.outgoing.record (some e), hin'.record (some e), hflush.unsent, ⟨ms, rfl, hstream'⟩, fun _ => herr⟩
    | none =>
      obtain ⟨new, rest, hgot, hrest, hin'', hsame, hs⟩ :=
        @tickLoop_spec alloc (recvs.length + 33) c' wire later recvs [] ms hin' hms hstream'
      dsimp only at hgot hin'' hsame hs ⊢
      refine ⟨(hsame.outgoing hflush.outgoing).record _, hin''.record _, ?_, ⟨rest, ?_, ?_⟩, fun _ => herr⟩
      · rw [record_unsent, hsame.unsent]
        exact hflush.unsent
      · rw [hrest, hgot, nil_append]
      · rw [record_begun]
        exact hs

end Channel

/-! ### Runs of the pair -/

theorem Side.eq_or_peer (a s : Side) : s = a ∨ s = a.peer := by cases a <;> cases s <;> simp [Side.peer]

/-- The direction from `s` to its peer. -/
structure Flow (w : Pair) (s : Side) : Prop where
  outgoing : (w.chan s).Outgoing
  incoming : (w.chan s.peer).Incoming
  small : ∀ m ∈ w.posted s, m.length ≤ messageMax
  stream : ∃ rest, w.posted s = w.passed s.peer ++ rest ∧
    (w.chan s.peer).begun ++ (w.wire s ++ (w.chan s).unsent) = framing.stream rest
  accepted : (w.chan s).error = none → w.accepted s = w.posted s

theorem flow_new (s : Side) : Flow .new s where
  outgoing := ⟨fun p hp => (by cases hp), rfl⟩
  incoming := ⟨rfl, Nat.zero_le _, nofun⟩
  small m hm := by cases hm
  stream := ⟨[], rfl, rfl⟩
  accepted _ := rfl

section
variable {w : Pair}

theorem flow_send (hw : ∀ s, Flow w s) (a : Side) (data : Message) (malloc : Bool) (answers : List Answer) (s : Side) :
    Flow (w.step (.send a data malloc answers)) s := by
  cases href : (w.chan a).refusal data.length malloc with
  | some e =>
    have hsame : w.step (.send a data malloc answers) = w := by
      simp [Pair.step, Channel.send_refused answers href, href]
    rw [hsame]
    exact hw s
  | none =>
    obtain ⟨hout, hin, hbegun, hun, herr⟩ := Channel.send_queued answers (hw a).outgoing href
    generalize hr : (w.chan a).send data malloc answers = r at hout hin hbegun hun herr
    obtain ⟨c, out, rc⟩ := r
    dsimp only at hout hin hbegun hun herr
    have hsmall := Channel.refusal_none href
    have hflow := hw s
    rcases Side.eq_or_peer a s with rfl | rfl
    · obtain ⟨rest, hposted, hstream⟩ := hflow.stream
      refine ⟨?_, ?_, ?_, ⟨rest ++ [data], ?_, ?_⟩, ?_⟩
      · simpa [Pair.step, hr] using hout
      · simpa [Pair.step, hr] using hflow.incoming
      · intro m hm
        simp only [Pair.step, hr, href, if_true, update_self, mem_append, mem_singleton] at hm
        rcases hm with hm | rfl
        · exact hflow.small m hm
        · exact hsmall.1
      · simp [Pair.step, href, hposted]
      · simp only [Pair.step, hr, update_self, update_of_ne (Side.peer_ne s), append_assoc]
        rw [← hun, Framing.stream_append, ← hstream]
        simp only [append_assoc]
      · intro hnone
        simp only [Pair.step, hr, update_self] at hnone
        simp only [Pair.step, hr, href, herr hnone, if_true, update_self]
        rw [hflow.accepted hsmall.2]
    · have hin' := hin (by simpa using hflow.incoming)
      obtain ⟨rest, hposted, hstream⟩ := hflow.stream
      rw [Side.peer_peer] at hposted hstream
      refine ⟨?_, ?_, ?_, ⟨rest, ?_, ?_⟩, ?_⟩
      · simpa [Pair.step, hr] using hflow.outgoing
      · simpa [Pair.step, hr] using hin'
      · simpa [Pair.step, href] using hflow.small
      · simpa [Pair.step, href] using hposted
      · simpa [Pair.step, hr, hbegun] using hstream
      · intro hnone
        have hold : w.accepted a.peer = w.posted a.peer := hflow.accepted (by simpa [Pair.step, hr] using hnone)
        simp only [Pair.step, hr, href, if_true]
        split <;> simpa using hold

theorem flow_tick (hw : ∀ s, Flow w s) (a : Side) (alloc : Nat → Option (Nat → UInt8)) (sends recvs : List Answer)
    (s : Side) : Flow (w.step (.tick a alloc sends recvs)) s := by
  have hflow := hw a.peer
  obtain ⟨ms, hposted, hstream⟩ := hflow.stream
  rw [Side.peer_peer] at hposted hstream
  have hms : ∀ m ∈ ms, m.length ≤ messageMax := fun m hm =>
    hflow.small m (hposted ▸ mem_append_right _ hm)
  have hspec := Channel.tick_spec alloc sends recvs (hw a).outgoing (Side.peer_peer a ▸ hflow.incoming) hms hstream
  generalize ht : (w.chan a).tick (w.wire a.peer) alloc sends recvs = t at hspec
  rcases Side.eq_or_peer a s with rfl | rfl
  · have hflow := hw s
    obtain ⟨rest, hposted, hstream⟩ := hflow.stream
    refine ⟨?_, ?_, ?_, ⟨rest, ?_, ?_⟩, ?_⟩
    · simpa [Pair.step, ht] using hspec.outgoing
    · simpa [Pair.step, ht] using hflow.incoming
    · simpa [Pair.step] using hflow.small
    · simpa [Pair.step, ht] using hposted
    · simp only [Pair.step, ht, update_self, update_of_ne (Side.peer_ne s), append_assoc]
      rw [← hspec.unsent]
      exact hstream
    · intro hnone
      simp only [Pair.step, ht, update_self] at hnone
      exact hflow.accepted (hspec.error hnone)
  · obtain ⟨rest, hrest, hs⟩ := hspec.stream
    refine ⟨?_, ?_, ?_, ⟨rest, ?_, ?_⟩, ?_⟩
    · simpa [Pair.step, ht] using hflow.outgoing
    · simpa [Pair.step, ht] using hspec.incoming
    · simpa [Pair.step] using hflow.small
    · simp [Pair.step, ht, hposted, hrest]
    · simpa [Pair.step, ht] using hs
    · intro hnone
      exact hflow.accepted (by simpa [Pair.step, ht] using hnone)

end

theorem run_flow (calls : List Call) (s : Side) : Flow (.run calls) s := by
  have hrun : ∀ (calls : List Call) {w : Pair}, (∀ s, Flow w s) → ∀ s, Flow (calls.foldl Pair.step w) s := by
    intro calls
    induction calls with
    | nil => exact fun hw => hw
    | cons call calls ih =>
      intro w hw
      apply ih
      cases call with
      | send a data malloc answers => exact flow_send hw a data malloc answers
      | tick a alloc sends recvs => exact flow_tick hw a alloc sends recvs
  exact hrun calls flow_new s

/-- What a callback gets is what the peer posted, whole and in order, also after an error. -/
theorem passed_prefix_posted (calls : List Call) (s : Side) :
    (Pair.run calls).passed s.peer <+: (Pair.run calls).posted s := by
  obtain ⟨rest, hposted, -⟩ := (run_flow calls s).stream
  exact ⟨rest, hposted.symm⟩

theorem step_send_refused {w : Pair} {s : Side} {data : Message} {malloc : Bool} {answers : List Answer} {e : Errno}
    (hw : Flow w s) (hrc : ((w.chan s).send data malloc answers).2.2 = some e)
    (hclean : ((w.step (.send s data malloc answers)).chan s).error = none) :
    w.step (.send s data malloc answers) = w := by
  cases href : (w.chan s).refusal data.length malloc with
  | some e => simp [Pair.step, Channel.send_refused answers href, href]
  | none =>
    have hnone := (Channel.send_queued answers hw.outgoing href).2.2.2.2 (by simpa [Pair.step] using hclean)
    rw [hnone] at hrc
    cases hrc

/-- While neither end has recorded an error, the messages passed to a callback are the first of those the peer's sends
    accepted, the bytes read, in flight and queued are the stream of the others, the counter of a queue is right, and a
    send that is refused has not happened. -/
theorem channel_delivers (calls : List Call) (hclean : ∀ s, ((Pair.run calls).chan s).error = none) (s : Side) :
    (Pair.run calls).passed s.peer <+: (Pair.run calls).accepted s ∧
    framing.stream ((Pair.run calls).accepted s) = framing.stream ((Pair.run calls).passed s.peer) ++
      (((Pair.run calls).chan s.peer).begun ++ ((Pair.run calls).wire s ++ ((Pair.run calls).chan s).unsent)) ∧
    ((Pair.run calls).chan s).queued = ((Pair.run calls).chan s).unsent.length ∧
    ∀ data malloc answers e, e ∈ [Errno.emsgsize, .enobufs, .enomem] →
      (((Pair.run calls).chan s).send data malloc answers).2.2 = some e →
      (((Pair.run calls).step (.send s data malloc answers)).chan s).error = none →
      (Pair.run calls).step (.send s data malloc answers) = Pair.run calls := by
  have hflow := run_flow calls s
  obtain ⟨rest, hposted, hstream⟩ := hflow.stream
  have haccepted : (Pair.run calls).accepted s = (Pair.run calls).passed s.peer ++ rest :=
    (hflow.accepted (hclean s)).trans hposted
  refine ⟨⟨rest, haccepted.symm⟩, ?_, hflow.outgoing.queued, ?_⟩
  · rw [haccepted, Framing.stream_append, hstream]
  · intro data malloc answers e _ hrc herr
    exact step_send_refused hflow hrc herr

/-- Two messages, the first empty, sent in three pieces and read in two ticks. -/
def twoMessages : List Call :=
  [.send .left [] true [.moved 2, .failed .eintr], .tick .right (fun _ => some fun _ => 0) [] [.moved 5],
    .send .left [7, 9] true [.moved 9, .moved 8, .failed .eagain], .tick .left (fun _ => none) [.moved 3] [],
    .tick .right (fun _ => some fun _ => 0) [] [.moved 9, .moved 9, .moved 0]]

theorem channel_delivers_twoMessages :
    (Pair.run twoMessages).passed .right <+: (Pair.run twoMessages).accepted .left ∧
    (Pair.run twoMessages).accepted .left = [[], [7, 9]] ∧ (Pair.run twoMessages).passed .right = [[]] ∧
    ((Pair.run twoMessages).chan .left).queued = 0 :=
  ⟨(channel_delivers twoMessages (fun s => by cases s <;> rfl) .left).1, rfl, rfl, rfl⟩

end Lunaria.Ipc
