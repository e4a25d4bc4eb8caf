import Mathlib.Data.List.Basic
import Lunaria.Lib.CText
import Lunaria.Lib.RingBuffer

/-! The ring that keeps the log: the lines that `lunaria_logbuf_write` adds, for which the oldest lines make room, and the
    newest ones that `lunaria_logbuf_read` gives back. The mutex makes each call one step; the time and the process in front
    of a line, and whether the ring can be allocated, are parameters. -/

namespace Lunaria.Jvm
open CText RingBuffer List

/-- `LOGBUF_BYTES` -/
def logbufBytes : Nat := 256 * 1024

/-- `g_logbuf` -/
structure LogBuf where
  allocated : Bool
  ring : Nat → UInt8
  /-- The oldest byte. -/
  head : Nat
  /-- How many bytes are held. -/
  length : Nat

namespace LogBuf

def initial : LogBuf := ⟨false, fun _ => 0, 0, 0⟩

def held (g : LogBuf) : List UInt8 := window logbufBytes g.ring g.head g.length

end LogBuf

/-- The loop of `lunaria_logbuf_write` that looks for the end of the oldest line. -/
def droppedLoop (g : LogBuf) : Nat → Nat → Nat
  | 0, dropped => dropped
  | rest + 1, dropped =>
    if g.ring ((g.head + dropped) % logbufBytes) = newline then dropped + 1 else droppedLoop g rest (dropped + 1)

def dropOldest (g : LogBuf) : LogBuf :=
  let dropped := droppedLoop g g.length 0
  { g with head := (g.head + dropped) % logbufBytes, length := g.length - dropped }

/-- The loop that drops whole oldest lines, with the bytes that are wanted. -/
def makeRoom (total : Nat) : Nat → LogBuf → LogBuf
  | 0, g => g
  | fuel + 1, g => if logbufBytes < g.length + total then makeRoom total fuel (dropOldest g) else g

/-- One logcat line, with what stands in front of the message. -/
def writeLine (head : List UInt8) (g : LogBuf) (line : List UInt8) : LogBuf :=
  let total := head.length + line.length + 1
  if head.length < 384 ∧ total < logbufBytes then
    let g := makeRoom total g.length g
    { g with ring := put logbufBytes g.ring ((g.head + g.length) % logbufBytes) (head ++ line ++ [newline]),
             length := g.length + total }
  else g

def writeLoop (head : List UInt8) : Nat → LogBuf → List UInt8 → LogBuf
  | 0, g, _ => g
  | fuel + 1, g, message =>
    let g := writeLine head g (message.takeWhile fun c => c ≠ newline)
    match message.dropWhile fun c => c ≠ newline with
    | [] => g
    | _ :: rest => if rest = [] then g else writeLoop head fuel g rest

/-- What `snprintf` makes of `"<time and process> %c %s: "`. -/
def logHead (stamp : List UInt8) (priority : UInt8) (tag : List UInt8) : List UInt8 :=
  stamp ++ [0x20, priority, 0x20] ++ tag ++ lit ": "

/-- `lunaria_logbuf_write`; a missing tag is a question mark. -/
def logbufWrite (g : LogBuf) (alloc : Bool) (stamp : List UInt8) (priority : UInt8) (tag message : Option (List UInt8)) :
    LogBuf :=
  let message := message.getD []
  if g.allocated || alloc then
    writeLoop (logHead stamp priority (tag.getD (lit "?"))) (message.length + 1) { g with allocated := true } message
  else g

/-- The loop of `lunaria_logbuf_read` that goes on to the start of a line. -/
def skipLoop (g : LogBuf) : Nat → Nat → Nat × Nat
  | 0, start => (start, 0)
  | take + 1, start =>
    if g.ring ((start + logbufBytes - 1) % logbufBytes) ≠ newline then skipLoop g take (start + 1) else (start, take + 1)

/-- `lunaria_logbuf_read`: what it returns, and what it writes. -/
def logbufRead (g : LogBuf) (capacity : Nat) : Nat × List UInt8 :=
  if capacity = 0 then (0, [])
  else
    let take := min g.length (capacity - 1)
    let start := g.head + (g.length - take)
    let (start, take) := if take < g.length then skipLoop g take start else (start, take)
    (take, (List.range take).map (fun i => g.ring ((start + i) % logbufBytes)) ++ [0])

/-- `lunaria_logbuf_clear` -/
def logbufClear (g : LogBuf) : LogBuf := { g with head := 0, length := 0 }

/-! ### Runs -/

inductive LogOp where
  | write (alloc : Bool) (stamp : List UInt8) (priority : UInt8) (tag message : Option (List UInt8))
  | read (capacity : Nat)
  | clear
  deriving DecidableEq

def LogOp.apply (g : LogBuf) : LogOp → LogBuf
  | write alloc stamp priority tag message => logbufWrite g alloc stamp priority tag message
  | read _ => g
  | clear => logbufClear g

def logRun (ops : List LogOp) : LogBuf := ops.foldl LogOp.apply .initial

/-- The lines of a message, without an empty one after its last end. -/
def messageLines (message : List UInt8) : List (List UInt8) :=
  if message.getLast? = some newline then (message.splitOn newline).dropLast else message.splitOn newline

/-- The line that is written for a line of the message, if it is accepted. -/
def acceptedLine (head line : List UInt8) : List UInt8 :=
  if head.length < 384 ∧ head.length + line.length + 1 < logbufBytes then head ++ line ++ [newline] else []

/-- Whether there is a ring, and the lines accepted since the last clear. -/
def LogOp.record (r : Bool × List UInt8) : LogOp → Bool × List UInt8
  | write alloc stamp priority tag message =>
    if r.1 || alloc then
      (true, r.2 ++ (messageLines (message.getD [])).flatMap (acceptedLine (logHead stamp priority (tag.getD (lit "?")))))
    else r
  | read _ => r
  | clear => (r.1, [])

def acceptedLines (ops : List LogOp) : List UInt8 := (ops.foldl LogOp.record (false, [])).2

/-- A suffix that starts at the beginning or just after a newline. -/
def Whole (q s : List UInt8) : Prop := q = s ∨ ∃ p, s = p ++ newline :: q

structure LongestWhole (room : Nat) (q s : List UInt8) : Prop where
  whole : Whole q s
  fits : q.length ≤ room
  longest : ∀ q', Whole q' s → q'.length ≤ room → q'.length ≤ q.length

/-- Nothing, or lines with their ends. -/
def EndsLine (s : List UInt8) : Prop := s = [] ∨ ∃ p, s = p ++ [newline]

section Text
variable {q s l rest : List UInt8} {room : Nat}

theorem Whole.suffix (h : Whole q s) : q <:+ s := by
  rcases h with rfl | ⟨p, rfl⟩
  · exact suffix_refl q
  · exact ⟨p ++ [newline], by simp⟩

theorem Whole.trans {r : List UInt8} (h : Whole r q) (h' : Whole q s) : Whole r s := by
  rcases h with rfl | ⟨p, rfl⟩
  · exact h'
  · rcases h' with rfl | ⟨p', rfl⟩
    · exact .inr ⟨p, rfl⟩
    · exact .inr ⟨p' ++ newline :: p, by simp⟩

/-- Of two suffixes at the start of a line the shorter one is one of the other. -/
theorem Whole.of_length_le {r : List UInt8} (hq : Whole q s) (hr : Whole r s) (hle : r.length ≤ q.length) : Whole r q := by
  have hsuffix := suffix_of_suffix_length_le hr.suffix hq.suffix hle
  obtain ⟨t, rfl⟩ := hsuffix
  rcases eq_nil_or_concat t with rfl | ⟨t, c, rfl⟩
  · exact .inl rfl
  obtain ⟨u, rfl⟩ := hq.suffix
  rcases hr with heq | ⟨p, heq⟩
  · have := congrArg List.length heq
    simp at this
    omega
  · refine .inr ⟨t, ?_⟩
    have hsplit : (u ++ t) ++ (c :: r) = p ++ (newline :: r) := by
      rw [← heq]
      simp
    have hlast := (append_inj' hsplit rfl).2
    rw [concat_eq_append, append_assoc, singleton_append, hlast]

/-- The first line is dropped. -/
theorem whole_rest (h : Whole q (l ++ newline :: rest)) (hl : newline ∉ l) (hne : q ≠ l ++ newline :: rest) :
    Whole q rest := by
  rcases h with rfl | ⟨p, hp⟩
  · exact absurd rfl hne
  rcases append_eq_append_iff.1 hp with ⟨t, rfl, ht⟩ | ⟨t, rfl, ht⟩
  · cases t with
    | nil => exact .inl (List.cons.inj ht).2.symm
    | cons c t => exact .inr ⟨t, (List.cons.inj ht).2⟩
  · cases t with
    | nil => exact .inl (List.cons.inj ht).2
    | cons c t =>
      refine absurd ?_ hl
      rw [← (List.cons.inj ht).1]
      exact mem_append_right _ mem_cons_self

theorem EndsLine.tail (h : EndsLine (l ++ newline :: rest)) : EndsLine rest := by
  rcases h with h | ⟨p, hp⟩
  · exact absurd h (by simp)
  · rcases eq_nil_or_concat rest with rfl | ⟨r, c, rfl⟩
    · exact .inl rfl
    · refine .inr ⟨r, ?_⟩
      have hsplit : (l ++ newline :: r) ++ [c] = p ++ [newline] := by
        rw [← hp]
        simp
      rw [concat_eq_append, (append_inj' hsplit rfl).2]

theorem EndsLine.first (h : EndsLine s) (hne : s ≠ []) : ∃ l rest, s = l ++ newline :: rest ∧ newline ∉ l := by
  rcases h with rfl | ⟨p, rfl⟩
  · exact absurd rfl hne
  · have hmem : newline ∈ p ++ [newline] := mem_append_right _ mem_cons_self
    obtain ⟨l, rest, heq, hl⟩ := eq_append_cons_of_mem hmem
    exact ⟨l, rest, heq, hl⟩

theorem LongestWhole.self (h : s.length ≤ room) : LongestWhole room s s :=
  ⟨.inl rfl, h, fun _ hq _ => hq.suffix.length_le⟩

/-- Where a text does not fit, its first line is dropped. -/
theorem LongestWhole.of_rest (h : LongestWhole room q rest) (hl : newline ∉ l)
    (hroom : room < (l ++ newline :: rest).length) : LongestWhole room q (l ++ newline :: rest) where
  whole := h.whole.trans (.inr ⟨l, rfl⟩)
  fits := h.fits
  longest q' hq' hle := h.longest q' (whole_rest hq' hl (by rintro rfl; omega)) hle

theorem LongestWhole.append {w t : List UInt8} {total : Nat} (h : LongestWhole total w s) (hq : LongestWhole room q w)
    (hroom : room + t.length = total) (hs : EndsLine s) : LongestWhole total (q ++ t) (s ++ t) := by
  have hwhole : ∀ {q}, Whole q s → Whole (q ++ t) (s ++ t) := by
    rintro q (rfl | ⟨p, rfl⟩)
    · exact .inl rfl
    · exact .inr ⟨p, by simp⟩
  refine ⟨hwhole (hq.whole.trans h.whole), ?_, fun q' hq' hle => ?_⟩
  · rw [length_append]
    exact (Nat.add_le_add_right hq.fits _).trans hroom.le
  rw [length_append]
  by_cases hlen : q'.length ≤ t.length
  · omega
  -- A longer suffix has all of what is added behind a suffix of the lines before.
  obtain ⟨u, hu⟩ := hq'.suffix
  obtain ⟨r, rfl⟩ : ∃ r, q' = r ++ t := by
    have hts : t <:+ s ++ t := suffix_append s t
    have hqs : q' <:+ s ++ t := ⟨u, hu⟩
    obtain ⟨r, hr⟩ := suffix_of_suffix_length_le hts hqs (by omega)
    exact ⟨r, hr.symm⟩
  have hr : Whole r s := by
    rcases hq' with heq | ⟨p, heq⟩
    · exact .inl (append_cancel_right heq)
    · exact .inr ⟨p, append_cancel_right (by rw [heq]; simp)⟩
  rw [length_append] at hle ⊢
  have hrw := h.whole.of_length_le hr (h.longest r hr (by omega))
  have := hq.longest r hrw (by omega)
  omega

end Text

/-! ### The ring -/

section Ring
variable {g : LogBuf} {total : Nat}

theorem held_length : g.held.length = g.length := length_window

/-- The end of the first line is found. -/
theorem droppedLoop_eq {l rest : List UInt8} (hl : newline ∉ l) : ∀ {n k : Nat}, g.held.drop k = l ++ newline :: rest →
    n = g.length - k → droppedLoop g n k = k + l.length + 1 := by
  induction l with
  | nil =>
    rintro n k hdrop rfl
    have hlt : k < g.length := by
      have := congrArg List.length hdrop
      rw [length_drop, held_length] at this
      simp at this
      omega
    have hget : g.held[k]? = some newline := by
      rw [← head?_drop, hdrop]
      rfl
    rw [LogBuf.held, getElem?_window hlt] at hget
    rw [show g.length - k = g.length - k - 1 + 1 by omega, droppedLoop, if_pos (Option.some.inj hget)]
    rfl
  | cons c l ih =>
    rintro n k hdrop rfl
    have hlt : k < g.length := by
      have := congrArg List.length hdrop
      rw [length_drop, held_length] at this
      simp at this
      omega
    have hget : g.held[k]? = some c := by
      rw [← head?_drop, hdrop]
      rfl
    rw [LogBuf.held, getElem?_window hlt] at hget
    have hc : c ≠ newline := fun heq => hl (heq ▸ mem_cons_self)
    have hnext : g.held.drop (k + 1) = l ++ newline :: rest := by
      rw [← drop_drop, hdrop]
      rfl
    rw [show g.length - k = g.length - k - 1 + 1 by omega, droppedLoop, if_neg (by rw [Option.some.inj hget]; exact hc),
      ih (fun hmem => hl (mem_cons_of_mem _ hmem)) hnext (by omega), length_cons]
    omega

theorem dropOldest_held {l rest : List UInt8} (hl : newline ∉ l) (hheld : g.held = l ++ newline :: rest) :
    (dropOldest g).held = rest ∧ (dropOldest g).head < logbufBytes ∧ (dropOldest g).allocated = g.allocated := by
  have hdropped : droppedLoop g g.length 0 = l.length + 1 :=
    (droppedLoop_eq hl (by rw [drop_zero, hheld]) (Nat.sub_zero _).symm).trans (by omega)
  have hlen : l.length + 1 ≤ g.length := by
    rw [← held_length, hheld]
    simp
  refine ⟨?_, Nat.mod_lt _ (by decide), rfl⟩
  unfold dropOldest LogBuf.held
  dsimp only
  rw [hdropped, window_mod, window_drop hlen]
  change g.held.drop _ = _
  rw [hheld, show l ++ newline :: rest = (l ++ [newline]) ++ rest by simp, drop_left' (by simp)]

theorem makeRoom_spec (hhead : g.head < logbufBytes) (hlines : EndsLine g.held) : ∀ {fuel : Nat}, g.length ≤ fuel →
    total ≤ logbufBytes → (makeRoom total fuel g).head < logbufBytes ∧ (makeRoom total fuel g).allocated = g.allocated ∧
      EndsLine (makeRoom total fuel g).held ∧ LongestWhole (logbufBytes - total) (makeRoom total fuel g).held g.held := by
  intro fuel
  induction fuel generalizing g with
  | zero =>
    intro hfuel _
    exact ⟨hhead, rfl, hlines, .self (show g.held.length ≤ _ by rw [held_length]; omega)⟩
  | succ fuel ih =>
    intro hfuel htotal
    unfold makeRoom
    split_ifs with hfull
    · have hne : g.held ≠ [] := fun hnil => by
        have := congrArg List.length hnil
        rw [held_length] at this
        simp at this
        omega
      obtain ⟨l, rest, heq, hl⟩ := hlines.first hne
      obtain ⟨hheld, hhead', halloc⟩ := dropOldest_held hl heq
      have hlines' : EndsLine (dropOldest g).held := by
        rw [hheld]
        exact (heq ▸ hlines).tail
      have hlength : (dropOldest g).length < g.length := by
        rw [← held_length, ← held_length (g := g), hheld, heq]
        simp
        omega
      obtain ⟨h1, h2, h3, h4⟩ := ih hhead' hlines' (by omega) htotal
      refine ⟨h1, h2.trans halloc, h3, ?_⟩
      rw [hheld] at h4
      rw [heq]
      exact h4.of_rest hl (by rw [← heq, held_length]; omega)
    · exact ⟨hhead, rfl, hlines, .self (by rw [held_length]; omega)⟩

/-- The ring is in its bounds and holds the newest of the accepted lines. -/
structure Keeps (g : LogBuf) (s : List UInt8) : Prop where
  head : g.head < logbufBytes
  lines : EndsLine s
  newest : LongestWhole logbufBytes g.held s

variable {s head line message : List UInt8}

theorem Keeps.held_lines (h : Keeps g s) : EndsLine g.held := by
  rcases h.newest.whole with heq | ⟨p, hp⟩
  · exact heq ▸ h.lines
  · exact (hp ▸ h.lines).tail

theorem Keeps.writeLine (h : Keeps g s) : Keeps (writeLine head g line) (s ++ acceptedLine head line) ∧
    (Jvm.writeLine head g line).allocated = g.allocated := by
  unfold Jvm.writeLine acceptedLine
  dsimp only
  split_ifs with hfits
  · have htotal : (head ++ line ++ [newline]).length = head.length + line.length + 1 := by
      simp
      omega
    obtain ⟨hhead, halloc, -, hroom⟩ := makeRoom_spec h.head h.held_lines le_rfl hfits.2.le
    obtain ⟨g', hg'⟩ : ∃ g', g' = makeRoom (head.length + line.length + 1) g.length g := ⟨_, rfl⟩
    rw [← hg'] at hhead halloc hroom ⊢
    have hlen : g'.length + (head ++ line ++ [newline]).length ≤ logbufBytes := by
      have := hroom.fits
      rw [held_length] at this
      omega
    refine ⟨⟨hhead, .inr ⟨s ++ (head ++ line), by simp⟩, ?_⟩, halloc⟩
    have hheld :
        window logbufBytes (put logbufBytes g'.ring ((g'.head + g'.length) % logbufBytes) (head ++ line ++ [newline]))
        g'.head (g'.length + (head ++ line ++ [newline]).length) = g'.held ++ (head ++ line ++ [newline]) := window_put hlen
    rw [htotal] at hheld
    unfold LogBuf.held
    dsimp only
    rw [hheld]
    exact h.newest.append hroom (by omega) h.lines
  · rw [append_nil]
    exact ⟨h, rfl⟩

theorem Keeps.writeLines (h : Keeps g s) : ∀ {lines : List (List UInt8)}, Keeps (lines.foldl (Jvm.writeLine head) g)
    (s ++ lines.flatMap (acceptedLine head)) ∧ (lines.foldl (Jvm.writeLine head) g).allocated = g.allocated := by
  intro lines
  induction lines generalizing g s with
  | nil => exact ⟨by rwa [flatMap_nil, append_nil], rfl⟩
  | cons line lines ih =>
    obtain ⟨hline, halloc⟩ : Keeps (Jvm.writeLine head g line) (s ++ acceptedLine head line) ∧ _ := h.writeLine
    obtain ⟨hlines, halloc'⟩ := ih hline
    rw [flatMap_cons, ← append_assoc]
    exact ⟨hlines, halloc'.trans halloc⟩

theorem writeLoop_eq : ∀ {fuel : Nat} {g : LogBuf} {message : List UInt8}, message.length < fuel →
    writeLoop head fuel g message = (messageLines message).foldl (Jvm.writeLine head) g := by
  intro fuel
  induction fuel with
  | zero => exact fun h => absurd h (Nat.not_lt_zero _)
  | succ fuel ih =>
    intro g message hlen
    unfold writeLoop
    by_cases hmem : newline ∈ message
    · obtain ⟨l, rest, rfl, hl⟩ := eq_append_cons_of_mem hmem
      have hne : ∀ c ∈ l, decide (c ≠ newline) = true := fun c hc => decide_eq_true fun heq => hl (heq ▸ hc)
      rw [takeWhile_append_of_pos hne, dropWhile_append_of_pos hne, takeWhile_cons_of_neg (by simp),
        dropWhile_cons_of_neg (by simp), append_nil]
      dsimp only
      have hsplit : (l ++ newline :: rest).splitOn newline = l :: rest.splitOn newline := splitOn_line hl
      by_cases hrest : rest = []
      · subst hrest
        rw [if_pos rfl, messageLines, if_pos (by simp), hsplit]
        rfl
      · rw [if_neg hrest, ih (by simp at hlen; omega)]
        have hlast : (l ++ newline :: rest).getLast? = rest.getLast? := by
          obtain ⟨c, r, rfl⟩ := exists_cons_of_ne_nil hrest
          rw [getLast?_append_of_ne_nil _ (cons_ne_nil _ _), getLast?_cons_cons]
        rw [messageLines, messageLines, hlast, hsplit]
        split
        · have hne' : rest.splitOn newline ≠ [] := splitOnP_ne_nil _ _
          rw [dropLast_cons_of_ne_nil hne']
          rfl
        · rfl
    · have hne : ∀ c ∈ message, decide (c ≠ newline) = true := fun c hc => decide_eq_true fun heq => hmem (heq ▸ hc)
      rw [takeWhile_eq_self_iff.2 hne, dropWhile_eq_nil_iff.2 hne, messageLines,
        if_neg fun hlast => hmem (mem_of_getLast? hlast), splitOn_eq_singleton hmem]
      rfl

theorem skipLoop_eq (h : EndsLine g.held) : ∀ {take : Nat}, take < g.length →
    ∃ take' ≤ take, skipLoop g take (g.head + (g.length - take)) = (g.head + (g.length - take'), take') ∧
      Whole (g.held.drop (g.length - take')) g.held ∧
      ∀ k, g.length - take ≤ k → Whole (g.held.drop k) g.held → g.length - take' ≤ k := by
  intro take
  induction take with
  | zero =>
    intro hlt
    refine ⟨0, le_rfl, rfl, ?_, fun k hk _ => hk⟩
    rcases h with hnil | ⟨p, hp⟩
    · have := congrArg List.length hnil
      rw [held_length] at this
      simp at this
      omega
    · refine .inr ⟨p, ?_⟩
      rw [Nat.sub_zero, drop_of_length_le (by rw [held_length]), hp]
  | succ take ih =>
    intro hlt
    obtain ⟨k₀, hk₀⟩ : ∃ k₀, g.length - (take + 1) = k₀ + 1 := ⟨g.length - (take + 1) - 1, by omega⟩
    have hget : g.held[k₀]? = some (g.ring ((g.head + (g.length - (take + 1)) + logbufBytes - 1) % logbufBytes)) := by
      rw [LogBuf.held, getElem?_window (by omega), hk₀,
        show g.head + (k₀ + 1) + logbufBytes - 1 = g.head + k₀ + logbufBytes by omega, Nat.add_mod_right]
    have hdrop : ∀ c, g.held[k₀]? = some c → g.held = g.held.take k₀ ++ c :: g.held.drop (k₀ + 1) := by
      intro c hc
      obtain ⟨hlt, rfl⟩ := List.getElem?_eq_some_iff.1 hc
      rw [getElem_cons_drop, take_append_drop]
    unfold skipLoop
    by_cases hc : g.ring ((g.head + (g.length - (take + 1)) + logbufBytes - 1) % logbufBytes) = newline
    · rw [if_neg (not_not.2 hc)]
      refine ⟨take + 1, le_rfl, rfl, ?_, fun k hk _ => hk⟩
      rw [hk₀]
      exact .inr ⟨g.held.take k₀, hdrop _ (by rw [hget, hc])⟩
    · rw [if_pos hc, show g.head + (g.length - (take + 1)) + 1 = g.head + (g.length - take) by omega]
      obtain ⟨take', hle, heq, hwhole, hleast⟩ := ih (by omega)
      refine ⟨take', by omega, heq, hwhole, fun k hk hkw => hleast k ?_ hkw⟩
      -- The byte before the cut ends no line.
      by_contra hlt'
      obtain rfl : k = k₀ + 1 := by omega
      rcases hkw with hself | ⟨p, hp⟩
      · have := congrArg List.length hself
        rw [length_drop, held_length] at this
        omega
      · have hsplit := hdrop _ hget
        have hcell := (append_inj' (hsplit.symm.trans hp) rfl).2
        exact hc (List.cons.inj hcell).1

theorem Keeps.read (h : Keeps g s) (capacity : Nat) : ∃ text, logbufRead g (capacity + 1) = (text.length, text ++ [0]) ∧
    LongestWhole capacity text g.held := by
  have hread : ∀ {start take : Nat}, (List.range take).map (fun i => g.ring ((start + i) % logbufBytes)) =
      window logbufBytes g.ring start take := rfl
  unfold logbufRead
  rw [if_neg (Nat.succ_ne_zero capacity), Nat.add_sub_cancel]
  dsimp only
  by_cases hle : g.length ≤ capacity
  · rw [Nat.min_eq_left hle, if_neg (Nat.lt_irrefl _), Nat.sub_self]
    exact ⟨g.held, by rw [hread, held_length]; rfl, .self (by rwa [held_length])⟩
  · have hlt : capacity < g.length := Nat.lt_of_not_le hle
    rw [Nat.min_eq_right hlt.le, if_pos hlt]
    obtain ⟨take, htake, heq, hwhole, hleast⟩ := skipLoop_eq h.held_lines hlt
    have htext : window logbufBytes g.ring (g.head + (g.length - take)) take = g.held.drop (g.length - take) := by
      have hdrop : window logbufBytes g.ring (g.head + (g.length - take)) (g.length - (g.length - take)) =
          g.held.drop (g.length - take) := window_drop (Nat.sub_le _ _)
      rwa [Nat.sub_sub_self (by omega)] at hdrop
    have hlength : (g.held.drop (g.length - take)).length = take := by
      rw [length_drop, held_length]
      omega
    rw [heq]
    refine ⟨_, by rw [hread, htext, hlength], hwhole, by omega, fun q hq hfits => ?_⟩
    have hdrop : g.held.drop (g.length - q.length) = q := by
      rw [← held_length]
      exact (suffix_iff_eq_drop.1 hq.suffix).symm
    have hle' := hq.suffix.length_le
    rw [held_length] at hle'
    have := hleast (g.length - q.length) (by omega) (by rwa [hdrop])
    omega

theorem Keeps.clear : Keeps (logbufClear g) [] :=
  ⟨show 0 < logbufBytes by decide, .inl rfl, .self (Nat.zero_le _)⟩

theorem Keeps.apply {ready : Bool} (h : Keeps g s) (halloc : g.allocated = ready) (op : LogOp) :
    Keeps (op.apply g) (op.record (ready, s)).2 ∧ (op.apply g).allocated = (op.record (ready, s)).1 := by
  subst halloc
  cases op with
  | write alloc stamp priority tag message =>
    simp only [LogOp.apply, LogOp.record, logbufWrite]
    by_cases hready : (g.allocated || alloc) = true
    · rw [if_pos hready, if_pos hready, writeLoop_eq (Nat.lt_succ_self _)]
      have h' : Keeps { g with allocated := true } s := ⟨h.head, h.lines, h.newest⟩
      exact ⟨h'.writeLines.1, h'.writeLines.2⟩
    · rw [if_neg hready, if_neg hready]
      exact ⟨h, rfl⟩
  | read capacity => exact ⟨h, rfl⟩
  | clear => exact ⟨.clear, rfl⟩

theorem run_keeps (ops : List LogOp) : Keeps (logRun ops) (acceptedLines ops) := by
  have hrun : ∀ (ops : List LogOp) (g : LogBuf) (r : Bool × List UInt8), Keeps g r.2 → g.allocated = r.1 →
      Keeps (ops.foldl LogOp.apply g) (ops.foldl LogOp.record r).2 := by
    intro ops
    induction ops with
    | nil => exact fun _ _ h _ => h
    | cons op ops ih =>
      intro g r h halloc
      obtain ⟨hkeeps, hready⟩ := h.apply halloc op
      exact ih _ _ hkeeps hready
  exact hrun ops _ _ (Keeps.clear (g := .initial)) rfl

end Ring

/-- After every sequence of calls the ring is in its bounds and holds the newest whole lines, as many as fit, and what is
    read is the newest of them that fit the buffer. -/
theorem logbuf_newest (ops : List LogOp) :
    (logRun ops).head < logbufBytes ∧ (logRun ops).length ≤ logbufBytes ∧
    LongestWhole logbufBytes (logRun ops).held (acceptedLines ops) ∧ logbufRead (logRun ops) 0 = (0, []) ∧
    ∀ capacity, ∃ text, logbufRead (logRun ops) (capacity + 1) = (text.length, text ++ [0]) ∧
      LongestWhole capacity text (logRun ops).held := by
  have h := run_keeps ops
  exact ⟨h.head, held_length ▸ h.newest.fits, h.newest, rfl, h.read⟩

end Lunaria.Jvm
