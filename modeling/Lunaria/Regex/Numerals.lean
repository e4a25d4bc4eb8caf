import Lunaria.Lib.CText
import Lunaria.Regex.Parse

/-! What the compiler makes of the numerals of a pattern, against what they say. -/

namespace Lunaria.Regex.Parse
open List Nat

open Questions CText

/-! ### Values -/

theorem written_count_snoc (digits : List UInt8) (c : UInt8) :
    written (.count (digits ++ [c])) = written (.count digits) * 10 + (c.toNat - 0x30) := by
  rw [written, reverse_append, reverse_singleton, singleton_append, map_cons, ofDigits_cons, written,
    Nat.add_comm, Nat.mul_comm]

theorem written_point_snoc (digits : List UInt8) (c : UInt8) :
    written (.point (digits ++ [c])) = written (.point digits) * 16 + (hexval c).getD 0 := by
  rw [written, reverse_append, reverse_singleton, singleton_append, map_cons, ofDigits_cons, written,
    Nat.add_comm, Nat.mul_comm]

theorem machine_count (digits : List UInt8) : digits.foldl intStep 0 = (written (.count digits) : Int).bmod (2 ^ 32) := by
  induction digits using List.reverseRecOn with
  | nil => rfl
  | append_singleton digits c ih =>
    rw [foldl_append, foldl_cons, foldl_nil, ih, intStep, written_count_snoc, cast_add, cast_mul,
      ← Int.bmod_add_bmod, Int.bmod_mul_bmod, Int.bmod_add_bmod]
    rfl

theorem machine_point (digits : List UInt8) : digits.foldl pointStep 0 = written (.point digits) % 2 ^ 32 := by
  induction digits using List.reverseRecOn with
  | nil => rfl
  | append_singleton digits c ih =>
    rw [foldl_append, foldl_cons, foldl_nil, ih, pointStep, written_point_snoc, add_mod, mul_mod, mod_mod,
      ← mul_mod, ← add_mod]

theorem machine_inRange {x : Numeral} (h : InRange x) : machine x = some (written x : Int) := by
  cases x with
  | count digits =>
    have hle : written (.count digits) ≤ 2147483647 := h
    rw [machine, machine_count, Int.bmod_eq_of_le (by omega) (by omega)]
  | point digits =>
    have hle : written (.point digits) ≤ rxCpMax := h
    rw [machine, machine_point, mod_eq_of_lt (Nat.lt_of_le_of_lt hle (by decide))]

theorem exact_restricts : Restricts machine exact InRange where
  keeps x h := by rw [exact, if_pos h, machine_inRange h]
  refuses x h := by rw [exact, if_neg h]

/-- No value of the loop of a count passes the greatest `int`. -/
def NoOverflow (digits : List UInt8) : Prop := ∀ k ≤ digits.length, written (.count (digits.take k)) ≤ 2147483647

theorem noOverflow_of_inRange {digits : List UInt8} (h : InRange (.count digits)) : NoOverflow digits := by
  induction digits using List.reverseRecOn with
  | nil => exact fun k _ => by rw [take_nil]; exact h
  | append_singleton digits c ih =>
    have hall : written (.count (digits ++ [c])) ≤ 2147483647 := h
    have hprefix : written (.count digits) ≤ 2147483647 := by
      rw [written_count_snoc] at hall
      omega
    intro k hk
    rcases Nat.lt_or_ge digits.length k with hlt | hge
    · rw [take_of_length_le (by rw [length_append, length_singleton]; exact hlt)]
      exact hall
    · rw [take_append_of_le_length hge]
      exact ih hprefix k hge

/-! ### Every function reads exactly what is in range -/

/-- The reading is exact if its numerals are in range, and else the exact one fails. -/
abbrev ReadsExactly {α : Type} (m : Reading α) : Prop := Agrees machine exact InRange m

section
variable (src : List UInt8)

theorem parseNumber_exact (p : Nat) : ReadsExactly (parseNumber src p) :=
  agrees_bind (agrees_ask exact_restricts _ _) fun _ => agrees_pure _

theorem parseBraces_exact (p : Nat) : ReadsExactly (parseBraces src p) := by
  refine agrees_bind (parseNumber_exact src p) fun ⟨min, q⟩ => agrees_bind ?_ fun ⟨max, r⟩ => ?_
  · split
    · split
      · exact agrees_pure _
      · exact parseNumber_exact src (q + 1)
    · exact agrees_pure _
  · split
    split
    · exact agrees_fail _
    · split
      · exact agrees_fail _
      · exact agrees_pure _

theorem parseCounts_exact (p : Nat) : ReadsExactly (parseCounts src p) := by
  rw [parseCounts]
  iterate 3
    split
    · exact agrees_pure _
  split
  · exact agrees_map _ (parseBraces_exact src (p + 1))
  · exact agrees_pure _

theorem parseQuant_exact (n : Node) (p : Nat) : ReadsExactly (parseQuant src n p) := by
  refine agrees_bind (parseCounts_exact src p) fun counts => ?_
  cases counts with
  | none => exact agrees_pure _
  | some bounds =>
    obtain ⟨min, max, q⟩ := bounds
    dsimp only
    split
    · exact agrees_pure _
    · split
      · exact agrees_pure _
      · exact agrees_pure _

theorem escBraced_exact (p : Nat) : ReadsExactly (escBraced src p) := by
  rw [escBraced]
  dsimp only
  split
  · exact agrees_fail _
  · split
    · exact agrees_fail _
    · split
      · exact agrees_fail _
      · exact agrees_bind (agrees_ask exact_restricts _ _) fun _ => agrees_pure _

theorem escChar_exact (p : Nat) : ReadsExactly (escChar src p) := by
  rw [escChar]
  split
  · exact escBraced_exact src (p + 2)
  · exact agrees_lift _

theorem classTerm_exact (p : Nat) : ReadsExactly (classTerm src p) := by
  rw [classTerm]
  split
  · refine agrees_bind (agrees_lift _) fun found => ?_
    cases found with
    | some sub => exact agrees_pure _
    | none => exact agrees_bind (escChar_exact src (p + 1)) fun _ => agrees_pure _
  · exact agrees_pure _

section
variable (flags : Flags) {fuel : Nat}

/-- What a class is read from, to a depth of calls. -/
structure ClassesExact (fuel : Nat) : Prop where
  union : ∀ isFirst cls p, ReadsExactly (parseClassUnion src flags fuel isFirst cls p)
  operands : ∀ cls p, ReadsExactly (parseOperands src flags fuel cls p)
  whole : ∀ p, ReadsExactly (parseClass src flags fuel p)

variable {src flags} in
theorem ClassesExact.succ_union (h : ClassesExact src flags fuel) (isFirst : Bool) (cls : Cls) (p : Nat) :
    ReadsExactly (parseClassUnion src flags (fuel + 1) isFirst cls p) := by
  rw [parseClassUnion]
  dsimp only
  split
  · exact agrees_fail _
  split
  · exact agrees_pure _
  split
  · exact agrees_bind (h.whole _) fun _ => h.union _ _ _
  · refine agrees_bind (classTerm_exact src _) fun term => ?_
    obtain ⟨sub | lo, q⟩ := term
    · exact h.union _ _ _
    · dsimp only
      split
      · refine agrees_bind (classTerm_exact src _) fun term => ?_
        obtain ⟨sub | hi, r⟩ := term
        · exact h.union _ _ _
        · dsimp only
          split
          · exact agrees_fail _
          · exact h.union _ _ _
      · exact h.union _ _ _

variable {src flags} in
theorem ClassesExact.succ_operands (h : ClassesExact src flags fuel) (cls : Cls) (p : Nat) :
    ReadsExactly (parseOperands src flags (fuel + 1) cls p) := by
  rw [parseOperands]
  split
  · refine agrees_bind ?_ fun _ => h.operands _ _
    split
    · exact h.whole _
    · exact h.union _ _ _
  · exact agrees_pure _

variable {src flags} in
theorem ClassesExact.succ_whole (h : ClassesExact src flags fuel) (p : Nat) :
    ReadsExactly (parseClass src flags (fuel + 1) p) := by
  rw [parseClass]
  refine agrees_bind (h.union _ _ _) fun _ => agrees_bind (h.operands _ _) fun _ => ?_
  dsimp only
  split
  · exact agrees_fail _
  · exact agrees_pure _

theorem classes_exact : ∀ fuel, ClassesExact src flags fuel
  | 0 => ⟨fun _ _ _ => agrees_fail _, fun _ _ => agrees_fail _, fun _ => agrees_fail _⟩
  | fuel + 1 =>
    have h := classes_exact fuel
    ⟨h.succ_union, h.succ_operands, h.succ_whole⟩

end

theorem parseEscape_exact (ps : Rxp) (p : Nat) : ReadsExactly (parseEscape src ps p) := by
  rw [parseEscape]
  dsimp only
  split
  · exact agrees_pure _
  split
  · refine agrees_bind (agrees_lift _) fun _ => ?_
    split
    · exact agrees_fail _
    · exact agrees_pure _
  split
  · split
    · exact agrees_fail _
    · exact agrees_pure _
  · refine agrees_bind (agrees_lift _) fun found => ?_
    cases found with
    | some sub => exact agrees_pure _
    | none => exact agrees_bind (escChar_exact src p) fun _ => agrees_pure _

/-- What patterns are read from, to a depth of calls. -/
structure PatternsExact (fuel : Nat) : Prop where
  atom : ∀ depth ps, ReadsExactly (parseAtom src fuel depth ps)
  seq : ∀ depth ps, ReadsExactly (parseSeq src fuel depth ps)
  alt : ∀ depth ps, ReadsExactly (parseAlt src fuel depth ps)

variable {src} in
theorem PatternsExact.succ_atom {fuel : Nat} (h : PatternsExact src fuel) (depth : Nat) (ps : Rxp) :
    ReadsExactly (parseAtom src (fuel + 1) depth ps) := by
  rw [parseAtom]
  dsimp only
  split
  · exact agrees_fail _
  split
  · refine agrees_bind (agrees_lift _) fun opening => ?_
    cases opening with
    | flags ps => exact agrees_pure _
    | group op inner =>
      refine agrees_bind (h.alt _ _) fun _ => ?_
      split
      · exact agrees_fail _
      · exact agrees_pure _
  split
  · exact agrees_bind ((classes_exact src ps.flags fuel).whole ps.p) fun _ => agrees_pure _
  iterate 3
    split
    · exact agrees_pure _
  split
  · exact agrees_bind (parseEscape_exact src ps _) fun _ => agrees_pure _
  split
  · exact agrees_fail _
  split
  · exact agrees_fail _
  · exact agrees_pure _

variable {src} in
theorem PatternsExact.succ_seq {fuel : Nat} (h : PatternsExact src fuel) (depth : Nat) (ps : Rxp) :
    ReadsExactly (parseSeq src (fuel + 1) depth ps) := by
  rw [parseSeq]
  dsimp only
  split
  · exact agrees_pure _
  split
  · split
    · exact h.seq _ _
    · exact agrees_bind (parseQuant_exact src _ _) fun _ => agrees_bind (h.seq _ _) fun _ => agrees_pure _
  · refine agrees_bind (h.atom _ _) fun read => ?_
    obtain ⟨_ | n, ps⟩ := read
    · exact h.seq _ _
    · exact agrees_bind (parseQuant_exact src _ _) fun _ => agrees_bind (h.seq _ _) fun _ => agrees_pure _

variable {src} in
theorem PatternsExact.succ_alt {fuel : Nat} (h : PatternsExact src fuel) (depth : Nat) (ps : Rxp) :
    ReadsExactly (parseAlt src (fuel + 1) depth ps) := by
  rw [parseAlt]
  refine agrees_bind (h.seq _ _) fun _ => ?_
  dsimp only
  split
  · exact agrees_pure _
  · exact agrees_bind (h.alt _ _) fun _ => agrees_pure _

theorem patterns_exact : ∀ fuel, PatternsExact src fuel
  | 0 => ⟨fun _ _ => agrees_fail _, fun _ _ => agrees_fail _, fun _ _ => agrees_fail _⟩
  | fuel + 1 =>
    have h := patterns_exact fuel
    ⟨h.succ_atom, h.succ_seq, h.succ_alt⟩

end

theorem rxCompile_exact (fuel : Nat) (flags : Flags) (pattern : List UInt8) :
    ReadsExactly (rxCompile fuel flags pattern) := by
  rw [rxCompile]
  split
  · exact agrees_pure _
  · refine agrees_bind ((patterns_exact pattern fuel).alt _ _) fun _ => ?_
    dsimp only
    split
    · exact agrees_fail _
    · exact agrees_pure _

/-- A pattern that is accepted is compiled to what its numerals say, and no count overflows, if and only if they are in
    range. -/
theorem numerals_exact {fuel : Nat} {flags : Flags} {pattern : List UInt8} {re : Rx}
    (h : (rxCompile fuel flags pattern machine).1 = .ok re) :
    ((rxCompile fuel flags pattern exact).1 = .ok re ∧
      ∀ digits, .count digits ∈ (rxCompile fuel flags pattern machine).2 → NoOverflow digits) ↔
      ∀ x ∈ (rxCompile fuel flags pattern machine).2, InRange x := by
  have hiff := (rxCompile_exact fuel flags pattern).ok_iff h
  constructor
  · exact fun hboth => hiff.1 hboth.1
  · exact fun hall => ⟨hiff.2 hall, fun digits hdigits => noOverflow_of_inRange (hall _ hdigits)⟩

def plain : Flags := ⟨false, false, false, false, false, false⟩

/-- The code points of a pattern that has no other atoms, each with its bounds. -/
def literals (re : Rx) : List (List (Option Nat × Int × Int)) :=
  re.alts.map fun seq => seq.map fun
    | .mk (.char cp) _ _ min max => (some cp, min, max)
    | .mk _ _ _ min max => (none, min, max)

theorem ok_of_toOption {ε α : Type} {a : α} : ∀ {r : Except ε α}, r.toOption = some a → r = .ok a
  | .error _, h => by cases h
  | .ok _, h => congrArg _ (Option.some.inj h)

/-- `a{2,}\x{1f600}` -/
theorem numerals_exact_count : ∃ re, (rxCompile 8 plain (lit "a\x7b2,\x7d\\x\x7b1f600\x7d")
    exact).1 = .ok re ∧ literals re = [[(some 0x61, 2, -1), (some 0x1f600, 1, 1)]] := by
  have hread : (rxCompile 8 plain (lit "a\x7b2,\x7d\\x\x7b1f600\x7d")
      machine).1.toOption.map literals = some [[(some 0x61, 2, -1), (some 0x1f600, 1, 1)]] := by decide +kernel
  obtain ⟨re, hre, hliterals⟩ := Option.map_eq_some_iff.1 hread
  refine ⟨re, ((numerals_exact (ok_of_toOption hre)).2 ?_).1, hliterals⟩
  decide +kernel

/-- `a{4294967298}` is `a{2}`, and `\x{110000}` is a code point that there is not. -/
theorem numerals_wrap :
    ((rxCompile 8 plain (lit "a\x7b4294967298\x7d") machine).1.toOption.map
        literals = some [[(some 0x61, 2, 2)]] ∧
      (rxCompile 8 plain (lit "a\x7b4294967298\x7d") exact).1.isOk = false) ∧
    (rxCompile 8 plain (lit "\\x\x7b110000\x7d") machine).1.toOption.map
        literals = some [[(some 0x110000, 1, 1)]] ∧
      (rxCompile 8 plain (lit "\\x\x7b110000\x7d") exact).1.isOk = false := by
  refine ⟨⟨?_, ?_⟩, ?_, ?_⟩
  · decide +kernel
  · decide +kernel
  · decide +kernel
  · decide +kernel

end Lunaria.Regex.Parse
