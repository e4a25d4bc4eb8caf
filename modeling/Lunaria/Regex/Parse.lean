import Mathlib.Data.Nat.Digits.Defs
import Lunaria.Lib.Questions
import Lunaria.Regex.Class

/-! The whole compiler of `dvm/regex.c`. Its numerals, those of counted quantifiers and of `\x{…}`, are questions: how
    they are answered is told apart from how the rest of a pattern is read. Calls go as deep as the fuel, and memory is
    there. -/

namespace Lunaria.Regex.Parse

open Questions (Asking lift fail ask)

inductive Numeral
  | count (digits : List UInt8)
  | point (digits : List UInt8)
  deriving DecidableEq

abbrev Reading (α : Type) : Type := Asking Numeral Int RxError α

/-- The parser: the place in the pattern, the flags in force, the groups so far and their names. -/
structure Rxp where
  p : Nat
  flags : Flags
  ngroups : Nat
  names : List (List UInt8 × Nat)

/-! ### The answers -/

/-- `v * base + h` in an `int`, with the wrap of the usual compilers. -/
def intStep (v : Int) (c : UInt8) : Int := (v * 10 + (c.toNat - 0x30 : Nat)).bmod (2 ^ 32)

def pointStep (v : Nat) (c : UInt8) : Nat := (v * 16 + (hexval c).getD 0) % 2 ^ 32

/-- The values of the loops of `parse_quant` and `esc_char`. -/
def machine : Numeral → Option Int
  | .count digits => some (digits.foldl intStep 0)
  | .point digits => some (digits.foldl pointStep 0 : Nat)

def written : Numeral → Nat
  | .count digits => Nat.ofDigits 10 (digits.reverse.map fun c => c.toNat - 0x30)
  | .point digits => Nat.ofDigits 16 (digits.reverse.map fun c => (hexval c).getD 0)

/-- A count fits an `int`, and a code point is one. -/
def InRange : Numeral → Prop
  | .count digits => written (.count digits) ≤ 2147483647
  | .point digits => written (.point digits) ≤ rxCpMax

instance : DecidablePred InRange
  | .count _ => inferInstanceAs (Decidable (_ ≤ _))
  | .point _ => inferInstanceAs (Decidable (_ ≤ _))

/-- Numerals read for what they say, those that are out of range refused. -/
def exact (x : Numeral) : Option Int := if InRange x then some (written x) else none

/-! ### The parser -/

section
variable (src : List UInt8)

def node (op : Op Node) (flags : Flags) : Node := .mk op .greedy (nodeStamp flags) 1 1

/-- `parse_quoted` -/
def parseQuoted (flags : Flags) : Nat → Nat → List Node × Nat
  | 0, p => ([], p)
  | fuel + 1, p =>
    if atEnd src p then ([], p)
    else if byteAt src p = 0x5c ∧ p + 1 < src.length ∧ byteAt src (p + 1) = 0x45 then ([], p + 2)
    else
      let (cp, next) := pointAt src p
      let (rest, last) := parseQuoted flags fuel next
      (node (.char cp) flags :: rest, last)

def digitsAt (p : Nat) : List UInt8 := (src.drop p).takeWhile isDigit

/-- A decimal number and the place after it. -/
def parseNumber (p : Nat) : Reading (Int × Nat) := do
  let digits := digitsAt src p
  let v ← ask (.count digits) ⟨"Numeral out of range", p⟩
  pure (v, p + digits.length)

/-- The numbers of `{m}`, `{m,}` and `{m,n}` from the place after the bracket on. -/
def parseBraces (p : Nat) : Reading (Int × Int × Nat) := do
  let (min, p) ← parseNumber src p
  let (max, p) ←
    (if peek src p = 0x2c then
      if peek src (p + 1) = 0x7d then pure (-1, p + 1) else parseNumber src (p + 1)
    else pure (min, p))
  if peek src p ≠ 0x7d then fail ⟨"Unclosed counted closure", p⟩
  else if 0 ≤ max ∧ max < min then fail ⟨"Illegal repetition range", p + 1⟩
  else pure (min, max, p + 1)

/-- The bounds that `parse_quant` finds, if there are any. -/
def parseCounts (p : Nat) : Reading (Option (Int × Int × Nat)) :=
  let c := peek src p
  if c = 0x2a then pure (some (0, -1, p + 1))
  else if c = 0x2b then pure (some (1, -1, p + 1))
  else if c = 0x3f then pure (some (0, 1, p + 1))
  else if c = 0x7b ∧ isDigit (peek src (p + 1)) then some <$> parseBraces src (p + 1)
  else pure none

/-- `parse_quant`: the node with the quantifier that stands at the place. -/
def parseQuant (n : Node) (p : Nat) : Reading (Node × Nat) := do
  match ← parseCounts src p with
  | none => pure (n, p)
  | some (min, max, p) =>
    if peek src p = 0x3f then pure (.mk n.op .reluctant n.stamp min max, p + 1)
    else if peek src p = 0x2b then pure (.mk n.op .possessive n.stamp min max, p + 1)
    else pure (.mk n.op .greedy n.stamp min max, p)

/-- The digits of `\x{…}` up to the bracket or the end. -/
def hexText (p : Nat) : List UInt8 := (src.drop p).takeWhile (· ≠ 0x7d)

/-- `\x{…}` from the place after the bracket on. -/
def escBraced (p : Nat) : Reading (Nat × Nat) :=
  let digits := hexText src p
  match digits.findIdx? fun c => (hexval c).isNone with
  | some k => fail ⟨"Illegal hexadecimal escape sequence", p + k + 1⟩
  | none =>
    let q := p + digits.length
    if peek src q ≠ 0x7d then fail ⟨"Unclosed hexadecimal escape sequence", q⟩
    else if digits = [] then fail ⟨"Illegal hexadecimal escape sequence", q + 1⟩
    else do
      let v ← ask (.point digits) ⟨"Numeral out of range", p⟩
      pure (v.toNat, q + 1)

/-- `esc_char` from the place after the backslash. -/
def escChar (p : Nat) : Reading (Nat × Nat) :=
  if peek src p = 0x78 ∧ peek src (p + 1) = 0x7b then escBraced src (p + 2) else lift (Regex.escChar src p)

/-! ### Classes -/

/-- What is read at both ends of a range: an escape of either kind, or the code point that stands there. -/
def classTerm (p : Nat) : Reading ((Cls ⊕ Nat) × Nat) :=
  if peek src p = 0x5c then do
    match ← lift (escClass src (p + 1)) with
    | some (sub, q) => pure (.inl sub, q)
    | none =>
      let (cp, q) ← escChar src (p + 1)
      pure (.inr cp, q)
  else
    let (cp, q) := pointAt src p
    pure (.inr cp, q)

section
variable (flags : Flags)

mutual

/-- `parse_class_union`, with what it has read. -/
def parseClassUnion : Nat → Bool → Cls → Nat → Reading (Cls × Nat)
  | 0, _, _, p => fail ⟨"", p⟩
  | fuel + 1, isFirst, cls, p =>
    let p := skipX src flags p
    if atEnd src p then fail ⟨"Unclosed character class", p⟩
    else if termsEnd src isFirst p then pure (cls, p)
    else if byteAt src p = 0x5b then do
      let (sub, q) ← parseClass fuel p
      parseClassUnion fuel false (clsUnion cls sub) q
    else do
      match ← classTerm src p with
      | (.inl sub, q) => parseClassUnion fuel false (clsUnion cls sub) q
      | (.inr lo, q) =>
        if dashAt src q then do
          match ← classTerm src (q + 1) with
          -- the place is set back to the one after the backslash
          | (.inl _, _) => parseClassUnion fuel false (clsAdd (clsAdd cls lo lo) 0x2d 0x2d) (q + 2)
          | (.inr hi, r) =>
            if hi < lo then fail ⟨"Illegal character range", r⟩
            else parseClassUnion fuel false (clsAdd cls lo hi) r
        else parseClassUnion fuel false (clsAdd cls lo lo) q

/-- The loop over the operands of `&&`. -/
def parseOperands : Nat → Cls → Nat → Reading (Cls × Nat)
  | 0, _, p => fail ⟨"", p⟩
  | fuel + 1, cls, p =>
    if intersectAt src p then do
      let (rhs, q) ← (if peek src (p + 2) = 0x5b then parseClass fuel (p + 2) else parseClassUnion fuel true
        ⟨[], false⟩ (p + 2))
      parseOperands fuel (clsIntersect cls rhs) q
    else pure (cls, p)

/-- `parse_class` -/
def parseClass : Nat → Nat → Reading (Cls × Nat)
  | 0, p => fail ⟨"", p⟩
  | fuel + 1, p => do
    let negate := decide (peek src (p + 1) = 0x5e)
    let (cls, q) ← parseClassUnion fuel true ⟨[], false⟩ (if negate then p + 2 else p + 1)
    let (cls, q) ← parseOperands fuel cls q
    if peek src q ≠ 0x5d then fail ⟨"Unclosed character class", q⟩
    else pure ({ clsNormalize cls with negate := negate }, q + 1)

end

end

/-! ### Atoms -/

/-- `parse_flag_letters`, after a dash or before; the letters `u` and `U` are for flags that nothing looks at. -/
def parseFlagLetters : Nat → Bool → Flags → Nat → Flags × Nat
  | 0, _, flags, p => (flags, p)
  | fuel + 1, on, flags, p =>
    let c := peek src p
    if c = 0x69 then parseFlagLetters fuel on { flags with icase := on } (p + 1)
    else if c = 0x64 then parseFlagLetters fuel on { flags with unixLines := on } (p + 1)
    else if c = 0x6d then parseFlagLetters fuel on { flags with multiline := on } (p + 1)
    else if c = 0x73 then parseFlagLetters fuel on { flags with dotall := on } (p + 1)
    else if c = 0x78 then parseFlagLetters fuel on { flags with comments := on } (p + 1)
    else if c = 0x75 ∨ c = 0x55 then parseFlagLetters fuel on flags (p + 1)
    else if c = 0x2d then parseFlagLetters fuel false flags (p + 1)
    else (flags, p)

/-- `parse_group_name`: the name and the place after its bracket. -/
def parseGroupName (p : Nat) : Except RxError (List UInt8 × Nat) :=
  let name := (src.drop p).takeWhile (· ≠ 0x3e)
  if atEnd src (p + name.length) then .error ⟨"Unclosed group name", p + name.length⟩ else .ok (name, p + name.length + 1)

/-- What the beginning of a group says: the flags alone, or the operation of its alternatives. -/
inductive Opening
  | flags (ps : Rxp)
  | group (op : List (List Node) → Op Node) (ps : Rxp)

def capture (ps : Rxp) (name : Option (List UInt8)) (p : Nat) : Except RxError Opening :=
  let g := ps.ngroups + 1
  if rxMaxGroups < g then .error ⟨"Too many capturing groups", p⟩
  else
    let names := match name with
      | none => ps.names
      | some name => ps.names ++ [(name, g)]
    .ok (.group (.group g) { ps with p := p, ngroups := g, names := names })

/-- The beginning of a group from the place after the bracket on. -/
def parseOpening (ps : Rxp) (p : Nat) : Except RxError Opening :=
  if peek src p ≠ 0x3f then capture ps none p
  else
    let k := peek src (p + 1)
    if k = 0x3a then .ok (.group (.group 0) { ps with p := p + 2 })
    else if k = 0x3d then .ok (.group (.lookahead false) { ps with p := p + 2 })
    else if k = 0x21 then .ok (.group (.lookahead true) { ps with p := p + 2 })
    else if k = 0x3e then .ok (.group .atomic { ps with p := p + 2 })
    else if k = 0x3c ∧ (peek src (p + 2) = 0x3d ∨ peek src (p + 2) = 0x21) then
      .ok (.group (.lookbehind (peek src (p + 2) = 0x21)) { ps with p := p + 3 })
    else if k = 0x3c then do
      let (name, q) ← parseGroupName src (p + 2)
      capture ps (some name) q
    else
      let (flags, q) := parseFlagLetters src src.length true ps.flags (p + 1)
      if peek src q = 0x29 then .ok (.flags { ps with p := q + 1, flags := flags })
      else if peek src q ≠ 0x3a then .error ⟨"Unknown inline modifier", q⟩
      else .ok (.group (.group 0) { ps with p := q + 1, flags := flags })

/-- As many digits as name a group that there is. -/
def parseRef (ngroups : Nat) : Nat → Nat → Nat → Nat × Nat
  | 0, idx, p => (idx, p)
  | fuel + 1, idx, p =>
    if p < src.length ∧ isDigit (byteAt src p) then
      let cand := idx * 10 + ((byteAt src p).toNat - 0x30)
      if ngroups < cand then (idx, p) else parseRef ngroups fuel cand (p + 1)
    else (idx, p)

/-- The operations of one letter after a backslash. -/
def letterOp (c : UInt8) : Option (Op Node) :=
  if c = 0x62 then some .wordb
  else if c = 0x42 then some .nwordb
  else if c = 0x41 then some .bos
  else if c = 0x7a then some .eos
  else if c = 0x5a then some .eosFinal
  else if c = 0x47 then some .gpos
  else none

/-- What stands after a backslash outside of classes. -/
def parseEscape (ps : Rxp) (p : Nat) : Reading (Op Node × Nat) :=
  let k := peek src p
  match letterOp k with
  | some op => pure (op, p + 1)
  | none =>
    if k = 0x6b ∧ peek src (p + 1) = 0x3c then do
      let (name, q) ← lift (parseGroupName src (p + 2))
      match ps.names.find? fun entry => entry.1 = name with
      | none => fail ⟨"Unknown group name in backreference", q⟩
      | some entry => pure (.backref entry.2, q)
    else if 0x31 ≤ k ∧ k ≤ 0x39 then
      let (idx, q) := parseRef src ps.ngroups src.length 0 p
      if idx = 0 then fail ⟨"Illegal backreference", p⟩ else pure (.backref idx, q)
    else do
      match ← lift (escClass src p) with
      | some (cls, q) => pure (.cls cls, q)
      | none =>
        let (cp, q) ← escChar src p
        pure (.char cp, q)

mutual

/-- `parse_atom` at a depth of groups; none for flags alone. -/
def parseAtom : Nat → Nat → Rxp → Reading (Option Node × Rxp)
  | 0, _, ps => fail ⟨"", ps.p⟩
  | fuel + 1, depth, ps =>
    if rxDepthMax < depth then fail ⟨"Pattern nested too deeply", ps.p⟩
    else
      let c := peek src ps.p
      let single (op : Op Node) (p : Nat) : Reading (Option Node × Rxp) :=
        pure (some (node op ps.flags), { ps with p := p })
      if c = 0x28 then do
        match ← lift (parseOpening src ps (ps.p + 1)) with
        | .flags ps => pure (none, ps)
        | .group op inner =>
          let (alts, last) ← parseAlt fuel (depth + 1) inner
          if peek src last.p ≠ 0x29 then fail ⟨"Unclosed group", last.p⟩
          else pure (some (node (op alts) inner.flags), { last with p := last.p + 1, flags := ps.flags })
      else if c = 0x5b then do
        let (cls, q) ← parseClass src ps.flags fuel ps.p
        single (.cls cls) q
      else if c = 0x2e then single .any (ps.p + 1)
      else if c = 0x5e then single .bol (ps.p + 1)
      else if c = 0x24 then single .eol (ps.p + 1)
      else if c = 0x5c then do
        let (op, q) ← parseEscape src ps (ps.p + 1)
        single op q
      else if c = 0x29 ∨ c = 0x7c ∨ c = 0 then fail ⟨"Unexpected token", ps.p⟩
      else if c = 0x2a ∨ c = 0x2b ∨ c = 0x3f then fail ⟨"Dangling meta character", ps.p⟩
      else single (.char (pointAt src ps.p).1) (pointAt src ps.p).2

/-- `parse_seq` -/
def parseSeq : Nat → Nat → Rxp → Reading (List Node × Rxp)
  | 0, _, ps => fail ⟨"", ps.p⟩
  | fuel + 1, depth, ps =>
    let p := skipX src ps.flags ps.p
    let ps := { ps with p := p }
    if atEnd src p ∨ byteAt src p = 0x7c ∨ byteAt src p = 0x29 then pure ([], ps)
    else if byteAt src p = 0x5c ∧ p + 1 < src.length ∧ byteAt src (p + 1) = 0x51 then do
      let (quoted, p) := parseQuoted src ps.flags src.length (p + 2)
      match quoted.getLast? with
      | none => parseSeq fuel depth { ps with p := p }
      | some last =>
        let (last, p) ← parseQuant src last p
        let (rest, ps) ← parseSeq fuel depth { ps with p := p }
        pure (quoted.dropLast ++ last :: rest, ps)
    else do
      match ← parseAtom fuel depth ps with
      | (none, ps) => parseSeq fuel depth ps
      | (some n, ps) =>
        let (n, p) ← parseQuant src n ps.p
        let (rest, ps) ← parseSeq fuel depth { ps with p := p }
        pure (n :: rest, ps)

/-- `parse_alt` -/
def parseAlt : Nat → Nat → Rxp → Reading (List (List Node) × Rxp)
  | 0, _, ps => fail ⟨"", ps.p⟩
  | fuel + 1, depth, ps => do
    let (seq, ps) ← parseSeq fuel depth ps
    if peek src ps.p ≠ 0x7c then pure ([seq], ps)
    else
      let (alts, ps) ← parseAlt fuel depth { ps with p := ps.p + 1 }
      pure (seq :: alts, ps)

end

end

/-- `rx_compile` -/
def rxCompile (fuel : Nat) (flags : Flags) (pattern : List UInt8) : Reading Rx :=
  if flags.literal then
    pure ⟨[(pointsFrom pattern pattern.length 0).map (charNode ⟨flags.icase, false, false, false⟩)], 0⟩
  else do
    let (alts, ps) ← parseAlt pattern fuel 0 ⟨0, flags, 0, []⟩
    if !atEnd pattern ps.p then fail ⟨"Unmatched closing ')'", ps.p⟩ else pure ⟨alts, ps.ngroups⟩

end Lunaria.Regex.Parse
