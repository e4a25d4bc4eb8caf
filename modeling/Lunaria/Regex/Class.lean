import Lunaria.Regex.Compile

/-! The character classes of `dvm/regex.c`: lists of ranges, what the compiler does with them, and how it reads a class
    from a pattern. Memory is there. -/

namespace Lunaria.Regex

/-! ### Ranges -/

def rxCpMax : Nat := 0x10ffff

def clsAdd (c : Cls) (lo hi : Nat) : Cls := { c with ranges := c.ranges ++ [if hi < lo then (hi, lo) else (lo, hi)] }

/-- `cls_cmp` -/
def clsCmp (x y : Nat × Nat) : Prop := x.1 ≤ y.1

instance : DecidableRel clsCmp := fun x y => inferInstanceAs (Decidable (x.1 ≤ y.1))

/-- The loop of `cls_normalize`, with the range that was written last. -/
def mergeRanges (w : Nat × Nat) : List (Nat × Nat) → List (Nat × Nat)
  | [] => [w]
  | r :: rs =>
    if r.1 ≤ (w.2 + 1) % 2 ^ 32 then mergeRanges (w.1, if w.2 < r.2 then r.2 else w.2) rs else w :: mergeRanges r rs

/-- Ranges of code points that start alike come out merged, whichever of them the sort puts first. (One that ends with
    `UINT32_MAX`, where `hi + 1u` is 0, would not; no code point is so large.) -/
def clsNormalize (c : Cls) : Cls :=
  if c.ranges.length < 2 then c
  else
    match c.ranges.insertionSort clsCmp with
    | [] => { c with ranges := [] }
    | r :: rs => { c with ranges := mergeRanges r rs }

/-- The loop of `cls_complement`, with the first code point that is not dealt with. -/
def gaps (next : Nat) : List (Nat × Nat) → List (Nat × Nat)
  | [] => if next ≤ rxCpMax then [(next, rxCpMax)] else []
  | r :: rs =>
    (if next < r.1 then [(next, r.1 - 1)] else []) ++
      if rxCpMax ≤ r.2 then [] else gaps (if next < (r.2 + 1) % 2 ^ 32 then (r.2 + 1) % 2 ^ 32 else next) rs

def clsComplement (c : Cls) : Cls := { c with ranges := gaps 0 (clsNormalize c).ranges }

/-- What a union and an intersection do with a negated operand first. -/
def clsPositive (c : Cls) : Cls := if c.negate then { clsComplement c with negate := false } else c

def clsUnion (dst src : Cls) : Cls := (clsPositive src).ranges.foldl (fun c r => clsAdd c r.1 r.2) dst

/-- The loop of `cls_intersect`. -/
def meetRanges : List (Nat × Nat) → List (Nat × Nat) → List (Nat × Nat)
  | [], _ => []
  | _ :: _, [] => []
  | a :: as, b :: bs =>
    let lo := if b.1 < a.1 then a.1 else b.1
    let hi := if a.2 < b.2 then a.2 else b.2
    (if lo ≤ hi then [(lo, hi)] else []) ++ if a.2 < b.2 then meetRanges as (b :: bs) else meetRanges (a :: as) bs
termination_by as bs => as.length + bs.length

def clsIntersect (dst src : Cls) : Cls :=
  { dst with ranges := meetRanges (clsNormalize dst).ranges (clsNormalize (clsPositive src)).ranges }

/-! ### Predefined classes -/

/-- The constants `PC_…`. -/
inductive Predef
  | lower | upper | alpha | digit | alnum | punct | graph | print | blank | cntrl | xdigit | space | ascii
  | word | letter | mark | number | symbol | separator | other
  deriving DecidableEq

def clsAddAll (c : Cls) (rs : List (Nat × Nat)) : Cls := rs.foldl (fun c r => clsAdd c r.1 r.2) c

def kNonLetterHigh : List (Nat × Nat) :=
  [(0x0080, 0x00a9), (0x00ab, 0x00b4), (0x00b6, 0x00b9), (0x00bb, 0x00bf), (0x00d7, 0x00d7), (0x00f7, 0x00f7),
   (0x02b0, 0x036f), (0x2000, 0x2bff), (0x3000, 0x303f), (0xfe10, 0xfe6f), (0xff01, 0xff20), (0xff3b, 0xff40),
   (0xff5b, 0xff65), (0xfff0, 0xffff)]

/-- The case of letters: those of ASCII, and what is above ASCII and not in the table. -/
def clsAddAlpha (c : Cls) : Cls :=
  let high := clsComplement (clsAdd (clsAddAll ⟨[], false⟩ kNonLetterHigh) 0 0x7f)
  clsUnion (clsAddAll c [(0x61, 0x7a), (0x41, 0x5a)]) high

def clsAddPredef (c : Cls) : Predef → Cls
  | .lower => clsAdd c 0x61 0x7a
  | .upper => clsAdd c 0x41 0x5a
  | .digit => clsAdd c 0x30 0x39
  | .xdigit => clsAddAll c [(0x30, 0x39), (0x61, 0x66), (0x41, 0x46)]
  | .blank => clsAddAll c [(0x20, 0x20), (0x09, 0x09)]
  | .ascii => clsAdd c 0 0x7f
  | .alpha | .letter => clsAddAlpha c
  | .alnum => clsAdd (clsAddAlpha c) 0x30 0x39
  | .word => clsAddAll c [(0x61, 0x7a), (0x41, 0x5a), (0x30, 0x39), (0x5f, 0x5f)]
  | .number => clsAddAll c [(0x30, 0x39), (0x0660, 0x0669), (0x06f0, 0x06f9), (0x0966, 0x096f), (0xff10, 0xff19)]
  | .space =>
    clsAddAll c [(0x09, 0x0d), (0x20, 0x20), (0x00a0, 0x00a0), (0x1680, 0x1680), (0x2000, 0x200a), (0x2028, 0x2029),
      (0x202f, 0x202f), (0x205f, 0x205f), (0x3000, 0x3000)]
  | .separator =>
    clsAddAll c [(0x20, 0x20), (0x00a0, 0x00a0), (0x1680, 0x1680), (0x2000, 0x200a), (0x2028, 0x2029), (0x202f, 0x202f),
      (0x205f, 0x205f), (0x3000, 0x3000)]
  | .cntrl | .other =>
    clsAddAll c [(0x00, 0x1f), (0x7f, 0x9f), (0x00ad, 0x00ad), (0x200b, 0x200f), (0x202a, 0x202e), (0x2060, 0x2064),
      (0x206a, 0x206f), (0xfeff, 0xfeff), (0xfff9, 0xfffb)]
  | .punct =>
    clsAddAll c [(0x21, 0x2f), (0x3a, 0x40), (0x5b, 0x60), (0x7b, 0x7e), (0x2010, 0x205e), (0x3001, 0x303f),
      (0xff01, 0xff20), (0xff3b, 0xff40), (0xff5b, 0xff65)]
  | .symbol =>
    clsAddAll c [(0x24, 0x24), (0x2b, 0x2b), (0x3c, 0x3e), (0x5e, 0x5e), (0x60, 0x60), (0x7c, 0x7c), (0x7e, 0x7e),
      (0x00a2, 0x00a6), (0x20a0, 0x20cf), (0x2100, 0x2bff)]
  | .mark => clsAddAll c [(0x0300, 0x036f), (0x1ab0, 0x1aff), (0x20d0, 0x20ff), (0xfe20, 0xfe2f)]
  | .graph => clsAddAlpha (clsAdd c 0x21 0x7e)
  | .print => clsAddAlpha (clsAdd c 0x20 0x7e)

def kNamed : List (String × Predef) :=
  [("Lower", .lower), ("Upper", .upper), ("Alpha", .alpha), ("Digit", .digit), ("Alnum", .alnum), ("Punct", .punct),
   ("Graph", .graph), ("Print", .print), ("Blank", .blank), ("Cntrl", .cntrl), ("XDigit", .xdigit), ("Space", .space),
   ("ASCII", .ascii), ("javaWhitespace", .space), ("javaLetter", .letter), ("javaLetterOrDigit", .alnum),
   ("javaDigit", .digit), ("javaLowerCase", .lower), ("javaUpperCase", .upper),
   ("L", .letter), ("Lu", .upper), ("Ll", .lower), ("Lt", .upper), ("Lm", .letter), ("Lo", .letter),
   ("M", .mark), ("Mn", .mark), ("Mc", .mark), ("Me", .mark),
   ("N", .number), ("Nd", .number), ("Nl", .number), ("No", .number),
   ("P", .punct), ("Pc", .punct), ("Pd", .punct), ("Ps", .punct), ("Pe", .punct), ("Pi", .punct), ("Pf", .punct),
   ("Po", .punct),
   ("S", .symbol), ("Sm", .symbol), ("Sc", .symbol), ("Sk", .symbol), ("So", .symbol),
   ("Z", .separator), ("Zs", .separator), ("Zl", .separator), ("Zp", .separator),
   ("C", .other), ("Cc", .cntrl), ("Cf", .other), ("Cn", .other), ("Co", .other), ("Cs", .other)]

def namedClass (name : List UInt8) : Option Predef :=
  (kNamed.find? fun entry => entry.1.toList.map (fun c => c.toNat.toUInt8) = name).map Prod.snd

/-- The name of a family, with Java's prefix `Is` or `In` if it is not one as it stands. -/
def family (name : List UInt8) : Option Predef :=
  (namedClass name).or
    (if 2 < name.length ∧ (name.take 2 = [0x49, 0x73] ∨ name.take 2 = [0x49, 0x6e]) then namedClass (name.drop 2) else none)

/-! ### Escapes -/

def hexval (c : UInt8) : Option Nat :=
  if 0x30 ≤ c ∧ c ≤ 0x39 then some (c.toNat - 0x30)
  else if 0x61 ≤ c ∧ c ≤ 0x66 then some (c.toNat - 0x61 + 10)
  else if 0x41 ≤ c ∧ c ≤ 0x46 then some (c.toNat - 0x41 + 10)
  else none

section
variable (src : List UInt8)

/-- So many hexadecimal digits; the place of the first that is none. -/
def hexDigits : Nat → Nat → Nat → Except Nat (Nat × Nat)
  | 0, v, p => .ok (v, p)
  | k + 1, v, p =>
    if atEnd src p then .error p
    else
      match hexval (byteAt src p) with
      | none => .error p
      | some h => hexDigits k (v * 16 + h) (p + 1)

/-- The digits of `\x{…}` up to the bracket, and how many they are. -/
def hexBraced : Nat → Nat → Nat → Nat → Except RxError (Nat × Nat × Nat)
  | 0, v, k, p => .ok (v, k, p)
  | fuel + 1, v, k, p =>
    if atEnd src p ∨ byteAt src p = 0x7d then .ok (v, k, p)
    else
      match hexval (byteAt src p) with
      | none => .error ⟨"Illegal hexadecimal escape sequence", p + 1⟩
      | some h => hexBraced fuel ((v * 16 + h) % 2 ^ 32) (k + 1) (p + 1)

def octDigits : Nat → Nat → Nat → Nat × Nat
  | 0, v, p => (v, p)
  | k + 1, v, p =>
    if !atEnd src p ∧ 0x30 ≤ byteAt src p ∧ byteAt src p ≤ 0x37 then
      octDigits k (v * 8 + ((byteAt src p).toNat - 0x30)) (p + 1)
    else (v, p)

/-- The four digits after `\u`, with a second escape where the two are the halves of a surrogate pair. -/
def escUnicode (p : Nat) : Except RxError (Nat × Nat) :=
  match hexDigits src 4 0 p with
  | .error p => .error ⟨"Illegal Unicode escape sequence", p⟩
  | .ok (v, p) =>
    if (0xd800 ≤ v ∧ v ≤ 0xdbff) ∧ p + 1 < src.length ∧ byteAt src p = 0x5c ∧ byteAt src (p + 1) = 0x75 then
      match hexDigits src 4 0 (p + 2) with
      | .error _ => .ok (v, p)
      | .ok (lo, q) =>
        if 0xdc00 ≤ lo ∧ lo ≤ 0xdfff then .ok (0x10000 + ((v - 0xd800) <<< 10) + (lo - 0xdc00), q) else .ok (v, p)
    else .ok (v, p)

/-- `esc_char` from the place after the backslash. -/
def escChar (p : Nat) : Except RxError (Nat × Nat) :=
  let c := peek src p
  if c = 0x6e then .ok (0x0a, p + 1)
  else if c = 0x72 then .ok (0x0d, p + 1)
  else if c = 0x74 then .ok (0x09, p + 1)
  else if c = 0x66 then .ok (0x0c, p + 1)
  else if c = 0x61 then .ok (0x07, p + 1)
  else if c = 0x65 then .ok (0x1b, p + 1)
  else if c = 0x30 then
    let (v, q) := octDigits src 3 0 (p + 1)
    if q = p + 1 then .error ⟨"Illegal octal escape sequence", q⟩ else .ok (v, q)
  else if c = 0x78 then
    if peek src (p + 1) = 0x7b then do
      let (v, k, q) ← hexBraced src src.length 0 0 (p + 2)
      if peek src q ≠ 0x7d then .error ⟨"Unclosed hexadecimal escape sequence", q⟩
      else if k = 0 then .error ⟨"Illegal hexadecimal escape sequence", q + 1⟩
      else .ok (v, q + 1)
    else
      match hexDigits src 2 0 (p + 1) with
      | .error q => .error ⟨"Illegal hexadecimal escape sequence", q⟩
      | .ok r => .ok r
  else if c = 0x75 then escUnicode src (p + 1)
  else if c = 0x63 then
    if atEnd src (p + 1) then .error ⟨"Illegal control escape sequence", p + 1⟩
    else .ok ((byteAt src (p + 1) &&& 0x1f).toNat, p + 2)
  else .ok (pointAt src p)

/-- The place of the bracket that ends the name of a family. -/
def familyEnd : Nat → Nat → Nat
  | 0, p => p
  | fuel + 1, p => if atEnd src p ∨ byteAt src p = 0x7d then p else familyEnd fuel (p + 1)

/-- The class of `\p` and `\P`; a family that is not known has no members. -/
def escFamily (negate : Bool) (p : Nat) : Except RxError (Cls × Nat) :=
  let named (name : List UInt8) : Cls :=
    match family name with
    | some which => { clsAddPredef ⟨[], false⟩ which with negate := negate }
    | none => ⟨[], negate⟩
  if peek src (p + 1) = 0x7b then
    let q := familyEnd src src.length (p + 2)
    if atEnd src q then .error ⟨"Unclosed character family", p⟩
    else .ok (named ((src.drop (p + 2)).take (q - (p + 2))), q + 1)
  else if atEnd src (p + 1) then .error ⟨"Unclosed character family", p⟩
  else .ok (named [byteAt src (p + 1)], p + 2)

/-- `esc_class` from the place after the backslash, `none` for another escape. -/
def escClass (p : Nat) : Except RxError (Option (Cls × Nat)) :=
  let c := peek src p
  let predef (which : Predef) (negate : Bool) : Except RxError (Option (Cls × Nat)) :=
    .ok (some ({ clsAddPredef ⟨[], false⟩ which with negate := negate }, p + 1))
  if c = 0x64 then predef .digit false
  else if c = 0x44 then predef .digit true
  else if c = 0x73 then predef .space false
  else if c = 0x53 then predef .space true
  else if c = 0x77 then predef .word false
  else if c = 0x57 then predef .word true
  else if c = 0x68 then predef .blank false
  else if c = 0x48 then predef .blank true
  else if c = 0x76 ∨ c = 0x56 then
    .ok (some (⟨(clsAddAll ⟨[], false⟩ [(0x0a, 0x0d), (0x85, 0x85), (0x2028, 0x2029)]).ranges, c = 0x56⟩, p + 1))
  else if c = 0x70 ∨ c = 0x50 then (escFamily src (c = 0x50) p).map some
  else .ok none

/-! ### Classes in a pattern -/

/-- What is read at both ends of a range: an escape of either kind, or the code point that stands there. -/
def classTerm (p : Nat) : Except RxError ((Cls ⊕ Nat) × Nat) :=
  if peek src p = 0x5c then do
    match ← escClass src (p + 1) with
    | some (sub, q) => .ok (.inl sub, q)
    | none => (escChar src (p + 1)).map fun (cp, q) => (.inr cp, q)
  else
    let (cp, q) := pointAt src p
    .ok (.inr cp, q)

/-- A dash that is followed by another term. -/
def dashAt (p : Nat) : Bool :=
  peek src p = 0x2d && peek src (p + 1) ≠ 0x5d && peek src (p + 1) ≠ 0 &&
    !(peek src (p + 1) = 0x26 && peek src (p + 2) = 0x26)

def intersectAt (p : Nat) : Bool := peek src p = 0x26 && peek src (p + 1) = 0x26

/-- The terms of a union end: at a bracket that is not the first of them, or before `&&`. -/
def termsEnd (isFirst : Bool) (p : Nat) : Bool := (byteAt src p = 0x5d && !isFirst) || intersectAt src p

variable (flags : Flags)

mutual

/-- `parse_class_union`, with what it has read. -/
def parseClassUnion : Nat → Bool → Cls → Nat → Except RxError (Cls × Nat)
  | 0, _, _, p => .error ⟨"", p⟩
  | fuel + 1, isFirst, cls, p =>
    let p := skipX src flags p
    if atEnd src p then .error ⟨"Unclosed character class", p⟩
    else if termsEnd src isFirst p then .ok (cls, p)
    else if byteAt src p = 0x5b then do
      let (sub, q) ← parseClassAt fuel p
      parseClassUnion fuel false (clsUnion cls sub) q
    else do
      match ← classTerm src p with
      | (.inl sub, q) => parseClassUnion fuel false (clsUnion cls sub) q
      | (.inr lo, q) =>
        if dashAt src q then do
          match ← classTerm src (q + 1) with
          -- the place is set back to the one after the backslash
          | (.inl _, _) => parseClassUnion fuel false (clsAdd (clsAdd cls lo lo) 0x2d 0x2d) (q + 2)
          | (.inr hi, r) =>
            if hi < lo then .error ⟨"Illegal character range", r⟩
            else parseClassUnion fuel false (clsAdd cls lo hi) r
        else parseClassUnion fuel false (clsAdd cls lo lo) q

/-- The loop over the operands of `&&`. -/
def parseOperands : Nat → Cls → Nat → Except RxError (Cls × Nat)
  | 0, _, p => .error ⟨"", p⟩
  | fuel + 1, cls, p =>
    if intersectAt src p then
      (if peek src (p + 2) = 0x5b then parseClassAt fuel (p + 2) else parseClassUnion fuel true ⟨[], false⟩ (p + 2)).bind
        fun (rhs, q) => parseOperands fuel (clsIntersect cls rhs) q
    else .ok (cls, p)

/-- `parse_class` -/
def parseClassAt : Nat → Nat → Except RxError (Cls × Nat)
  | 0, p => .error ⟨"", p⟩
  | fuel + 1, p => do
    let negate := decide (peek src (p + 1) = 0x5e)
    let (cls, q) ← parseClassUnion fuel true ⟨[], false⟩ (if negate then p + 2 else p + 1)
    let (cls, q) ← parseOperands fuel cls q
    if peek src q ≠ 0x5d then .error ⟨"Unclosed character class", q⟩
    else .ok ({ clsNormalize cls with negate := negate }, q + 1)

end

/-- Two calls at most for each byte of the pattern. -/
def parseClass (p : Nat) : Except RxError (Cls × Nat) := parseClassAt src flags (2 * src.length + 2) p

end

end Lunaria.Regex
