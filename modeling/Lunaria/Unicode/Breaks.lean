import Lunaria.Lib.Unicode

/-! The boundaries of `unicode/breaks.h`: grapheme clusters and lines of a UTF-16 text. The tables are parameters,
    `uc_break_property` and `luna_uc_type`. A read outside the array of boundaries gives nothing. -/

namespace Lunaria.Breaks

open Lunaria.Unicode

/-- `enum uc_lb`. -/
inductive Lb where
  | xx | ai | al | b2 | ba | bb | bk | cb | cj | cl | cm | cp | cr | eb | em | ex | gl | h2 | h3 | hl | hy | id | in' | is | jl | jt
  | jv | lf | nl | ns | nu | op | po | pr | qu | ri | sa | sg | sp | sy | wj | zw | zwj
deriving DecidableEq

/-- `enum uc_gb`. -/
inductive Gb where
  | other | cr | lf | control | extend | zwj | regionalIndicator | prepend | spacingMark | l | v | t | lv | lvt
deriving DecidableEq

/-- What `struct uc_break_range` says of its code points: 1 of `flags` is Extended_Pictographic and 2 is a wide
    East_Asian_Width. -/
structure Property where
  lb : Lb
  gb : Gb
  flags : Nat
deriving DecidableEq

/-- `struct uc_boundary`. -/
structure Boundary where
  cp : Nat
  pos : Nat
  base : Nat
  nonspace : Nat
  lb : Lb
  raw : Lb
  gb : Gb
  flags : Nat
  ri : Nat
  numeric : Bool
deriving DecidableEq

def Boundary.pict (b : Boundary) : Bool := b.flags &&& 1 ≠ 0

def Boundary.wide (b : Boundary) : Bool := b.flags &&& 2 ≠ 0

def ucHard (lb : Lb) : Bool := lb = .bk ∨ lb = .cr ∨ lb = .lf ∨ lb = .nl

def ucAlpha (lb : Lb) : Bool := lb = .al ∨ lb = .hl

def ucHangul (lb : Lb) : Bool := lb = .jl ∨ lb = .jv ∨ lb = .jt ∨ lb = .h2 ∨ lb = .h3

def ucControl (gb : Gb) : Bool := gb = .cr ∨ gb = .lf ∨ gb = .control

def ucGrapheme (a b : Boundary) (epState ri : Nat) : Bool :=
  if a.gb = .cr ∧ b.gb = .lf then false
  else if ucControl a.gb ∨ ucControl b.gb then true
  else if a.gb = .l ∧ (b.gb = .l ∨ b.gb = .v ∨ b.gb = .lv ∨ b.gb = .lvt) then false
  else if (a.gb = .lv ∨ a.gb = .v) ∧ (b.gb = .v ∨ b.gb = .t) then false
  else if (a.gb = .lvt ∨ a.gb = .t) ∧ b.gb = .t then false
  else if b.gb = .extend ∨ b.gb = .zwj ∨ b.gb = .spacingMark ∨ a.gb = .prepend then false
  else if epState = 2 ∧ b.pict then false
  else if a.gb = .regionalIndicator ∧ b.gb = .regionalIndicator ∧ ri % 2 = 1 then false
  else true

/-- The search for the next boundary that is its own base, in what is left of the array from an index on. -/
def skipFrom : Nat → List Boundary → Option Boundary
  | _, [] => none
  | next, b :: bs => if b.base ≠ next then skipFrom (next + 1) bs else some b

/-- The decision of `uc_line` for what it read: the boundaries `a` and `b` of the place, that of the last element that is no
    space, that of the base of `a`, the one before the base if there is one, and the base after `b`. -/
def ucLineOf (lunaUcType : Nat → Nat) (i : Nat) (a b nonspace base : Boundary) (before : Option Boundary)
    (next : Boundary) : Nat :=
  let l := a.lb
  let r := b.lb
  let nsp := nonspace.lb
  if a.raw = .cr ∧ b.raw = .lf then 0
  else if ucHard a.raw then 5
  else if ucHard b.raw ∨ r = .sp ∨ r = .zw then 0
  else if nsp = .zw then 1
  else if a.raw = .zwj then 0
  else if b.base ≠ i then 0
  else if l = .wj ∨ r = .wj ∨ l = .gl then 0
  else if r = .gl ∧ l ≠ .sp ∧ l ≠ .ba ∧ l ≠ .hy then 0
  else if r = .ex ∨ l ≠ .nu ∧ (r = .cl ∨ r = .cp ∨ r = .is ∨ r = .sy) then 0
  else if nsp = .op ∨ nsp = .qu ∧ r = .op ∨ (nsp = .cl ∨ nsp = .cp) ∧ r = .ns ∨ nsp = .b2 ∧ r = .b2 then 0
  else if l = .sp then 1
  else if l = .qu ∨ r = .qu then 0
  else if l = .cb ∨ r = .cb then 1
  else if r = .ba ∨ r = .hy ∨ r = .ns ∨ l = .bb then 0
  else if (l = .hy ∨ l = .ba) ∧ before.any (fun p => p.lb = .hl) then 0
  else if l = .sy ∧ r = .hl then 0
  else if r = .in' then 0
  else if ucAlpha l ∧ r = .nu ∨ l = .nu ∧ ucAlpha r then 0
  else if l = .pr ∧ (r = .id ∨ r = .eb ∨ r = .em) ∨ (l = .id ∨ l = .eb ∨ l = .em) ∧ r = .po then 0
  else if (l = .pr ∨ l = .po) ∧ ucAlpha r ∨ ucAlpha l ∧ (r = .pr ∨ r = .po) then 0
  else if (l = .pr ∨ l = .po) ∧ (r = .nu ∨ (r = .op ∨ r = .hy) ∧ next.lb = .nu) then 0
  else if (l = .op ∨ l = .hy) ∧ r = .nu then 0
  else if a.numeric ∧ (r = .nu ∨ r = .sy ∨ r = .is ∨ r = .cl ∨ r = .cp ∨ r = .po ∨ r = .pr) then 0
  else if (l = .cl ∨ l = .cp) ∧ before.any (fun p => p.numeric) ∧ (r = .po ∨ r = .pr) then 0
  else if l = .jl ∧ (r = .jl ∨ r = .jv ∨ r = .h2 ∨ r = .h3) then 0
  else if (l = .jv ∨ l = .h2) ∧ (r = .jv ∨ r = .jt) then 0
  else if (l = .jt ∨ l = .h3) ∧ r = .jt then 0
  else if ucHangul l ∧ r = .po ∨ l = .pr ∧ ucHangul r then 0
  else if ucAlpha l ∧ ucAlpha r then 0
  else if l = .is ∧ ucAlpha r then 0
  else if (ucAlpha l ∨ l = .nu) ∧ r = .op ∧ !b.wide then 0
  else if l = .cp ∧ !base.wide ∧ (ucAlpha r ∨ r = .nu) then 0
  else if l = .ri ∧ r = .ri ∧ a.ri % 2 = 1 then 0
  else if r = .em ∧ (l = .eb ∨ base.pict ∧ lunaUcType base.cp = 0) then 0
  else 1

/-- `uc_line`, with all that it may read read first. -/
def ucLine (lunaUcType : Nat → Nat) (s : List Boundary) (i : Nat) : Option Nat := do
  let a ← s[i - 1]?
  let b ← s[i]?
  let nonspace ← s[a.nonspace]?
  let base ← s[a.base]?
  let before ← if a.base = 0 then some none else (s[a.base - 1]?).map some
  let next ← skipFrom (i + 1) (s.drop (i + 1))
  return ucLineOf lunaUcType i a b nonspace base before next

/-- The code points of a text, each with the unit at which it starts. -/
def codePoints : Nat → List UInt16 → List (Nat × Nat)
  | _, [] => []
  | pos, [u] => [(pos, u.toNat)]
  | pos, u :: l :: rest =>
    if IsHigh u ∧ IsLow l then
      (pos, 0x10000 + ((u.toNat - 0xd800) <<< 10) + (l.toNat - 0xdc00)) :: codePoints (pos + 2) rest
    else (pos, u.toNat) :: codePoints (pos + 1) (l :: rest)

/-- The class of a code point before marks are attached. -/
def resolved (lunaUcType : Nat → Nat) (lb : Lb) (cp : Nat) : Lb :=
  let lb := if lb = .ai ∨ lb = .sg ∨ lb = .xx then .al else lb
  let lb := if lb = .cj then .ns else lb
  if lb = .sa then if lunaUcType cp = 6 ∨ lunaUcType cp = 8 then .cm else .al else lb

/-- The class and the base of a code point behind these boundaries: a mark gets those of the boundary before it. -/
def attach (s : List Boundary) (lb : Lb) : Option (Lb × Nat) :=
  let count := s.length
  if lb = .cm ∨ lb = .zwj then
    if count = 0 then some (.al, count)
    else do
      let q ← s[count - 1]?
      if !ucHard q.lb ∧ q.lb ≠ .sp ∧ q.lb ≠ .zw then some (q.lb, q.base) else some (.al, count)
  else some (lb, count)

def nonspaceOf (s : List Boundary) (lb : Lb) : Option Nat :=
  let count := s.length
  if lb = .sp ∧ count ≠ 0 then (s[count - 1]?).map (·.nonspace) else some count

def riOf (s : List Boundary) (lb : Lb) (base : Nat) : Option Nat :=
  let count := s.length
  if lb = .ri then
    if base ≠ count then (s[count - 1]?).map (·.ri)
    else if count = 0 then some 1
    else (s[count - 1]?).map fun q => if q.lb = .ri then q.ri + 1 else 1
  else some 0

def numericOf (s : List Boundary) (lb : Lb) : Option Bool :=
  let count := s.length
  if lb = .nu then some true
  else if (lb = .sy ∨ lb = .is) ∧ count ≠ 0 then (s[count - 1]?).map (·.numeric)
  else some false

/-- The boundary that the first loop stores behind those it has. -/
def entry (ucBreakProperty : Nat → Property) (lunaUcType : Nat → Nat) (s : List Boundary) (pos cp : Nat) :
    Option Boundary := do
  let p := ucBreakProperty cp
  let (lb, base) ← attach s (resolved lunaUcType p.lb cp)
  let nonspace ← nonspaceOf s lb
  let ri ← riOf s lb base
  let numeric ← numericOf s lb
  return ⟨cp, pos, base, nonspace, lb, p.lb, p.gb, p.flags, ri, numeric⟩

def fill (ucBreakProperty : Nat → Property) (lunaUcType : Nat → Nat) :
    List Boundary → List (Nat × Nat) → Option (List Boundary)
  | s, [] => some s
  | s, (pos, cp) :: cps => do
    let b ← entry ucBreakProperty lunaUcType s pos cp
    fill ucBreakProperty lunaUcType (s ++ [b]) cps

/-- Behind the boundaries there is one that is its own base and has no class. -/
def sentinel (count : Nat) : Boundary := ⟨0, 0, count, 0, .xx, .xx, .other, 0, 0, false⟩

def epNext (epState : Nat) (b : Boundary) : Nat :=
  if b.pict then 1
  else if b.gb = .zwj ∧ epState = 1 then 2
  else if b.gb ≠ .extend ∨ epState ≠ 1 then 0
  else epState

def riNext (ri : Nat) (b : Boundary) : Nat := if b.gb = .regionalIndicator then ri + 1 else 0

/-- The second loop, from the boundary `i` on; `left` is what is left of the boundaries without the sentinel. -/
def mark (lunaUcType : Nat → Nat) (s : List Boundary) : Nat → Nat → Nat → List Boundary → List Nat → Option (List Nat)
  | _, _, _, [], breaks => some breaks
  | i, epState, ri, b :: left, breaks => do
    let breaks ←
      if i ≠ 0 then do
        let a ← s[i - 1]?
        let n ← breaks[b.pos]?
        let line ← ucLine lunaUcType s i
        some (breaks.set b.pos ((if ucGrapheme a b epState ri then n ||| 2 else n) ||| line))
      else some breaks
    mark lunaUcType s (i + 1) (epNext epState b) (riNext ri b) left breaks

/-- `luna_uc_breaks_utf16`; nothing is its `false`. -/
def lunaUcBreaksUtf16 (ucBreakProperty : Nat → Property) (lunaUcType : Nat → Nat) (text : List UInt16) :
    Option (List Nat) :=
  if 0x7fffffff < text.length then none
  else do
    let s ← fill ucBreakProperty lunaUcType [] (codePoints 0 text)
    let breaks := (List.replicate (text.length + 1) 0).set 0 2
    let breaks ← mark lunaUcType (s ++ [sentinel s.length]) 0 0 0 s breaks
    return breaks.set text.length 7

end Lunaria.Breaks
