import Lunaria.Lib.Contexts
import Lunaria.Unicode.Breaks

/-! The rules of UAX #29 for extended grapheme clusters and of UAX #14 for lines, Unicode 15.0. The rules LB13 and LB25 are
    those of the regular expression for numbers, section 8.2 example 7. -/

namespace Lunaria.Breaks

open Computability Contexts

/-- What the rules ask of a character. -/
structure Chr where
  lb : Lb
  gb : Gb
  pict : Bool
  wide : Bool
  type : Nat
deriving DecidableEq

abbrev Place := Rule Chr

/-! ### Grapheme clusters -/

/-- A character of one of these classes. -/
def gcb (l : List Gb) : Language Chr := one fun c => c.gb ∈ l

/-- A character of none of these classes. -/
def noGcb (l : List Gb) : Language Chr := one fun c => c.gb ∉ l

def extPict : Language Chr := one fun c => c.pict = true

/-- GB6 to GB13. -/
def graphemeJoins : List (Place Bool) :=
  -- GB6 to GB8
  [⟨⊤ * gcb [.l], gcb [.l, .v, .lv, .lvt] * ⊤, false⟩, ⟨⊤ * gcb [.lv, .v], gcb [.v, .t] * ⊤, false⟩,
    ⟨⊤ * gcb [.lvt, .t], gcb [.t] * ⊤, false⟩] ++
  -- GB9, GB9a and GB9b
  [⟨⊤, gcb [.extend, .zwj] * ⊤, false⟩, ⟨⊤, gcb [.spacingMark] * ⊤, false⟩, ⟨⊤ * gcb [.prepend], ⊤, false⟩] ++
  -- GB11
  [⟨⊤ * extPict * (gcb [.extend])∗ * gcb [.zwj], extPict * ⊤, false⟩] ++
  -- GB12 and GB13
  [⟨(gcb [.regionalIndicator] * gcb [.regionalIndicator])∗ * gcb [.regionalIndicator], gcb [.regionalIndicator] * ⊤, false⟩,
    ⟨⊤ * noGcb [.regionalIndicator] * (gcb [.regionalIndicator] * gcb [.regionalIndicator])∗ * gcb [.regionalIndicator],
      gcb [.regionalIndicator] * ⊤, false⟩]

/-- `true` is a boundary. The start and the end of the text are not among these rules. -/
def graphemeRules : List (Place Bool) :=
  -- GB3 to GB5
  [⟨⊤ * gcb [.cr], gcb [.lf] * ⊤, false⟩] ++
  ([⟨⊤ * gcb [.control, .cr, .lf], ⊤, true⟩, ⟨⊤, gcb [.control, .cr, .lf] * ⊤, true⟩] ++
  (graphemeJoins ++
  -- GB999
  [⟨⊤, ⊤, true⟩]))

/-- A boundary between two parts of a text: GB1 and GB2, unless the text is empty, and the rules. -/
def GraphemeBreak (u v : List Chr) : Prop :=
  (u = [] ∨ v = []) ∧ u ++ v ≠ [] ∨ u ≠ [] ∧ v ≠ [] ∧ Decides graphemeRules u v true

/-! ### Lines -/

inductive Verdict where
  | mandatory | allowed | prohibited
deriving DecidableEq

open Verdict

/-- LB1. -/
def Chr.resolve (c : Chr) : Chr :=
  { c with lb :=
      if c.lb ∈ [.ai, .sg, .xx] then .al
      else if c.lb = .sa then if c.type = 6 ∨ c.type = 8 then .cm else .al
      else if c.lb = .cj then .ns
      else c.lb }

/-- A character of one of these classes. -/
def cls (l : List Lb) : Language Chr := one fun c => c.lb ∈ l

/-- A character of none of these classes. -/
def noCls (l : List Lb) : Language Chr := one fun c => c.lb ∉ l

/-- LB4 to LB8a, and LB9 for the places inside a combining sequence. -/
def lineRulesFirst : List (Place Verdict) :=
  -- LB4 and LB5
  [⟨⊤ * cls [.bk], ⊤, mandatory⟩] ++
  ([⟨⊤ * cls [.cr], cls [.lf] * ⊤, prohibited⟩] ++
  ([⟨⊤ * cls [.cr], ⊤, mandatory⟩, ⟨⊤ * cls [.lf], ⊤, mandatory⟩, ⟨⊤ * cls [.nl], ⊤, mandatory⟩] ++
  -- LB6 and LB7
  ([⟨⊤, cls [.bk, .cr, .lf, .nl] * ⊤, prohibited⟩, ⟨⊤, cls [.sp] * ⊤, prohibited⟩, ⟨⊤, cls [.zw] * ⊤, prohibited⟩] ++
  -- LB8 and LB8a
  ([⟨⊤ * cls [.zw] * (cls [.sp])∗, ⊤, allowed⟩] ++
  [⟨⊤ * cls [.zwj], ⊤, prohibited⟩,
  -- LB9
    ⟨⊤ * noCls [.bk, .cr, .lf, .nl, .sp, .zw], cls [.cm, .zwj] * ⊤, prohibited⟩]))))

def Chr.mark (c : Chr) : Prop := c.lb = .cm ∨ c.lb = .zwj

instance (c : Chr) : Decidable c.mark := inferInstanceAs (Decidable (_ ∨ _))

/-- Marks are not attached to these. -/
def Chr.alone (c : Chr) : Prop := c.lb ∈ [.bk, .cr, .lf, .nl, .sp, .zw]

instance (c : Chr) : Decidable c.alone := inferInstanceAs (Decidable (_ ∈ _))

/-- LB9 and LB10, after a character or at the start: a character and its marks are as the character, and other marks are
    as AL. -/
def treat : Option Chr → List Chr → List Chr
  | _, [] => []
  | p, c :: cs =>
    if c.mark then
      if p.any fun p => !p.alone then treat (some c) cs else { c with lb := .al } :: treat (some c) cs
    else c :: treat (some c) cs

/-- LB11 to LB17. -/
def lineRulesSpaced : List (Place Verdict) :=
  -- LB11 and LB12
  [⟨⊤ * cls [.wj], ⊤, prohibited⟩, ⟨⊤, cls [.wj] * ⊤, prohibited⟩, ⟨⊤ * cls [.gl], ⊤, prohibited⟩] ++
  -- LB12a
  [⟨⊤ * noCls [.sp, .ba, .hy], cls [.gl] * ⊤, prohibited⟩] ++
  -- LB13
  [⟨⊤ * noCls [.nu], cls [.cl] * ⊤, prohibited⟩, ⟨⊤ * noCls [.nu], cls [.cp] * ⊤, prohibited⟩,
    ⟨⊤, cls [.ex] * ⊤, prohibited⟩,
    ⟨⊤ * noCls [.nu], cls [.is] * ⊤, prohibited⟩, ⟨⊤ * noCls [.nu], cls [.sy] * ⊤, prohibited⟩] ++
  -- LB14 to LB17
  [⟨⊤ * cls [.op] * (cls [.sp])∗, ⊤, prohibited⟩, ⟨⊤ * cls [.qu] * (cls [.sp])∗, cls [.op] * ⊤, prohibited⟩,
    ⟨⊤ * cls [.cl, .cp] * (cls [.sp])∗, cls [.ns] * ⊤, prohibited⟩, ⟨⊤ * cls [.b2] * (cls [.sp])∗, cls [.b2] * ⊤, prohibited⟩]

/-- LB21 to LB24. -/
def lineRulesWords : List (Place Verdict) :=
  -- LB21, LB21a, LB21b and LB22
  [⟨⊤, cls [.ba] * ⊤, prohibited⟩, ⟨⊤, cls [.hy] * ⊤, prohibited⟩, ⟨⊤, cls [.ns] * ⊤, prohibited⟩,
    ⟨⊤ * cls [.bb], ⊤, prohibited⟩] ++
  [⟨⊤ * cls [.hl] * cls [.hy, .ba], ⊤, prohibited⟩] ++
  [⟨⊤ * cls [.sy], cls [.hl] * ⊤, prohibited⟩] ++
  [⟨⊤, cls [.in'] * ⊤, prohibited⟩] ++
  -- LB23, LB23a and LB24
  [⟨⊤ * cls [.al, .hl], cls [.nu] * ⊤, prohibited⟩, ⟨⊤ * cls [.nu], cls [.al, .hl] * ⊤, prohibited⟩] ++
  [⟨⊤ * cls [.pr], cls [.id, .eb, .em] * ⊤, prohibited⟩, ⟨⊤ * cls [.id, .eb, .em], cls [.po] * ⊤, prohibited⟩] ++
  [⟨⊤ * cls [.pr, .po], cls [.al, .hl] * ⊤, prohibited⟩, ⟨⊤ * cls [.al, .hl], cls [.pr, .po] * ⊤, prohibited⟩]

/-- LB25. -/
def lineRulesNumbers : List (Place Verdict) :=
  [⟨⊤ * cls [.pr, .po], (1 + cls [.op, .hy]) * (cls [.nu] * ⊤), prohibited⟩,
    ⟨⊤ * cls [.op, .hy], cls [.nu] * ⊤, prohibited⟩, ⟨⊤ * cls [.nu], cls [.nu, .sy, .is] * ⊤, prohibited⟩,
    ⟨⊤ * cls [.nu] * (cls [.nu, .sy, .is])∗, cls [.nu, .sy, .is, .cl, .cp] * ⊤, prohibited⟩,
    ⟨⊤ * cls [.nu] * (cls [.nu, .sy, .is])∗ * (1 + cls [.cl, .cp]), cls [.po, .pr] * ⊤, prohibited⟩]

/-- LB26 to LB30b. -/
def lineRulesPairs : List (Place Verdict) :=
  -- LB26 and LB27
  [⟨⊤ * cls [.jl], cls [.jl, .jv, .h2, .h3] * ⊤, prohibited⟩] ++
  [⟨⊤ * cls [.jv, .h2], cls [.jv, .jt] * ⊤, prohibited⟩] ++
  [⟨⊤ * cls [.jt, .h3], cls [.jt] * ⊤, prohibited⟩] ++
  [⟨⊤ * cls [.jl, .jv, .jt, .h2, .h3], cls [.po] * ⊤, prohibited⟩,
    ⟨⊤ * cls [.pr], cls [.jl, .jv, .jt, .h2, .h3] * ⊤, prohibited⟩] ++
  -- LB28 to LB30
  [⟨⊤ * cls [.al, .hl], cls [.al, .hl] * ⊤, prohibited⟩] ++
  [⟨⊤ * cls [.is], cls [.al, .hl] * ⊤, prohibited⟩] ++
  [⟨⊤ * cls [.al, .hl, .nu], one (fun c => c.lb = .op ∧ c.wide = false) * ⊤, prohibited⟩] ++
  [⟨⊤ * one (fun c => c.lb = .cp ∧ c.wide = false), cls [.al, .hl, .nu] * ⊤, prohibited⟩] ++
  -- LB30a
  [⟨(cls [.ri] * cls [.ri])∗ * cls [.ri], cls [.ri] * ⊤, prohibited⟩,
    ⟨⊤ * noCls [.ri] * (cls [.ri] * cls [.ri])∗ * cls [.ri], cls [.ri] * ⊤, prohibited⟩] ++
  -- LB30b
  [⟨⊤ * cls [.eb], cls [.em] * ⊤, prohibited⟩, ⟨⊤ * one (fun c => c.pict = true ∧ c.type = 0), cls [.em] * ⊤, prohibited⟩]

/-- LB11 to LB31. -/
def lineRules : List (Place Verdict) :=
  lineRulesSpaced ++
  -- LB18 to LB20
  ([⟨⊤ * cls [.sp], ⊤, allowed⟩] ++
  ([⟨⊤ * cls [.qu], ⊤, prohibited⟩, ⟨⊤, cls [.qu] * ⊤, prohibited⟩] ++
  ([⟨⊤ * cls [.cb], ⊤, allowed⟩, ⟨⊤, cls [.cb] * ⊤, allowed⟩] ++
  (lineRulesWords ++ (lineRulesNumbers ++ (lineRulesPairs ++
  -- LB31
  [⟨⊤, ⊤, allowed⟩]))))))

/-- What the rules say of a place inside a text. -/
def LineBreak (u v : List Chr) (d : Verdict) : Prop :=
  let u := u.map Chr.resolve
  let v := v.map Chr.resolve
  Decides lineRulesFirst u v d ∨ ¬ Some lineRulesFirst u v ∧ Decides lineRules (treat none u) (treat none v) d

end Lunaria.Breaks
