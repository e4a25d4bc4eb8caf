import Lunaria.Lib.Backtrack
import Lunaria.Regex.Text

/-! The matcher of `dvm/regex.c`: four functions that call each other with what is to be matched next. A call gives where
    the last continuation was reached (`*out` of `K_STOP`, `end` of `K_ACCEPT`), or fails. Memory is there. -/

namespace Lunaria.Regex
open Backtrack Attempt Function

def rxStepMax : Nat := 20000000

def rxDepthMax : Nat := 4000

def rxLookbehindMax : Nat := 1000

def rxMaxGroups : Nat := 64

inductive Quant
  | greedy | reluctant | possessive
  deriving DecidableEq

/-- What `node_stamp` notes of the flags. -/
structure Stamp where
  icase : Bool
  dotall : Bool
  multiline : Bool
  unixLines : Bool
  deriving DecidableEq

/-- The operations, with what each has; `N` are the nodes. -/
inductive Op (N : Type)
  | char (ch : Nat)
  | any
  | cls (c : Cls)
  | group (g : Nat) (alts : List (List N))
  | atomic (alts : List (List N))
  | backref (ref : Nat)
  | bol | eol | bos | eos | eosFinal | gpos | wordb | nwordb
  | lookahead (negate : Bool) (alts : List (List N))
  | lookbehind (negate : Bool) (alts : List (List N))

/-- The alternatives of an operation. -/
def Op.alts {N : Type} : Op N → List (List N)
  | .group _ alts | .atomic alts | .lookahead _ alts | .lookbehind _ alts => alts
  | _ => []

/-- A node; `next` is the rest of the list it is in. The bounds are `int`; a `max` below zero is none. -/
inductive Node
  | mk (op : Op Node) (quant : Quant) (stamp : Stamp) (min max : Int)

namespace Node

def op : Node → Op Node
  | mk op _ _ _ _ => op

def quant : Node → Quant
  | mk _ quant _ _ _ => quant

def stamp : Node → Stamp
  | mk _ _ stamp _ _ => stamp

def min : Node → Int
  | mk _ _ _ min _ => min

def max : Node → Int
  | mk _ _ _ _ max => max

/-- `n->max < 0 || count < n->max` -/
def canMore (n : Node) (count : Nat) : Bool := n.max < 0 || count < n.max

end Node

/-- The continuations. -/
inductive Cont
  | accept
  | node (rest : List Node) (k : Cont)
  | gend (group : Nat) (k : Cont)
  | rep (n : Node) (count : Nat) (start : Nat) (k : Cont)
  | stop
  | endat (pos : Nat)

/-- What a search does not change. -/
structure Input where
  text : List UInt8
  start : Nat
  ngroups : Nat
  anchorEnd : Bool

def Input.len (inp : Input) : Nat := inp.text.length

/-- What it does. -/
structure Ctx where
  gs : Nat → Int
  ge : Nat → Int
  finish : Nat
  steps : Nat
  depth : Nat

/-- A cast to `int`. -/
def toInt (pos : Nat) : Int := (pos : Int).bmod (2 ^ 32)

namespace Ctx

def setGs (c : Ctx) (g : Nat) (x : Int) : Ctx := { c with gs := update c.gs g x }

def setGe (c : Ctx) (g : Nat) (x : Int) : Ctx := { c with ge := update c.ge g x }

@[simp] theorem setGs_self (c : Ctx) (g : Nat) (x : Int) : (c.setGs g x).gs g = x := update_self ..

@[simp] theorem setGe_self (c : Ctx) (g : Nat) (x : Int) : (c.setGe g x).ge g = x := update_self ..

@[simp] theorem setGe_gs (c : Ctx) (g : Nat) (x : Int) : (c.setGe g x).gs = c.gs := rfl

/-- The captures of an earlier state. -/
def restore (old c : Ctx) : Ctx := { c with gs := old.gs, ge := old.ge }

end Ctx

inductive Call
  | node (ns : List Node) (k : Cont) (pos : Nat)
  | atom (n : Node) (k : Cont) (pos : Nat)
  | rep (n : Node) (count : Nat) (k : Cont) (pos : Nat)
  | cont (k : Cont) (pos : Nat)

/-- `if (++c->steps > RX_STEP_MAX) return false;` -/
def ticked (m : Attempt Ctx Nat) : Attempt Ctx Nat :=
  change (fun c => { c with steps := c.steps + 1 }) (reading fun c => if rxStepMax < c.steps then fail else m)

/-- `if (++c->depth > RX_DEPTH_MAX) { --c->depth; return false; }`, and `--c->depth` at the end. -/
def deeper (m : Attempt Ctx Nat) : Attempt Ctx Nat :=
  reading fun c =>
    if rxDepthMax < c.depth + 1 then fail
    else change (fun c => { c with depth := c.depth + 1 }) (lastly (fun c => { c with depth := c.depth - 1 }) m)

section
variable (inp : Input)

def cpAt (pos : Nat) : Nat := (rxU8 inp.text inp.len pos).1

def cpBefore (pos : Nat) : Nat := (rxU8 inp.text inp.len (rxU8Prev inp.text pos)).1

/-- `atom_step`: where a single code point ends. -/
def atomStep (n : Node) (pos : Nat) : Option Nat :=
  if inp.len ≤ pos then none
  else
    let (cp, next) := rxU8 inp.text inp.len pos
    let ok := match n.op with
      | .char ch => rxCpEq cp ch n.stamp.icase
      | .any => n.stamp.dotall || !isTerm cp n.stamp.unixLines
      | .cls c => clsTest c cp n.stamp.icase
      | _ => false
    if ok then some next else none

def atomIsSimple (n : Node) : Bool :=
  match n.op with
  | .char _ | .any | .cls _ => true
  | _ => false

/-- The `stops` of `m_rep_simple` from a position on; the text is long enough a bound. -/
def stops (n : Node) : Nat → Nat → Nat → List Nat
  | 0, _, cur => [cur]
  | fuel + 1, count, cur =>
    if n.canMore count then
      match atomStep inp n cur with
      | some next => cur :: stops n fuel (count + 1) next
      | none => [cur]
    else [cur]

/-- The comparison of a back reference that ignores case. -/
def foldEq : Nat → Nat → Nat → Nat → Nat → Bool
  | 0, a, ae, b, be => a = ae && b = be
  | fuel + 1, a, ae, b, be =>
    if a < ae ∧ b < be then
      let (x, a') := rxU8 inp.text ae a
      let (y, b') := rxU8 inp.text be b
      rxCpEq x y true && foldEq fuel a' ae b' be
    else a = ae && b = be

/-- Where a back reference ends, if the text of the group stands at the position. -/
def backrefEnd (n : Node) (g pos : Nat) (c : Ctx) : Option Nat :=
  if inp.ngroups < g ∨ c.gs g < 0 ∨ c.ge g < 0 then none
  else
    let bl := ((c.ge g - c.gs g) % 2 ^ 64).toNat
    let a := (c.gs g).toNat
    if inp.len < (pos + bl) % 2 ^ 64 then none
    else if n.stamp.icase then
      if foldEq inp bl a (c.ge g).toNat pos (pos + bl) then some (pos + bl) else none
    else if (inp.text.drop a).take bl ≠ (inp.text.drop pos).take bl then none
    else some (pos + bl)

/-- The end of the input, or before a final terminator. -/
def atFinalEnd (n : Node) (pos : Nat) : Bool :=
  if pos = inp.len then true
  else
    let (cp, i) := rxU8 inp.text inp.len pos
    isTerm cp n.stamp.unixLines &&
      (if cp = 0x0d ∧ i < inp.len ∧ byteAt inp.text i = 0x0a then i + 1 else i) = inp.len

/-- What an assertion of width 0 asks of the position. -/
def assertion (n : Node) (pos : Nat) : Bool :=
  match n.op with
  | .bol =>
    pos = 0 || (n.stamp.multiline && isTerm (cpBefore inp pos) n.stamp.unixLines &&
      !(cpBefore inp pos = 0x0d && pos < inp.len && byteAt inp.text pos = 0x0a))
  | .eol =>
    if n.stamp.multiline then pos = inp.len || isTerm (cpAt inp pos) n.stamp.unixLines else atFinalEnd inp n pos
  | .eosFinal => atFinalEnd inp n pos
  | .bos => pos = 0
  | .eos => pos = inp.len
  | .gpos => pos = inp.start
  | .wordb => (0 < pos && isWord (cpBefore inp pos)) != (pos < inp.len && isWord (cpAt inp pos))
  | .nwordb => !((0 < pos && isWord (cpBefore inp pos)) != (pos < inp.len && isWord (cpAt inp pos)))
  | _ => false

/-- The places a lookbehind starts from. -/
def behind : Nat → Nat → List Nat
  | 0, s => [s]
  | steps + 1, s => if s = 0 then [s] else s :: behind steps (rxU8Prev inp.text s)

variable (self : Call → Attempt Ctx Nat)

/-- `stops[i]` with an `i` below zero: no search goes on from there. -/
def astray : Attempt Ctx Nat := fun _ => none

/-- With a `min` below zero the loops over `stops` begin or go on in front of it. -/
def mRepSimple (n : Node) (k : Cont) (pos : Nat) : Attempt Ctx Nat :=
  let ends := (stops inp n inp.len 0 pos).drop n.min.toNat
  match n.quant with
  | .reluctant => if n.min < 0 then astray else first (ends.map fun i => self (.cont k i))
  | .possessive => first (ends.getLast?.toList.map fun i => self (.cont k i))
  | .greedy =>
    (first (ends.reverse.map fun i => self (.cont k i))).orElse (if n.min < 0 then astray else fail)

/-- The loop of a possessive repetition: how many, and where they end. -/
def possessive (n : Node) : Nat → Nat → Nat → Attempt Ctx (Nat × Nat)
  | 0, _, _ => fun _ => none
  | fuel + 1, cnt, cur =>
    if n.canMore cnt then
      (self (.atom n .stop cur)).after fun
        | none => give (cnt, cur)
        | some got => if got = cur then give (cnt, cur) else possessive n fuel (cnt + 1) got
    else give (cnt, cur)

def mRep (fuel : Nat) (n : Node) (count : Nat) (k : Cont) (pos : Nat) : Attempt Ctx Nat :=
  if count = 0 ∧ atomIsSimple n then mRepSimple inp self n k pos
  else
    let kk := Cont.rep n (count + 1) pos k
    let more := if n.canMore count then self (.atom n kk pos) else fail
    let enough := if n.min ≤ count then self (.cont k pos) else fail
    match n.quant with
    | .reluctant => enough.orElse more
    | .possessive =>
      (possessive self n fuel count pos).andThen fun (cnt, cur) => if cnt < n.min then fail else self (.cont k cur)
    | .greedy => more.orElse enough

def mCont (k : Cont) (pos : Nat) : Attempt Ctx Nat :=
  ticked <| match k with
    | .accept => if inp.anchorEnd ∧ pos ≠ inp.len then fail else change (fun c => { c with finish := pos }) (give pos)
    | .node rest k => self (.node rest k pos)
    | .gend g k =>
      undoing (fun old c => c.setGe g (old.ge g)) (change (fun c => c.setGe g (toInt pos)) (self (.cont k pos)))
    | .rep n count start k => if pos = start then self (.cont k pos) else self (.rep n count k pos)
    | .stop => give pos
    | .endat at' => if pos = at' then give pos else fail

def mNode (ns : List Node) (k : Cont) (pos : Nat) : Attempt Ctx Nat :=
  match ns with
  | [] => self (.cont k pos)
  | n :: rest =>
    deeper (if n.min = 1 ∧ n.max = 1 then self (.atom n (.node rest k) pos) else self (.rep n 0 (.node rest k) pos))

/-- A lookaround: `hit` is the search of its body. -/
def lookaround (negate : Bool) (hit : Attempt Ctx Nat) (k : Cont) (pos : Nat) : Attempt Ctx Nat :=
  reading fun old =>
    if negate then
      hit.after fun r => change (Ctx.restore old) (if r.isSome then fail else self (.cont k pos))
    else undoing Ctx.restore (hit.andThen fun _ => self (.cont k pos))

def mAtom (n : Node) (k : Cont) (pos : Nat) : Attempt Ctx Nat :=
  ticked <| match n.op with
    | .char _ | .any | .cls _ =>
      match atomStep inp n pos with
      | none => fail
      | some next => self (.cont k next)
    | .backref g =>
      reading fun c =>
        match backrefEnd inp n g pos c with
        | none => fail
        | some next => self (.cont k next)
    | .group g alts =>
      if g = 0 then first (alts.map fun alt => self (.node alt k pos))
      else
        undoing (fun old c => (c.setGs g (old.gs g)).setGe g (old.ge g))
          (change (fun c => c.setGs g (toInt pos)) (first (alts.map fun alt => self (.node alt (.gend g k) pos))))
    | .atomic alts => (first (alts.map fun alt => self (.node alt .stop pos))).andThen fun stop => self (.cont k stop)
    | .lookahead negate alts => lookaround self negate (first (alts.map fun alt => self (.node alt .stop pos))) k pos
    | .lookbehind negate alts =>
      lookaround self negate (first ((behind inp rxLookbehindMax pos).map fun s =>
        first (alts.map fun alt => self (.node alt (.endat pos) s)))) k pos
    | .bol | .eol | .eosFinal | .bos | .eos | .gpos | .wordb | .nwordb =>
      if assertion inp n pos then self (.cont k pos) else fail

end

/-- The four functions, as deep as `fuel` calls. -/
def run (inp : Input) : Nat → Call → Attempt Ctx Nat
  | 0, _ => fun _ => none
  | fuel + 1, call =>
    match call with
    | .node ns k pos => mNode (run inp fuel) ns k pos
    | .atom n k pos => mAtom inp (run inp fuel) n k pos
    | .rep n count k pos => mRep inp (run inp fuel) fuel n count k pos
    | .cont k pos => mCont inp (run inp fuel) k pos

/-- Deep enough: of four calls that are nested, two count a step. -/
def enough : Nat := 3 * (rxStepMax + 2)

/-! ### `rx_search` -/

/-- What a search needs of a compiled pattern. -/
structure Rx where
  alts : List (List Node)
  ngroups : Nat

/-- The groups before a start position is tried. -/
def resetGroups (ngroups : Nat) (c : Ctx) : Ctx :=
  { c with
    gs := fun i => if i ≤ ngroups then -1 else c.gs i
    ge := fun i => if i ≤ ngroups then -1 else c.ge i
    depth := 0 }

/-- The loop over the start positions: where the match starts. -/
def searchLoop (self : Call → Attempt Ctx Nat) (re : Rx) (inp : Input) (anchorStart : Bool) : Nat → Nat → Attempt Ctx Nat
  | 0, _ => fun _ => none
  | left + 1, start =>
    (change (resetGroups re.ngroups) (first (re.alts.map fun alt => self (.node alt .accept start)))).after fun
      | some _ => give start
      | none =>
        reading fun c =>
          if anchorStart ∨ inp.len ≤ start ∨ rxStepMax < c.steps then fail
          else searchLoop self re inp anchorStart left (rxU8 inp.text inp.len start).2

def initCtx : Ctx := ⟨fun _ => 0, fun _ => 0, 0, 0, 0⟩

/-- All start positions, from the first on. -/
def searchAll (self : Call → Attempt Ctx Nat) (re : Rx) (inp : Input) (anchorStart : Bool) : Option (Option Nat × Ctx) :=
  searchLoop self re inp anchorStart (inp.len - inp.start + 1) inp.start initCtx

/-- The captures that are handed out. -/
def captures (ngroups ncaps : Nat) (c : Ctx) : List Int :=
  (List.range ncaps).map fun i =>
    if i / 2 ≤ ngroups ∧ 2 * (i / 2) + 1 < ncaps then (if i % 2 = 0 then c.gs (i / 2) else c.ge (i / 2)) else -1

/-- `rx_search`: the captures of a match, and the state the search ends with. -/
def rxSearch (re : Rx) (text : List UInt8) (start ncaps : Nat) (anchorStart anchorEnd : Bool) :
    Option (Option (List Int) × Ctx) :=
  if text.length < start then some (none, initCtx)
  else
    match searchAll (run ⟨text, start, re.ngroups, anchorEnd⟩ enough) re ⟨text, start, re.ngroups, anchorEnd⟩
      anchorStart with
    | none => none
    | some (none, c) => some (none, c)
    | some (some at', c) =>
      some (some (captures re.ngroups ncaps ((c.setGs 0 (toInt at')).setGe 0 (toInt c.finish))), c)

end Lunaria.Regex
