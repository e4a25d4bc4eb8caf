import Lunaria.Regex.Ends

/-! The matcher of `dvm/regex.c` under watch: a run is cut off where an atom is matched in a state that does not pass. A
    back reference should be matched with a capture that lies in the text. What may go wrong is that a group is entered
    again beyond where it ended before, and refers to itself. -/

namespace Lunaria.Regex
open Backtrack Attempt

/-! ### References and groups -/

mutual

/-- The groups that a node refers to. -/
def Node.refs : Node → List Nat
  | .mk op _ _ _ _ => opRefs op

def opRefs : Op Node → List Nat
  | .backref g => [g]
  | .group _ alts | .atomic alts | .lookahead _ alts | .lookbehind _ alts => altsRefs alts
  | _ => []

def altsRefs : List (List Node) → List Nat
  | [] => []
  | alt :: alts => seqRefs alt ++ altsRefs alts

def seqRefs : List Node → List Nat
  | [] => []
  | n :: ns => n.refs ++ seqRefs ns

end

/-- The nodes of an operation, of all its alternatives. -/
def Op.nodes {N : Type} : Op N → List N
  | .group _ alts | .atomic alts | .lookahead _ alts | .lookbehind _ alts => alts.flatten
  | _ => []

inductive HasGroup (g : Nat) : Node → Prop
  | here {n : Node} {alts : List (List Node)} : n.op = .group g alts → g ≠ 0 → HasGroup g n
  | inside {n x : Node} : x ∈ n.op.nodes → HasGroup g x → HasGroup g n

/-- No number is given to two groups, as the compiler counts them. -/
inductive Numbered : Node → Prop
  | intro {n : Node} (own : ∀ g alts, n.op = .group g alts → ∀ x ∈ n.op.nodes, ¬ HasGroup g x)
      (apart : n.op.nodes.Pairwise fun x y => ∀ g, HasGroup g x → ¬ HasGroup g y)
      (inner : ∀ x ∈ n.op.nodes, Numbered x) : Numbered n

def Rx.Numbered (re : Rx) : Prop :=
  (re.alts.flatten.Pairwise fun x y => ∀ g, HasGroup g x → ¬ HasGroup g y) ∧ ∀ x ∈ re.alts.flatten, Regex.Numbered x

/-! ### Watching -/

/-- The four functions, cut off where an atom does not pass. One that comes after the last step is not matched. -/
def runWatched (inp : Input) (ok : Node → Nat → Ctx → Bool) : Nat → Call → Attempt Ctx Nat
  | 0, _ => fun _ => none
  | fuel + 1, call =>
    match call with
    | .node ns k pos => mNode (runWatched inp ok fuel) ns k pos
    | .atom n k pos => fun c =>
      if c.steps < rxStepMax ∧ ok n pos c = false then none else mAtom inp (runWatched inp ok fuel) n k pos c
    | .rep n count k pos => mRep inp (runWatched inp ok fuel) fuel n count k pos
    | .cont k pos => mCont inp (runWatched inp ok fuel) k pos

/-- All atoms of a search pass. -/
def Passes (re : Rx) (text : List UInt8) (start : Nat) (anchorStart anchorEnd : Bool)
    (ok : Input → Node → Nat → Ctx → Bool) : Prop :=
  start ≤ text.length →
    searchAll (runWatched ⟨text, start, re.ngroups, anchorEnd⟩ (ok ⟨text, start, re.ngroups, anchorEnd⟩) enough) re
      ⟨text, start, re.ngroups, anchorEnd⟩ anchorStart ≠ none

/-- A back reference to a group that is set: the capture lies in the text, and if it is compared, so does what it is
    compared with. -/
def wellFormed (inp : Input) (n : Node) (pos : Nat) (c : Ctx) : Bool :=
  match n.op with
  | .backref g =>
    if 0 ≤ c.gs g ∧ 0 ≤ c.ge g then
      let bl := ((c.ge g - c.gs g) % 2 ^ 64).toNat
      c.gs g ≤ c.ge g && c.ge g ≤ inp.len && ((pos + bl) % 2 ^ 64 > inp.len || pos + bl ≤ inp.len)
    else true
  | _ => true

/-- A group that refers to itself is not entered beyond where it ended before. -/
def entersBefore (_ : Input) (n : Node) (pos : Nat) (c : Ctx) : Bool :=
  match n.op with
  | .group g alts => g ∉ altsRefs alts || c.ge g < 0 || toInt pos ≤ c.ge g
  | _ => true

end Lunaria.Regex
