import Lunaria.Regex.Match

/-! The matcher ends: every call that is not stopped by the step budget gets nearer to it, so that the calls are not
    nested deeper than the budget allows. Only a repetition whose bound has wrapped below zero goes astray. -/

namespace Lunaria.Regex
open Backtrack Attempt

/-- No node has a `min` below zero. -/
inductive NonNeg : Node → Prop
  | intro {n : Node} (own : 0 ≤ n.min) (inner : ∀ alt ∈ n.op.alts, ∀ x ∈ alt, NonNeg x) : NonNeg n

theorem NonNeg.own {n : Node} (h : NonNeg n) : 0 ≤ n.min := by
  obtain ⟨hown, -⟩ := h
  exact hown

theorem NonNeg.inner {n : Node} (h : NonNeg n) : ∀ alt ∈ n.op.alts, ∀ x ∈ alt, NonNeg x := by
  obtain ⟨-, hinner⟩ := h
  exact hinner

/-- The same of all that a continuation goes on with. -/
def Cont.NonNeg : Cont → Prop
  | .accept | .stop | .endat _ => True
  | .node rest k => (∀ x ∈ rest, Regex.NonNeg x) ∧ k.NonNeg
  | .gend _ k => k.NonNeg
  | .rep n _ _ k => Regex.NonNeg n ∧ k.NonNeg

def Call.NonNeg : Call → Prop
  | .node ns k _ => (∀ x ∈ ns, Regex.NonNeg x) ∧ k.NonNeg
  | .atom n k _ | .rep n _ k _ => Regex.NonNeg n ∧ k.NonNeg
  | .cont k _ => k.NonNeg

def Rx.NonNeg (re : Rx) : Prop := ∀ alt ∈ re.alts, ∀ x ∈ alt, Regex.NonNeg x

def Ctx.left (c : Ctx) : Nat := rxStepMax + 1 - c.steps

/-- How deep a call goes before it counts a step. -/
def Call.rank : Call → Nat
  | .node .. => 3
  | .rep .. => 2
  | .atom .. | .cont .. => 1

def Later (c c' : Ctx) : Prop := c.steps ≤ c'.steps

/-- Later by a step or more. -/
def Counted (c c' : Ctx) : Prop := c.steps < c'.steps

/-- Enough depth for a call of some rank. -/
def Room (rank fuel : Nat) (c : Ctx) : Prop := 3 * c.left + rank ≤ fuel

theorem Room.later {rank fuel : Nat} (c c' : Ctx) (h : Room rank fuel c) (hl : Later c c') : Room rank fuel c' := by
  unfold Room Ctx.left at *
  unfold Later at hl
  omega

section
variable {inp : Input} {fuel : Nat} {self : Call → Attempt Ctx Nat} {rank : Nat}
  (hself : ∀ call, call.NonNeg → Ends (Room call.rank fuel) Later (self call))
include hself

theorem ends_call {call : Call} (hcall : call.NonNeg) (h : call.rank ≤ rank) : Ends (Room rank fuel) Later (self call) :=
  fun c hc => hself call hcall c (Nat.le_trans (Nat.add_le_add_left h _) hc)

end

theorem Counted.later {c c' : Ctx} (h : Counted c c') : Later c c' := Nat.le_of_lt h

end Lunaria.Regex
