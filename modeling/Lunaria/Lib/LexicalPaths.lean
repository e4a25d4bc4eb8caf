import Mathlib.Data.List.Basic

/-! Paths read as text, component by component: where a path leads from a place when no component but the parent leads
    up, and when it stays under a directory. -/

namespace Lunaria.LexicalPaths

/-- A component of a path. -/
inductive Part (α : Type) where
  | stay
  | up
  | into (a : α)
  deriving DecidableEq

/-- A place: so many directories above the start, and from there down. Nothing is above the root. -/
structure Location (α : Type) where
  rooted : Bool
  above : Nat
  down : List α
  deriving DecidableEq

section
variable {α : Type}

def Location.step (l : Location α) : Part α → Location α
  | .stay => l
  | .into a => { l with down := l.down ++ [a] }
  | .up =>
    match l.down with
    | [] => if l.rooted then l else { l with above := l.above + 1 }
    | a :: down => { l with down := (a :: down).dropLast }

def Location.walk (l : Location α) (parts : List (Part α)) : Location α := parts.foldl Location.step l

/-- The directories that a path goes into. -/
def entered (parts : List (Part α)) : List α :=
  parts.filterMap fun
    | .into a => some a
    | _ => none

/-- `l` is the directory `r` or under it. -/
def Location.Under (r l : Location α) : Prop := l.rooted = r.rooted ∧ l.above = r.above ∧ r.down <+: l.down

variable {l r : Location α} {parts : List (Part α)}

theorem walk_append (l : Location α) (parts rest : List (Part α)) : l.walk (parts ++ rest) = (l.walk parts).walk rest :=
  List.foldl_append

theorem walk_down : ∀ {parts : List (Part α)} {l : Location α}, .up ∉ parts →
    l.walk parts = { l with down := l.down ++ entered parts }
  | [], l, _ => by simp [Location.walk, entered]
  | p :: parts, l, h => by
    obtain ⟨hp, hparts⟩ := not_or.1 fun hor => h (List.mem_cons.2 hor)
    have ih := walk_down (l := l.step p) hparts
    cases p with
    | stay => exact ih
    | up => exact absurd rfl hp
    | into a =>
      refine ih.trans ?_
      simp [Location.step, entered]

theorem under_walk (h : .up ∉ parts) : l.Under (l.walk parts) := by
  rw [walk_down h]
  exact ⟨rfl, rfl, List.prefix_append _ _⟩

/-- Two paths that never go up and enter different directories lead to different places. -/
theorem walk_inj {parts' : List (Part α)} (h : .up ∉ parts) (h' : .up ∉ parts') (heq : l.walk parts = l.walk parts') :
    entered parts = entered parts' := by
  rw [walk_down h, walk_down h'] at heq
  exact List.append_cancel_left (congrArg Location.down heq)

end

end Lunaria.LexicalPaths
