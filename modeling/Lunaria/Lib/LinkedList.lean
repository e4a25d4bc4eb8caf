import Mathlib.Data.List.Nodup

/-! Singly linked lists in memory: the nodes that one reaches from a pointer, each by the link of the one before it. -/

namespace Lunaria.LinkedList
variable {α : Type*} {next next' : α → Option (Option α)} {p : Option α} {i t n : α} {l l' : List α}

/-- The nodes from a pointer on. A node that is not there has no link. -/
inductive Chain (next : α → Option (Option α)) : Option α → List α → Prop
  | nil : Chain next none []
  | cons {i : α} {p : Option α} {l : List α} : next i = some p → Chain next p l → Chain next (some i) (i :: l)

theorem chain_none : Chain next none l ↔ l = [] :=
  ⟨fun h => by cases h; rfl, fun h => h ▸ .nil⟩

theorem Chain.head (h : Chain next p l) : p = l.head? := by
  cases h <;> rfl

theorem Chain.first (h : Chain next (some i) l) : ∃ p rest, l = i :: rest ∧ next i = some p ∧ Chain next p rest := by
  cases h with
  | cons hi hrest => exact ⟨_, _, rfl, hi, hrest⟩

theorem Chain.unique (h : Chain next p l) (h' : Chain next p l') : l = l' := by
  induction h generalizing l' with
  | nil => exact (chain_none.1 h').symm
  | cons hi _ ih =>
    obtain ⟨q, rest, rfl, hi', hrest⟩ := h'.first
    cases hi.symm.trans hi'
    rw [ih hrest]

/-- Links of other nodes do not matter. -/
theorem Chain.congr (h : Chain next p l) (hsame : ∀ i ∈ l, next' i = next i) : Chain next' p l := by
  induction h with
  | nil => exact .nil
  | cons hi _ ih =>
    exact .cons ((hsame _ List.mem_cons_self).trans hi) (ih fun j hj => hsame j (List.mem_cons_of_mem _ hj))

theorem Chain.isSome (h : Chain next p l) : ∀ i ∈ l, (next i).isSome := by
  induction h with
  | nil => nofun
  | cons hi _ ih =>
    refine List.forall_mem_cons.2 ⟨?_, ih⟩
    rw [hi]
    rfl

/-- The nodes behind some are reached from the first of them. -/
theorem Chain.of_append (h : Chain next p (l ++ l')) : Chain next l'.head? l' := by
  induction l generalizing p with
  | nil => exact h.head ▸ h
  | cons i l ih =>
    cases h with
    | cons _ hrest => exact ih hrest

theorem Chain.concat (h : Chain next p l) (hl : l.Nodup) (ht : l.getLast? = some t) (hnew : n ∉ l)
    (hlink : next' t = some (some n))
    (hend : next' n = some none) (hsame : ∀ i ∈ l, i ≠ t → next' i = next i) : Chain next' p (l ++ [n]) := by
  induction h with
  | nil => cases ht
  | @cons i p l hi hrest ih =>
    obtain ⟨hmem, hl⟩ := List.nodup_cons.1 hl
    cases l with
    | nil =>
      cases ht
      exact .cons hlink (.cons hend .nil)
    | cons j l =>
      rw [List.getLast?_cons_cons] at ht
      have hne : i ≠ t := fun heq => hmem (heq ▸ List.mem_of_getLast? ht)
      refine .cons ((hsame i List.mem_cons_self hne).trans hi) (ih hl ht (fun h => hnew (List.mem_cons_of_mem _ h)) ?_)
      exact fun k hk => hsame k (List.mem_cons_of_mem _ hk)

end Lunaria.LinkedList
