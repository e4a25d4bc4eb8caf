import Mathlib.Data.List.Nodup
import Mathlib.Data.List.Perm.Subperm
import Mathlib.Data.List.Infix

/-! The breadth-first order of what a node of a directed graph reaches, where every node lists the nodes it leads to: the
    root, then what the members of the order lead to, in turn, each where it comes first. A queue that is never emptied from
    the front grows to it. -/

namespace Lunaria.BreadthFirst
open List

section Add
variable {α : Type} [DecidableEq α]

/-- The elements of the second list behind the first, where they are not there yet. -/
def add (q : List α) (ds : List α) : List α := ds.foldl (fun q d => if d ∈ q then q else q ++ [d]) q

variable {q ds es : List α} {x d : α}

@[simp] theorem add_nil : add q [] = q := (rfl)

theorem add_cons : add q (d :: ds) = add (if d ∈ q then q else q ++ [d]) ds := rfl

theorem add_append : add q (ds ++ es) = add (add q ds) es := foldl_append

@[simp] theorem mem_add : x ∈ add q ds ↔ x ∈ q ∨ x ∈ ds := by
  induction ds generalizing q with
  | nil => simp
  | cons d ds ih =>
    rw [add_cons, ih]
    by_cases hd : d ∈ q
    · rw [if_pos hd, mem_cons]
      refine ⟨fun h => h.imp id .inr, fun h => ?_⟩
      rcases h with h | rfl | h
      · exact .inl h
      · exact .inl hd
      · exact .inr h
    · simp [hd, or_assoc]

theorem nodup_add (hq : q.Nodup) : (add q ds).Nodup := by
  induction ds generalizing q with
  | nil => exact hq
  | cons d ds ih =>
    rw [add_cons]
    by_cases hd : d ∈ q
    · rw [if_pos hd]
      exact ih hq
    · rw [if_neg hd]
      exact ih (nodup_append.2 ⟨hq, nodup_singleton d,
        fun a ha b hb hab => hd (mem_singleton.1 hb ▸ hab ▸ ha)⟩)

theorem isPrefix_add : q <+: add q ds := by
  induction ds generalizing q with
  | nil => exact prefix_refl q
  | cons d ds ih =>
    rw [add_cons]
    by_cases hd : d ∈ q
    · rw [if_pos hd]
      exact ih
    · rw [if_neg hd]
      exact (prefix_append q [d]).trans ih

end Add

/-- A node is reached from another by the edges. -/
def Reaches {α : Type} (next : α → List α) : α → α → Prop := Relation.ReflTransGen fun a b => b ∈ next a

theorem Reaches.mem_of_closed {α : Type} {next : α → List α} {root : α} {P : α → Prop} (h0 : P root)
    (hP : ∀ a, P a → ∀ b ∈ next a, P b) {x : α} (hx : Reaches next root x) : P x := by
  induction hx with
  | refl => exact h0
  | tail _ hb ih => exact hP _ ih _ hb

section Order
variable {α : Type} [DecidableEq α] {next : α → List α} {root : α} {l q : List α} {h : Nat}

structure IsOrder (next : α → List α) (root : α) (l : List α) : Prop where
  nodup : l.Nodup
  mem : ∀ x, x ∈ l ↔ Reaches next root x
  order : add [root] (l.flatMap next) = l

/-- The queue when the first so many of its nodes have been expanded. -/
def queue (next : α → List α) (root : α) (l : List α) (h : Nat) : List α := add [root] ((l.take h).flatMap next)

theorem queue_zero : queue next root l 0 = [root] := rfl

theorem queue_succ {a : α} (ha : l[h]? = some a) :
    queue next root l (h + 1) = add (queue next root l h) (next a) := by
  unfold queue
  rw [take_add_one, ha, Option.toList_some, flatMap_append, add_append, flatMap_singleton]

theorem root_mem_queue : root ∈ queue next root l h := mem_add.2 (.inl (mem_singleton_self root))

namespace IsOrder

section
variable (hl : IsOrder next root l)
include hl

theorem queue_isPrefix (h : Nat) : queue next root l h <+: l := by
  have hsplit : add (queue next root l h) ((l.drop h).flatMap next) = l := by
    unfold queue
    rw [← add_append, ← flatMap_append, take_append_drop, hl.order]
  have hgrown : queue next root l h <+: add (queue next root l h) ((l.drop h).flatMap next) := isPrefix_add
  rwa [hsplit] at hgrown

theorem lt_queue_length (hh : h < l.length) :
    h < (queue next root l h).length := by
  by_contra hno
  -- Else the nodes expanded so far are closed, and have all there is.
  have hsub : ∀ x ∈ queue next root l h, x ∈ l.take h := by
    intro x hx
    rw [prefix_iff_eq_take.1 (hl.queue_isPrefix h)] at hx
    exact take_subset_take_left l (not_lt.1 hno) hx
  have hall : ∀ x ∈ l, x ∈ l.take h := by
    intro x hx
    refine Reaches.mem_of_closed (P := (· ∈ l.take h)) (hsub root root_mem_queue) (fun a ha b hb => ?_)
      ((hl.mem x).1 hx)
    exact hsub b (mem_add.2 (.inr (mem_flatMap.2 ⟨a, ha, hb⟩)))
  have hlen := (List.Nodup.subperm hl.nodup hall).length_le
  rw [length_take] at hlen
  omega

theorem queue_getElem? (hh : h < l.length) :
    (queue next root l h)[h]? = l[h]? := by
  have hlt := hl.lt_queue_length hh
  rw [getElem?_eq_getElem hlt, getElem?_eq_getElem hh, (hl.queue_isPrefix h).getElem hlt]

theorem queue_length : queue next root l l.length = l := by
  rw [queue, take_length, hl.order]

end

end IsOrder

/-- The queue with the first so many nodes expanded, of a finite graph, grows to the order. -/
theorem exists_order_of_queue {u : List α} (hu : ∀ x, Reaches next root x → x ∈ u) : ∀ (n h : Nat) (q : List α),
    u.length < n + h → q.Nodup → (∀ x ∈ q, Reaches next root x) → h ≤ q.length →
      add [root] ((q.take h).flatMap next) = q → ∃ l, IsOrder next root l := by
  intro n
  induction n with
  | zero =>
    intro h q hn hq hr hh _
    have hle := (List.Nodup.subperm hq fun x hx => hu x (hr x hx)).length_le
    omega
  | succ n ih =>
    intro h q hn hq hr hh hqueue
    rcases hh.lt_or_eq with hlt | rfl
    · have hgrown : q <+: add q (next q[h]) := isPrefix_add
      refine ih (h + 1) (add q (next q[h])) (by omega) (nodup_add hq) (fun x hx => ?_) ?_ ?_
      · rcases mem_add.1 hx with hx | hx
        · exact hr x hx
        · exact (hr q[h] (getElem_mem hlt)).tail hx
      · exact Nat.le_trans hlt hgrown.length_le
      · obtain ⟨t, ht⟩ := hgrown
        rw [← ht, take_append_of_le_length hlt, take_add_one, getElem?_eq_getElem hlt, Option.toList_some,
          flatMap_append, add_append, hqueue, flatMap_singleton, ht]
    · rw [take_length] at hqueue
      refine ⟨q, hq, fun x => ⟨hr x, fun hx => ?_⟩, hqueue⟩
      have hmem : ∀ y, y = root ∨ (∃ a ∈ q, y ∈ next a) → y ∈ q := by
        intro y hy
        rw [← hqueue]
        refine mem_add.2 (hy.imp mem_singleton.2 fun ⟨a, ha, hy⟩ => ?_)
        exact mem_flatMap.2 ⟨a, ha, hy⟩
      exact Reaches.mem_of_closed (P := (· ∈ q)) (hmem root (.inl rfl)) (fun a ha b hb => hmem b (.inr ⟨a, ha, hb⟩)) hx

theorem exists_order {u : List α} (hu : ∀ x, Reaches next root x → x ∈ u) : ∃ l, IsOrder next root l := by
  refine exists_order_of_queue hu (u.length + 1) 0 [root] (Nat.lt_succ_self _) (nodup_singleton root) ?_
    (Nat.zero_le _) rfl
  intro x hx
  rw [mem_singleton.1 hx]
  exact .refl

end Order
end Lunaria.BreadthFirst
