import Mathlib.Data.List.Nodup

/-! Doubly linked lists whose links are kept in two functions, with one value that stands for no element. -/

namespace Lunaria.DoublyLinked
open List Function
variable {α : Type*} {z : α} {next prev next' prev' : α → α} {l a b : List α} {t : α}

def first (z : α) (l : List α) : α := l.head?.getD z

def last (z : α) (l : List α) : α := l.getLast?.getD z

@[simp] theorem first_nil : first z [] = z := rfl

@[simp] theorem first_cons : first z (t :: l) = t := rfl

@[simp] theorem last_nil : last z [] = z := rfl

@[simp] theorem last_concat : last z (l ++ [t]) = t := by simp [last]

theorem first_append (h : a ≠ []) : first z (a ++ b) = first z a := by
  cases a with
  | nil => exact absurd rfl h
  | cons t a => rfl

theorem first_mem (h : first z l ≠ z) : first z l ∈ l := by
  cases l with
  | nil => exact absurd rfl h
  | cons t l => exact mem_cons_self

theorem first_reverse : first z l.reverse = last z l := by simp [first, last]

theorem last_reverse : last z l.reverse = first z l := by simp [first, last]

theorem last_mem (h : last z l ≠ z) : last z l ∈ l := by
  rw [← first_reverse] at h ⊢
  exact mem_reverse.1 (first_mem h)

theorem last_append (h : b ≠ []) : last z (a ++ b) = last z b := by
  rw [← first_reverse, reverse_append, first_append (reverse_ne_nil_iff.2 h), first_reverse]

theorem first_eq_iff (hz : z ∉ l) : first z l = z ↔ l = [] := by
  cases l with
  | nil => exact iff_of_true rfl rfl
  | cons t l => exact iff_of_false (fun h => hz (h ▸ mem_cons_self)) (cons_ne_nil t l)

theorem last_eq_iff (hz : z ∉ l) : last z l = z ↔ l = [] := by
  rw [← first_reverse, first_eq_iff (fun h => hz (mem_reverse.1 h)), reverse_eq_nil_iff]

/-- Each element is linked with the one behind it and the one before it. -/
def Linked (z : α) (next prev : α → α) (l : List α) : Prop :=
  ∀ l₁ t l₂, l = l₁ ++ t :: l₂ → next t = first z l₂ ∧ prev t = last z l₁

theorem linked_nil : Linked z next prev [] := fun l₁ t l₂ h => by simp at h

/-- Links of others do not matter. -/
theorem Linked.congr (h : Linked z next prev l) (hnext : ∀ t ∈ l, next' t = next t) (hprev : ∀ t ∈ l, prev' t = prev t) :
    Linked z next' prev' l := by
  rintro l₁ t l₂ rfl
  have ht : t ∈ l₁ ++ t :: l₂ := mem_append_right _ mem_cons_self
  rw [hnext t ht, hprev t ht]
  exact h l₁ t l₂ rfl

theorem Linked.reverse (h : Linked z next prev l) : Linked z prev next l.reverse := by
  intro l₁ t l₂ hl
  have hback : l = l₂.reverse ++ t :: l₁.reverse := by
    rw [← reverse_reverse l, hl]
    simp
  obtain ⟨hnext, hprev⟩ := h _ t _ hback
  exact ⟨hprev.trans last_reverse, hnext.trans first_reverse⟩

section Changes
variable [DecidableEq α]

def link (z : α) (f : α → α) (t v : α) : α → α := if t ≠ z then update f t v else f

theorem link_of_ne {f : α → α} {v i : α} (h : t ≠ z → i ≠ t) : link z f t v i = f i := by
  unfold link
  split_ifs with ht
  · exact update_of_ne (h ht) _ _
  · rfl

theorem link_self {f : α → α} {v : α} (h : t ≠ z) : link z f t v t = v := by
  unfold link
  rw [if_pos h, update_self]

/-- A new element at the front. -/
theorem Linked.cons (h : Linked z next prev l) (hl : l.Nodup) (hz : z ∉ l) (ht : t ∉ l) (hprev : prev t = z) :
    Linked z (update next t (first z l)) (link z prev (first z l) t) (t :: l) := by
  have hne : first z l ≠ z → first z l ≠ t := fun hsome heq => ht (heq ▸ first_mem hsome)
  rintro l₁ i l₂ hsplit
  cases l₁ with
  | nil =>
    cases hsplit
    exact ⟨update_self _ _ _, (link_of_ne fun hsome => (hne hsome).symm).trans hprev⟩
  | cons j l₁ =>
    cases hsplit
    obtain ⟨hn, hp⟩ := h l₁ i l₂ rfl
    have hi : i ∈ l₁ ++ i :: l₂ := mem_append_right _ mem_cons_self
    have hit : i ≠ t := fun heq => by
      subst heq
      exact ht hi
    refine ⟨(update_of_ne hit _ _).trans hn, ?_⟩
    cases l₁ with
    | nil => exact link_self fun heq => hz (heq ▸ hi)
    | cons k l₁ =>
      have hik : i ≠ k := fun heq => (nodup_cons.1 hl).1 (heq ▸ mem_append_right _ mem_cons_self)
      exact (link_of_ne fun _ => hik).trans (hp.trans (by simp [last, getLast?_cons_cons]))

/-- A new element at the back. -/
theorem Linked.concat (h : Linked z next prev l) (hl : l.Nodup) (hz : z ∉ l) (ht : t ∉ l) (hnext : next t = z) :
    Linked z (link z next (last z l) t) (update prev t (last z l)) (l ++ [t]) := by
  have hback := h.reverse.cons (nodup_reverse.2 hl) (fun hm => hz (mem_reverse.1 hm))
    (fun hm => ht (mem_reverse.1 hm)) hnext
  rw [first_reverse] at hback
  have := hback.reverse
  rwa [reverse_cons, reverse_reverse] at this

theorem Linked.remove_behind {c l₂ : List α} {i : α} (h : Linked z next prev (a ++ t :: (c ++ i :: l₂)))
    (hl : (a ++ t :: (c ++ i :: l₂)).Nodup) (hz : z ∉ a ++ t :: (c ++ i :: l₂)) :
    link z next (last z a) (first z (c ++ i :: l₂)) i = first z l₂ ∧
      link z prev (first z (c ++ i :: l₂)) (last z a) i = last z (a ++ c) := by
  obtain ⟨-, hbehind, hdisjoint⟩ := nodup_append.1 hl
  obtain ⟨hn, hp⟩ := h (a ++ t :: c) i l₂ (by simp)
  have hi : i ∈ c ++ i :: l₂ := mem_append_right _ mem_cons_self
  have hfar : last z a ≠ z → i ≠ last z a := fun hsome heq => hdisjoint _ (last_mem hsome) _ (mem_cons_of_mem _ hi) heq.symm
  refine ⟨(link_of_ne hfar).trans hn, ?_⟩
  · cases c with
    | nil =>
      rw [append_nil]
      exact link_self fun heq => hz (mem_append_right _ (mem_cons_of_mem _ (heq ▸ hi)))
    | cons k c =>
      have hik : i ≠ k := fun heq => (nodup_cons.1 (nodup_cons.1 hbehind).2).1 (heq ▸ mem_append_right _ mem_cons_self)
      refine (link_of_ne fun _ => hik).trans (hp.trans ?_)
      simp [last, getLast?_append]

theorem Linked.remove (h : Linked z next prev (a ++ t :: b)) (hl : (a ++ t :: b).Nodup) (hz : z ∉ a ++ t :: b) :
    Linked z (link z next (last z a) (first z b)) (link z prev (first z b) (last z a)) (a ++ b) := by
  rintro l₁ i l₂ hsplit
  rcases append_eq_append_iff.1 hsplit with ⟨c, rfl, rfl⟩ | ⟨c, rfl, hc⟩
  · exact h.remove_behind hl hz
  · cases c with
    | nil =>
      obtain rfl : b = i :: l₂ := hc.symm
      have hthis := @Linked.remove_behind _ z next prev (l₁ ++ []) t _ [] l₂ i h hl hz
      simpa using hthis
    | cons j c =>
      -- before the element, the list is read backward
      cases hc
      have hback := h.reverse
      have hnodup := nodup_reverse.2 hl
      have hnone : z ∉ (l₁ ++ i :: c ++ t :: b).reverse := fun hm => hz (mem_reverse.1 hm)
      have hrev : (l₁ ++ i :: c ++ t :: b).reverse = b.reverse ++ t :: (c.reverse ++ i :: l₁.reverse) := by simp
      rw [hrev] at hback hnodup hnone
      obtain ⟨hp, hn⟩ := hback.remove_behind hnodup hnone
      have hfirst : first z (c.reverse ++ i :: l₁.reverse) = last z (l₁ ++ i :: c) := by
        rw [← first_reverse]
        simp
      have hlast : last z (b.reverse ++ c.reverse) = first z (c ++ b) := by
        rw [← reverse_append, last_reverse]
      rw [hfirst, last_reverse] at hp hn
      exact ⟨hn.trans hlast, hp.trans first_reverse⟩

end Changes

/-- The elements that one link after the other comes to, at most so many. -/
def walk [DecidableEq α] (z : α) (next : α → α) : Nat → α → List α
  | 0, _ => []
  | n + 1, t => if t = z then [] else t :: walk z next n (next t)

theorem Linked.walk [DecidableEq α] (h : Linked z next prev l) (hz : z ∉ l) {n : Nat} (hn : l.length ≤ n) :
    DoublyLinked.walk z next n (first z l) = l := by
  suffices hrest : ∀ l₂ l₁ n, l = l₁ ++ l₂ → l₂.length ≤ n →
    DoublyLinked.walk z next n (first z l₂) = l₂ from hrest l [] n rfl hn
  intro l₂
  induction l₂ with
  | nil =>
    intro l₁ n _ _
    cases n with
    | zero => rfl
    | succ n => exact if_pos rfl
  | cons t l₂ ih =>
    intro l₁ n hl hle
    obtain ⟨n, rfl⟩ : ∃ m, n = m + 1 := ⟨n - 1, by simp only [length_cons] at hle; omega⟩
    have ht : t ≠ z := fun heq => hz (hl ▸ heq ▸ mem_append_right _ mem_cons_self)
    rw [DoublyLinked.walk, first_cons, if_neg ht, (h l₁ t l₂ hl).1,
      ih (l₁ ++ [t]) n (by simp [hl]) (Nat.le_of_succ_le_succ hle)]

end Lunaria.DoublyLinked
