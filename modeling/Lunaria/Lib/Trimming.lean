import Mathlib.Data.List.DropRight

/-! Lists without what some predicate holds of at their ends, and predicates of bytes. -/

namespace Lunaria.Trimming
open List
variable {α : Type} {p q : α → Bool} {s : List α}

theorem forall_of_all {P : α → Prop} [DecidablePred P] (h : (s.all fun a => decide (P a)) = true) : ∀ a ∈ s, P a := by
  simpa using h

/-- A list without what `p` holds of at both ends. -/
def strip (p : α → Bool) (s : List α) : List α := (s.dropWhile p).rdropWhile p

theorem rdropWhile_cons {c : α} :
    (c :: s).rdropWhile p = if s.rdropWhile p = [] then (if p c then [] else [c]) else c :: s.rdropWhile p := by
  simp only [List.rdropWhile, reverse_cons, dropWhile_append, List.isEmpty_iff, reverse_eq_nil_iff]
  split
  · cases hc : p c <;> simp [hc]
  · simp

/-- It does not matter at which end one begins. -/
theorem strip_comm : ∀ {s : List α}, strip p s = (s.rdropWhile p).dropWhile p
  | [] => by rw [strip, dropWhile_nil, rdropWhile_nil, dropWhile_nil]
  | c :: s => by
    have ih := strip_comm (s := s)
    rw [strip] at ih ⊢
    rw [rdropWhile_cons, dropWhile_cons]
    by_cases hc : p c = true
    · rw [if_pos hc, ih]
      split
      · next h => rw [h]
      · rw [dropWhile_cons_of_pos hc]
    · rw [if_neg hc, rdropWhile_cons]
      split
      · rw [dropWhile_cons_of_neg hc]
      · rw [dropWhile_cons_of_neg hc]

theorem rdropWhile_rdropWhile (h : ∀ c, q c = true → p c = true) (s : List α) :
    (s.rdropWhile q).rdropWhile p = s.rdropWhile p := by
  induction s using List.reverseRecOn with
  | nil => rfl
  | append_singleton s c ih =>
    by_cases hc : q c = true
    · rw [rdropWhile_concat_pos _ _ _ hc, ih, rdropWhile_concat_pos _ _ _ (h c hc)]
    · rw [rdropWhile_concat_neg _ _ _ hc]

theorem strip_rdropWhile (h : ∀ c, q c = true → p c = true) (s : List α) : strip p (s.rdropWhile q) = strip p s := by
  rw [strip_comm, strip_comm, rdropWhile_rdropWhile h]

theorem strip_concat {c : α} (hc : p c = true) (s : List α) : strip p (s ++ [c]) = strip p s := by
  rw [strip_comm, strip_comm, rdropWhile_concat_pos _ _ _ hc]

theorem rdropWhile_strip : (strip p s).rdropWhile p = strip p s := rdropWhile_idempotent _ _

/-- Nothing is taken off where `p` holds of neither end. -/
theorem strip_eq_self (hhead : ∀ c, s.head? = some c → p c = false) (hlast : ∀ c, s.getLast? = some c → p c = false) :
    strip p s = s := by
  have hdrop : s.dropWhile p = s := by
    cases s with
    | nil => rfl
    | cons c s => rw [dropWhile_cons_of_neg (by rw [hhead c rfl]; decide)]
  rw [strip, hdrop, rdropWhile_eq_self_iff]
  intro hs
  rw [hlast _ (getLast?_eq_getLast_of_ne_nil hs)]
  decide

theorem getLast?_of_strip (h : strip p s = s) {c : α} (hc : s.getLast? = some c) : p c = false := by
  have hs : s ≠ [] := by rintro rfl; cases hc
  have hlast := rdropWhile_eq_self_iff.1 (h ▸ rdropWhile_strip) hs
  rw [getLast?_eq_getLast_of_ne_nil hs] at hc
  rw [← Option.some.inj hc]
  exact Bool.eq_false_iff.2 hlast

theorem strip_sublist : (strip p s).Sublist s := ( rdropWhile_prefix _ _).sublist.trans (dropWhile_sublist _)

theorem forall_byte {P : UInt8 → Prop} (h : ∀ n : Fin 256, P (UInt8.ofNat n.1)) (c : UInt8) : P c := by
  have := h ⟨c.toNat, c.toNat_lt⟩
  rwa [UInt8.ofNat_toNat] at this

end Lunaria.Trimming
