import Mathlib.Data.List.TakeWhile

/-! The binary search for the place in a list from which on a predicate no longer holds. -/

namespace Lunaria.Bisect
open List

/-- The loop: the middle of the range is looked at until the range is empty. -/
def bisect (p : Nat → Bool) : Nat → Nat → Nat → Nat
  | 0, left, _ => left
  | fuel + 1, left, right =>
    if left < right then
      let middle := left + (right - left) / 2
      if p middle then bisect p fuel (middle + 1) right else bisect p fuel left middle
    else left

def lowerBound {α : Type} (p : α → Bool) (l : List α) : Nat := bisect (fun i => l[i]?.any p) l.length 0 l.length

theorem bisect_eq {p : Nat → Bool} {place : Nat} (hbelow : ∀ i < place, p i = true) : ∀ {fuel left right : Nat},
    right - left ≤ fuel → left ≤ place → place ≤ right → (∀ i, place ≤ i → i < right → p i = false) →
    bisect p fuel left right = place
  | 0, left, right, hfuel, hl, hr, _ => by
    rw [bisect]
    omega
  | fuel + 1, left, right, hfuel, hl, hr, habove => by
    rw [bisect]
    by_cases hle : right ≤ left
    · rw [if_neg (Nat.not_lt.2 hle)]
      omega
    rw [if_pos (Nat.lt_of_not_le hle)]
    dsimp only
    by_cases hmiddle : left + (right - left) / 2 < place
    · rw [if_pos (hbelow _ hmiddle)]
      exact bisect_eq hbelow (by omega) (by omega) hr habove
    · have hf := habove (left + (right - left) / 2) (by omega) (by omega)
      rw [hf, if_neg Bool.false_ne_true]
      exact bisect_eq hbelow (by omega) hl (by omega) fun i h₁ h₂ => habove i h₁ (by omega)

section List
variable {α : Type} {p : α → Bool} {l : List α}

/-- In a list in which `p` holds before wherever it holds, the search finds the end of the elements with `p`. -/
theorem lowerBound_eq (h : l.Pairwise fun a b => p b = true → p a = true) : lowerBound p l = (l.takeWhile p).length := by
  have hsplit := takeWhile_append_dropWhile (p := p) (l := l)
  have hall : ∀ i < (l.takeWhile p).length, l[i]?.any p = true := by
    intro i hi
    rw [← hsplit, getElem?_append_left hi, getElem?_eq_getElem hi]
    rw [Option.any_some]
    exact mem_takeWhile_imp (getElem_mem hi)
  refine bisect_eq hall (by omega) (Nat.zero_le _) ( takeWhile_prefix p).length_le fun i hle _ => ?_
  rw [← hsplit, getElem?_append_right hle]
  cases hdrop : l.dropWhile p with
  | nil => rfl
  | cons a rest =>
    have ha : p a = false := by
      have := head_dropWhile_not p (l := l) (by rw [hdrop]; exact cons_ne_nil a rest)
      simpa only [hdrop, head_cons] using this
    have hpair := hdrop ▸ h.sublist (dropWhile_sublist p)
    cases hget : (a :: rest)[i - (l.takeWhile p).length]? with
    | none => rfl
    | some b =>
      rcases mem_cons.1 (mem_of_getElem? hget) with rfl | hb
      · exact ha
      · exact Bool.eq_false_iff.2 fun hpb =>
          Bool.noConfusion (ha.symm.trans ((pairwise_cons.1 hpair).1 b hb hpb))

theorem drop_lowerBound (h : l.Pairwise fun a b => p b = true → p a = true) : l.drop (lowerBound p l) = l.dropWhile p := by
  have hsplit := takeWhile_append_dropWhile (p := p) (l := l)
  have hdrop : (l.takeWhile p ++ l.dropWhile p).drop (l.takeWhile p).length = l.dropWhile p := drop_left
  rw [lowerBound_eq h]
  rwa [hsplit] at hdrop

end List

end Lunaria.Bisect
