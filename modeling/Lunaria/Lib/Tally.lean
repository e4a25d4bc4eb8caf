import Mathlib.Data.List.Nodup

/-! Counting the places of a finite table whose entries have a property, when one entry changes. -/

namespace Lunaria.Tally

open Function

variable {α β : Type} [DecidableEq α] {l : List α} {i : α}

theorem countP_update_of_not_mem (hi : i ∉ l) (f : α → β) (b : β) (P : β → Bool) :
    l.countP (fun j => P (update f i b j)) = l.countP fun j => P (f j) := by
  refine List.countP_congr fun j hj => ?_
  have hne : j ≠ i := by
    rintro rfl
    exact hi hj
  rw [update_of_ne hne]

theorem countP_update (hl : l.Nodup) (hi : i ∈ l) (f : α → β) (b : β) (P : β → Bool) :
    l.countP (fun j => P (update f i b j)) + (if P (f i) then 1 else 0) =
      l.countP (fun j => P (f j)) + if P b then 1 else 0 := by
  induction l with
  | nil => cases hi
  | cons a l ih =>
    obtain ⟨ha, hl⟩ := List.nodup_cons.1 hl
    rw [List.countP_cons, List.countP_cons]
    rcases List.mem_cons.1 hi with rfl | hi
    · rw [countP_update_of_not_mem ha, update_self]
      omega
    · have hne : a ≠ i := by
        rintro rfl
        exact ha hi
      have hrest := ih hl hi
      rw [update_of_ne hne]
      omega

end Lunaria.Tally
