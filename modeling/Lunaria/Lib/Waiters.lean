import Mathlib.Data.List.Count
import Mathlib.Data.List.Nodup

/-! Threads that wait on numbered channels, in one list: each entry has a flag that a notification sets. A
    notification goes to every entry of its channel, or to the first one only, whatever its flag says. -/

namespace Lunaria.Waiters
open List

/-- An entry: who waits, on which channel, and whether it was notified. -/
structure Waiter (T C : Type) where
  thread : T
  channel : C
  ready : Bool
deriving DecidableEq

section Mark
variable {T C : Type} {l l' : List (Waiter T C)} {c : C}

/-- `l'` is `l` after notifications that went only to entries with `P`. -/
def Marked (P : Waiter T C → Prop) (l l' : List (Waiter T C)) : Prop :=
  Forall₂ (fun w w' => w' = w ∨ (P w ∧ w' = { w with ready := true })) l l'

theorem Marked.refl (P : Waiter T C → Prop) : ∀ l : List (Waiter T C), Marked P l l
  | [] => .nil
  | _ :: l => .cons (.inl rfl) (Marked.refl P l)

theorem Marked.mono {P Q : Waiter T C → Prop} (h : Marked P l l') (hPQ : ∀ w, P w → Q w) : Marked Q l l' :=
  Forall₂.imp (fun w _ hw => hw.imp_right fun hp => ⟨hPQ w hp.1, hp.2⟩) h

/-- Two rounds of notifications are one. -/
theorem Marked.trans {l₁ : List (Waiter T C)} (h : Marked (fun _ => True) l l₁) (h' : Marked (fun _ => True) l₁ l') :
    Marked (fun _ => True) l l' := by
  induction h generalizing l' with
  | nil => exact h'
  | cons hw _ ih =>
    cases h' with
    | cons hw' htail =>
      refine .cons ?_ (ih htail)
      rcases hw with rfl | ⟨-, rfl⟩
      · exact hw'
      · rcases hw' with rfl | ⟨-, rfl⟩ <;> exact .inr ⟨trivial, rfl⟩

variable {P : Waiter T C → Prop} {w : Waiter T C}

theorem Marked.threads (h : Marked P l l') : l'.map (·.thread) = l.map (·.thread) := by
  induction h with
  | nil => rfl
  | cons hw _ ih =>
    rw [map_cons, map_cons, ih]
    rcases hw with rfl | ⟨-, rfl⟩ <;> rfl

/-- Where an entry comes from: it was there, or it was notified. -/
theorem Marked.mem (h : Marked P l l') {w' : Waiter T C} (hw' : w' ∈ l') :
    ∃ w ∈ l, w.thread = w'.thread ∧ w.channel = w'.channel ∧ (w = w' ∨ P w) := by
  induction h with
  | nil => cases hw'
  | @cons w v l l' hw _ ih =>
    rcases mem_cons.mp hw' with rfl | htail
    · rcases hw with rfl | ⟨hp, rfl⟩
      · exact ⟨_, mem_cons_self, rfl, rfl, .inl rfl⟩
      · exact ⟨w, mem_cons_self, rfl, rfl, .inr hp⟩
    · obtain ⟨u, hu, hrest⟩ := ih htail
      exact ⟨u, mem_cons_of_mem _ hu, hrest⟩

theorem Marked.mem_of_mem (h : Marked P l l') (hw : w ∈ l) :
    ∃ w' ∈ l', w'.thread = w.thread ∧ w'.channel = w.channel := by
  induction h with
  | nil => cases hw
  | @cons u v l l' huv _ ih =>
    rcases mem_cons.mp hw with rfl | htail
    · rcases huv with rfl | ⟨-, rfl⟩ <;> exact ⟨_, mem_cons_self, rfl, rfl⟩
    · obtain ⟨w', hw', hrest⟩ := ih htail
      exact ⟨w', mem_cons_of_mem _ hw', hrest⟩

/-- Every entry is notified. -/
theorem map_ready_marked : ∀ l : List (Waiter T C), Marked (fun _ => True) l (l.map fun w => { w with ready := true })
  | [] => .nil
  | _ :: l => .cons (.inr ⟨trivial, rfl⟩) (map_ready_marked l)

variable [DecidableEq C]

/-- Every entry of the channel is notified. -/
def markAll (c : C) (l : List (Waiter T C)) : List (Waiter T C) :=
  l.map fun w => if w.channel = c then { w with ready := true } else w

def markFirst (c : C) : List (Waiter T C) → List (Waiter T C)
  | [] => []
  | w :: l => if w.channel = c then { w with ready := true } :: l else w :: markFirst c l

theorem markAll_marked (c : C) : ∀ l : List (Waiter T C), Marked (fun w => w.channel = c) l (markAll c l)
  | [] => .nil
  | w :: l => by
    refine .cons ?_ (markAll_marked c l)
    by_cases hc : w.channel = c
    · exact .inr ⟨hc, if_pos hc⟩
    · exact .inl (if_neg hc)

theorem markFirst_marked (c : C) : ∀ l : List (Waiter T C), Marked (fun w => w.channel = c) l (markFirst c l)
  | [] => .nil
  | w :: l => by
    unfold markFirst
    split
    · exact .cons (.inr ⟨by assumption, rfl⟩) (Marked.refl _ l)
    · exact .cons (.inl rfl) (markFirst_marked c l)

/-- The number of entries of a channel that were notified. -/
def readyOn (c : C) (l : List (Waiter T C)) : Nat := l.countP fun w => decide (w.channel = c) && w.ready

theorem Marked.readyOn_le (h : Marked P l l') : readyOn c l ≤ readyOn c l' := by
  unfold readyOn
  induction h with
  | nil => exact Nat.le_refl _
  | @cons w v l l' hw _ ih =>
    rw [countP_cons, countP_cons]
    rcases hw with rfl | ⟨-, rfl⟩
    · exact Nat.add_le_add_right ih _
    · refine Nat.add_le_add ih ?_
      by_cases hc : w.channel = c <;> simp [hc]
      split <;> omega

/-- A notification whose first entry was not notified yet adds one. -/
theorem readyOn_markFirst (hfirst : l.find? (fun w => w.channel = c) = some w)
    (hready : w.ready = false) : readyOn c (markFirst c l) = readyOn c l + 1 := by
  unfold readyOn
  induction l with
  | nil => cases hfirst
  | cons v l ih =>
    by_cases hc : v.channel = c
    · have hv : v = w := by simpa [find?_cons, hc] using hfirst
      subst hv
      simp [markFirst, hc, hready]
    · have hrest : l.find? (fun w => w.channel = c) = some w := by simpa [find?_cons, hc] using hfirst
      simp [markFirst, hc, ih hrest]

theorem readyOn_filter {keep : Waiter T C → Bool} (h : ∀ w ∈ l, w.channel = c → keep w = true) :
    readyOn c (l.filter keep) = readyOn c l := by
  unfold readyOn
  rw [countP_filter]
  apply countP_congr
  intro w hw
  by_cases hc : w.channel = c <;> simp [hc, h w hw]

theorem readyOn_threads (hnodup : (l.map (·.thread)).Nodup) :
    ∃ ts : List T, ts.Nodup ∧ ts.length = readyOn c l ∧ ∀ t ∈ ts, ∃ w ∈ l, w.thread = t ∧ w.channel = c ∧
      w.ready = true := by
  refine ⟨(l.filter fun w => decide (w.channel = c) && w.ready).map (·.thread), ?_, ?_, ?_⟩
  · exact hnodup.sublist (List.Sublist.map _ filter_sublist)
  · rw [length_map, readyOn, countP_eq_length_filter]
  · intro t ht
    obtain ⟨w, hw, rfl⟩ := List.mem_map.mp ht
    have hmem := mem_filter.mp hw
    have hkeep : w.channel = c ∧ w.ready = true := by simpa using hmem.2
    exact ⟨w, hmem.1, rfl, hkeep.1, hkeep.2⟩

end Mark

end Lunaria.Waiters
