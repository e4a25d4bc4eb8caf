import Mathlib.Data.List.Chain

/-! Streams of events that come in episodes: an episode begins with an event of one kind, goes on with events that follow
    the one before, and ends with an event of another kind. The last episode of a stream may not have ended yet. -/

namespace Lunaria.Episodes

/-- The kinds of events, and when one may follow another within an episode. -/
structure Rules (α : Type) where
  begins : α → Prop
  inner : α → Prop
  ends : α → Prop
  follows : α → α → Prop

section
variable {α : Type} (R : Rules α)

/-- An episode that has begun and not ended. -/
def Open (l : List α) : Prop :=
  (∃ a m, l = a :: m ∧ R.begins a ∧ ∀ b ∈ m, R.inner b) ∧ l.IsChain R.follows

/-- An episode that has ended. -/
def Whole (l : List α) : Prop := ∃ m z, l = m ++ [z] ∧ Open R m ∧ R.ends z ∧ l.IsChain R.follows

/-- The stream is made of whole episodes and what comes after them. -/
def Upto (l current : List α) : Prop := ∃ before : List (List α), l = before.flatten ++ current ∧ ∀ m ∈ before, Whole R m

/-- The stream is made of episodes. -/
def Splits (l : List α) : Prop := ∃ current, Upto R l current ∧ (current = [] ∨ Open R current)

variable {R} {l current : List α} {a : α}

theorem upto_nil : Upto R [] [] := ⟨[], rfl, fun _ h => absurd h List.not_mem_nil⟩

theorem Upto.snoc (h : Upto R l current) (a : α) : Upto R (l ++ [a]) (current ++ [a]) := by
  obtain ⟨before, rfl, hwhole⟩ := h
  exact ⟨before, List.append_assoc _ _ _, hwhole⟩

theorem Upto.close (h : Upto R l current) (hwhole : Whole R current) : Upto R l [] := by
  obtain ⟨before, rfl, hbefore⟩ := h
  refine ⟨before ++ [current], by simp, fun m hm => ?_⟩
  rcases List.mem_append.1 hm with hm | hm
  · exact hbefore m hm
  · exact (List.mem_singleton.1 hm) ▸ hwhole

theorem open_singleton (h : R.begins a) : Open R [a] := ⟨⟨a, [], rfl, h, by simp⟩, by simp⟩

theorem chain_snoc (h : current.IsChain R.follows) (hlast : ∀ b ∈ current.getLast?, R.follows b a) :
    (current ++ [a]).IsChain R.follows := by
  refine List.isChain_append.2 ⟨h, by simp, fun b hb c hc => ?_⟩
  obtain rfl : a = c := by simpa using hc
  exact hlast b hb

theorem Open.snoc (h : Open R current) (ha : R.inner a) (hlast : ∀ b ∈ current.getLast?, R.follows b a) :
    Open R (current ++ [a]) := by
  obtain ⟨⟨b, m, rfl, hb, hm⟩, hchain⟩ := h
  refine ⟨⟨b, m ++ [a], rfl, hb, fun c hc => ?_⟩, chain_snoc hchain hlast⟩
  rcases List.mem_append.1 hc with hc | hc
  · exact hm c hc
  · exact (List.mem_singleton.1 hc) ▸ ha

theorem Open.close (h : Open R current) (ha : R.ends a) (hlast : ∀ b ∈ current.getLast?, R.follows b a) :
    Whole R (current ++ [a]) :=
  ⟨current, a, rfl, h, ha, chain_snoc h.2 hlast⟩

end

end Lunaria.Episodes
