import Mathlib.Data.List.Basic

/-! A lock that is handed over: a release gives it straight to the thread that has waited longest, and only a
    release with nobody waiting frees it. A thread takes it directly only when it is free and nobody waits. The
    holder and the order of arrivals and hand-overs are history, written down to be reasoned about. -/

namespace Lunaria.Handover

open Function

structure Lock (T : Type) where
  locked : Bool
  queue : List T
  go : T → Bool
  holder : Option T
  arrived : List T
  served : List T

namespace Lock
variable {T : Type} [DecidableEq T] {t : T} {l : Lock T}

def init : Lock T := ⟨false, [], fun _ => false, none, [], []⟩

/-- Take a free lock that nobody waits for. -/
def tryTake (l : Lock T) (t : T) : Option (Lock T) :=
  if !l.locked && l.queue.isEmpty then some { l with locked := true, holder := some t } else none

def enqueue (l : Lock T) (t : T) : Lock T :=
  { l with queue := l.queue ++ [t], go := update l.go t false, arrived := l.arrived ++ [t] }

/-- Give the lock to the first waiter, or free it. -/
def handOver (l : Lock T) : Lock T :=
  match l.queue with
  | w :: q => { l with queue := q, go := update l.go w true, holder := some w, served := l.served ++ [w] }
  | [] => { l with locked := false, holder := none }

/-- The waiter that was given the lock leaves its wait. -/
def resume (l : Lock T) (t : T) : Lock T := { l with go := update l.go t false }

/-- The lock's invariant: a free lock has no holder, the queue is what has arrived and was not served, and the
    lock was given to no one but its holder. -/
structure Ok (l : Lock T) : Prop where
  free : l.locked = false → l.holder = none
  fifo : l.arrived = l.served ++ l.queue
  nodup : l.queue.Nodup
  go : ∀ t, l.go t = true → l.holder = some t
  apart : ∀ t ∈ l.queue, l.go t = false

omit [DecidableEq T] in
theorem Ok.init : Ok (T := T) .init := ⟨fun _ => rfl, rfl, by simp [Lock.init], by simp [Lock.init], fun _ _ => rfl⟩

omit [DecidableEq T] in
theorem tryTake_eq_some {l l' : Lock T} (h : l.tryTake t = some l') :
    l.locked = false ∧ l.queue = [] ∧ l' = { l with locked := true, holder := some t } := by
  unfold tryTake at h
  split at h
  · rename_i hfree
    simp only [Bool.and_eq_true, Bool.not_eq_true', List.isEmpty_iff] at hfree
    exact ⟨hfree.1, hfree.2, (Option.some.inj h).symm⟩
  · simp at h

omit [DecidableEq T] in
theorem Ok.tryTake {l l' : Lock T} (h : Ok l) (htake : l.tryTake t = some l') : Ok l' := by
  obtain ⟨hfree, hqueue, rfl⟩ := tryTake_eq_some htake
  refine ⟨fun hl => by simp at hl, h.fifo, h.nodup, fun u hu => ?_, h.apart⟩
  have := h.free hfree
  have := h.go u hu
  simp_all

theorem Ok.enqueue (h : Ok l) (hout : t ∉ l.queue) : Ok (l.enqueue t) := by
  refine ⟨h.free, ?_, ?_, fun u hu => ?_, fun u hu => ?_⟩
  · show l.arrived ++ [t] = l.served ++ (l.queue ++ [t])
    rw [h.fifo, List.append_assoc]
  · exact List.nodup_append.mpr ⟨h.nodup, by simp, fun u hu v hv heq =>
      hout (by rw [← List.mem_singleton.mp hv, ← heq]; exact hu)⟩
  · by_cases heq : u = t
    · simp [Lock.enqueue, heq] at hu
    · exact h.go u (by simpa [Lock.enqueue, heq] using hu)
  · by_cases heq : u = t
    · simp [Lock.enqueue, heq]
    · simpa [Lock.enqueue, heq] using h.apart u (by simpa [Lock.enqueue, heq] using hu)

theorem Ok.handOver (h : Ok l) (hholder : l.holder = some t) (hgo : l.go t = false) : Ok l.handOver := by
  have hnobody : ∀ u, l.go u = false := by
    intro u
    by_contra hu
    have := h.go u (by simpa using hu)
    rw [hholder] at this
    cases this
    simp [hgo] at hu
  unfold Lock.handOver
  have hnodup := h.nodup
  cases hq : l.queue with
  | nil => exact ⟨fun _ => rfl, by rw [h.fifo, hq], by simp, fun u hu => by simp [hnobody u] at hu,
      fun u _ => hnobody u⟩
  | cons w q =>
    rw [hq] at hnodup
    refine ⟨fun hl => ?_, ?_, (List.nodup_cons.mp hnodup).2, fun u hu => ?_, fun u hu => ?_⟩
    · have := h.free hl
      rw [hholder] at this
      simp at this
    · show l.arrived = l.served ++ [w] ++ q
      rw [h.fifo, hq, List.append_assoc]
      rfl
    · by_cases heq : u = w
      · rw [heq]
      · simp [update_of_ne heq, hnobody u] at hu
    · have hne : u ≠ w := fun heq => (List.nodup_cons.mp hnodup).1 (heq ▸ hu)
      exact (update_of_ne hne ..).trans (hnobody u)

theorem Ok.resume (h : Ok l) : Ok (l.resume t) := by
  refine ⟨h.free, h.fifo, h.nodup, fun u hu => ?_, fun u hu => ?_⟩
  · by_cases heq : u = t
    · simp [Lock.resume, heq] at hu
    · exact h.go u (by simpa [Lock.resume, heq] using hu)
  · by_cases heq : u = t
    · simp [Lock.resume, heq]
    · simpa [Lock.resume, heq] using h.apart u hu

end Lock

end Lunaria.Handover
