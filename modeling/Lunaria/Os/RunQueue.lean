import Mathlib.Data.UInt
import Lunaria.Lib.Checked
import Lunaria.Lib.DoublyLinked

/-! The run queue of the guest scheduler in `lunaria_os.h`: ids with their links in arrays, where 0 is no id. It acts as a
    list of ids without repetitions. -/

namespace Lunaria.Os
open DoublyLinked Function List

/-- `luna_run_queue` -/
structure RunQueue where
  next : UInt8 → UInt8
  prev : UInt8 → UInt8
  present : UInt8 → UInt8
  head : UInt8
  tail : UInt8
  count : Nat

/-- `luna_run_queue_clear` -/
def lunaRunQueueClear : RunQueue := ⟨fun _ => 0, fun _ => 0, fun _ => 0, 0, 0, 0⟩

/-- `luna_run_queue_remove` -/
def lunaRunQueueRemove (q : RunQueue) (tid : UInt8) : RunQueue :=
  if tid = 0 ∨ q.present tid = 0 then q
  else
    let before := q.prev tid
    let after := q.next tid
    let q := if before ≠ 0 then { q with next := update q.next before after } else { q with head := after }
    let q := if after ≠ 0 then { q with prev := update q.prev after before } else { q with tail := before }
    { q with present := update q.present tid 0, next := update q.next tid 0, prev := update q.prev tid 0, count := q.count - 1 }

/-- `luna_run_queue_push` -/
def lunaRunQueuePush (q : RunQueue) (tid : UInt8) (urgent : Bool) : RunQueue :=
  if tid = 0 then q
  else
    let q := lunaRunQueueRemove q tid
    let q := { q with present := update q.present tid 1 }
    let q :=
      if urgent then
        let q := { q with next := update q.next tid q.head }
        let q := if q.head ≠ 0 then { q with prev := update q.prev q.head tid } else { q with tail := tid }
        { q with head := tid }
      else
        let q := { q with prev := update q.prev tid q.tail }
        let q := if q.tail ≠ 0 then { q with next := update q.next q.tail tid } else { q with head := tid }
        { q with tail := tid }
    { q with count := q.count + 1 }

/-- `luna_run_queue_pop` -/
def lunaRunQueuePop (q : RunQueue) : UInt8 × RunQueue := (q.head, lunaRunQueueRemove q q.head)

/-- The loop of `luna_run_queue_copy`, which has an array of 256 ids. -/
def copyLoop (q : RunQueue) : Nat → UInt8 → List UInt8 → Checked (List UInt8)
  | 0, _, _ => .fail
  | k + 1, tid, out =>
    if tid = 0 then .ok out
    else if out.length < 256 then copyLoop q k (q.next tid) (out ++ [tid]) else .fault

/-- `luna_run_queue_copy` -/
def lunaRunQueueCopy (q : RunQueue) : Checked (List UInt8) := copyLoop q 257 q.head []

inductive RunOp where
  | clear
  | remove (tid : UInt8)
  | push (tid : UInt8) (urgent : Bool)
  | pop
  deriving DecidableEq

def RunOp.apply (q : RunQueue) : RunOp → RunQueue
  | .clear => lunaRunQueueClear
  | .remove tid => lunaRunQueueRemove q tid
  | .push tid urgent => lunaRunQueuePush q tid urgent
  | .pop => (lunaRunQueuePop q).2

/-! ### The list of ids -/

/-- What an operation does to the list. -/
def RunOp.act (l : List UInt8) : RunOp → List UInt8
  | .clear => []
  | .remove tid => l.erase tid
  | .push tid urgent => if tid = 0 then l else if urgent then tid :: l.erase tid else l.erase tid ++ [tid]
  | .pop => l.tail

structure Holds (q : RunQueue) (l : List UInt8) : Prop where
  nodup : l.Nodup
  nonzero : 0 ∉ l
  linked : Linked 0 q.next q.prev l
  absent : ∀ t, t ∉ l → q.next t = 0 ∧ q.prev t = 0
  present : ∀ t, q.present t ≠ 0 ↔ t ∈ l
  head : q.head = first 0 l
  tail : q.tail = last 0 l
  count : q.count = l.length

section Ops
variable {q : RunQueue} {l a b : List UInt8} {tid : UInt8}

theorem holds_clear : Holds lunaRunQueueClear [] :=
  ⟨nodup_nil, not_mem_nil, linked_nil, fun _ _ => ⟨rfl, rfl⟩, fun _ => ⟨fun h => absurd rfl h, fun h => nomatch h⟩, rfl,
    rfl, rfl⟩

theorem remove_absent (h : Holds q l) (ht : tid ∉ l) : lunaRunQueueRemove q tid = q :=
  if_pos (.inr (not_not.1 fun hp => ht ((h.present tid).1 hp)))

theorem remove_present (h : Holds q (a ++ tid :: b)) : Holds (lunaRunQueueRemove q tid) (a ++ b) := by
  have hmem : tid ∈ a ++ tid :: b := mem_append_right _ mem_cons_self
  have htid : tid ≠ 0 := fun heq => h.nonzero (heq ▸ hmem)
  have hgo : ¬(tid = 0 ∨ q.present tid = 0) := fun hor => hor.elim htid ((h.present tid).2 hmem)
  obtain ⟨hnext, hprev⟩ := h.linked a tid b rfl
  have hsub : List.Sublist (a ++ b) (a ++ tid :: b) := List.Sublist.append_left (sublist_cons_self _ _) _
  have hout : tid ∉ a ++ b := by
    have := nodup_middle.1 h.nodup
    exact (nodup_cons.1 this).1
  have hremoved : lunaRunQueueRemove q tid =
      { next := update (link 0 q.next (last 0 a) (first 0 b)) tid 0, prev := update (link 0 q.prev (first 0 b) (last 0 a)) tid 0,
        present := update q.present tid 0, head := if last 0 a ≠ 0 then q.head else first 0 b,
        tail := if first 0 b ≠ 0 then q.tail else last 0 a, count := q.count - 1 } := by
    unfold lunaRunQueueRemove link
    rw [if_neg hgo, hnext, hprev]
    by_cases hbefore : last 0 a = 0 <;> by_cases hafter : first 0 b = 0 <;> simp [hbefore, hafter]
  have hnone : 0 ∉ a ∧ 0 ∉ b :=
    ⟨fun hm => h.nonzero (mem_append_left _ hm), fun hm => h.nonzero (mem_append_right _ (mem_cons_of_mem _ hm))⟩
  rw [hremoved]
  refine ⟨h.nodup.sublist hsub, fun hm => h.nonzero (hsub.subset hm), ?_, fun t ht => ?_, fun t => ?_, ?_, ?_, ?_⟩
  · refine (h.linked.remove h.nodup h.nonzero).congr (fun t ht => ?_) fun t ht => ?_
    · exact update_of_ne (ne_of_mem_of_not_mem ht hout) _ _
    · exact update_of_ne (ne_of_mem_of_not_mem ht hout) _ _
  · by_cases htt : t = tid
    · subst htt
      exact ⟨update_self _ _ _, update_self _ _ _⟩
    have hold : t ∉ a ++ tid :: b := fun hm => by
      rcases mem_append.1 hm with hm | hm
      · exact ht (mem_append_left _ hm)
      · rcases mem_cons.1 hm with rfl | hm
        · exact htt rfl
        · exact ht (mem_append_right _ hm)
    obtain ⟨hn, hp⟩ := h.absent t hold
    -- the neighbours of the id are still in the list
    have hbefore : last 0 a ≠ 0 → t ≠ last 0 a := fun hsome heq => ht (heq ▸ mem_append_left _ (last_mem hsome))
    have hafter : first 0 b ≠ 0 → t ≠ first 0 b := fun hsome heq => ht (heq ▸ mem_append_right _ (first_mem hsome))
    dsimp only
    rw [update_of_ne htt, update_of_ne htt]
    exact ⟨(link_of_ne hbefore).trans hn, (link_of_ne hafter).trans hp⟩
  · dsimp only
    by_cases htt : t = tid
    · subst htt
      rw [update_self]
      exact iff_of_false (fun h => h rfl) hout
    · rw [update_of_ne htt, h.present]
      simp [htt]
  · dsimp only
    rw [h.head]
    by_cases ha : a = []
    · rw [ha, last_nil, if_neg (not_not.2 rfl), nil_append]
    · rw [if_pos (mt (last_eq_iff hnone.1).1 ha), first_append ha, first_append ha]
  · dsimp only
    rw [h.tail]
    by_cases hb : b = []
    · rw [hb, first_nil, if_neg (not_not.2 rfl), append_nil]
    · rw [if_pos (mt (first_eq_iff hnone.2).1 hb), last_append hb, last_append (cons_ne_nil tid b), ← singleton_append,
        last_append hb]
  · have hcount := h.count
    simp only [length_append, length_cons] at hcount ⊢
    omega

theorem push_front (h : Holds q l) (ht : tid ∉ l) (htid : tid ≠ 0) : Holds (lunaRunQueuePush q tid true) (tid :: l) := by
  obtain ⟨hnext, hprev⟩ := h.absent tid ht
  have hpushed : lunaRunQueuePush q tid true =
      { next := update q.next tid (first 0 l), prev := link 0 q.prev (first 0 l) tid, present := update q.present tid 1,
        head := tid, tail := if first 0 l ≠ 0 then q.tail else tid, count := q.count + 1 } := by
    unfold lunaRunQueuePush link
    rw [if_neg htid, remove_absent h ht, ← h.head]
    by_cases hfirst : q.head = 0 <;> simp [hfirst]
  rw [hpushed]
  refine ⟨nodup_cons.2 ⟨ht, h.nodup⟩, ?_, h.linked.cons h.nodup h.nonzero ht hprev, fun t hm => ?_, fun t => ?_, rfl, ?_, ?_⟩
  · rintro (_ | ⟨_, hm⟩)
    · exact htid rfl
    · exact h.nonzero hm
  · have hne := ne_of_not_mem_cons hm
    have hnot := not_mem_of_not_mem_cons hm
    obtain ⟨hn, hp⟩ := h.absent t hnot
    have hfar : first 0 l ≠ 0 → t ≠ first 0 l := fun hsome heq => hnot (heq ▸ first_mem hsome)
    exact ⟨(update_of_ne hne _ _).trans hn, (link_of_ne hfar).trans hp⟩
  · dsimp only
    by_cases htt : t = tid
    · subst htt
      rw [update_self]
      exact iff_of_true (by decide) mem_cons_self
    · rw [update_of_ne htt, h.present]
      simp [htt]
  · dsimp only
    rw [h.tail]
    by_cases hl : l = []
    · rw [hl, first_nil, if_neg (not_not.2 rfl)]
      rfl
    · rw [if_pos (mt (first_eq_iff h.nonzero).1 hl), ← singleton_append, last_append hl]
  · rw [length_cons, ← h.count]

theorem push_back (h : Holds q l) (ht : tid ∉ l) (htid : tid ≠ 0) : Holds (lunaRunQueuePush q tid false) (l ++ [tid]) := by
  obtain ⟨hnext, hprev⟩ := h.absent tid ht
  have hpushed : lunaRunQueuePush q tid false =
      { next := link 0 q.next (last 0 l) tid, prev := update q.prev tid (last 0 l), present := update q.present tid 1,
        head := if last 0 l ≠ 0 then q.head else tid, tail := tid, count := q.count + 1 } := by
    unfold lunaRunQueuePush link
    rw [if_neg htid, remove_absent h ht, ← h.tail]
    by_cases hlast : q.tail = 0 <;> simp [hlast]
  have hnodup : (l ++ [tid]).Nodup := by
    rw [nodup_middle, append_nil]
    exact nodup_cons.2 ⟨ht, h.nodup⟩
  rw [hpushed]
  refine ⟨hnodup, ?_, h.linked.concat h.nodup h.nonzero ht hnext, fun t hm => ?_, fun t => ?_, ?_,
    last_concat.symm, ?_⟩
  · rw [mem_append, mem_singleton]
    rintro (hm | hm)
    · exact h.nonzero hm
    · exact htid hm.symm
  · rw [mem_append, mem_singleton, not_or] at hm
    obtain ⟨hn, hp⟩ := h.absent t hm.1
    have hfar : last 0 l ≠ 0 → t ≠ last 0 l := fun hsome heq => hm.1 (heq ▸ last_mem hsome)
    exact ⟨(link_of_ne hfar).trans hn, (update_of_ne hm.2 _ _).trans hp⟩
  · dsimp only
    by_cases htt : t = tid
    · subst htt
      rw [update_self]
      exact iff_of_true (by decide) (mem_append_right _ mem_cons_self)
    · rw [update_of_ne htt, h.present]
      simp [htt]
  · dsimp only
    rw [h.head]
    by_cases hl : l = []
    · rw [hl, last_nil, if_neg (not_not.2 rfl)]
      rfl
    · rw [if_pos (mt (last_eq_iff h.nonzero).1 hl), first_append hl]
  · rw [length_append, length_singleton, ← h.count]

theorem remove_holds (h : Holds q l) : Holds (lunaRunQueueRemove q tid) (l.erase tid) := by
  by_cases hm : tid ∈ l
  · obtain ⟨a, b, rfl⟩ := append_of_mem hm
    have hout : tid ∉ a := fun ha => (nodup_append.1 h.nodup).2.2 _ ha _ mem_cons_self rfl
    rw [erase_append_right _ hout, erase_cons_head]
    exact remove_present h
  · rw [remove_absent h hm, erase_of_not_mem hm]
    exact h

theorem push_remove {urgent : Bool} (htid : tid ≠ 0) :
    lunaRunQueuePush (lunaRunQueueRemove q tid) tid urgent = lunaRunQueuePush q tid urgent := by
  have htwice : lunaRunQueueRemove (lunaRunQueueRemove q tid) tid = lunaRunQueueRemove q tid := by
    by_cases hgo : tid = 0 ∨ q.present tid = 0
    · have hsame : lunaRunQueueRemove q tid = q := if_pos hgo
      rw [hsame, hsame]
    · have hgone : (lunaRunQueueRemove q tid).present tid = 0 := by
        unfold lunaRunQueueRemove
        rw [if_neg hgo]
        exact update_self _ _ _
      exact if_pos (.inr hgone)
  unfold lunaRunQueuePush
  rw [if_neg htid, if_neg htid, htwice]

/-- Each operation acts on the list. -/
theorem apply_holds (h : Holds q l) (op : RunOp) : Holds (op.apply q) (op.act l) := by
  cases op with
  | clear => exact holds_clear
  | remove tid => exact remove_holds h
  | push tid urgent =>
    by_cases htid : tid = 0
    · have hsame : lunaRunQueuePush q tid urgent = q := if_pos htid
      have hact : (RunOp.push tid urgent).act l = l := if_pos htid
      rw [RunOp.apply, hsame, hact]
      exact h
    · have hgone : tid ∉ l.erase tid := h.nodup.not_mem_erase
      have hremoved : Holds (lunaRunQueueRemove q tid) (l.erase tid) := remove_holds h
      rw [RunOp.apply, RunOp.act, if_neg htid, ← push_remove htid]
      cases urgent with
      | true => exact push_front hremoved hgone htid
      | false => exact push_back hremoved hgone htid
  | pop =>
    have hremoved : Holds (lunaRunQueueRemove q q.head) (l.erase q.head) := remove_holds h
    have hact : l.erase q.head = l.tail := by
      rw [h.head]
      cases l with
      | nil => rfl
      | cons t l => exact erase_cons_head t l
    rw [hact] at hremoved
    exact hremoved

/-- An id is a byte, so that there are fewer than 256 of them. -/
theorem Holds.length (h : Holds q l) : l.length < 256 := by
  have hids : (0 :: l).map UInt8.toNat ⊆ List.range 256 := fun n hn => by
    obtain ⟨t, -, rfl⟩ := List.mem_map.1 hn
    exact mem_range.2 t.toNat_lt
  have hnodup : ((0 :: l).map UInt8.toNat).Nodup := (nodup_cons.2 ⟨h.nonzero, h.nodup⟩).map fun a b => UInt8.toNat_inj.1
  have hle := (List.Nodup.subperm hnodup hids).length_le
  rw [length_map, length_cons, length_range] at hle
  exact hle

theorem copyLoop_eq {k : Nat} {t : UInt8} {out : List UInt8} (hk : (walk 0 q.next k t).length < k)
    (hout : out.length + k ≤ 257) : copyLoop q k t out = .ok (out ++ walk 0 q.next k t) := by
  induction k generalizing t out with
  | zero => cases hk
  | succ k ih =>
    rw [walk] at hk ⊢
    rw [copyLoop]
    by_cases ht : t = 0
    · rw [if_pos ht, if_pos ht, append_nil]
    · rw [if_neg ht] at hk ⊢
      rw [length_cons] at hk
      rw [if_neg ht, if_pos (by omega), ih (by omega) (by rw [length_append, length_singleton]; omega), append_assoc]
      rfl

theorem Holds.copy (h : Holds q l) : lunaRunQueueCopy q = .ok l := by
  have hlen := h.length
  have hwalk : walk 0 q.next 257 q.head = l := h.head ▸ h.linked.walk h.nonzero (by omega)
  unfold lunaRunQueueCopy
  rw [copyLoop_eq (by rw [hwalk]; omega) (by rw [length_nil]), hwalk, nil_append]

end Ops

/-- After any operations the queue is the list that they make: a copy gives it, without repetitions, it has the ids that
    are present, its length is the count, the other links give it backward, and a pop takes its first id. -/
theorem run_queue_is_list (ops : List RunOp) :
    let q := ops.foldl RunOp.apply lunaRunQueueClear
    let l := ops.foldl RunOp.act []
    lunaRunQueueCopy q = .ok l ∧ l.Nodup ∧ (∀ t, t ∈ l ↔ q.present t ≠ 0) ∧ q.count = l.length ∧
      walk 0 q.prev 256 q.tail = l.reverse ∧ (lunaRunQueuePop q).1 = l.head?.getD 0 := by
  have hruns : ∀ (ops : List RunOp) (q : RunQueue) (l : List UInt8), Holds q l → Holds (ops.foldl RunOp.apply q)
      (ops.foldl RunOp.act l) := by
    intro ops
    induction ops with
    | nil => exact fun q l h => h
    | cons op ops ih => exact fun q l h => ih _ _ (apply_holds h op)
  have h := hruns ops _ _ holds_clear
  refine ⟨h.copy, h.nodup, fun t => (h.present t).symm, h.count, ?_, h.head⟩
  have hlen := h.length
  have hback := h.linked.reverse.walk (fun hm => h.nonzero (mem_reverse.1 hm)) (n := 256) (by rw [length_reverse]; omega)
  rwa [first_reverse, ← h.tail] at hback

end Lunaria.Os
