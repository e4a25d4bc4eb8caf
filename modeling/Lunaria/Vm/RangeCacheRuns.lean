import Lunaria.Vm.RangeCache

/-! The cache of `a64_mapped` does not show. A range stays mapped until something is removed, so an entry whose count is the
    current one still holds; and a query that reads a count and finds an entry of it found it at the moment it read. -/

namespace Lunaria.Vm
open Spans Function

/-- The count after some removals. -/
def stamp (n : Nat) : UInt64 := UInt64.ofNat (n + 1)

theorem stamp_succ (n : Nat) : stamp n + 1 = stamp (n + 1) := by
  unfold stamp
  rw [UInt64.ofNat_add (n + 1) 1]
  rfl

/-- Two counts differ until they wrap. -/
theorem stamp_inj {m n : Nat} (hm : m < 2 ^ 64) (hn : n < 2 ^ 64) (h : stamp m = stamp n) : m = n := by
  have := congrArg UInt64.toNat h
  simp only [stamp, UInt64.toNat_ofNat'] at this
  omega

def MapSystem.Mapped (s : MapSystem) (va : Nat) : Prop := attrAt s.table.maps va ≠ none

/-- An entry is empty, or was found after some removals and holds until the next. -/
def RangeCache.Ok (s : MapSystem) (c : RangeCache) : Prop :=
  c.hi ≤ c.lo ∨ ∃ k ≤ s.removed, c.gen = stamp k ∧ (k = s.removed → ∀ x, c.lo ≤ x → x < c.hi → s.Mapped x)

/-- A query that has read the count read it after some removals. -/
def QueryPoint.Ok (s : MapSystem) : QueryPoint → Prop
  | loaded _ gen => ∃ k ≤ s.removed, gen = stamp k
  | missed _ gen => ∃ k ≤ s.removed, gen = stamp k
  | _ => True

structure MapInv (s : MapSystem) : Prop where
  ordered : Ordered s.table.maps
  gen : s.unmapGen = stamp s.removed
  cache : ∀ t i, ((s.threads t).cache i).Ok s
  point : ∀ t, (s.threads t).point.Ok s

section Steps
variable {s s' : MapSystem} {e : MapEvent} {r : Option Bool} {t va : Nat} {gen : UInt64} {cache : ThreadCache}
    {point : QueryPoint}

/-! ### The parts of a query -/

theorem hit_iff {c : RangeCache} : c.hit gen va = true ↔ gen = c.gen ∧ c.lo ≤ va ∧ va < c.hi := decide_eq_true_iff

/-- The cache answers if an entry of it does, and copies an entry at most. -/
theorem probeCache_eq : ((probeCache cache gen va).1 = true ↔ ∃ i, (cache i).hit gen va = true) ∧
    ∀ i, ∃ j, (probeCache cache gen va).2 i = cache j := by
  unfold probeCache
  split_ifs with hown
  · exact ⟨iff_of_true rfl ⟨_, hown⟩, fun i => ⟨i, rfl⟩⟩
  · cases hfind : (List.finRange 8).find? fun i => (cache i).hit gen va with
    | some i =>
      have hhit : (cache i).hit gen va = true := by simpa using List.find?_some hfind
      refine ⟨iff_of_true rfl ⟨i, hhit⟩, fun j => ?_⟩
      by_cases hj : j = cacheSlot va
      · subst hj
        exact ⟨i, update_self _ _ _⟩
      · exact ⟨j, update_of_ne hj _ _⟩
    | none =>
      refine ⟨iff_of_false (fun h => nomatch h) fun ⟨i, hi⟩ => ?_, fun i => ⟨i, rfl⟩⟩
      exact List.find?_eq_none.1 hfind i (List.mem_finRange i) hi

/-- The search answers what the table says, and an entry that it adds holds. -/
theorem findCache_eq {maps : List Mapping} (hord : Ordered maps) :
    ((findCache maps cache gen va).1 = true ↔ attrAt maps va ≠ none) ∧
    ∀ i, (findCache maps cache gen va).2 i = cache i ∨ ((findCache maps cache gen va).2 i).gen = gen ∧
      ∀ x, ((findCache maps cache gen va).2 i).lo ≤ x → x < ((findCache maps cache gen va).2 i).hi →
        attrAt maps x ≠ none := by
  unfold findCache
  cases hfind : a64FindLocked maps va with
  | none => exact ⟨iff_of_false (fun h => nomatch h) (not_not.2 (a64FindLocked_none hord hfind)), fun i => .inl rfl⟩
  | some m =>
    obtain ⟨hm, hva⟩ := a64FindLocked_some hfind
    have hmapped : ∀ x, m.Has x → attrAt maps x ≠ none := fun x hx hnone => attrAt_eq_none.1 hnone m hm hx
    refine ⟨iff_of_true rfl (hmapped va hva), fun i => ?_⟩
    by_cases hi : i = cacheSlot va
    · rw [hi]
      dsimp only
      rw [update_self]
      exact .inr ⟨rfl, fun x h1 h2 => hmapped x ⟨h1, h2⟩⟩
    · exact .inl (update_of_ne hi _ _)

/-! ### The invariant -/

/-- An entry of the current count still holds. -/
theorem MapInv.hit_mapped (h : MapInv s) (hn : s.removed < 2 ^ 64) {i : Fin 8}
    (hit : ((s.threads t).cache i).hit s.unmapGen va = true) : s.Mapped va := by
  obtain ⟨hgen, hlo, hhi⟩ := hit_iff.1 hit
  rcases h.cache t i with hempty | ⟨k, hk, hstamp, hholds⟩
  · omega
  · have hnow : k = s.removed := stamp_inj (hk.trans_lt hn) hn (by rw [← hstamp, ← hgen, h.gen])
    exact hholds hnow va hlo hhi

theorem MapInv.change (h : MapInv s) {op : MapOp} (hc : op.Callable s.table.maps) {table : PageTable} {rc : Int}
    (happly : s.table.apply op = some (table, rc)) :
    Ordered table.maps ∧ (op.isRemove = false → ∀ x, s.Mapped x → attrAt table.maps x ≠ none) := by
  cases op with
  | insert lo hi prot owned fileBacked =>
    cases happly
    obtain ⟨hord, hattr⟩ := a64MapInsert_spec h.ordered hc.1 hc.2
    refine ⟨hord, fun _ x hx => ?_⟩
    rw [hattr x]
    split
    · exact Option.some_ne_none _
    · exact hx
  | declare base len prot =>
    have hmaps : ∀ x, ∃ maps', a64MapDeclareBacking s.table.maps base len prot = some maps' ∧ Ordered maps' ∧
        (attrAt maps' x = none → attrAt s.table.maps x = none) := fun x => declare_mapped base len h.ordered
    obtain ⟨maps', hdeclare, hord, -⟩ := hmaps 0
    rw [PageTable.apply, hdeclare] at happly
    cases happly
    refine ⟨hord, fun _ x hx hnone => ?_⟩
    obtain ⟨maps'', hdeclare', -, hmapped⟩ := hmaps x
    cases hdeclare.symm.trans hdeclare'
    exact hx (hmapped hnone)
  | remove lo hi =>
    cases happly
    exact ⟨(a64MapRemove_spec hc h.ordered).1, fun hremove => Bool.noConfusion hremove⟩
  | setProt host lo hi prot =>
    cases happly
    have hmapped : ∀ x, Ordered (a64MapSetProt host s.table.maps lo hi prot).1 ∧
        (attrAt (a64MapSetProt host s.table.maps lo hi prot).1 x = none ↔ attrAt s.table.maps x = none) :=
      fun x => setProt_mapped h.ordered hc
    exact ⟨(hmapped 0).1, fun _ x hx hnone => hx ((hmapped x).2.1 hnone)⟩

theorem step_change {op : MapOp} (hstep : s.step (.change op) = some (r, s')) :
    ∃ table rc, s.table.apply op = some (table, rc) ∧ r = none ∧ s' = s.changed op table := by
  obtain ⟨⟨table, rc⟩, happly, ⟨⟩⟩ := Option.map_eq_some_iff.1 hstep
  exact ⟨table, rc, happly, rfl, rfl⟩

theorem step_ask (hstep : s.step (.ask t va) = some (r, s')) :
    (s.threads t).point = .idle ∧ r = none ∧ s' = s.withThread t (s.threads t).cache (.asked (a64MappingVa va)) := by
  simp only [MapSystem.step] at hstep
  split at hstep
  · cases hstep
    exact ⟨by assumption, rfl, rfl⟩
  · cases hstep

theorem step_load (hstep : s.step (.load t) = some (r, s')) :
    ∃ va, (s.threads t).point = .asked va ∧ r = none ∧ s' = s.withThread t (s.threads t).cache (.loaded va s.unmapGen) := by
  simp only [MapSystem.step] at hstep
  split at hstep
  · cases hstep
    exact ⟨_, by assumption, rfl, rfl⟩
  · cases hstep

theorem step_probe (hstep : s.step (.probe t) = some (r, s')) :
    ∃ va gen, (s.threads t).point = .loaded va gen ∧
      r = (if (probeCache (s.threads t).cache gen va).1 then some true else none) ∧
      s' = s.withThread t (probeCache (s.threads t).cache gen va).2
        (if (probeCache (s.threads t).cache gen va).1 then .idle else .missed va gen) := by
  simp only [MapSystem.step] at hstep
  split at hstep
  · cases hstep
    exact ⟨_, _, by assumption, rfl, rfl⟩
  · cases hstep

theorem step_find (hstep : s.step (.find t) = some (r, s')) :
    ∃ va gen, (s.threads t).point = .missed va gen ∧ r = some (findCache s.table.maps (s.threads t).cache gen va).1 ∧
      s' = s.withThread t (findCache s.table.maps (s.threads t).cache gen va).2 .idle := by
  simp only [MapSystem.step] at hstep
  split at hstep
  · cases hstep
    exact ⟨_, _, by assumption, rfl, rfl⟩
  · cases hstep

@[simp] theorem withThread_self : (s.withThread t cache point).threads t = ⟨cache, point⟩ := update_self _ _ _

theorem withThread_of_ne {u : Nat} (h : u ≠ t) : (s.withThread t cache point).threads u = s.threads u :=
  update_of_ne h _ _

theorem QueryPoint.Ok.mono {p : QueryPoint} (h : p.Ok s) (hle : s.removed ≤ s'.removed) : p.Ok s' := by
  have hlift : ∀ gen, (∃ k ≤ s.removed, gen = stamp k) → ∃ k ≤ s'.removed, gen = stamp k := fun gen ⟨k, hk, hgen⟩ =>
    ⟨k, hk.trans hle, hgen⟩
  cases p with
  | idle => trivial
  | asked va => trivial
  | loaded va gen => exact hlift gen h
  | missed va gen => exact hlift gen h

theorem MapInv.withThread (h : MapInv s) (hcache : ∀ i, (cache i).Ok s) (hpoint : point.Ok s) :
    MapInv (s.withThread t cache point) := by
  refine ⟨h.ordered, h.gen, fun u i => ?_, fun u => ?_⟩
  · by_cases hu : u = t
    · rw [hu, withThread_self]
      exact hcache i
    · rw [withThread_of_ne hu]
      exact h.cache u i
  · by_cases hu : u = t
    · rw [hu, withThread_self]
      exact hpoint.mono le_rfl
    · rw [withThread_of_ne hu]
      exact (h.point u).mono le_rfl

theorem MapInv.step (h : MapInv s) (hallowed : e.Allowed s) (hstep : s.step e = some (r, s')) : MapInv s' := by
  cases e with
  | change op =>
    obtain ⟨table, rc, happly, -, rfl⟩ := step_change hstep
    obtain ⟨hord, hkeep⟩ := h.change hallowed happly
    unfold MapSystem.changed
    cases hremove : op.isRemove with
    | true =>
      -- all entries are of earlier counts now
      refine ⟨hord, (congrArg (· + 1) h.gen).trans (stamp_succ _), fun t i => ?_, fun t => (h.point t).mono (Nat.le_succ _)⟩
      rcases h.cache t i with hempty | ⟨k, hk, hgen, -⟩
      · exact .inl hempty
      · exact .inr ⟨k, Nat.le_succ_of_le hk, hgen, fun heq => absurd heq (Nat.ne_of_lt (Nat.lt_succ_of_le hk))⟩
    | false =>
      refine ⟨hord, h.gen, fun t i => ?_, fun t => (h.point t).mono le_rfl⟩
      rcases h.cache t i with hempty | ⟨k, hk, hgen, hholds⟩
      · exact .inl hempty
      · exact .inr ⟨k, hk, hgen, fun heq x h1 h2 => hkeep hremove x (hholds heq x h1 h2)⟩
  | ask t va =>
    obtain ⟨-, -, rfl⟩ := step_ask hstep
    exact h.withThread (h.cache t) trivial
  | load t =>
    obtain ⟨va, -, -, rfl⟩ := step_load hstep
    exact h.withThread (h.cache t) ⟨s.removed, le_rfl, h.gen⟩
  | probe t =>
    obtain ⟨va, gen, hpoint, -, rfl⟩ := step_probe hstep
    have hold := h.point t
    rw [hpoint] at hold
    refine h.withThread (fun i => ?_) ?_
    · obtain ⟨j, hj⟩ := (@probeCache_eq va gen (s.threads t).cache).2 i
      rw [hj]
      exact h.cache t j
    · split
      · trivial
      · exact hold
  | find t =>
    obtain ⟨va, gen, hpoint, -, rfl⟩ := step_find hstep
    have hold := h.point t
    rw [hpoint] at hold
    obtain ⟨k, hk, hgen⟩ := hold
    refine h.withThread (fun i => ?_) trivial
    rcases (@findCache_eq va gen (s.threads t).cache _ h.ordered).2 i with heq | ⟨hnew, hholds⟩
    · rw [heq]
      exact h.cache t i
    · exact .inr ⟨k, hk, hnew.trans hgen, fun _ => hholds⟩

theorem MapReach.inv (h : MapReach s) : MapInv s := by
  induction h with
  | start => exact ⟨.nil, rfl, fun _ _ => .inl (Nat.zero_le 1), fun _ => trivial⟩
  | step _ hallowed hstep ih => exact ih.step hallowed hstep

end Steps

/-! ### A query among others -/

/-- At some moment of a query its address is mapped. -/
def Seen (t va : Nat) (s₁ s₂ : MapSystem) : Prop := ∃ s, During t s₁ s ∧ During t s s₂ ∧ s.Mapped va

/-- How far a thread is with the query that it began. If an entry has the count that it read, the address was mapped then. -/
def InCall (t va : Nat) (s₁ s : MapSystem) : QueryPoint → Prop
  | .idle => True
  | .asked va' => va' = va
  | .loaded va' gen => va' = va ∧ ((∃ i, ((s.threads t).cache i).hit gen va = true) → Seen t va s₁ s)
  | .missed va' _ => va' = va

section Calls
variable {s s' s₀ s₁ s₂ s₃ : MapSystem} {e : MapEvent} {r : Option Bool} {t va : Nat}

theorem step_removed (hstep : s.step e = some (r, s')) : s.removed ≤ s'.removed := by
  cases e with
  | change op =>
    obtain ⟨table, rc, -, -, rfl⟩ := step_change hstep
    unfold MapSystem.changed
    split
    · exact Nat.le_succ _
    · exact le_rfl
  | ask t va =>
    obtain ⟨-, -, rfl⟩ := step_ask hstep
    exact le_rfl
  | load t =>
    obtain ⟨va, -, -, rfl⟩ := step_load hstep
    exact le_rfl
  | probe t =>
    obtain ⟨va, gen, -, -, rfl⟩ := step_probe hstep
    exact le_rfl
  | find t =>
    obtain ⟨va, gen, -, -, rfl⟩ := step_find hstep
    exact le_rfl

theorem step_thread (hstep : s.step e = some (r, s')) (hne : e.thread ≠ some t) : s'.threads t = s.threads t := by
  have hother : ∀ u cache point, e.thread = some u → (s.withThread u cache point).threads t = s.threads t :=
    fun u cache point hu => withThread_of_ne fun h => hne (hu.trans (congrArg some h.symm))
  cases e with
  | change op =>
    obtain ⟨table, rc, -, -, rfl⟩ := step_change hstep
    unfold MapSystem.changed
    split <;> rfl
  | ask u va =>
    obtain ⟨-, -, rfl⟩ := step_ask hstep
    exact hother u _ _ rfl
  | load u =>
    obtain ⟨va, -, -, rfl⟩ := step_load hstep
    exact hother u _ _ rfl
  | probe u =>
    obtain ⟨va, gen, -, -, rfl⟩ := step_probe hstep
    exact hother u _ _ rfl
  | find u =>
    obtain ⟨va, gen, -, -, rfl⟩ := step_find hstep
    exact hother u _ _ rfl

theorem During.reach (h : During t s₁ s₂) (hs : MapReach s₁) : MapReach s₂ := by
  induction h with
  | refl => exact hs
  | step _ hallowed _ hstep ih => exact ih.step hallowed hstep

theorem During.inCall (h : During t s₁ s₂) (hs : MapReach s₁) (hn : s₂.removed < 2 ^ 64)
    (hbegin : (s₁.threads t).point = .asked va) : InCall t va s₁ s₂ (s₂.threads t).point := by
  induction h with
  | refl =>
    rw [hbegin]
    exact rfl
  | @step s s' e r hduring hallowed hask hstep ih =>
    have hinv := (hduring.reach hs).inv
    have hn' := (step_removed hstep).trans_lt hn
    have ih := ih hn'
    by_cases hthread : e.thread = some t
    · cases e with
      | change op => cases hthread
      | ask u w =>
        cases hthread
        exact absurd rfl (hask w)
      | load u =>
        cases hthread
        obtain ⟨w, hpoint, -, rfl⟩ := step_load hstep
        rw [hpoint] at ih
        obtain rfl : w = va := ih
        rw [withThread_self]
        refine ⟨rfl, fun ⟨i, hi⟩ => ⟨s, hduring, .step .refl hallowed hask hstep, ?_⟩⟩
        rw [withThread_self] at hi
        exact hinv.hit_mapped hn' hi
      | probe u =>
        cases hthread
        obtain ⟨w, gen, hpoint, -, rfl⟩ := step_probe hstep
        rw [hpoint] at ih
        obtain ⟨rfl, -⟩ := ih
        rw [withThread_self]
        split
        · trivial
        · exact rfl
      | find u =>
        cases hthread
        obtain ⟨w, gen, hpoint, -, rfl⟩ := step_find hstep
        rw [withThread_self]
        trivial
    · have heq := step_thread hstep hthread
      rw [heq]
      have hseen : Seen t va s₁ s → Seen t va s₁ s' := fun ⟨m, h1, h2, h3⟩ => ⟨m, h1, h2.step hallowed hask hstep, h3⟩
      generalize hpoint : (s.threads t).point = p at ih
      cases p with
      | idle => trivial
      | asked w => exact ih
      | loaded w gen =>
        refine ⟨ih.1, fun hhit => hseen (ih.2 ?_)⟩
        rw [heq] at hhit
        exact hhit
      | missed w gen => exact ih

theorem mapped_answer (hs : MapReach s₀) (hask : s₀.step (.ask t va) = some (r, s₁)) (hduring : During t s₁ s₂)
    (hn : s₂.removed < 2 ^ 64) (hthread : e.thread = some t) {b : Bool} (hanswer : s₂.step e = some (some b, s₃)) :
    ∃ s, During t s₁ s ∧ During t s s₂ ∧ (b = true ↔ s.Mapped (a64MappingVa va)) := by
  have hs₁ := hs.step (e := .ask t va) trivial hask
  obtain ⟨-, -, rfl⟩ := step_ask hask
  have hbegin :
      ((s₀.withThread t (s₀.threads t).cache (.asked (a64MappingVa va))).threads t).point = .asked (a64MappingVa va) := by
    rw [withThread_self]
  have hcall := hduring.inCall hs₁ hn hbegin
  have hinv := (hduring.reach hs₁).inv
  cases e with
  | change op => cases hthread
  | ask u w =>
    obtain ⟨-, hr, -⟩ := step_ask hanswer
    cases hr
  | load u =>
    obtain ⟨w, -, hr, -⟩ := step_load hanswer
    cases hr
  | probe u =>
    obtain rfl := Option.some.inj hthread
    obtain ⟨w, gen, hpoint, hr, -⟩ := step_probe hanswer
    rw [hpoint] at hcall
    obtain ⟨rfl, hseen⟩ := hcall
    cases hprobe : (probeCache (s₂.threads u).cache gen (a64MappingVa va)).1 with
    | true =>
      rw [hprobe, if_pos rfl] at hr
      cases hr
      obtain ⟨s, h1, h2, h3⟩ := hseen (probeCache_eq.1.1 hprobe)
      exact ⟨s, h1, h2, iff_of_true rfl h3⟩
    | false =>
      rw [hprobe, if_neg (by decide)] at hr
      cases hr
  | find u =>
    cases hthread
    obtain ⟨w, gen, hpoint, hr, -⟩ := step_find hanswer
    rw [hpoint] at hcall
    obtain rfl : w = a64MappingVa va := hcall
    cases hr
    exact ⟨s₂, hduring, .refl, (findCache_eq hinv.ordered).1⟩

/-! ### A query alone -/

theorem findLocked_iff (hord : Ordered s.table.maps) : (a64FindLocked s.table.maps va).isSome = true ↔ s.Mapped va := by
  cases hfind : a64FindLocked s.table.maps va with
  | none => exact iff_of_false (by decide) (not_not.2 (a64FindLocked_none hord hfind))
  | some m =>
    obtain ⟨hm, hva⟩ := a64FindLocked_some hfind
    exact iff_of_true rfl fun hnone => attrAt_eq_none.1 hnone m hm hva

theorem a64Mapped_eq (hinv : MapInv s) (hn : s.removed < 2 ^ 64) :
    (a64Mapped s.table.maps s.unmapGen (s.threads t).cache va).1 =
    (a64FindLocked s.table.maps (a64MappingVa va)).isSome := by
  rw [Bool.eq_iff_iff, findLocked_iff hinv.ordered]
  unfold a64Mapped
  have hprobe := @probeCache_eq (a64MappingVa va) s.unmapGen (s.threads t).cache
  rcases hcache : probeCache (s.threads t).cache s.unmapGen (a64MappingVa va) with ⟨hit, cache⟩
  rw [hcache] at hprobe
  cases hit with
  | true =>
    obtain ⟨i, hi⟩ := hprobe.1.1 rfl
    exact iff_of_true rfl (hinv.hit_mapped hn hi)
  | false => exact (findCache_eq hinv.ordered).1

/-- The steps of a query that nothing interrupts. -/
def MapSystem.Answers (s : MapSystem) (t va : Nat) (b : Bool) : Prop :=
  ∃ s₁ s₂ s₃, s.step (.ask t va) = some (none, s₁) ∧ s₁.step (.load t) = some (none, s₂) ∧
    (s₂.step (.probe t) = some (some b, s₃) ∨ s₂.step (.probe t) = some (none, s₃) ∧
      ∃ s₄, s₃.step (.find t) = some (some b, s₄))

theorem a64Mapped_answers (hidle : (s.threads t).point = .idle) :
    s.Answers t va (a64Mapped s.table.maps s.unmapGen (s.threads t).cache va).1 := by
  have hload : (s.withThread t (s.threads t).cache (.asked (a64MappingVa va))).step (.load t) =
      some (none, (s.withThread t (s.threads t).cache (.asked (a64MappingVa va))).withThread t (s.threads t).cache
        (.loaded (a64MappingVa va) s.unmapGen)) := by
    simp only [MapSystem.step, withThread_self]
    rfl
  have hprobe : ∃ s₃, ((s.withThread t (s.threads t).cache (.asked (a64MappingVa va))).withThread t (s.threads t).cache
        (.loaded (a64MappingVa va) s.unmapGen)).step (.probe t) =
          some (some (a64Mapped s.table.maps s.unmapGen (s.threads t).cache va).1, s₃) ∨
      ((s.withThread t (s.threads t).cache (.asked (a64MappingVa va))).withThread t (s.threads t).cache
        (.loaded (a64MappingVa va) s.unmapGen)).step (.probe t) = some (none, s₃) ∧
        ∃ s₄, s₃.step (.find t) = some (some (a64Mapped s.table.maps s.unmapGen (s.threads t).cache va).1, s₄) := by
    unfold a64Mapped
    simp only [MapSystem.step, withThread_self]
    rcases probeCache (s.threads t).cache s.unmapGen (a64MappingVa va) with ⟨hit, cache⟩
    cases hit with
    | true => exact ⟨_, .inl rfl⟩
    | false =>
      refine ⟨_, .inr ⟨rfl, ?_⟩⟩
      simp only [Bool.false_eq_true, if_false, withThread_self]
      exact ⟨_, rfl⟩
  obtain ⟨s₃, hprobe⟩ := hprobe
  exact ⟨_, _, s₃, by simp only [MapSystem.step, hidle], hload, hprobe⟩

end Calls

/-- Threads do not see the caches. -/
theorem range_cache_transparent {s : MapSystem} (h : MapReach s) :
    (∀ va, (a64FindLocked s.table.maps va).isSome = true ↔ s.Mapped va) ∧
    (∀ (t va : Nat) (r : Option Bool) (s₁ s₂ s₃ : MapSystem) (e : MapEvent) (b : Bool), s.step (.ask t va) = some (r, s₁) →
      During t s₁ s₂ → s₂.removed < 2 ^ 64 → e.thread = some t → s₂.step e = some (some b, s₃) →
      ∃ m, During t s₁ m ∧ During t m s₂ ∧ (b = true ↔ m.Mapped (a64MappingVa va))) ∧
    (s.removed < 2 ^ 64 → ∀ t va : Nat, (s.threads t).point = .idle →
      s.Answers t va (a64FindLocked s.table.maps (a64MappingVa va)).isSome) ∧
    ∀ offset < guestSize, a64MappingVa offset = guestBase + offset ∧
      a64MappingVa (guestBase + offset) = guestBase + offset := by
  refine ⟨fun va => findLocked_iff h.inv.ordered, fun t va r s₁ s₂ s₃ e b hask hduring hn hthread hanswer => ?_,
    fun hn t va hidle => ?_, fun offset hoffset => ?_⟩
  · exact mapped_answer h hask hduring hn hthread hanswer
  · rw [← a64Mapped_eq h.inv hn]
    exact a64Mapped_answers hidle
  · have hbase : ¬ guestBase + offset < guestSize := by
      unfold guestBase guestSize
      omega
    exact ⟨if_pos hoffset, if_neg hbase⟩

/-- A page that the thread has in its cache is removed while the thread asks for it: the cache still answers, as the page
    was mapped when the query began, and the next time it does not. -/
theorem range_cache_transparent_removed : ∃ s₀ s₁ s₂ s₃ : MapSystem, s₀.step (.ask 0 0x7e0000000000) = some (none, s₁) ∧
    s₂.step (.probe 0) = some (some true, s₃) ∧ s₀.table.maps.length = 1 ∧ s₂.table.maps = [] ∧
    (∃ m, During 0 s₁ m ∧ During 0 m s₂ ∧ (true = true ↔ m.Mapped (a64MappingVa 0x7e0000000000))) ∧
    s₃.Answers 0 0x7e0000000000 false := by
  have h1 := (MapReach.start : MapReach ⟨⟨[], []⟩, 1, fun _ => ⟨.empty, .idle⟩, 0⟩).step
    (e := .change (.insert 0x7e0000000000 0x7e0000001000 3 true false)) ⟨by decide, fun x _ _ => rfl⟩ rfl
  have h2 := h1.step (e := .ask 0 0x7e0000000000) trivial rfl
  have h3 := h2.step (e := .load 0) trivial rfl
  have h4 := h3.step (e := .probe 0) trivial rfl
  have h5 := h4.step (e := .find 0) trivial rfl
  -- the page is in the cache, and is asked for once more
  have h6 := h5.step (e := .ask 0 0x7e0000000000) trivial rfl
  have h7 := h6.step (e := .load 0) trivial rfl
  have h8 := h7.step (e := .change (.remove 0x7e0000000000 0x7e0000001000)) (Nat.le_add_right 0x7e0000000000 0x1000) rfl
  have h9 := h8.step (e := .probe 0) trivial rfl
  let state {s : MapSystem} (_ : MapReach s) : MapSystem := s
  refine ⟨state h5, state h6, state h8, state h9, rfl, rfl, rfl, rfl, ?_,
    (range_cache_transparent h9).2.2.1 (by decide) 0 0x7e0000000000 rfl⟩
  refine (range_cache_transparent h5).2.1 0 0x7e0000000000 none _ _ _ (.probe 0) true rfl ?_ (by decide) rfl rfl
  exact (During.refl.step (e := .load 0) trivial (by simp) rfl).step
    (e := .change (.remove 0x7e0000000000 0x7e0000001000)) (Nat.le_add_right 0x7e0000000000 0x1000) (by simp) rfl

/-! ### The count wraps -/

theorem removals_reach {s : MapSystem} (h : MapReach s) (hempty : s.table = ⟨[], []⟩) (n : Nat) :
    MapReach { s with unmapGen := s.unmapGen + UInt64.ofNat n, removed := s.removed + n } := by
  induction n with
  | zero => simpa using h
  | succ n ih =>
    refine ih.step (e := .change (.remove 0 0)) (r := none) (Nat.le_refl 0) ?_
    simp only [MapSystem.step, PageTable.apply, hempty, Option.map_some]
    simp [MapSystem.changed, MapOp.isRemove, a64MapRemove, a64LoadedRegionsUnmap, UInt64.ofNat_add, UInt64.add_assoc,
      Nat.add_assoc]

/-- After 2^64 removals an entry that was made before the first is taken for a current one. -/
theorem range_cache_wraps : ∃ s : MapSystem, MapReach s ∧ (s.threads 0).point = .idle ∧ s.Answers 0 0x7e0000000000 true ∧
    a64FindLocked s.table.maps (a64MappingVa 0x7e0000000000) = none := by
  have h1 := (MapReach.start : MapReach ⟨⟨[], []⟩, 1, fun _ => ⟨.empty, .idle⟩, 0⟩).step
    (e := .change (.insert 0x7e0000000000 0x7e0000001000 3 true false)) ⟨by decide, fun x _ _ => rfl⟩ rfl
  have h2 := h1.step (e := .ask 0 0x7e0000000000) trivial rfl
  have h3 := h2.step (e := .load 0) trivial rfl
  have h4 := h3.step (e := .probe 0) trivial rfl
  have h5 := h4.step (e := .find 0) trivial rfl
  have h6 := h5.step (e := .change (.remove 0x7e0000000000 0x7e0000001000)) (Nat.le_add_right 0x7e0000000000 0x1000) rfl
  have h7 := removals_reach h6 rfl (2 ^ 64 - 1)
  exact ⟨_, h7, rfl, @a64Mapped_answers _ 0 0x7e0000000000 rfl, rfl⟩

end Lunaria.Vm
