import Lunaria.Os.TimersExact

/-! Runs of the timers: every number stays in its range, and ids are not handed out twice. -/

namespace Lunaria.Os
open Periodic List

/-! ### What the operations do -/

section Operations
variable {s s' : PosixTimers} {t t' : PosixTimer} {items : List PosixTimer} {owner id i : Nat}

theorem pollItems_eq (clock : Nat → TimerClock) (h : ∀ t ∈ items, t.Ok) : ∃ items', pollItems items clock = .ok items' ∧
    items'.length = items.length ∧
    ∀ (i : Nat) (t : PosixTimer), items[i]? = some t →
      items'[i]? = some (t.polled (t.expired (clock i t.armedClock t.clockTid).toNat)) := by
  induction items generalizing clock with
  | nil => exact ⟨[], rfl, rfl, nofun⟩
  | cons t items ih =>
    obtain ⟨ht, hitems⟩ := forall_mem_cons.1 h
    obtain ⟨items', heq, hlength, hget⟩ := ih (fun i => clock (i + 1)) hitems
    refine ⟨t.polled (t.expired (clock 0 t.armedClock t.clockTid).toNat) :: items', ?_, congrArg Nat.succ hlength,
      fun i u hu => ?_⟩
    · unfold pollItems
      rw [poll_eq ht, Checked.bind_ok, heq]
      rfl
    · cases i with
      | zero =>
        cases hu
        rfl
      | succ i => exact hget i u hu

theorem left_eq {now : Nat} : t.left now = .ok (t.due - now) := by
  unfold PosixTimer.left
  split_ifs with h
  · exact Checked.minus_eq h.le
  · rw [Nat.sub_eq_zero_of_le (Nat.not_lt.1 h)]

theorem least_eq (now next : Nat) : ∃ n, t.least now next = .ok n ∧ n ≤ next ∧
    (t.id ≠ 0 → t.armed = true → n ≤ t.due - now) := by
  unfold PosixTimer.least
  split_ifs with hskip
  · refine ⟨next, rfl, le_rfl, fun hid harmed => ?_⟩
    simp [hid, harmed] at hskip
  · rw [left_eq, Checked.bind_ok]
    refine ⟨_, rfl, ?_, fun _ _ => ?_⟩ <;> split_ifs <;> omega

theorem nextItems_eq (items : List PosixTimer) (clock : Nat → TimerClock) (next : Nat) :
    ∃ r, nextItems items clock next = .ok r ∧ r ≤ next ∧ ∀ (i : Nat) (t : PosixTimer),
    items[i]? = some t → t.id ≠ 0 → t.armed = true → r ≤ t.due - (clock i t.armedClock t.clockTid).toNat := by
  induction items generalizing clock next with
  | nil => exact ⟨next, rfl, le_rfl, nofun⟩
  | cons t items ih =>
    obtain ⟨n, hn, hle, hthis⟩ := least_eq (t := t) (clock 0 t.armedClock t.clockTid).toNat next
    obtain ⟨r, hr, hrn, hget⟩ := ih (fun i => clock (i + 1)) n
    refine ⟨r, ?_, hrn.trans hle, fun i u hu hid harmed => ?_⟩
    · unfold nextItems
      rw [hn, Checked.bind_ok, hr]
    · cases i with
      | zero =>
        cases hu
        exact hrn.trans (hthis hid harmed)
      | succ i => exact hget i u hu hid harmed

theorem timerDue_eq (absolute : Bool) (value now : Nat) :
    timerDue absolute value now = .ok (min (if absolute then value else now + value) int64Max) := by
  unfold timerDue
  split_ifs with habsolute hover hnow
  · rw [Nat.min_eq_right hover.le]
  · rw [Nat.min_eq_left (Nat.not_lt.1 hover)]
  · rw [Nat.min_eq_right (hnow.trans (Nat.le_add_right _ _))]
  · rw [Checked.minus_eq (Nat.not_le.1 hnow).le, Checked.bind_ok]
    have hlimit := int64Max_le
    split_ifs with hroom
    · rw [Nat.min_eq_right (by omega)]
      rfl
    · rw [Checked.plus_eq (by omega), Nat.min_eq_left (by omega)]

structure Armed (t t' : PosixTimer) (flags : UInt32) (spec : TimerSpec) (clock : TimerClock) : Prop where
  due : t'.due = min (if flags &&& 1 ≠ 0 then spec.value.toNat
    else (clock t'.armedClock t.clockTid).toNat + spec.value.toNat) int64Max
  interval : t'.interval = min spec.interval.toNat int64Max
  same : t' = { t with armedClock := t'.armedClock, due := t'.due, interval := t'.interval, armed := spec.value ≠ 0 }

theorem arm_eq (t : PosixTimer) (flags : UInt32) (spec : TimerSpec) (clock : TimerClock) :
    ∃ t', t.arm flags spec clock = .ok t' ∧ Armed t t' flags spec clock := by
  unfold PosixTimer.arm
  dsimp only
  rw [timerDue_eq, Checked.bind_ok]
  refine ⟨_, rfl, ?_, ?_, rfl⟩
  · simp
  · dsimp only
    split_ifs <;> omega

theorem Armed.ok {flags : UInt32} {spec : TimerSpec} {clock : TimerClock} (ha : Armed t t' flags spec clock) (h : t.Ok) :
    t'.Ok := by
  refine ⟨?_, ?_, ?_⟩
  · rw [ha.due]
    exact Nat.min_le_right _ _
  · rw [ha.interval]
    exact Nat.min_le_right _ _
  · rw [ha.same]
    exact h.pending

theorem take_eq (t : PosixTimer) : ∃ b t', t.take = .ok (b, t') ∧ (b = true ↔ t.pending ≠ 0) ∧
    t' = { t with overrun := t'.overrun, pending := 0, published := t'.published } := by
  unfold PosixTimer.take
  split_ifs with hzero
  · refine ⟨false, t, rfl, by simp [hzero], ?_⟩
    rw [← hzero]
  · rw [Checked.minus_eq (Nat.pos_of_ne_zero hzero), Checked.bind_ok]
    exact ⟨true, _, rfl, by simp [hzero], rfl⟩

theorem timerFind_some (h : timerFind s owner id = some i) : id ≠ 0 ∧
    ∃ t, s.items[i]? = some t ∧ t.id = id ∧ t.deleted = false ∧ t.owner = owner := by
  unfold timerFind at h
  split at h
  · cases h
  next hid =>
  rw [findIdx?_eq_some_iff_getElem] at h
  obtain ⟨hlt, hfor, -⟩ := h
  refine ⟨hid, s.items[i], getElem?_eq_getElem hlt, ?_⟩
  simpa [PosixTimer.isFor] using hfor

theorem timerFind_none (h : id ≠ 0 → ∀ (i : Nat) (t : PosixTimer), s.items[i]? = some t → t.id = id → t.deleted = false →
    t.owner ≠ owner) : timerFind s owner id = none := by
  unfold timerFind
  split_ifs with hid
  · rfl
  rw [findIdx?_eq_none_iff]
  intro t ht
  obtain ⟨i, hi⟩ := mem_iff_getElem?.1 ht
  rw [Bool.eq_false_iff]
  intro hfor
  simp only [PosixTimer.isFor, decide_eq_true_eq, Bool.not_eq_true'] at hfor
  exact h hid i t hi hfor.1 (by simpa using hfor.2.1) hfor.2.2

end Operations

/-! ### The invariant -/

/-- What an item may become where none is created. -/
def PosixTimer.Follows (t t' : PosixTimer) : Prop :=
  (t'.id = 0 ∨ t'.id = t.id ∧ t'.owner = t.owner ∧ (t.deleted = true → t'.deleted = true)) ∧ (t.Ok → t'.Ok)

structure Changed (s s' : PosixTimers) : Prop where
  length : s'.items.length = s.items.length
  capacity : s'.capacity = s.capacity
  sequence : s'.sequence = s.sequence
  items : ∀ (i : Nat) (t' : PosixTimer), s'.items[i]? = some t' → ∃ t, s.items[i]? = some t ∧ t.Follows t'

structure TimersInv (s : PosixTimers) : Prop where
  ok : ∀ t ∈ s.items, t.Ok
  room : s.items.length ≤ s.capacity
  capacity : s.capacity ≤ 2 * s.items.length + 8
  length : s.items.length ≤ s.sequence
  sequence : s.sequence < 2 ^ 32

structure TimerInv (w : TimerWorld) : Prop where
  timers : TimersInv w.timers
  made : ∀ p ∈ w.made, p.1 ≠ 0 ∧ p.1 ≤ w.timers.sequence
  gone : ∀ id ∈ w.gone, id ≤ w.timers.sequence
  once : (w.made.map Prod.fst).Nodup
  live : ∀ (i : Nat) (t : PosixTimer), w.timers.items[i]? = some t → t.id ≠ 0 →
    (t.id, t.owner) ∈ w.made ∧ (t.deleted = false → t.id ∉ w.gone)
  distinct : ∀ (i j : Nat) (t u : PosixTimer), w.timers.items[i]? = some t → w.timers.items[j]? = some u → t.id ≠ 0 →
    t.id = u.id → i = j

section Invariant
variable {s s' : PosixTimers} {t t' : PosixTimer} {w w' : TimerWorld} {owner id i : Nat} {e : TimerEvent}

theorem PosixTimer.Follows.refl : t.Follows t := ⟨.inr ⟨rfl, rfl, fun h => h⟩, fun h => h⟩

theorem PosixTimer.Follows.zero : t.Follows .zero := ⟨.inl rfl, fun _ => .zero⟩

theorem Changed.refl : Changed s s := ⟨rfl, rfl, rfl, fun _ t ht => ⟨t, ht, .refl⟩⟩

theorem Changed.set (ht : s.items[i]? = some t) (hf : t.Follows t') : Changed s { s with items := s.items.set i t' } := by
  refine ⟨length_set, rfl, rfl, fun j u hu => ?_⟩
  rw [getElem?_set] at hu
  split_ifs at hu with hij hlt
  · cases hu
    exact ⟨t, hij ▸ ht, hf⟩
  · exact ⟨u, hu, .refl⟩

theorem Changed.inv (hc : Changed s s') (h : TimersInv s) : TimersInv s' := by
  refine ⟨fun t ht => ?_, ?_, ?_, ?_, ?_⟩
  · obtain ⟨i, hi⟩ := mem_iff_getElem?.1 ht
    obtain ⟨u, hu, -, hok⟩ := hc.items i t hi
    exact hok (h.ok u (mem_of_getElem? hu))
  · rw [hc.length, hc.capacity]
    exact h.room
  · rw [hc.length, hc.capacity]
    exact h.capacity
  · rw [hc.length, hc.sequence]
    exact h.length
  · rw [hc.sequence]
    exact h.sequence

theorem Changed.world (hc : Changed w.timers s') (h : TimerInv w) : TimerInv { w with timers := s' } := by
  refine ⟨hc.inv h.timers, fun p hp => ?_, fun id hid => ?_, h.once, fun i t' ht' hid => ?_,
    fun i j t' u' ht' hu' hid heq => ?_⟩
  · rw [hc.sequence]
    exact h.made p hp
  · rw [hc.sequence]
    exact h.gone id hid
  · obtain ⟨t, ht, hzero | ⟨hsame, howner, hdeleted⟩, -⟩ := hc.items i t' ht'
    · exact absurd hzero hid
    obtain ⟨hmade, hgone⟩ := h.live i t ht (hsame ▸ hid)
    rw [hsame, howner]
    refine ⟨hmade, fun hlive => hgone ?_⟩
    rw [Bool.eq_false_iff] at hlive ⊢
    exact mt hdeleted hlive
  · obtain ⟨t, ht, hzero | ⟨hsame, -⟩, -⟩ := hc.items i t' ht'
    · exact absurd hzero hid
    obtain ⟨u, hu, hzero' | ⟨hsame', -⟩, -⟩ := hc.items j u' hu'
    · exact absurd (heq.trans hzero') hid
    exact h.distinct i j t u ht hu (hsame ▸ hid) (by rw [← hsame, heq, hsame'])

/-! ### Steps -/

theorem dropped_follows : t.Follows t.dropped := by
  unfold PosixTimer.dropped
  split_ifs
  · exact ⟨.inr ⟨rfl, rfl, fun _ => rfl⟩, fun h => ⟨h.due, h.interval, h.pending⟩⟩
  · exact .zero

theorem dropped_deleted : t.dropped.id = 0 ∨ t.dropped.deleted = true := by
  unfold PosixTimer.dropped
  split_ifs
  · exact .inr rfl
  · exact .inl rfl

theorem timerDelete_eq (h : timerFind s owner id = some i) : ∃ t, s.items[i]? = some t ∧ t.id = id ∧
    timerDelete s owner id = (.ok, { s with items := s.items.set i t.dropped }) := by
  obtain ⟨-, t, ht, hid, -⟩ := timerFind_some h
  refine ⟨t, ht, hid, ?_⟩
  have hmodify : s.items.modify i PosixTimer.dropped = s.items.set i t.dropped := by
    rw [modify_eq_set_getElem?, ht]
    rfl
  unfold timerDelete
  simp only [h, hmodify]

theorem timerSet_eq (h : timerFind s owner id = some i) (flags : UInt32) (spec : TimerSpec) (old : Bool)
    (clock : TimerClock) :
    if flags &&& 0xfffffffe ≠ 0 then timerSet s owner id flags spec old clock = .ok (.einval, (0, 0), s)
    else ∃ t t' before, s.items[i]? = some t ∧ Armed t t' flags spec clock ∧
      timerSet s owner id flags spec old clock = .ok (.ok, before, { s with items := s.items.set i t' }) := by
  obtain ⟨-, t, ht, -⟩ := timerFind_some h
  have hget : ∃ r, timerOld s owner id old clock = .ok r := by
    unfold timerOld timerGet
    split_ifs
    · rw [h, Option.bind_some, ht]
      dsimp only
      rw [left_eq]
      exact ⟨_, rfl⟩
    · exact ⟨_, rfl⟩
  obtain ⟨r, hr⟩ := hget
  obtain ⟨t', ht', harmed⟩ := arm_eq t flags spec clock
  split_ifs with hflags
  · unfold timerSet
    simp only [h, ht, if_pos hflags]
  · refine ⟨t, t', r.2, ht, harmed, ?_⟩
    unfold timerSet
    simp only [h, ht, if_neg hflags, hr, ht', Checked.bind_ok]
    rfl

/-- An event that creates no timer returns, and changes items one by one. -/
theorem step_changed (h : TimersInv s)
    (hne : ∀ owner clock notify signo value callback tid grown,
      e ≠ .create owner clock notify signo value callback tid grown) :
    ∃ s', s.step e = .ok s' ∧ Changed s s' := by
  have hat : ∀ (i : Nat) (f : PosixTimer → Checked PosixTimer), (∀ t ∈ s.items, ∃ t', f t = .ok t' ∧ t.Follows t') →
      ∃ s', s.at i f = .ok s' ∧ Changed s s' := by
    intro i f hf
    unfold PosixTimers.at
    cases ht : s.items[i]? with
    | none => exact ⟨s, rfl, .refl⟩
    | some t =>
      obtain ⟨t', ht', hfollows⟩ := hf t (mem_of_getElem? ht)
      exact ⟨_, by simp only [ht']; rfl, .set ht hfollows⟩
  cases e with
  | create owner clock notify signo value callback tid grown =>
    exact absurd rfl (hne owner clock notify signo value callback tid grown)
  | delete owner id =>
    cases hfind : timerFind s owner id with
    | none => exact ⟨s, by simp only [PosixTimers.step, timerDelete, hfind], .refl⟩
    | some i =>
      obtain ⟨t, ht, -, heq⟩ := timerDelete_eq hfind
      exact ⟨_, by simp only [PosixTimers.step, heq], .set ht dropped_follows⟩
  | set owner id flags spec old clock =>
    cases hfind : timerFind s owner id with
    | none => exact ⟨s, by simp only [PosixTimers.step, timerSet, hfind]; rfl, .refl⟩
    | some i =>
      have hset := timerSet_eq hfind flags spec old clock
      split_ifs at hset with hflags
      · exact ⟨s, by simp only [PosixTimers.step, hset]; rfl, .refl⟩
      · obtain ⟨t, t', before, ht, harmed, heq⟩ := hset
        refine ⟨_, by simp only [PosixTimers.step, heq]; rfl, .set ht ⟨.inr ?_, harmed.ok⟩⟩
        rw [harmed.same]
        exact ⟨rfl, rfl, fun hd => hd⟩
  | poll clock =>
    obtain ⟨items, heq, hlength, hget⟩ := pollItems_eq clock h.ok
    refine ⟨{ s with items }, by simp only [PosixTimers.step, timerPoll, heq]; rfl, hlength, rfl, rfl, fun i t' ht' => ?_⟩
    have hlt : i < s.items.length := by
      rw [← hlength]
      exact (List.getElem?_eq_some_iff.1 ht').1
    have hi := getElem?_eq_getElem hlt
    have hpolled := hget i _ hi
    rw [ht'] at hpolled
    cases hpolled
    exact ⟨_, hi, .inr ⟨rfl, rfl, fun hd => hd⟩, fun hok => hok.polled _⟩
  | take i =>
    refine hat i _ fun t _ => ?_
    obtain ⟨b, t', heq, -, hsame⟩ := take_eq t
    refine ⟨t', by simp only [heq]; rfl, .inr ?_, fun hok => ?_⟩ <;> rw [hsame]
    · exact ⟨rfl, rfl, fun hd => hd⟩
    · exact ⟨hok.due, hok.interval, Nat.zero_le _⟩
  | mark i targetTid notifiedTid value published =>
    exact hat i _ fun t _ => ⟨_, rfl, .inr ⟨rfl, rfl, fun hd => hd⟩, fun hok => ⟨hok.due, hok.interval, hok.pending⟩⟩
  | forget i =>
    refine hat i _ fun t _ => ⟨_, rfl, ?_⟩
    split_ifs
    · exact .zero
    · exact .refl

/-! ### Creation -/

theorem getElem?_timerPut {items : List PosixTimer} (hi : i ≤ items.length) (j : Nat) :
    (timerPut items i t)[j]? = if j = i then some t else items[j]? := by
  unfold timerPut
  split_ifs with hlast hj hj
  · rw [hj, hlast, getElem?_concat_length]
  · rcases Nat.lt_or_ge j items.length with hlt | hge
    · rw [getElem?_append_left hlt]
    · rw [getElem?_eq_none hge, getElem?_eq_none]
      rw [length_append, length_singleton]
      omega
  · rw [hj, getElem?_set_self (by omega)]
  · rw [getElem?_set_ne (Ne.symm hj)]

theorem length_timerPut {items : List PosixTimer} :
    (timerPut items i t).length = if i = items.length then items.length + 1 else items.length := by
  unfold timerPut
  split_ifs
  · rw [length_append, length_singleton]
  · exact length_set

theorem timerRoom_eq (h : TimersInv s) (hi : i ≤ s.items.length) (grown : Bool) : ∃ room, timerRoom s i grown = .ok room ∧
    ∀ capacity, room = some capacity →
      (if i = s.items.length then s.items.length + 1 else s.items.length) ≤ capacity ∧
      capacity ≤ 2 * (if i = s.items.length then s.items.length + 1 else s.items.length) + 8 := by
  have hroom := h.room
  have hcapacity := h.capacity
  unfold timerRoom
  by_cases hfull : i = s.capacity
  swap
  · rw [if_neg hfull]
    refine ⟨_, rfl, fun capacity heq => ?_⟩
    cases heq
    split_ifs <;> omega
  have hlast : i = s.items.length := by omega
  have hcap : ∃ cap, timerCapacity s.capacity = .ok cap ∧ s.capacity < cap ∧ cap ≤ 2 * s.capacity + 8 := by
    unfold timerCapacity
    split_ifs with hzero
    · have hlength := h.length
      have hsequence := h.sequence
      rw [mul64_eq (by unfold uint64Max; omega)]
      exact ⟨_, rfl, by omega, by omega⟩
    · exact ⟨8, rfl, by omega, by omega⟩
  obtain ⟨cap, heq, hlt, hle⟩ := hcap
  rw [if_pos hfull, heq, Checked.bind_ok, if_pos hlast]
  refine ⟨_, rfl, fun capacity hsome => ?_⟩
  split_ifs at hsome
  cases hsome
  omega

structure Created (s s' : PosixTimers) (i : Nat) (t : PosixTimer) : Prop where
  sequence : s'.sequence = s.sequence + 1
  inv : TimersInv s'
  free : ∀ u, s.items[i]? = some u → u.id = 0
  items : ∀ j, s'.items[j]? = if j = i then some t else s.items[j]?

theorem timerCreate_eq (h : TimersInv s) (owner : Nat) (clock notify signo : Int) (value callback tid : Nat)
    (grown : Bool) :
    ∃ status id s', timerCreate s owner clock notify signo value callback tid grown = .ok (status, id, s') ∧
      (status ≠ .ok → s' = s) ∧
      (status = .ok → ∃ i t, id = s.sequence + 1 ∧ t.id = id ∧ t.owner = owner ∧ Created s s' i t) := by
  unfold timerCreate
  split_ifs with hvalid hsequence
  · exact ⟨_, _, s, rfl, fun _ => rfl, nofun⟩
  · exact ⟨_, _, s, rfl, fun _ => rfl, nofun⟩
  have hi : s.items.findIdx (fun t => decide (t.id = 0)) ≤ s.items.length := findIdx_le_length
  obtain ⟨room, hroom, hcapacity⟩ := timerRoom_eq h hi grown
  dsimp only
  rw [hroom, Checked.bind_ok]
  cases room with
  | none => exact ⟨_, _, s, rfl, fun _ => rfl, nofun⟩
  | some capacity =>
    refine ⟨_, _, _, rfl, fun hne => absurd rfl hne, fun _ => ⟨_, _, rfl, rfl, rfl, rfl, ⟨fun t ht => ?_, ?_, ?_, ?_, ?_⟩,
      fun u hu => ?_, getElem?_timerPut hi⟩⟩
    · obtain ⟨j, hj⟩ := mem_iff_getElem?.1 ht
      rw [getElem?_timerPut hi] at hj
      split_ifs at hj
      · cases hj
        exact ⟨Nat.zero_le _, Nat.zero_le _, Nat.zero_le _⟩
      · exact h.ok t (mem_of_getElem? hj)
    · rw [length_timerPut]
      exact (hcapacity capacity rfl).1
    · rw [length_timerPut]
      exact (hcapacity capacity rfl).2
    · rw [length_timerPut]
      have := h.length
      dsimp only
      split_ifs <;> omega
    · have := h.sequence
      dsimp only
      omega
    · obtain ⟨hlt, rfl⟩ := List.getElem?_eq_some_iff.1 hu
      simpa using findIdx_getElem (w := hlt)

/-! ### Runs -/

theorem TimerInv.create {t : PosixTimer} (h : TimerInv w) (hid : t.id = w.timers.sequence + 1)
    (hc : Created w.timers s' i t) : TimerInv { w with timers := s', made := w.made ++ [(t.id, t.owner)] } := by
  have hseq := hc.sequence
  have hnew : t.id ∉ w.made.map Prod.fst := by
    intro hmem
    obtain ⟨p, hp, heq⟩ := List.mem_map.1 hmem
    have := (h.made p hp).2
    omega
  have hold : ∀ (j : Nat) (u : PosixTimer), w.timers.items[j]? = some u → u.id ≠ 0 → u.id ≠ t.id := by
    intro j u hu hne heq
    exact hnew (heq ▸ List.mem_map.2 ⟨_, (h.live j u hu hne).1, rfl⟩)
  refine ⟨hc.inv, fun p hp => ?_, fun id hgone => ?_, ?_, fun j u hu hne => ?_, fun j k u v hu hv hne heq => ?_⟩
  · rcases mem_append.1 hp with hp | hp
    · exact ⟨(h.made p hp).1, ((h.made p hp).2.trans (Nat.le_succ _)).trans hseq.ge⟩
    · rw [mem_singleton.1 hp]
      exact ⟨by dsimp only; omega, by dsimp only; omega⟩
  · exact ((h.gone id hgone).trans (Nat.le_succ _)).trans hseq.ge
  · rw [map_append]
    exact nodup_append.2 ⟨h.once, nodup_singleton _, fun a ha b hb heq =>
      hnew (by rwa [heq, mem_singleton.1 hb] at ha)⟩
  · rw [hc.items] at hu
    split_ifs at hu
    · cases hu
      refine ⟨mem_append_right _ (mem_singleton_self _), fun _ hgone => ?_⟩
      have := h.gone _ hgone
      omega
    · obtain ⟨hmade, hgone⟩ := h.live j u hu hne
      exact ⟨mem_append_left _ hmade, hgone⟩
  · rw [hc.items] at hu hv
    split_ifs at hu hv with hj hk hk
    · exact hj.trans hk.symm
    · cases hu
      exact absurd heq.symm (hold k v hv fun hzero => hne (heq.trans hzero))
    · cases hv
      exact absurd heq (hold j u hu hne)
    · exact h.distinct j k u v hu hv hne heq

theorem TimerInv.delete (h : TimerInv w) (ht : w.timers.items[i]? = some t) (hid : t.id = id) (hfind : id ≠ 0) :
    TimerInv { w with timers := { w.timers with items := w.timers.items.set i t.dropped }, gone := w.gone ++ [id] } := by
  have hworld := (Changed.set ht dropped_follows).world h
  refine ⟨hworld.timers, hworld.made, fun id' hid' => ?_, hworld.once, fun j u hu hne => ?_, hworld.distinct⟩
  · rcases mem_append.1 hid' with hid' | hid'
    · exact hworld.gone id' hid'
    · rw [mem_singleton.1 hid', ← hid]
      exact (h.made _ (h.live i t ht (hid ▸ hfind)).1).2
  · obtain ⟨hmade, hgone⟩ := hworld.live j u hu hne
    refine ⟨hmade, fun hlive hmem => ?_⟩
    rcases mem_append.1 hmem with hmem | hmem
    · exact hgone hlive hmem
    dsimp only at hu
    rw [getElem?_set] at hu
    split_ifs at hu with hij hlt
    · cases hu
      rcases dropped_deleted (t := t) with hzero | hdeleted
      · exact hne hzero
      · cases hlive.symm.trans hdeleted
    · exact hij (h.distinct i j t u ht hu (hid ▸ hfind) (hid.trans (mem_singleton.1 hmem).symm))

/-- Every event returns, so nothing wraps, and keeps the invariant. -/
theorem TimerInv.step (h : TimerInv w) (e : TimerEvent) : ∃ w', w.step e = .ok w' ∧ TimerInv w' := by
  cases e with
  | create owner clock notify signo value callback tid grown =>
    obtain ⟨status, id, s', heq, hfail, hok⟩ := timerCreate_eq h.timers owner clock notify signo value callback tid grown
    refine ⟨_, by simp only [TimerWorld.step, heq]; rfl, ?_⟩
    split_ifs with hstatus
    · obtain ⟨i, t, rfl, hid, rfl, hc⟩ := hok hstatus
      rw [← hid]
      exact h.create hid hc
    · rw [hfail hstatus]
      exact h
  | delete owner id =>
    cases hfind : timerFind w.timers owner id with
    | none => exact ⟨w, by simp only [TimerWorld.step, timerDelete, hfind]; rfl, h⟩
    | some i =>
      obtain ⟨t, ht, hid, heq⟩ := timerDelete_eq hfind
      exact ⟨_, by simp only [TimerWorld.step, heq]; rfl, h.delete ht hid (timerFind_some hfind).1⟩
  | set owner id flags spec old clock =>
    obtain ⟨s', heq, hc⟩ := step_changed (e := .set owner id flags spec old clock) h.timers nofun
    exact ⟨_, by simp only [TimerWorld.step, heq]; rfl, hc.world h⟩
  | poll clock =>
    obtain ⟨s', heq, hc⟩ := step_changed (e := .poll clock) h.timers nofun
    exact ⟨_, by simp only [TimerWorld.step, heq]; rfl, hc.world h⟩
  | take i =>
    obtain ⟨s', heq, hc⟩ := step_changed (e := .take i) h.timers nofun
    exact ⟨_, by simp only [TimerWorld.step, heq]; rfl, hc.world h⟩
  | mark i targetTid notifiedTid value published =>
    obtain ⟨s', heq, hc⟩ := step_changed (e := .mark i targetTid notifiedTid value published) h.timers nofun
    exact ⟨_, by simp only [TimerWorld.step, heq]; rfl, hc.world h⟩
  | forget i =>
    obtain ⟨s', heq, hc⟩ := step_changed (e := .forget i) h.timers nofun
    exact ⟨_, by simp only [TimerWorld.step, heq]; rfl, hc.world h⟩

theorem TimerReach.inv (h : TimerReach w) : TimerInv w := by
  induction h with
  | start =>
    have htimers : TimersInv ⟨[], 0, 0⟩ := ⟨nofun, Nat.le_refl 0, Nat.zero_le _, Nat.le_refl 0, Nat.two_pow_pos 32⟩
    exact ⟨htimers, nofun, nofun, .nil, nofun, fun _ _ _ _ h => nomatch h⟩
  | step _ hstep ih =>
    obtain ⟨w', heq, hinv⟩ := ih.step _
    cases heq.symm.trans hstep
    exact hinv

end Invariant

end Lunaria.Os
