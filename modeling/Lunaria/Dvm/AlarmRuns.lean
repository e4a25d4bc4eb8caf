import Mathlib.Data.List.Lemmas
import Lunaria.Dvm.AlarmPoll

/-! Runs of the alarm service. -/

namespace Lunaria.Dvm
open Function Periodic List

/-- What holds of the alarms at all times. -/
structure AlarmInv (vm : AlarmVm) : Prop where
  ok : ∀ a ∈ vm.alarms, a.Ok
  apart : vm.alarms.Pairwise Alarm.Apart
  length : vm.alarms.length ≤ 500

section Calls
variable {vm vm' : AlarmVm} {a b : Alarm} {e : AlarmEvent} {call : AlarmCall} {t listener wall elapsed : Nat}

theorem AlarmInv.sublist (h : AlarmInv vm) (hs : vm'.alarms.Sublist vm.alarms) : AlarmInv vm' :=
  ⟨fun a ha => h.ok a (hs.subset ha), h.apart.sublist hs, hs.length_le.trans h.length⟩

theorem mem_alarmRemove {l : List Alarm} :
    a ∈ alarmRemove l t listener ↔ a ∈ l ∧ ¬(t ≠ 0 ∧ a.token = t ∨ listener ≠ 0 ∧ a.listener = listener) := by
  unfold alarmRemove
  rw [mem_filter, decide_eq_true_iff]

theorem alarmRemove_sublist {l : List Alarm} : (alarmRemove l t listener).Sublist l := filter_sublist

theorem alarmPollAt_eq (made : Alarm → Bool) (h : AlarmInv vm) (hwall : wall ≤ alarmMax) (helapsed : elapsed ≤ alarmMax) :
    ∃ vm',
    alarmPollAt vm true wall elapsed made = .ok vm' ∧ Polled vm vm' wall elapsed made [] vm.alarms ∧ AlarmInv vm' := by
  obtain ⟨vm', hloop, hpolled⟩ : ∃ vm', alarmPollLoop wall elapsed made 500 vm = .ok vm' ∧
      Polled vm vm' wall elapsed made [] vm.alarms :=
    alarmPollLoop_eq hwall helapsed (nil_append _).symm nofun h.length h.ok h.apart
  refine ⟨vm', hloop, hpolled, fun b hb => ?_, ?_, ?_⟩
  · rw [hpolled.alarms, nil_append, mem_filterMap] at hb
    obtain ⟨a, ha, hb⟩ := hb
    exact (keeps_some (h.ok a ha) hb).2.1
  · rw [hpolled.alarms, nil_append, pairwise_filterMap]
    refine h.apart.imp_of_mem fun {a a'} ha ha' hapart b hb b' hb' => ?_
    obtain ⟨-, -, ht, hl, -⟩ := keeps_some (h.ok a ha) hb
    obtain ⟨-, -, ht', hl', -⟩ := keeps_some (h.ok a' ha') hb'
    unfold Alarm.Apart
    rw [ht, hl, ht', hl']
    exact hapart
  · rw [hpolled.alarms, nil_append]
    exact (length_filterMap_le _ _).trans h.length

theorem record_ok (env : AlarmEnv) (hallowed : call.direct = true → call.method.direct = true)
    (htoken : call.direct = false → call.operation.getD 0 ≠ 0) :
    ∃ a, call.record env = .ok a ∧ a.Ok ∧ a.token = if call.direct then 0 else call.operation.getD 0 := by
  have hwall := env.realtimeNs.toNat_lt
  have helapsed := env.boottimeNs.toNat_lt
  have hfuturity : (if env.uid < 10000 then 0 else 5000) ≤ 5000 := by split <;> omega
  have hinterval : call.interval ≤ 31536000000 ∧ (0 < call.interval → 60000 ≤ call.interval) ∧
      (0 < call.interval → call.method = .setRepeating ∨ call.method = .setInexactRepeating) := by
    unfold AlarmCall.interval
    dsimp only
    refine ⟨?_, ?_, fun hpos => ?_⟩
    · split_ifs <;> omega
    · split_ifs <;> omega
    · by_contra hmethod
      rw [if_neg hmethod] at hpos
      cases hpos
  unfold AlarmCall.record
  dsimp only
  have hclock :
      (if call.type < 2 then env.realtimeNs.toNat / 1000000 else env.boottimeNs.toNat / 1000000) ≤ 2 ^ 64 / 1000000 := by
    split <;> omega
  have hmax : alarmMax = 2 ^ 63 - 1 := rfl
  rw [Checked.plus_eq (by omega), Checked.bind_ok, Checked.plus_eq (by omega), Checked.bind_ok]
  refine ⟨_, rfl, ⟨?_, hinterval.1, hinterval.2.1, fun hpos => ?_, fun htype => ?_, fun ht => ?_⟩, rfl⟩
  · have htrigger := call.trigger.toInt_lt
    dsimp only
    split_ifs <;> omega
  · have hdirect : call.direct = false := by
      rw [Bool.eq_false_iff]
      intro hd
      have hm := hallowed hd
      rcases hinterval.2.2 hpos with h | h <;> rw [h] at hm <;> cases hm
    dsimp only
    rw [hdirect]
    exact htoken hdirect
  · dsimp only at htype ⊢
    rw [if_neg (Int.not_lt.2 htype)]
    split_ifs <;> omega
  · dsimp only at ht ⊢
    cases hdirect : call.direct with
    | false => rfl
    | true => simp [hdirect] at ht

/-- A record takes the place of those for the same object. -/
theorem AlarmInv.replace (h : AlarmInv vm) (ha : a.Ok)
    (hroom : vm.alarms.length < 500 ∨ ∃ b ∈ vm.alarms, a.token ≠ 0 ∧ b.token = a.token ∨ a.listener ≠ 0 ∧
      b.listener = a.listener) :
    AlarmInv { vm with alarms := a :: alarmRemove vm.alarms a.token a.listener } := by
  refine ⟨forall_mem_cons.2 ⟨ha, fun b hb => h.ok b (alarmRemove_sublist.subset hb)⟩,
    pairwise_cons.2 ⟨fun b hb => ?_, h.apart.sublist alarmRemove_sublist⟩, ?_⟩
  · obtain ⟨-, hb⟩ := mem_alarmRemove.1 hb
    exact ⟨fun ht heq => hb (.inl ⟨ht, heq.symm⟩), fun hl heq => hb (.inr ⟨hl, heq.symm⟩)⟩
  · have hlt : (alarmRemove vm.alarms a.token a.listener).length < 500 := by
      rcases hroom with hroom | ⟨b, hb, hsame⟩
      · exact alarmRemove_sublist.length_le.trans_lt hroom
      · refine Nat.lt_of_lt_of_le (Nat.lt_of_le_of_ne alarmRemove_sublist.length_le fun heq => ?_) h.length
        have hall := alarmRemove_sublist.eq_of_length heq
        rw [← hall] at hb
        exact (mem_alarmRemove.1 hb).2 hsame
    exact hlt

theorem alarmSet_eq (env : AlarmEnv) (h : AlarmInv vm) (hallowed : call.direct = true → call.method.direct = true) :
    ∃ result vm', alarmSet vm call env = .ok (result, vm') ∧ AlarmInv vm' ∧
      (vm' = vm ∨ ∃ a, a.token = (if call.direct then 0 else call.operation.getD 0) ∧
        vm' = { vm with alarms := a :: alarmRemove vm.alarms a.token a.listener }) := by
  unfold alarmSet
  by_cases h1 : (if call.direct then call.listener = 0 else call.operation = none)
  · exact ⟨_, vm, if_pos h1, h, .inl rfl⟩
  rw [if_neg h1]
  by_cases h2 : call.exact env ∧ !alarmCanExact env
  · exact ⟨_, vm, if_pos h2, h, .inl rfl⟩
  rw [if_neg h2]
  by_cases h3 : call.type < 0 ∨ 3 < call.type
  · exact ⟨_, vm, if_pos h3, h, .inl rfl⟩
  rw [if_neg h3]
  by_cases h4 : !call.direct ∧ (call.operation.getD 0 = 0 ∨ vm.cancelled (call.operation.getD 0))
  · exact ⟨_, vm, if_pos h4, h, .inl rfl⟩
  rw [if_neg h4]
  have htoken : call.direct = false → call.operation.getD 0 ≠ 0 := fun hd hz => h4 ⟨by rw [hd]; rfl, .inl hz⟩
  obtain ⟨a, hrecord, ha, htok⟩ := record_ok env hallowed htoken
  rw [hrecord, Checked.bind_ok]
  dsimp only
  by_cases h5 : 500 ≤ vm.alarms.length ∧
      !(vm.alarms.any fun b => decide (a.token ≠ 0 ∧ b.token = a.token ∨ a.listener ≠ 0 ∧ b.listener = a.listener))
  · exact ⟨_, vm, if_pos h5, h, .inl rfl⟩
  rw [if_neg h5]
  by_cases h6 : !env.alloc
  · exact ⟨_, vm, if_pos h6, h, .inl rfl⟩
  rw [if_neg h6]
  refine ⟨_, _, rfl, h.replace ha ?_, .inr ⟨a, htok, rfl⟩⟩
  rcases Nat.lt_or_ge vm.alarms.length 500 with hlt | hge
  · exact .inl hlt
  · right
    have hany : (vm.alarms.any fun b =>
        decide (a.token ≠ 0 ∧ b.token = a.token ∨ a.listener ≠ 0 ∧ b.listener = a.listener)) = true := by
      by_contra hno
      exact h5 ⟨hge, by rw [Bool.eq_false_iff.2 hno]; rfl⟩
    obtain ⟨b, hb, hsame⟩ := List.any_eq_true.1 hany
    exact ⟨b, hb, of_decide_eq_true hsame⟩

theorem AlarmInv.step (h : AlarmInv vm) (hallowed : e.Allowed vm) : ∃ vm', vm.step e = .ok vm' ∧ AlarmInv vm' := by
  cases e with
  | set call env =>
    obtain ⟨result, vm', hset, hinv, -⟩ := alarmSet_eq env h hallowed
    refine ⟨vm', ?_, hinv⟩
    rw [AlarmVm.step, hset]
    rfl
  | cancel direct operation listener targetSdk =>
    refine ⟨_, rfl, ?_⟩
    unfold alarmCancel
    by_cases hnone : (if direct then listener = 0 else operation = none)
    · rw [if_pos hnone]
      exact h
    · rw [if_neg hnone]
      exact h.sublist alarmRemove_sublist
  | cancelToken token =>
    refine ⟨_, rfl, ?_⟩
    unfold pendingCancelToken
    split
    · exact h.sublist alarmRemove_sublist
    · exact h
  | issue token flags => exact ⟨_, rfl, h.sublist (List.Sublist.refl _)⟩
  | poll ready wall elapsed made =>
    cases ready with
    | false => exact ⟨vm, rfl, h⟩
    | true =>
      obtain ⟨vm', hpoll, -, hinv⟩ := alarmPollAt_eq made h hallowed.1 hallowed.2
      exact ⟨vm', hpoll, hinv⟩

theorem AlarmReach.inv (h : AlarmReach vm) : AlarmInv vm := by
  induction h with
  | start => exact ⟨nofun, .nil, Nat.zero_le _⟩
  | step _ hallowed hstep ih =>
    obtain ⟨vm', hstep', hinv⟩ := ih.step hallowed
    exact Checked.ok.inj (hstep'.symm.trans hstep) ▸ hinv

end Calls

/-! ### A repeated alarm -/

def AlarmVm.total (vm : AlarmVm) (t : Nat) : Nat := ((vm.delivered.filter fun d => d.1.token = t).map Prod.snd).sum

/-- Events that are not about a token. Here a poll is one that finds the machine busy. -/
def AlarmEvent.Spares (t : Nat) : AlarmEvent → Prop
  | set call _ => call.direct = true ∨ call.operation.getD 0 ≠ t
  | cancel direct operation _ _ => direct = true ∨ operation.getD 0 ≠ t
  | cancelToken token => token ≠ t
  | issue token _ => token ≠ t
  | poll ready _ _ _ => ready = false

/-- A run of polls where the clock of a record does not go back and no count is over `INT_MAX`, with the clocks of the last. -/
inductive AlarmRun (a : Alarm) (vm₀ : AlarmVm) : AlarmVm → Option (Nat × Nat) → Prop
  | refl : AlarmRun a vm₀ vm₀ none
  | other {vm vm' : AlarmVm} {e : AlarmEvent} {last : Option (Nat × Nat)} :
      AlarmRun a vm₀ vm last → e.Allowed vm → e.Spares a.token → vm.step e = .ok vm' → AlarmRun a vm₀ vm' last
  | poll {vm vm' : AlarmVm} {wall elapsed : Nat} {made : Alarm → Bool} {last : Option (Nat × Nat)} :
      AlarmRun a vm₀ vm last → (AlarmEvent.poll true wall elapsed made).Allowed vm →
        (∀ l ∈ last, l.1 ≤ a.clock wall elapsed) →
      a.clock wall elapsed < alarmMax → (∀ b ∈ vm.alarms, b.token = a.token →
        passed b.when b.interval (b.clock wall elapsed) ≤ countMax) →
      vm.step (.poll true wall elapsed made) = .ok vm' → AlarmRun a vm₀ vm' (some (a.clock wall elapsed, elapsed))

/-- The instants of a record that had passed at the last poll. -/
def Alarm.instants (a : Alarm) : Option (Nat × Nat) → Nat
  | none => 0
  | some (now, _) => passed a.when a.interval now

/-- The record of an operation after some of its instants were counted. -/
structure Counted (vm₀ vm : AlarmVm) (a b : Alarm) (n : Nat) (last : Option (Nat × Nat)) : Prop where
  inv : AlarmInv vm
  mem : b ∈ vm.alarms
  token : b.token = a.token
  type : b.type = a.type
  interval : b.interval = a.interval
  live : vm.cancelled a.token = false
  flags : vm.flags a.token = vm₀.flags a.token
  when : b.when = min (a.when + n * a.interval) alarmMax
  minElapsed : b.minElapsed = 0 ∨ b.minElapsed = a.minElapsed
  total : vm.total a.token = vm₀.total a.token + n
  le : n ≤ a.instants last
  all : ∀ l ∈ last, (a.type < 2 → a.minElapsed ≤ l.2) → n = a.instants last

section Repeated
variable {vm₀ vm vm' : AlarmVm} {a b : Alarm} {e : AlarmEvent} {n wall elapsed : Nat} {made : Alarm → Bool}
    {last : Option (Nat × Nat)}

theorem filter_token {l : List Alarm} (hapart : l.Pairwise Alarm.Apart) (hb : b ∈ l) (ht : b.token ≠ 0) :
    l.filter (fun c => c.token = b.token) = [b] := by
  induction l with
  | nil => cases hb
  | cons c l ih =>
    obtain ⟨hc, hl⟩ := pairwise_cons.1 hapart
    rcases mem_cons.1 hb with rfl | hb
    · rw [filter_cons_of_pos (by simp), filter_eq_nil_iff.2 fun d hd => ?_]
      simpa using ((hc d hd).1 ht).symm
    · rw [filter_cons_of_neg (by simpa using ((hc b hb).symm.1 ht).symm), ih hl hb]

theorem total_poll (h : AlarmInv vm) (hb : b ∈ vm.alarms) (ht : b.token ≠ 0)
    (hpolled : Polled vm vm' wall elapsed made [] vm.alarms) :
    vm'.total b.token = vm.total b.token + if vm.fires wall elapsed b then (b.entry wall elapsed).2 else 0 := by
  have hcomp : ((fun d : Alarm × Nat => decide (d.1.token = b.token)) ∘ Alarm.entry wall elapsed) = fun c =>
    decide (c.token = b.token) := rfl
  unfold AlarmVm.total
  rw [hpolled.delivered, filter_append, map_append, sum_append, filter_map, hcomp, filter_comm,
    filter_token h.apart hb ht]
  split_ifs with hfires <;> simp [hfires]

theorem mem_keep (hb : b ∈ vm.alarms) {t listener : Nat} (hne : t ≠ b.token) (hl : b.listener = 0) :
    b ∈ alarmRemove vm.alarms t listener :=
  mem_alarmRemove.2 ⟨hb, fun h => h.elim (fun h => hne h.2.symm) fun h => h.1 (h.2.symm.trans hl)⟩

/-- Other events leave the record and its counts as they are. -/
theorem spares_keep (h : AlarmInv vm) (hallowed : e.Allowed vm) (hspares : e.Spares b.token) (hstep : vm.step e = .ok vm')
    (hb : b ∈ vm.alarms) (ht : b.token ≠ 0) :
    b ∈ vm'.alarms ∧ vm'.cancelled b.token = vm.cancelled b.token ∧ vm'.flags b.token = vm.flags b.token ∧
      vm'.delivered = vm.delivered := by
  have hl := (h.ok b hb).operation ht
  cases e with
  | set call env =>
    obtain ⟨result, vm₁, hset, -, hvm⟩ := alarmSet_eq env h hallowed
    rw [AlarmVm.step, hset] at hstep
    cases hstep
    rcases hvm with rfl | ⟨x, hx, rfl⟩
    · exact ⟨hb, rfl, rfl, rfl⟩
    · refine ⟨mem_cons_of_mem _ (mem_keep hb ?_ hl), rfl, rfl, rfl⟩
      rw [hx]
      split_ifs with hd
      · exact ht.symm
      · exact hspares.resolve_left hd
  | cancel direct operation listener targetSdk =>
    cases hstep
    unfold alarmCancel
    by_cases hnone : (if direct then listener = 0 else operation = none)
    · rw [if_pos hnone]
      exact ⟨hb, rfl, rfl, rfl⟩
    · rw [if_neg hnone]
      refine ⟨mem_keep hb ?_ hl, rfl, rfl, rfl⟩
      split_ifs with hd
      · exact ht.symm
      · exact hspares.resolve_left hd
  | cancelToken token =>
    cases hstep
    have hne : token ≠ b.token := hspares
    unfold pendingCancelToken
    split_ifs
    · exact ⟨mem_keep hb hne hl, update_of_ne hne.symm _ _, rfl, rfl⟩
    · exact ⟨hb, rfl, rfl, rfl⟩
  | issue token flags =>
    cases hstep
    have hne : token ≠ b.token := hspares
    exact ⟨hb, update_of_ne hne.symm _ _, update_of_ne hne.symm _ _, rfl⟩
  | poll ready wall elapsed made =>
    obtain rfl : ready = false := hspares
    cases hstep
    exact ⟨hb, rfl, rfl, rfl⟩

theorem Counted.other (h : Counted vm₀ vm a b n last) (ht : a.token ≠ 0) (hallowed : e.Allowed vm)
    (hspares : e.Spares a.token) (hstep : vm.step e = .ok vm') : Counted vm₀ vm' a b n last := by
  obtain ⟨vm₁, hstep', hinv⟩ := h.inv.step hallowed
  cases hstep'.symm.trans hstep
  have htoken := h.token
  rw [← htoken] at hspares
  obtain ⟨hmem, hcancelled, hflags, hdelivered⟩ := spares_keep h.inv hallowed hspares hstep h.mem (htoken ▸ ht)
  rw [htoken] at hcancelled hflags
  refine { h with inv := hinv, mem := hmem, live := hcancelled.trans h.live, flags := hflags.trans h.flags, total := ?_ }
  rw [← h.total]
  unfold AlarmVm.total
  rw [hdelivered]

/-- A poll counts all instants that have passed. -/
theorem Counted.poll (h : Counted vm₀ vm a b n last) (ht : a.token ≠ 0) (hp : 0 < a.interval)
    (hflags : vm₀.flags a.token &&& 0x40000000 = 0)
    (hallowed : (AlarmEvent.poll true wall elapsed made).Allowed vm) (hclock : ∀ l ∈ last, l.1 ≤ a.clock wall elapsed)
    (hmax : a.clock wall elapsed < alarmMax)
    (hcount : ∀ b ∈ vm.alarms, b.token = a.token → passed b.when b.interval (b.clock wall elapsed) ≤ countMax)
    (hstep : vm.step (.poll true wall elapsed made) = .ok vm') :
    ∃ b' n', Counted vm₀ vm' a b' n' (some (a.clock wall elapsed, elapsed)) := by
  obtain ⟨vm₁, hpoll, hpolled, hinv⟩ := alarmPollAt_eq made h.inv hallowed.1 hallowed.2
  obtain rfl := Checked.ok.inj (hpoll.symm.trans hstep)
  have hb := h.inv.ok b h.mem
  have htb : b.token ≠ 0 := h.token.symm ▸ ht
  have hsame : b.clock wall elapsed = a.clock wall elapsed := by
    unfold Alarm.clock
    rw [h.type]
  have hn : n ≤ passed a.when a.interval (a.clock wall elapsed) := by
    refine h.le.trans ?_
    cases last with
    | none => exact Nat.zero_le _
    | some l => exact passed_mono (hclock l rfl)
  have hlive : vm.live b = true := live_iff.2 fun hc => by
    have hl := h.live
    rw [← h.token, hc.2] at hl
    cases hl
  have honce : vm.once made b = false := by
    have : vm.flags b.token &&& 0x40000000 = 0 := by rw [h.token, h.flags, hflags]
    simp [AlarmVm.once, this]
  have htotal := total_poll h.inv h.mem htb hpolled
  rw [h.token, h.total] at htotal
  have hkept : ∀ b', vm.keeps wall elapsed made b = some b' → b' ∈ vm₁.alarms := fun b' hb' => by
    rw [hpolled.alarms, nil_append]
    exact mem_filterMap.2 ⟨b, h.mem, hb'⟩
  have hcancelled : ∀ b' ∈ vm₁.alarms, b'.token = a.token → vm₁.cancelled a.token = false := fun b' hb' htoken => by
    have hl := live_iff.1 (hpolled.live b' hb')
    rw [htoken] at hl
    exact Bool.eq_false_iff.2 fun hc => hl ⟨ht, hc⟩
  have hflag : vm₁.flags a.token = vm₀.flags a.token := by rw [hpolled.flags, h.flags]
  by_cases hdue : b.isDue wall elapsed = true
  · -- its instants are counted, and the record moves behind them
    have hwhen := (isDue_iff.1 hdue).1
    rw [hsame, h.when] at hwhen
    have hexact : b.when = a.when + n * a.interval := by
      rw [h.when]
      omega
    have hsum : n + passed b.when b.interval (b.clock wall elapsed) = passed a.when a.interval (a.clock wall elapsed) := by
      rw [hexact, h.interval, hsame]
      exact passed_add hp hn
    have hmoved : vm.keeps wall elapsed made b = some { b with
        when := min (a.when + passed a.when a.interval (a.clock wall elapsed) * a.interval) alarmMax
        minElapsed := 0 } := by
      have hwhen' : b.when + passed b.when b.interval (b.clock wall elapsed) * b.interval =
          a.when + passed a.when a.interval (a.clock wall elapsed) * a.interval := by
        rw [← hsum, hexact, h.interval, Nat.add_mul, Nat.add_assoc]
      unfold AlarmVm.keeps Alarm.moved
      rw [if_pos hlive, if_pos hdue, honce, if_neg (by decide), if_pos ⟨h.interval.symm ▸ hp, hsame.symm ▸ hmax⟩, hwhen']
    have hmem := hkept _ hmoved
    refine ⟨_, _, hinv, hmem, h.token, h.type, h.interval, hcancelled _ hmem h.token, hflag, rfl, .inl rfl, ?_, le_rfl,
      fun l hl _ => rfl⟩
    have hfires : vm.fires wall elapsed b = true := by simp [AlarmVm.fires, hlive, hdue]
    have hle := Nat.not_lt.2 (hcount b h.mem h.token)
    rw [htotal, if_pos hfires, Alarm.entry, if_neg hle, Nat.add_assoc, hsum]
  · -- no instant has passed that was not counted, unless the record waits
    have hkeep : vm.keeps wall elapsed made b = some b := by
      unfold AlarmVm.keeps
      rw [if_pos hlive, if_neg hdue]
    have hmem := hkept b hkeep
    refine ⟨b, n,
      { h with inv := hinv, mem := hmem, live := hcancelled b hmem h.token, flags := hflag, total := ?_, le := hn, all := ?_ }⟩
    · rw [htotal, if_neg (by simp [AlarmVm.fires, hdue])]
      rfl
    · intro l hl hearly
      cases hl
      refine Nat.le_antisymm hn ((passed_le_iff hp).2 ?_)
      have hnot : ¬(b.when ≤ a.clock wall elapsed ∧ b.minElapsed ≤ elapsed) :=
        fun hboth => hdue (isDue_iff.2 (hsame.symm ▸ hboth))
      have hwhen := h.when
      by_contra hpassed
      refine hnot ⟨by omega, ?_⟩
      rcases h.minElapsed with hzero | hsame'
      · rw [hzero]
        exact Nat.zero_le _
      · rcases Int.lt_or_le a.type 2 with htype | htype
        · exact hsame'.trans_le (hearly htype)
        · have hearly' := hb.early (h.type.symm ▸ htype)
          have hclock : a.clock wall elapsed = elapsed := if_neg (Int.not_lt.2 htype)
          omega

theorem AlarmRun.counted (hrun : AlarmRun a vm₀ vm last) (hinv : AlarmInv vm₀) (ha : a ∈ vm₀.alarms) (ht : a.token ≠ 0)
    (hp : 0 < a.interval) (hlive : vm₀.cancelled a.token = false) (hflags : vm₀.flags a.token &&& 0x40000000 = 0) :
    ∃ b n, Counted vm₀ vm a b n last := by
  induction hrun with
  | refl =>
    refine ⟨a, 0, hinv, ha, rfl, rfl, rfl, hlive, rfl, ?_, .inr rfl, rfl, Nat.zero_le _, nofun⟩
    rw [Nat.zero_mul, Nat.add_zero, Nat.min_eq_left (hinv.ok a ha).when]
  | other _ hallowed hspares hstep ih =>
    obtain ⟨b, n, h⟩ := ih
    exact ⟨b, n, h.other ht hallowed hspares hstep⟩
  | poll _ hallowed hclock hmax hcount hstep ih =>
    obtain ⟨b, n, h⟩ := ih
    exact h.poll ht hp hflags hallowed hclock hmax hcount hstep

end Repeated

/-! ### A poll -/

/-- What a poll does to the records. -/
structure AlarmsPolled (vm vm' : AlarmVm) (wall elapsed : Nat) (made : Alarm → Bool) : Prop where
  delivered : vm'.delivered = vm.delivered ++ (vm.alarms.filter (vm.fires wall elapsed)).map (Alarm.entry wall elapsed)
  quiet : ∀ b ∈ vm'.alarms, vm'.live b = true ∧ b.isDue wall elapsed = false
  stays : ∀ a ∈ vm.alarms, vm.live a = true → a.isDue wall elapsed = false → a ∈ vm'.alarms
  gone : ∀ a ∈ vm.alarms, vm.fires wall elapsed a = true → a.interval = 0 → a ∉ vm'.alarms ∧ ∀ b ∈ vm'.alarms, a.Apart b
  moves : ∀ a ∈ vm.alarms, vm.fires wall elapsed a = true → 0 < a.interval → a.clock wall elapsed < alarmMax →
    vm.once made a = false → ∃ next, IsLeast {x | a.clock wall elapsed < x ∧ ∃ k, x = a.when + k * a.interval} next ∧
      { a with when := min next alarmMax, minElapsed := 0 } ∈ vm'.alarms

theorem AlarmInv.polled {vm vm' : AlarmVm} {wall elapsed : Nat} {made : Alarm → Bool} (h : AlarmInv vm)
    (hpolled : Polled vm vm' wall elapsed made [] vm.alarms) : AlarmsPolled vm vm' wall elapsed made := by
  have hmem : ∀ b, b ∈ vm'.alarms ↔ ∃ a ∈ vm.alarms, vm.keeps wall elapsed made a = some b := fun b => by
    rw [hpolled.alarms, nil_append, mem_filterMap]
  have hquiet : ∀ b ∈ vm'.alarms, b.isDue wall elapsed = false := fun b hb => by
    obtain ⟨a, ha, hkeeps⟩ := (hmem b).1 hb
    exact (keeps_some (h.ok a ha) hkeeps).1
  have hfires : ∀ a, vm.fires wall elapsed a = true → vm.live a = true ∧ a.isDue wall elapsed = true := fun a ha => by
    unfold AlarmVm.fires at ha
    exact of_decide_eq_true ha
  refine ⟨hpolled.delivered, fun b hb => ⟨hpolled.live b hb, hquiet b hb⟩, fun a ha hlive hdue => ?_,
    fun a ha hf hzero => ⟨fun hb => ?_, fun b hb => ?_⟩, fun a ha hf hpos hmax honce => ⟨_, isLeast_next hpos, ?_⟩⟩
  · refine (hmem a).2 ⟨a, ha, ?_⟩
    unfold AlarmVm.keeps
    rw [if_pos hlive, hdue]
    rfl
  · have hdue := (hfires a hf).2
    rw [hquiet a hb] at hdue
    cases hdue
  · obtain ⟨c, hc, hkeeps⟩ := (hmem b).1 hb
    obtain ⟨-, -, ht, hl, -⟩ := keeps_some (h.ok c hc) hkeeps
    have hne : a ≠ c := fun heq => by
      subst heq
      obtain ⟨hlive, hdue⟩ := hfires a hf
      unfold AlarmVm.keeps Alarm.moved at hkeeps
      rw [if_pos hlive, if_pos hdue, hzero, if_neg (c := 0 < 0 ∧ _) fun hp => Nat.lt_irrefl 0 hp.1, ite_self] at hkeeps
      cases hkeeps
    unfold Alarm.Apart
    rw [ht, hl]
    have : Std.Symm Alarm.Apart := ⟨fun _ _ => Alarm.Apart.symm⟩
    exact h.apart.forall ha hc hne
  · obtain ⟨hlive, hdue⟩ := hfires a hf
    refine (hmem _).2 ⟨a, ha, ?_⟩
    unfold AlarmVm.keeps Alarm.moved
    rw [if_pos hlive, if_pos hdue, honce, if_neg (by decide), if_pos ⟨hpos, hmax⟩]

end Lunaria.Dvm
