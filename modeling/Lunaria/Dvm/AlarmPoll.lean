import Lunaria.Dvm.Alarm
import Lunaria.Lib.Periodic

/-! What a poll of the alarms delivers, and what it leaves. -/

namespace Lunaria.Dvm
open Function Periodic List Nat

/-! ### One record -/

/-- A record whose numbers are in their ranges. It has an operation or a listener, and only operations are repeated. -/
structure Alarm.Ok (a : Alarm) : Prop where
  when : a.when ≤ alarmMax
  interval : a.interval ≤ 31536000000
  slow : 0 < a.interval → 60000 ≤ a.interval
  repeats : 0 < a.interval → a.token ≠ 0
  early : 2 ≤ a.type → a.minElapsed ≤ a.when
  operation : a.token ≠ 0 → a.listener = 0

/-- The record of a repeated alarm after it was delivered. -/
def Alarm.moved (a : Alarm) (now : Nat) : Option Alarm :=
  if 0 < a.interval ∧ now < alarmMax then
    some { a with when := min (a.when + passed a.when a.interval now * a.interval) alarmMax, minElapsed := 0 }
  else none

section Record
variable {a b : Alarm} {now wall elapsed : Nat}

theorem count_eq (h : a.Ok) (hdue : a.when ≤ now) (hnow : now ≤ alarmMax) :
    a.count now = .ok (passed a.when a.interval now) := by
  unfold Alarm.count
  split_ifs with hp
  · have hle : (now - a.when) / a.interval ≤ alarmMax / 60000 :=
      Nat.div_le_div ((sub_le _ _).trans hnow) (h.slow hp) (by decide)
    have hlt : alarmMax / 60000 < alarmMax := by decide
    rw [Checked.minus_eq hdue, Checked.bind_ok, Checked.plus_eq (by omega), passed_of_le hp hdue, Nat.add_comm]
  · rw [Nat.eq_zero_of_not_pos hp, passed_zero, if_pos hdue]

theorem next_eq (h : a.Ok) (hdue : a.when ≤ now) : a.next now = .ok (a.moved now) := by
  unfold Alarm.next Alarm.moved
  by_cases hp : 0 < a.interval ∧ now < alarmMax
  swap
  · rw [if_neg hp, if_neg hp]
  rw [if_pos hp, if_pos hp]
  obtain ⟨hpos, hlt⟩ := hp
  have hmod := mod_lt (now - a.when) hpos
  have hsmall : a.interval ≤ alarmMax := h.interval.trans (by decide)
  have htime : now + (a.interval - (now - a.when) % a.interval) = a.when + passed a.when a.interval now * a.interval := by
    have hdiv := div_add_mod (now - a.when) a.interval
    rw [passed_of_le hpos hdue, succ_mul, Nat.mul_comm]
    omega
  rw [Checked.minus_eq hdue, Checked.bind_ok, Checked.minus_eq hmod.le, Checked.bind_ok, Checked.minus_eq (by omega),
    Checked.bind_ok]
  split_ifs with hroom
  · rw [Checked.bind_ok, Nat.min_eq_right (by omega)]
    rfl
  · rw [Checked.plus_eq (by omega), Checked.bind_ok, htime, Nat.min_eq_left (by omega)]
    rfl

theorem moved_not_due (h : a.Ok) (hb : a.moved (a.clock wall elapsed) = some b) :
    b.isDue wall elapsed = false ∧ b.Ok ∧ b.token = a.token ∧ b.listener = a.listener := by
  unfold Alarm.moved at hb
  split_ifs at hb with hp
  cases hb
  obtain ⟨hpos, hlt⟩ := hp
  have hnext : a.clock wall elapsed < a.when + passed a.when a.interval (a.clock wall elapsed) * a.interval :=
    (passed_le_iff hpos).1 le_rfl
  refine ⟨?_, ⟨Nat.min_le_right _ _, h.interval, h.slow, h.repeats, fun _ => Nat.zero_le _, h.operation⟩, rfl, rfl⟩
  have hnot :
    ¬ min (a.when + passed a.when a.interval (a.clock wall elapsed) * a.interval) alarmMax ≤ a.clock wall
      elapsed := by omega
  exact decide_eq_false fun hboth => hnot hboth.1

end Record

/-! ### The list -/

/-- Two records for different objects. -/
def Alarm.Apart (a b : Alarm) : Prop := (a.token ≠ 0 → a.token ≠ b.token) ∧ (a.listener ≠ 0 → a.listener ≠ b.listener)

theorem Alarm.Apart.symm {a b : Alarm} (h : a.Apart b) : b.Apart a :=
  ⟨fun hb heq => h.1 (heq ▸ hb) heq.symm, fun hb heq => h.2 (heq ▸ hb) heq.symm⟩

def AlarmVm.live (vm : AlarmVm) (a : Alarm) : Bool := ¬(a.token ≠ 0 ∧ vm.cancelled a.token)

/-- A record that a poll delivers. -/
def AlarmVm.fires (vm : AlarmVm) (wall elapsed : Nat) (a : Alarm) : Bool := vm.live a ∧ a.isDue wall elapsed

/-- A record whose token is cancelled with its delivery. -/
def AlarmVm.once (vm : AlarmVm) (made : Alarm → Bool) (a : Alarm) : Bool :=
  a.token ≠ 0 ∧ made a ∧ vm.flags a.token &&& 0x40000000 ≠ 0 ∧ a.token ∈ vm.pendingIntents

/-- What a poll leaves of a record. -/
def AlarmVm.keeps (vm : AlarmVm) (wall elapsed : Nat) (made : Alarm → Bool) (a : Alarm) : Option Alarm :=
  if vm.live a then
    if a.isDue wall elapsed then if vm.once made a then none else a.moved (a.clock wall elapsed) else some a
  else none

/-- What a delivery logs. -/
def Alarm.entry (wall elapsed : Nat) (a : Alarm) : Alarm × Nat :=
  (a, if countMax < passed a.when a.interval (a.clock wall elapsed) then countMax else passed a.when a.interval
    (a.clock wall elapsed))

/-- The machine where a record is delivered next. -/
def AlarmVm.logged (vm : AlarmVm) (wall elapsed : Nat) (before : List Alarm) (a : Alarm) (rest : List Alarm) : AlarmVm :=
  { vm with
    alarms := before ++ ((a.moved (a.clock wall elapsed)).toList ++ rest)
    delivered := vm.delivered ++ [a.entry wall elapsed] }

/-- The machine after a delivery. -/
structure Dispatched (vm vm' : AlarmVm) (wall elapsed : Nat) (made : Alarm → Bool) (before : List Alarm) (a : Alarm)
    (rest : List Alarm) : Prop where
  alarms : vm'.alarms = before ++ ((vm.keeps wall elapsed made a).toList ++ rest)
  delivered : vm'.delivered = vm.delivered ++ [a.entry wall elapsed]
  flags : vm'.flags = vm.flags
  kept : ∀ b, vm.keeps wall elapsed made a = some b → vm'.live b = true
  tokens : ∀ t, t ≠ a.token ∨ t = 0 → vm'.cancelled t = vm.cancelled t ∧ (t ∈ vm'.pendingIntents ↔ t ∈ vm.pendingIntents)

section Lists
variable {vm vm' : AlarmVm} {a b : Alarm} {before rest todo : List Alarm} {wall elapsed : Nat} {made : Alarm → Bool}

theorem live_iff : vm.live a = true ↔ ¬(a.token ≠ 0 ∧ vm.cancelled a.token = true) := by
  unfold AlarmVm.live
  exact decide_eq_true_iff

theorem alarmRemove_eq_self {l : List Alarm} {t : Nat} (h : ∀ a ∈ l, a.token ≠ t) : alarmRemove l t 0 = l := by
  refine filter_eq_self.2 fun a ha => ?_
  simp [h a ha]

theorem alarmSearch_append (h : ∀ a ∈ before, vm.live a = true ∧ a.isDue wall elapsed = false) :
    alarmSearch vm.cancelled wall elapsed (before ++ todo) =
      (before ++ (alarmSearch vm.cancelled wall elapsed todo).1, (alarmSearch vm.cancelled wall elapsed todo).2) := by
  induction before with
  | nil => rfl
  | cons a before ih =>
    obtain ⟨⟨hlive, hdue⟩, hbefore⟩ := forall_mem_cons.1 h
    rw [cons_append, alarmSearch, if_neg (live_iff.1 hlive), if_neg (by simp [hdue]), ih hbefore]
    rfl

/-- A delivery leaves the record of its object, if it leaves one. -/
theorem moved_same {now : Nat} (hb : a.moved now = some b) : b.token = a.token ∧ b.listener = a.listener := by
  unfold Alarm.moved at hb
  split_ifs at hb
  cases hb
  exact ⟨rfl, rfl⟩

theorem dispatched (hlive : vm.live a = true) (hdue : a.isDue wall elapsed = true)
    (hapart : ∀ b ∈ before ++ rest, a.Apart b) :
    Dispatched vm (deliverAlarm (vm.logged wall elapsed before a rest) a (made a)) wall elapsed made before a rest := by
  have hkeeps : vm.keeps wall elapsed made a = if vm.once made a then none else a.moved (a.clock wall elapsed) := by
    unfold AlarmVm.keeps
    rw [if_pos hlive, if_pos hdue]
  unfold deliverAlarm
  by_cases hzero : a.token = 0
  · have honce : vm.once made a = false := by simp [AlarmVm.once, hzero]
    rw [if_neg (not_not.2 hzero)]
    refine ⟨by rw [hkeeps, honce]; rfl, rfl, rfl, fun b hb => ?_, fun t _ => ⟨rfl, Iff.rfl⟩⟩
    rw [hkeeps, honce] at hb
    exact live_iff.2 fun h => h.1 ((moved_same hb).1.trans hzero)
  have hcancelled : vm.cancelled a.token = false := by
    have := live_iff.1 hlive
    simpa [hzero] using this
  rw [if_pos hzero]
  unfold pendingSendToken
  by_cases honce : vm.once made a = true
  · -- the token goes with its record, and no other record has it
    have hparts := honce
    simp only [AlarmVm.once, decide_eq_true_eq] at hparts
    obtain ⟨-, hmade, hflag, hmem⟩ := hparts
    have hc : (vm.logged wall elapsed before a rest).cancelled a.token = false := hcancelled
    have hf : (vm.logged wall elapsed before a rest).flags a.token &&& 0x40000000 ≠ 0 := hflag
    have hp : a.token ∈ (vm.logged wall elapsed before a rest).pendingIntents := hmem
    rw [if_neg (by simp [hzero, hc, hmade])]
    dsimp only
    rw [if_pos hf, pendingCancelToken, if_pos hp]
    have hothers : ∀ b ∈ before ++ rest, b.token ≠ a.token := fun b hb => ((hapart b hb).1 hzero).symm
    have hmoved : alarmRemove (a.moved (a.clock wall elapsed)).toList a.token 0 = [] := by
      refine filter_eq_nil_iff.2 fun b hb => ?_
      have htoken := (moved_same (Option.mem_toList.1 hb)).1
      simp [htoken, hzero]
    refine ⟨?_, rfl, rfl, fun b hb => ?_, fun t ht => ?_⟩
    · unfold AlarmVm.logged
      dsimp only
      rw [hkeeps, if_pos honce, alarmRemove, filter_append, filter_append]
      change alarmRemove before a.token 0 ++ (alarmRemove _ a.token 0 ++ alarmRemove rest a.token 0) = _
      rw [hmoved, alarmRemove_eq_self fun b hb => hothers b (mem_append_left _ hb),
        alarmRemove_eq_self fun b hb => hothers b (mem_append_right _ hb)]
      rfl
    · rw [hkeeps, if_pos honce] at hb
      cases hb
    · have hne : t ≠ a.token := ht.elim id fun h => h ▸ Ne.symm hzero
      exact ⟨update_of_ne hne _ _, mem_erase_of_ne hne⟩
  · have hplain : ∀ v : AlarmVm, v.cancelled = vm.cancelled → v.flags = vm.flags → v.pendingIntents = vm.pendingIntents →
        (if a.token = 0 ∨ v.cancelled a.token ∨ !made a then (false, v)
          else (true, if v.flags a.token &&& 0x40000000 ≠ 0 then pendingCancelToken v a.token else v)).2 = v := by
      intro v hv hf hp
      split_ifs with h1 h2
      · rfl
      · have hmade : made a = true := by simpa [hzero, hv, hcancelled] using h1
        have hnot : a.token ∉ v.pendingIntents := by
          intro hmem
          exact honce (by simp [AlarmVm.once, hzero, hmade, ← hf, h2, ← hp, hmem])
        exact if_neg hnot
      · rfl
    rw [hplain (vm.logged wall elapsed before a rest) rfl rfl rfl]
    refine ⟨by rw [hkeeps, if_neg honce]; rfl, rfl, rfl, fun b hb => ?_, fun t _ => ⟨rfl, Iff.rfl⟩⟩
    rw [hkeeps, if_neg honce] at hb
    refine live_iff.2 fun h => ?_
    rw [(moved_same hb).1] at h
    cases hcancelled.symm.trans h.2

def SameToken (vm vm' : AlarmVm) (t : Nat) : Prop :=
  vm'.cancelled t = vm.cancelled t ∧ (t ∈ vm'.pendingIntents ↔ t ∈ vm.pendingIntents)

theorem live_congr (h : SameToken vm vm' a.token) : vm'.live a = vm.live a := by
  unfold AlarmVm.live
  rw [h.1]

theorem keeps_congr (h : SameToken vm vm' a.token) (hflags : vm'.flags = vm.flags) :
    vm'.keeps wall elapsed made a = vm.keeps wall elapsed made a := by
  have honce : vm'.once made a = vm.once made a := by
    unfold AlarmVm.once
    simp only [hflags, h.2]
  unfold AlarmVm.keeps
  rw [live_congr h, honce]

theorem isDue_iff : a.isDue wall elapsed = true ↔ a.when ≤ a.clock wall elapsed ∧ a.minElapsed ≤ elapsed :=
    decide_eq_true_iff

/-- What a poll leaves is of the records that there were, and not due. -/
theorem keeps_some (h : a.Ok) (hb : vm.keeps wall elapsed made a = some b) :
    b.isDue wall elapsed = false ∧ b.Ok ∧ b.token = a.token ∧ b.listener = a.listener ∧ vm.live a = true := by
  unfold AlarmVm.keeps at hb
  split_ifs at hb with hlive hdue honce
  · obtain ⟨h1, h2, h3, h4⟩ := moved_not_due h hb
    exact ⟨h1, h2, h3, h4, hlive⟩
  · cases hb
    exact ⟨Bool.eq_false_iff.2 hdue, h, rfl, rfl, hlive⟩

theorem clock_le (hwall : wall ≤ alarmMax) (helapsed : elapsed ≤ alarmMax) : a.clock wall elapsed ≤ alarmMax := by
  unfold Alarm.clock
  split_ifs
  · exact hwall
  · exact helapsed

/-- The machine after the loop, where the records from `todo` on were not yet looked at. -/
structure Polled (vm vm' : AlarmVm) (wall elapsed : Nat) (made : Alarm → Bool) (before todo : List Alarm) : Prop where
  alarms : vm'.alarms = before ++ todo.filterMap (vm.keeps wall elapsed made)
  delivered : vm'.delivered = vm.delivered ++ (todo.filter (vm.fires wall elapsed)).map (Alarm.entry wall elapsed)
  flags : vm'.flags = vm.flags
  live : ∀ a ∈ vm'.alarms, vm'.live a = true

theorem apart_others (hapart : (before ++ a :: rest).Pairwise Alarm.Apart) : ∀ b ∈ before ++ rest, a.Apart b := by
  intro b hb
  obtain ⟨-, hrest, hcross⟩ := pairwise_append.1 hapart
  rcases mem_append.1 hb with hb | hb
  · exact (hcross b hb a mem_cons_self).symm
  · exact (pairwise_cons.1 hrest).1 b hb

/-- What a poll keeps of a record is as far from the others as the record. -/
theorem apart_kept (ha : a.Ok) (hapart : (before ++ a :: rest).Pairwise Alarm.Apart) :
    (before ++ (vm.keeps wall elapsed made a).toList ++ rest).Pairwise Alarm.Apart := by
  have hothers := apart_others hapart
  have hrest : (before ++ rest).Pairwise Alarm.Apart := hapart.sublist ((sublist_cons_self a rest).append_left before)
  cases hkeeps : vm.keeps wall elapsed made a with
  | none => simpa using hrest
  | some b =>
    obtain ⟨-, -, htoken, hlistener, -⟩ := keeps_some ha hkeeps
    have hb : ∀ c, a.Apart c → b.Apart c := fun c hc => by
      unfold Alarm.Apart
      rw [htoken, hlistener]
      exact hc
    rw [Option.toList_some, append_assoc, singleton_append]
    obtain ⟨h1, h2, h3⟩ := pairwise_append.1 hrest
    refine pairwise_append.2 ⟨h1, pairwise_cons.2 ⟨fun c hc => ?_, h2⟩, fun c hc d hd => ?_⟩
    · exact hb c (hothers c (mem_append_right _ hc))
    · rcases mem_cons.1 hd with rfl | hd
      · exact (hb c (hothers c (mem_append_left _ hc))).symm
      · exact h3 c hc d hd

theorem Dispatched.same (hd : Dispatched vm vm' wall elapsed made before a rest) (hb : a.Apart b) :
    SameToken vm vm' b.token := by
  refine hd.tokens b.token ?_
  by_cases hzero : a.token = 0
  · rw [hzero]
    exact (em _).symm
  · exact .inl (hb.1 hzero).symm

/-- The loop goes on behind a record that was delivered. -/
theorem Polled.behind {vm₁ : AlarmVm} (hd : Dispatched vm vm₁ wall elapsed made before a rest)
    (h : Polled vm₁ vm' wall elapsed made (before ++ (vm.keeps wall elapsed made a).toList) rest) (hlive : vm.live a = true)
    (hdue : a.isDue wall elapsed = true) (hapart : ∀ b ∈ rest, a.Apart b) :
      Polled vm vm' wall elapsed made before (a :: rest) := by
  have hsame : ∀ b ∈ rest, SameToken vm vm₁ b.token := fun b hb => hd.same (hapart b hb)
  refine ⟨?_, ?_, h.flags.trans hd.flags, h.live⟩
  · have hcongr : rest.filterMap (vm₁.keeps wall elapsed made) = rest.filterMap (vm.keeps wall elapsed made) :=
      filterMap_congr fun b hb => keeps_congr (hsame b hb) hd.flags
    rw [h.alarms, hcongr, append_assoc]
    cases hkeeps : vm.keeps wall elapsed made a with
    | none => rw [filterMap_cons_none hkeeps]; rfl
    | some b => rw [filterMap_cons_some hkeeps]; rfl
  · have hcongr : rest.filter (vm₁.fires wall elapsed) = rest.filter (vm.fires wall elapsed) :=
      filter_congr fun b hb => by
        unfold AlarmVm.fires
        rw [live_congr (hsame b hb)]
    rw [h.delivered, hcongr, hd.delivered, filter_cons_of_pos (by simp [AlarmVm.fires, hlive, hdue]), append_assoc]
    rfl

/-- Each record that is due is delivered once, and the others are left as they are, but for those that are cancelled. -/
theorem alarmPollLoop_eq (hwall : wall ≤ alarmMax) (helapsed : elapsed ≤ alarmMax) {n : Nat}
    (halarms : vm.alarms = before ++ todo)
    (hbefore : ∀ a ∈ before, vm.live a = true ∧ a.isDue wall elapsed = false) (hn : todo.length ≤ n)
    (hok : ∀ a ∈ todo, a.Ok)
    (hapart : (before ++ todo).Pairwise Alarm.Apart) :
    ∃ vm', alarmPollLoop wall elapsed made n vm = .ok vm' ∧ Polled vm vm' wall elapsed made before todo := by
  induction todo generalizing before vm n with
  | nil =>
    have hsearch : alarmSearch vm.cancelled wall elapsed vm.alarms = (before ++ [], []) := by
      rw [halarms]
      exact alarmSearch_append hbefore
    refine ⟨vm, ?_, by simpa using halarms, by simp, rfl, fun a ha => ?_⟩
    swap
    · rw [halarms, append_nil] at ha
      exact (hbefore a ha).1
    cases n with
    | zero => rfl
    | succ n =>
      rw [alarmPollLoop, hsearch]
      dsimp only
      rw [← halarms]
  | cons a rest ih =>
    obtain ⟨n, rfl⟩ := exists_eq_succ_of_ne_zero (Nat.pos_iff_ne_zero.1 (Nat.lt_of_lt_of_le (succ_pos _) hn))
    obtain ⟨ha, hrest⟩ := forall_mem_cons.1 hok
    have hn' := le_of_succ_le_succ hn
    have hapart' : (before ++ rest).Pairwise Alarm.Apart := hapart.sublist ((sublist_cons_self a rest).append_left before)
    by_cases hlive : vm.live a = true
    swap
    · -- the search drops it
      have hcancelled := not_not.1 (mt live_iff.2 hlive)
      obtain ⟨vm', hloop, hpolled⟩ :=
        @ih { vm with alarms := before ++ rest } before (n + 1) rfl hbefore (le_succ_of_le hn') hrest hapart'
      refine ⟨vm', ?_, ?_, ?_, hpolled.flags, hpolled.live⟩
      · rw [← hloop, alarmPollLoop, alarmPollLoop, halarms]
        dsimp only
        rw [alarmSearch_append hbefore, alarmSearch_append hbefore, alarmSearch, if_pos hcancelled]
      · rw [hpolled.alarms, filterMap_cons_none (by simp [AlarmVm.keeps, hlive])]
        rfl
      · rw [hpolled.delivered, filter_cons_of_neg (by simp [AlarmVm.fires, hlive])]
        rfl
    by_cases hdue : a.isDue wall elapsed = true
    · -- it is delivered
      obtain ⟨hwhen, -⟩ := isDue_iff.1 hdue
      have hothers := apart_others hapart
      have hd :
          Dispatched vm (deliverAlarm (vm.logged wall elapsed before a rest) a (made a)) wall elapsed made before a rest :=
        dispatched hlive hdue hothers
      have hstep : alarmPollLoop wall elapsed made (n + 1) vm =
          alarmPollLoop wall elapsed made n (deliverAlarm (vm.logged wall elapsed before a rest) a (made a)) := by
        rw [alarmPollLoop, halarms, alarmSearch_append hbefore, alarmSearch, if_neg (live_iff.1 hlive), if_pos hdue]
        dsimp only
        rw [count_eq ha hwhen (clock_le hwall helapsed), Checked.bind_ok, next_eq ha hwhen, Checked.bind_ok, append_nil]
        rfl
      generalize deliverAlarm (vm.logged wall elapsed before a rest) a (made a) = vm₁ at hd hstep
      have hbefore' : ∀ b ∈ before ++ (vm.keeps wall elapsed made a).toList, vm₁.live b = true ∧
          b.isDue wall elapsed = false := by
        intro b hb
        rcases mem_append.1 hb with hb | hb
        · obtain ⟨h1, h2⟩ := hbefore b hb
          exact ⟨(live_congr (hd.same (hothers b (mem_append_left _ hb)))).trans h1, h2⟩
        · have hb := Option.mem_toList.1 hb
          exact ⟨hd.kept b hb, (keeps_some ha hb).1⟩
      obtain ⟨vm', hloop, hpolled⟩ :=
        @ih vm₁ (before ++ (vm.keeps wall elapsed made a).toList) n (by rw [hd.alarms, append_assoc])
        hbefore' hn' hrest (apart_kept ha hapart)
      exact ⟨vm', hstep.trans hloop, hpolled.behind hd hlive hdue fun b hb => hothers b (mem_append_right _ hb)⟩
    · -- it stays
      have hbefore' : ∀ b ∈ before ++ [a], vm.live b = true ∧ b.isDue wall elapsed = false := by
        intro b hb
        rcases mem_append.1 hb with hb | hb
        · exact hbefore b hb
        · rw [mem_singleton.1 hb]
          exact ⟨hlive, Bool.eq_false_iff.2 hdue⟩
      obtain ⟨vm', hloop, hpolled⟩ := @ih vm (before ++ [a]) (n + 1) (by simpa using halarms) hbefore'
        (le_succ_of_le hn') hrest (by simpa using hapart)
      refine ⟨vm', hloop, ?_, ?_, hpolled.flags, hpolled.live⟩
      · rw [hpolled.alarms, filterMap_cons_some (b := a) (by simp [AlarmVm.keeps, hlive, hdue])]
        simp
      · rw [hpolled.delivered, filter_cons_of_neg (by simp [AlarmVm.fires, hdue])]

end Lists

end Lunaria.Dvm
