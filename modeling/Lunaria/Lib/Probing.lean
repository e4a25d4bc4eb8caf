import Mathlib.Data.List.ReduceOption
import Mathlib.Data.Nat.Find
import Mathlib.Data.List.Perm.Basic
import Mathlib.Logic.Function.Iterate

/-! Open addressing with linear probing: a table of places, some of them taken, in which an entry lies in the first free
    place around the table from its home. -/

namespace Lunaria.Probing
open List Option Nat

/-- The first of `i`, `next i`, `next (next i)`, … that passes the test, if it is among this many. -/
def probe (stop : Nat → Bool) (next : Nat → Nat) : Nat → Nat → Option Nat
  | 0, _ => none
  | fuel + 1, i => if stop i then some i else probe stop next fuel (next i)

section Probe
variable {stop : Nat → Bool} {next : Nat → Nat}

theorem probe_of_first {k fuel i : Nat} (hk : k < fuel) (hstop : stop (next^[k] i) = true)
    (hbefore : ∀ j < k, stop (next^[j] i) = false) : probe stop next fuel i = some (next^[k] i) := by
  induction k generalizing fuel i with
  | zero =>
    obtain ⟨fuel, rfl⟩ := exists_eq_succ_of_ne_zero (Nat.ne_of_gt hk)
    rw [probe, if_pos (by exact hstop)]
    rfl
  | succ k ih =>
    obtain ⟨fuel, rfl⟩ := exists_eq_succ_of_ne_zero (Nat.ne_of_gt (zero_lt_of_lt hk))
    have hno : ¬ stop i = true := by simpa using hbefore 0 (succ_pos k)
    rw [probe, if_neg hno, Function.iterate_succ_apply]
    exact ih (lt_of_succ_lt_succ hk) hstop fun j hj => hbefore (j + 1) (succ_lt_succ hj)

/-- Probing stops at the first place that passes the test, if there is one within reach. -/
theorem probe_spec {fuel i k : Nat} (hk : k < fuel) (hstop : stop (next^[k] i) = true) : ∃ k' ≤ k,
    probe stop next fuel i = some (next^[k'] i) ∧ stop (next^[k'] i) = true ∧ ∀ j < k', stop (next^[j] i) = false := by
  have hex : ∃ k, stop (next^[k] i) = true := ⟨k, hstop⟩
  have hfirst := Nat.find_spec hex
  have hle : Nat.find hex ≤ k := Nat.find_min' hex hstop
  have hbefore : ∀ j < Nat.find hex, stop (next^[j] i) = false := fun j hj => by simpa using Nat.find_min hex hj
  exact ⟨Nat.find hex, hle, probe_of_first (Nat.lt_of_le_of_lt hle hk) hfirst hbefore, hfirst, hbefore⟩

theorem probe_stops {fuel i p : Nat} (h : probe stop next fuel i = some p) : stop p = true := by
  induction fuel generalizing i with
  | zero => simp [probe] at h
  | succ fuel ih =>
    rw [probe] at h
    split_ifs at h with hstop
    · exact some.inj h ▸ hstop
    · exact ih h

end Probe

section Table
variable {α : Type*} {home : α → Nat} {t : List (Option α)} {a b : α} {p : Nat}

/-- What lies at a place. -/
def entryAt (t : List (Option α)) (p : Nat) : Option α := t[p]?.join

def vacant (t : List (Option α)) (p : Nat) : Bool := (entryAt t p).isNone

/-- The entry in its first free place, if there is one. -/
def insert (home : α → Nat) (t : List (Option α)) (a : α) : Option (List (Option α)) :=
  (probe (vacant t) (fun i => (i + 1) % t.length) t.length (home a % t.length)).map fun p => t.set p (some a)

/-- The place from which the test is first passed, around the table from a home. -/
def find (test : α → Bool) (h : Nat) (t : List (Option α)) : Option Nat :=
  probe (fun p => (entryAt t p).all test) (fun i => (i + 1) % t.length) t.length (h % t.length)

/-- All entries are in reach of probing: all places from an entry's home to it are taken. -/
def Reached (home : α → Nat) (t : List (Option α)) : Prop := ∀ p a, entryAt t p = some a →
  ∃ k < t.length, (home a + k) % t.length = p ∧ ∀ j < k, vacant t ((home a + j) % t.length) = false

theorem iterate_next (n h k : Nat) : (fun i => (i + 1) % n)^[k] (h % n) = (h + k) % n := by
  induction k with
  | zero => rfl
  | succ k ih => rw [Function.iterate_succ_apply', ih, mod_add_mod, Nat.add_assoc]

theorem entryAt_eq_some : entryAt t p = some a ↔ t[p]? = some (some a) := by
  rw [entryAt, join_eq_some_iff]

theorem mem_reduceOption_iff_entryAt : a ∈ t.reduceOption ↔ ∃ p, entryAt t p = some a := by
  rw [reduceOption_mem_iff, mem_iff_getElem?]
  simp only [entryAt_eq_some]

theorem vacant_set {q : Nat} (hp : p < t.length) : vacant (t.set p (some a)) q = (decide (q ≠ p) && vacant t q) := by
  by_cases h : q = p
  · subst h
    simp [vacant, entryAt, hp]
  · simp [vacant, entryAt, h, getElem?_set_ne (Ne.symm h)]

theorem Reached.set {k : Nat} (h : Reached home t) (hp : vacant t p = true) (hk : k < t.length)
    (hat : (home a + k) % t.length = p) (hpath : ∀ j < k, vacant t ((home a + j) % t.length) = false) :
    Reached home (t.set p (some a)) := by
  have hlt : p < t.length := hat ▸ mod_lt _ (zero_lt_of_lt hk)
  intro q b hq
  rw [length_set]
  by_cases hqp : q = p
  · subst hqp
    obtain rfl : a = b := by simpa [entryAt, hlt] using hq
    refine ⟨k, hk, hat, fun j hj => ?_⟩
    rw [vacant_set hlt, hpath j hj, Bool.and_false]
  · have hq : entryAt t q = some b := by simpa [entryAt, getElem?_set_ne (Ne.symm hqp)] using hq
    obtain ⟨k', hk', hat', hpath'⟩ := h q b hq
    refine ⟨k', hk', hat', fun j hj => ?_⟩
    rw [vacant_set hlt, hpath' j hj, Bool.and_false]

/-- A place is free when there are fewer entries than places. -/
theorem exists_vacant (h : t.reduceOption.length < t.length) : ∃ p < t.length, vacant t p = true := by
  by_contra hno
  push Not at hno
  have hall : ∀ o ∈ t, o.isSome = true := by
    intro o ho
    obtain ⟨p, hp, rfl⟩ := getElem_of_mem ho
    simpa [vacant, entryAt, hp, isSome_iff_ne_none] using hno p hp
  rw [reduceOption_length_eq_iff.2 hall] at h
  exact Nat.lt_irrefl _ h

/-- From any home, each place of the table is a number of steps away. -/
theorem exists_ahead (h : Nat) (hp : p < t.length) : ∃ k < t.length, (h + k) % t.length = p := by
  have hn : 0 < t.length := zero_lt_of_lt hp
  have hr := mod_lt h hn
  refine ⟨(p + (t.length - h % t.length)) % t.length, mod_lt _ hn, ?_⟩
  rw [← mod_add_mod, add_mod_mod, show h % t.length + (p + (t.length - h % t.length)) = p + t.length by omega,
    add_mod_right, mod_eq_of_lt hp]

theorem insert_at (home : α → Nat) (hroom : t.reduceOption.length < t.length) (a : α) : ∃ k < t.length,
    insert home t a = some (t.set ((home a + k) % t.length) (some a)) ∧ vacant t ((home a + k) % t.length) = true ∧
      ∀ j < k, vacant t ((home a + j) % t.length) = false := by
  obtain ⟨p, hp, hvacant⟩ := exists_vacant hroom
  obtain ⟨k, hk, rfl⟩ := exists_ahead (home a) hp
  obtain ⟨k', hk', hprobe, hstop, hbefore⟩ := @probe_spec _ (fun i => (i + 1) % t.length) _ _ _ hk
    (by rwa [iterate_next])
  rw [iterate_next] at hprobe hstop
  refine ⟨k', by omega, by rw [insert, hprobe]; rfl, hstop, fun j hj => ?_⟩
  have := hbefore j hj
  rwa [iterate_next] at this

theorem insert_spec (h : Reached home t) (hroom : t.reduceOption.length < t.length) (a : α) :
    ∃ t', insert home t a = some t' ∧
    t'.length = t.length ∧ t'.reduceOption.Perm (a :: t.reduceOption) ∧ Reached home t' := by
  obtain ⟨k, hk, hinsert, hstop, hpath⟩ := insert_at home hroom a
  generalize hq : (home a + k) % t.length = q at hinsert hstop
  have hlt : q < t.length := hq ▸ mod_lt _ (zero_lt_of_lt hk)
  refine ⟨t.set q (some a), hinsert, length_set, ?_, h.set hstop hk hq hpath⟩
  have hnone : t[q] = none := by simpa [vacant, entryAt, hlt] using hstop
  rw [set_eq_take_append_cons_drop, if_pos hlt]
  conv_rhs => rw [← take_append_drop q t, drop_eq_getElem_cons hlt, hnone]
  simp only [reduceOption_append, reduceOption_cons_of_some, reduceOption_cons_of_none]
  exact perm_middle

theorem find_ends {test : α → Bool} (hroom : t.reduceOption.length < t.length) (h : Nat) : ∃ p, find test h t = some p ∧
    ∀ a, entryAt t p = some a → test a = true := by
  obtain ⟨p, hp, hvacant⟩ := exists_vacant hroom
  obtain ⟨k, hk, rfl⟩ := exists_ahead h hp
  obtain ⟨k', -, hprobe, hstop, -⟩ := @probe_spec (fun p => (entryAt t p).all test) (fun i => (i + 1) % t.length) _ _ _ hk
    (by rw [iterate_next, isNone_iff_eq_none.1 hvacant]; rfl)
  exact ⟨_, hprobe, fun a ha => by simpa [ha] using hstop⟩

/-- A search from the home of an entry that passes ends at an entry, after entries that do not. -/
theorem Reached.find_first {test : α → Bool} (h : Reached home t) (ha : a ∈ t.reduceOption) (htest : test a = true) :
    ∃ k < t.length, find test (home a) t = some ((home a + k) % t.length) ∧
      (∃ b, entryAt t ((home a + k) % t.length) = some b ∧ test b = true) ∧
      ∀ j < k, (entryAt t ((home a + j) % t.length)).all test = false := by
  obtain ⟨p, hp⟩ := mem_reduceOption_iff_entryAt.1 ha
  obtain ⟨k, hk, rfl, hpath⟩ := h p a hp
  obtain ⟨k', hk', hprobe, hstop, hbefore⟩ :=
    @probe_spec (fun p => (entryAt t p).all test) (fun i => (i + 1) % t.length) _ _ _ hk
    (by rw [iterate_next, hp]; exact htest)
  rw [iterate_next] at hprobe hstop
  have htaken : vacant t ((home a + k') % t.length) = false := by
    rcases Nat.lt_or_eq_of_le hk' with hlt | rfl
    · exact hpath k' hlt
    · rw [vacant, hp]
      rfl
  obtain ⟨b, hb⟩ := isSome_iff_exists.1 (by simpa [vacant] using htaken)
  refine ⟨k', by omega, hprobe, ⟨b, hb, by simpa [hb] using hstop⟩, fun j hj => ?_⟩
  have := hbefore j hj
  rwa [iterate_next] at this

theorem Reached.find {test : α → Bool} (h : Reached home t) (ha : a ∈ t.reduceOption) (htest : test a = true) :
    ∃ p b, find test (home a) t = some p ∧ entryAt t p = some b ∧ test b = true := by
  obtain ⟨k, -, hfind, ⟨b, hb, hpasses⟩, -⟩ := h.find_first ha htest
  exact ⟨_, b, hfind, hb, hpasses⟩

theorem insertAll_spec (l : List α) : ∀ {t : List (Option α)}, Reached home t →
    t.reduceOption.length + l.length < t.length →
    ∃ t', l.foldlM (insert home) t = some t' ∧ t'.length = t.length ∧ t'.reduceOption.Perm (l ++ t.reduceOption) ∧
      Reached home t' := by
  induction l with
  | nil => exact fun h _ => ⟨_, rfl, rfl, .rfl, h⟩
  | cons a l ih =>
    intro t h hroom
    rw [length_cons] at hroom
    obtain ⟨t₁, hinsert, hlen, hperm, hreached⟩ := insert_spec h (by omega) a
    have hlen₁ := hperm.length_eq
    rw [length_cons] at hlen₁
    obtain ⟨t', hall, hlen', hperm', hreached'⟩ := ih hreached (by omega)
    refine ⟨t', by rw [foldlM_cons, hinsert]; exact hall, hlen'.trans hlen, ?_, hreached'⟩
    exact hperm'.trans ((hperm.append_left l).trans perm_middle)

theorem reached_replicate (n : Nat) : Reached home (replicate n none) := by
  intro p a h
  rw [entryAt_eq_some, List.getElem?_eq_some_iff] at h
  obtain ⟨_, h⟩ := h
  simp at h

/-! ### What is found among entries that pass the same test -/

section Lookup
variable {test : α → Bool} {h : Nat} {t' : List (Option α)}

/-- The entry at which a search ends, if it is not at a free place. -/
def lookup (test : α → Bool) (h : Nat) (t : List (Option α)) : Option α := (find test h t).bind (entryAt t)

theorem lookup_none (hroom : t.reduceOption.length < t.length) (hno : ∀ a ∈ t.reduceOption, test a = false) :
    lookup test h t = none := by
  obtain ⟨p, hfind, hpasses⟩ := @find_ends _ t test hroom h
  rw [lookup, hfind, bind_some, eq_none_iff_forall_not_mem]
  intro a ha
  have hpass := hpasses a ha
  rw [hno a (mem_reduceOption_iff_entryAt.2 ⟨p, ha⟩)] at hpass
  cases hpass

theorem lookup_at {k : Nat} (hk : k < t.length) (ha : entryAt t ((h + k) % t.length) = some a) (htest : test a = true)
    (hbefore : ∀ j < k, (entryAt t ((h + j) % t.length)).all test = false) : lookup test h t = some a := by
  have hprobe := @probe_of_first (fun p => (entryAt t p).all test) (fun i => (i + 1) % t.length) k _ (h % t.length) hk
    (by rw [iterate_next, ha]; exact htest) fun j hj => by rw [iterate_next]; exact hbefore j hj
  rw [lookup, find, hprobe, iterate_next]
  exact ha

theorem entryAt_set {q : Nat} (hp : p < t.length) :
    entryAt (t.set p (some a)) q = if q = p then some a else entryAt t q := by
  split
  · rename_i h
    subst h
    simp [entryAt, hp]
  · rename_i h
    rw [entryAt, getElem?_set_ne (Ne.symm h), entryAt]

theorem lookup_insert (hreached : Reached home t) (hroom : t.reduceOption.length + 1 < t.length)
    (hhome : ∀ b, test b = true → home b = h) (hinsert : insert home t a = some t') :
    lookup test h t' = (lookup test h t).or (if test a then some a else none) := by
  obtain ⟨k, hk, hset, hvacant, hpath⟩ := insert_at home (lt_of_succ_lt hroom) a
  cases hset.symm.trans hinsert
  have hlt : (home a + k) % t.length < t.length := mod_lt _ (zero_lt_of_lt hk)
  -- a place that was not free is not the one of the new entry
  have hkept : ∀ q, vacant t q = false → entryAt (t.set ((home a + k) % t.length) (some a)) q = entryAt t q :=
      fun q hq => by
    rw [entryAt_set hlt, if_neg fun heq => by rw [heq, hvacant] at hq; cases hq]
  by_cases hsome : ∃ b ∈ t.reduceOption, test b = true
  · obtain ⟨b, hb, hpass⟩ := hsome
    obtain ⟨k', hk', -, ⟨c, hc, hpassc⟩, hbefore⟩ := hreached.find_first hb hpass
    rw [hhome b hpass] at hc hbefore
    rw [lookup_at hk' hc hpassc hbefore, some_or]
    refine lookup_at (by rwa [length_set]) ?_ hpassc fun j hj => ?_
    · rw [length_set, hkept _ (by rw [vacant, hc]; rfl), hc]
    · have htaken : vacant t ((h + j) % t.length) = false := by
        have := hbefore j hj
        cases he : entryAt t ((h + j) % t.length) with
        | none =>
          rw [he] at this
          cases this
        | some e => simp [vacant, he]
      rw [length_set, hkept _ htaken]
      exact hbefore j hj
  · have hno : ∀ b ∈ t.reduceOption, test b = false := fun b hb => by
      rw [← Bool.not_eq_true]
      exact fun hpass => hsome ⟨b, hb, hpass⟩
    rw [lookup_none (lt_of_succ_lt hroom) hno, none_or]
    split
    · rename_i hpass
      rw [← hhome a hpass]
      refine @lookup_at _ _ a test (home a) k (by rwa [length_set]) (by rw [length_set, entryAt_set hlt, if_pos rfl]) hpass
        fun j hj => ?_
      rw [length_set, hkept _ (hpath j hj)]
      obtain ⟨e, he⟩ := isSome_iff_exists.1 (by simpa [vacant] using hpath j hj)
      rw [he]
      exact hno e (mem_reduceOption_iff_entryAt.2 ⟨_, he⟩)
    · rename_i hpass
      obtain ⟨t', hinsert', hlen, hperm, -⟩ := insert_spec hreached (lt_of_succ_lt hroom) a
      cases hinsert'.symm.trans hset
      refine lookup_none (by rw [hperm.length_eq, hlen]; exact hroom) fun b hb => ?_
      rcases mem_cons.1 (hperm.mem_iff.1 hb) with rfl | hmem
      · exact Bool.eq_false_iff.2 hpass
      · exact hno b hmem

/-- Of entries inserted one after the other, the first that passes is found. -/
theorem lookup_insertAll (l : List α) (hhome : ∀ b, test b = true → home b = h) : ∀ {t : List (Option α)}, Reached home t →
    t.reduceOption.length + l.length < t.length → l.foldlM (insert home) t = some t' →
      lookup test h t' = (lookup test h t).or (l.find? test) := by
  induction l with
  | nil =>
    intro t _ _ hall
    cases hall
    rw [find?_nil, or_none]
  | cons a l ih =>
    intro t hreached hroom hall
    rw [length_cons] at hroom
    obtain ⟨t₁, hinsert, hlen, hperm, hreached₁⟩ := insert_spec hreached (by omega) a
    have hlen₁ := hperm.length_eq
    rw [length_cons] at hlen₁
    rw [foldlM_cons, hinsert] at hall
    rw [ih hreached₁ (by omega) hall, lookup_insert hreached (by omega) hhome hinsert, Option.or_assoc, find?_cons]
    cases test a <;> rfl

end Lookup

end Table

end Lunaria.Probing
