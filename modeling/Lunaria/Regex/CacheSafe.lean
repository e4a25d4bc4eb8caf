import Mathlib.Data.List.Count
import Mathlib.Data.List.Nodup
import Mathlib.Data.List.Perm.Basic
import Lunaria.Regex.Cache

/-! No pattern of the cache is freed while a thread holds it, none is freed twice, and the counters of the table are the
    numbers of references, in every run that takes fewer references to one pattern than an `int` can count. -/

namespace Lunaria.Regex
open List Option Function

/-! ### The three searches -/

theorem hitLoop_some {pattern : List UInt8} {flags : Int} {clock : Nat} {table table' : List Entry} {re : Addr}
    (h : hitLoop pattern flags clock table = some (table', re)) :
    ∃ e rest, table.Perm (e :: rest) ∧ table'.Perm ({ e with used := clock, refs := int (e.refs + 1) } :: rest) ∧
      e.pat = pattern ∧ e.flags = flags ∧ e.re = re := by
  induction table generalizing table' with
  | nil => cases h
  | cons e es ih =>
    rw [hitLoop] at h
    by_cases hkey : e.flags = flags ∧ e.pat = pattern
    · rw [if_pos hkey] at h
      cases h
      exact ⟨e, es, .refl _, .refl _, hkey.2, hkey.1, rfl⟩
    · rw [if_neg hkey] at h
      obtain ⟨r, hr, ⟨⟩⟩ := map_eq_some_iff.1 h
      obtain ⟨x, rest, hperm, hperm', hrest⟩ := ih hr
      exact ⟨x, e :: rest, (hperm.cons e).trans (.swap ..), (hperm'.cons e).trans (.swap ..), hrest⟩

theorem hitLoop_none {pattern : List UInt8} {flags : Int} {clock : Nat} {table : List Entry}
    (h : hitLoop pattern flags clock table = none) : ∀ e ∈ table, (e.pat, e.flags) ≠ (pattern, flags) := by
  induction table with
  | nil =>
    intro e he
    cases he
  | cons x es ih =>
    rw [hitLoop] at h
    by_cases hkey : x.flags = flags ∧ x.pat = pattern
    · rw [if_pos hkey] at h
      cases h
    · rw [if_neg hkey, map_eq_none_iff] at h
      intro e he
      rcases mem_cons.1 he with rfl | he
      · intro heq
        obtain ⟨hp, hf⟩ := Prod.mk.inj heq
        exact hkey ⟨hf, hp⟩
      · exact ih h e he

theorem dropLoop_some {re : Addr} {table table' : List Entry} (h : dropLoop re table = some table') :
    ∃ e rest, table.Perm (e :: rest) ∧
      table'.Perm ((if 0 < e.refs then { e with refs := e.refs - 1 } else e) :: rest) ∧ e.re = re := by
  induction table generalizing table' with
  | nil => cases h
  | cons e es ih =>
    rw [dropLoop] at h
    by_cases hre : e.re = re
    · rw [if_pos hre] at h
      cases h
      exact ⟨e, es, .refl _, .refl _, hre⟩
    · rw [if_neg hre] at h
      obtain ⟨r, hr, rfl⟩ := map_eq_some_iff.1 h
      obtain ⟨x, rest, hperm, hperm', hrest⟩ := ih hr
      exact ⟨x, e :: rest, (hperm.cons e).trans (.swap ..), (hperm'.cons e).trans (.swap ..), hrest⟩

theorem dropLoop_none {re : Addr} {table : List Entry} (h : dropLoop re table = none) : ∀ e ∈ table, e.re ≠ re := by
  induction table with
  | nil =>
    intro e he
    cases he
  | cons x es ih =>
    rw [dropLoop] at h
    by_cases hre : x.re = re
    · rw [if_pos hre] at h
      cases h
    · rw [if_neg hre, map_eq_none_iff] at h
      intro e he
      rcases mem_cons.1 he with rfl | he
      · exact hre
      · exact ih h e he

/-- The search starts anywhere with a candidate that it may keep. -/
theorem slotLoop_get {pre table : List Entry} {slot : Option (Nat × Entry)}
    (hslot : ∀ j x, slot = some (j, x) → (pre ++ table)[j]? = some x ∧ x.refs = 0) {i : Nat} {old : Entry}
    (h : slotLoop pre.length slot table = some (i, old)) : (pre ++ table)[i]? = some old ∧ old.refs = 0 := by
  induction table generalizing pre slot with
  | nil => exact hslot i old h
  | cons e es ih =>
    have happ : pre ++ e :: es = (pre ++ [e]) ++ es := by rw [append_assoc]; rfl
    have hlen : pre.length + 1 = (pre ++ [e]).length := by rw [length_append]; rfl
    unfold slotLoop at h
    rw [hlen] at h
    rw [happ] at hslot ⊢
    have hhere : ((pre ++ [e]) ++ es)[pre.length]? = some e := by rw [← happ]; simp
    by_cases hrefs : e.refs ≠ 0
    · rw [if_pos hrefs] at h
      exact ih hslot h
    · rw [if_neg hrefs] at h
      have hnew : ∀ j x, some (pre.length, e) = some (j, x) → ((pre ++ [e]) ++ es)[j]? = some x ∧ x.refs = 0 := by
        intro j x heq
        cases heq
        exact ⟨hhere, not_not.1 hrefs⟩
      cases slot with
      | none => exact ih hnew h
      | some best =>
        dsimp only at h
        split at h
        · exact ih hnew h
        · exact ih hslot h

theorem slotLoop_some {table : List Entry} {i : Nat} {old : Entry} (h : slotLoop 0 none table = some (i, old)) (e : Entry) :
    ∃ rest, table.Perm (old :: rest) ∧ (table.set i e).Perm (e :: rest) ∧ old.refs = 0 := by
  have hnone : ∀ (j : Nat) (x : Entry), (none : Option (Nat × Entry)) = some (j, x) →
      (([] : List Entry) ++ table)[j]? = some x ∧ x.refs = 0 := by
    intro j x hc
    cases hc
  obtain ⟨hget, hrefs⟩ := @slotLoop_get [] table none hnone i old h
  rw [nil_append] at hget
  obtain ⟨hlt, hget⟩ := List.getElem?_eq_some_iff.1 hget
  have hcut : table = table.take i ++ old :: table.drop (i + 1) := by
    rw [← hget, getElem_cons_drop, take_append_drop]
  refine ⟨table.take i ++ table.drop (i + 1), ?_, ?_, hrefs⟩
  · nth_rewrite 1 [hcut]
    exact perm_middle
  · rw [set_eq_take_append_cons_drop, if_pos hlt]
    exact perm_middle

/-! ### The books -/

def Cache.res {T : Type} (c : Cache T) : List Addr := c.table.map (·.re)

/-- Every pattern in use is in the table with its count, handed out once without being there, or new and its compiler's own;
    and it has not been freed. -/
structure Inv {T : Type} (c : Cache T) : Prop where
  size : c.table.length ≤ cacheMax
  keys : (c.table.map fun e => (e.pat, e.flags)).Nodup
  res : c.res.Nodup
  refs : ∀ e ∈ c.table, e.refs = c.outstanding e.re
  few : ∀ re, c.outstanding re < 2 ^ 31
  once : ∀ re, re ∉ c.res → c.outstanding re ≤ 1
  stored : ∀ re ∈ c.res, re ∈ c.live
  held : ∀ r ∈ c.held, r.2 ∈ c.live
  own : ∀ t pattern flags re, c.pc t = .compiled pattern flags re → re ∈ c.live ∧ re ∉ c.res ∧ c.outstanding re = 0
  apart : ∀ t u pattern flags pattern' flags' re, c.pc t = .compiled pattern flags re →
    c.pc u = .compiled pattern' flags' re → t = u

theorem mem_res_of_perm {table rest : List Entry} {e : Entry} (h : table.Perm (e :: rest)) :
    (table.map (·.re)).Perm (e.re :: rest.map (·.re)) := h.map (·.re)

section
variable {T : Type} [DecidableEq T] {c : Cache T} {pattern : List UInt8} {flags : Int} {re : Addr} {t : T}

omit [DecidableEq T] in
theorem Inv.init : Inv (.init : Cache T) where
  size := Nat.zero_le _
  keys := nodup_nil
  res := nodup_nil
  refs e he := by cases he
  few re := by simp [Cache.outstanding, Cache.init]
  once re _ := Nat.zero_le _
  stored re hre := by cases hre
  held r hr := by cases hr
  own t pattern flags re h := by cases h
  apart t u pattern flags pattern' flags' re h _ := by cases h

omit [DecidableEq T] in
/-- The order of the table and its clock do not matter. -/
theorem Inv.perm {table : List Entry} (h : Inv c) (hperm : table.Perm c.table) (clock : Nat) :
    Inv { c with table := table, clock := clock } := by
  have hres : ∀ re, re ∈ table.map (·.re) ↔ re ∈ c.res := fun re => (hperm.map (·.re)).mem_iff
  refine ⟨hperm.length_eq ▸ h.size, (hperm.map _).nodup_iff.2 h.keys, (hperm.map _).nodup_iff.2 h.res, ?_, h.few, ?_, ?_,
    h.held, ?_, h.apart⟩
  · intro e he
    exact h.refs e (hperm.mem_iff.1 he)
  · intro re hre
    exact h.once re fun hc => hre ((hres re).2 hc)
  · intro re hre
    exact h.stored re ((hres re).1 hre)
  · intro t pattern flags re hpc
    obtain ⟨hlive, hout, hzero⟩ := h.own t pattern flags re hpc
    exact ⟨hlive, fun hc => hout ((hres re).1 hc), hzero⟩

@[simp] theorem outstanding_give (t : T) (re re' : Addr) :
    (c.give t re).outstanding re' = c.outstanding re' + if re = re' then 1 else 0 := by
  simp [Cache.outstanding, Cache.give, countP_cons]

/-- A thread that is given something has nothing of its own left. -/
theorem give_pc {t u : T} {re re' : Addr}
    (h : (c.give t re).pc u = .compiled pattern flags re') : u ≠ t ∧ c.pc u = .compiled pattern flags re' := by
  have hpc : update c.pc t Pc.idle u = .compiled pattern flags re' := h
  by_cases hu : u = t
  · subst hu
    rw [update_self] at hpc
    cases hpc
  · rw [update_of_ne hu] at hpc
    exact ⟨hu, hpc⟩

/-- The counter of an entry and the references to it grow together. -/
theorem Inv.hit {table rest : List Entry} {e : Entry} {clock : Nat} (h : Inv c) (t : T) (hperm : c.table.Perm (e :: rest))
    (hperm' : table.Perm ({ e with used := clock, refs := int (e.refs + 1) } :: rest))
    (hfew : c.outstanding e.re < 2 ^ 31 - 1) : Inv ({ c with table := table, clock := clock }.give t e.re) := by
  have he : e ∈ c.table := hperm.mem_iff.2 mem_cons_self
  have hlive : e.re ∈ c.live := h.stored e.re (List.mem_map_of_mem he)
  have hres : (table.map (·.re)).Perm c.res := (mem_res_of_perm hperm').trans (mem_res_of_perm hperm).symm
  have hkeys : (table.map fun e => (e.pat, e.flags)).Perm (c.table.map fun e => (e.pat, e.flags)) :=
    List.Perm.trans (hperm'.map fun e => (e.pat, e.flags)) (hperm.map fun e => (e.pat, e.flags)).symm
  -- the other entries have other addresses
  have hother : ∀ x ∈ rest, e.re ≠ x.re := by
    intro x hx heq
    have hnodup := (mem_res_of_perm hperm).nodup_iff.1 h.res
    exact (nodup_cons.1 hnodup).1 (heq ▸ List.mem_map_of_mem hx)
  have hcount : int (e.refs + 1) = ((c.outstanding e.re + 1 : Nat) : Int) := by
    rw [h.refs e he]
    exact Int.bmod_eq_of_le (by omega) (by omega)
  have hout : ∀ re, ({ c with table := table, clock := clock }.give t e.re).outstanding re =
      c.outstanding re + if e.re = re then 1 else 0 := outstanding_give t e.re
  have hlen : table.length = c.table.length := (hperm'.length_eq).trans hperm.length_eq.symm
  refine ⟨Nat.le_trans (Nat.le_of_eq hlen) h.size, hkeys.nodup_iff.2 h.keys, hres.nodup_iff.2 h.res, ?_, ?_, ?_, ?_, ?_, ?_, ?_⟩
  · intro x hx
    rw [hout]
    rcases mem_cons.1 (hperm'.mem_iff.1 hx) with rfl | hx
    · rw [if_pos rfl]
      exact hcount
    · rw [if_neg (hother x hx)]
      exact h.refs x (hperm.mem_iff.2 (mem_cons_of_mem _ hx))
  · intro re
    rw [hout]
    have := h.few re
    split
    · subst_vars
      omega
    · omega
  · intro re hre
    have hne : e.re ≠ re := by
      rintro rfl
      exact hre (hres.mem_iff.2 (List.mem_map_of_mem he))
    rw [hout, if_neg hne]
    exact h.once re fun hc => hre (hres.mem_iff.2 hc)
  · intro re hre
    exact h.stored re (hres.mem_iff.1 hre)
  · intro r hr
    rcases mem_cons.1 hr with rfl | hr
    · exact hlive
    · exact h.held r hr
  · intro u pattern flags re hpc
    obtain ⟨hlive', hnot, hzero⟩ := h.own u pattern flags re (give_pc hpc).2
    have hne : e.re ≠ re := by
      rintro rfl
      exact hnot (List.mem_map_of_mem he)
    refine ⟨hlive', fun hc => hnot (hres.mem_iff.1 hc), ?_⟩
    rw [hout, if_neg hne]
    exact hzero
  · intro u v pattern flags pattern' flags' re hu hv
    exact h.apart u v pattern flags pattern' flags' re (give_pc hu).2 (give_pc hv).2

omit [DecidableEq T] in
/-- What is not in the table, not held and nobody's own can be freed. -/
theorem Inv.free (h : Inv c) (hres : re ∉ c.res) (hzero : c.outstanding re = 0)
    (hown : ∀ t pattern flags, c.pc t ≠ .compiled pattern flags re) : Inv (c.free re) := by
  have hlive : ∀ x, x ∈ c.live → x ≠ re → x ∈ (c.free re).live := fun x hx hne =>
    mem_filter.2 ⟨hx, decide_eq_true hne⟩
  refine ⟨h.size, h.keys, h.res, h.refs, h.few, h.once, ?_, ?_, ?_, h.apart⟩
  · intro x hx
    exact hlive x (h.stored x hx) (fun hc => hres (hc ▸ hx))
  · intro r hr
    refine hlive r.2 (h.held r hr) fun hc => ?_
    have := countP_eq_zero.1 hzero r hr
    exact this (decide_eq_true hc)
  · intro t pattern flags x hpc
    obtain ⟨hx, hout, hz⟩ := h.own t pattern flags x hpc
    exact ⟨hlive x hx (fun hc => hown t pattern flags (hc ▸ hpc)), hout, hz⟩

theorem Inv.uncached (h : Inv c)
    (hpc : c.pc t = .compiled pattern flags re) : Inv (c.give t re) := by
  obtain ⟨hlive, hnot, hzero⟩ := h.own t pattern flags re hpc
  refine ⟨h.size, h.keys, h.res, ?_, ?_, ?_, h.stored, ?_, ?_, ?_⟩
  · intro e he
    have hne : re ≠ e.re := fun hc => hnot (hc ▸ List.mem_map_of_mem he)
    rw [outstanding_give, if_neg hne]
    exact h.refs e he
  · intro x
    have := h.few x
    rw [outstanding_give]
    split
    · subst_vars
      omega
    · omega
  · intro x hx
    have := h.once x hx
    rw [outstanding_give]
    split
    · subst_vars
      omega
    · omega
  · intro r hr
    rcases mem_cons.1 hr with rfl | hr
    · exact hlive
    · exact h.held r hr
  · intro u pattern' flags' x hu
    obtain ⟨hne, hu⟩ := give_pc hu
    obtain ⟨hx, hout, hz⟩ := h.own u pattern' flags' x hu
    have hre : re ≠ x := by
      rintro rfl
      exact hne (h.apart u t pattern' flags' pattern flags re hu hpc)
    refine ⟨hx, hout, ?_⟩
    rw [outstanding_give, if_neg hre, hz]
  · intro u v pattern' flags' pattern'' flags'' x hu hv
    exact h.apart u v pattern' flags' pattern'' flags'' x (give_pc hu).2 (give_pc hv).2

theorem Inv.store (h : Inv c) (used : Nat)
    (hpc : c.pc t = .compiled pattern flags re) (hsize : c.table.length < cacheMax)
    (hkey : ∀ e ∈ c.table, (e.pat, e.flags) ≠ (pattern, flags)) :
    Inv ({ c with table := ⟨pattern, flags, re, used, 1⟩ :: c.table }.give t re) := by
  obtain ⟨hlive, hnot, hzero⟩ := h.own t pattern flags re hpc
  have hinv := h.uncached hpc
  have hout : ∀ x, ({ c with table := ⟨pattern, flags, re, used, 1⟩ :: c.table }.give t re).outstanding x =
      (c.give t re).outstanding x := fun x => rfl
  refine ⟨hsize, ?_, nodup_cons.2 ⟨hnot, h.res⟩, ?_, hinv.few, ?_, ?_, hinv.held, ?_, hinv.apart⟩
  · refine nodup_cons.2 ⟨?_, h.keys⟩
    intro hmem
    obtain ⟨e, he, heq⟩ := List.mem_map.1 hmem
    exact hkey e he heq
  · intro e he
    rw [hout]
    rcases mem_cons.1 he with rfl | he
    · rw [outstanding_give, if_pos rfl, hzero]
      rfl
    · exact hinv.refs e he
  · intro x hx
    exact hinv.once x fun hc => hx (mem_cons_of_mem _ hc)
  · intro x hx
    rcases mem_cons.1 hx with rfl | hx
    · exact hlive
    · exact h.stored x hx
  · intro u pattern' flags' x hu
    obtain ⟨hx, hnot', hz⟩ := hinv.own u pattern' flags' x hu
    refine ⟨hx, ?_, hz⟩
    intro hmem
    rcases mem_cons.1 hmem with rfl | hmem
    · exact (give_pc hu).1 (h.apart u t pattern' flags' pattern flags _ (give_pc hu).2 hpc)
    · exact hnot' hmem

omit [DecidableEq T] in
/-- An entry without references leaves the table and is freed. -/
theorem Inv.evict {old : Entry} {rest : List Entry} (h : Inv c) (hperm : c.table.Perm (old :: rest))
    (hrefs : old.refs = 0) : c.outstanding old.re = 0 ∧ old.re ∈ c.live ∧ Inv ({ c with table := rest }.free old.re) := by
  have hold : old ∈ c.table := hperm.mem_iff.2 mem_cons_self
  have hzero : c.outstanding old.re = 0 := by
    have := h.refs old hold
    omega
  have hnodup := nodup_cons.1 ((mem_res_of_perm hperm).nodup_iff.1 h.res)
  have hsub : ∀ x, x ∈ rest.map (·.re) → x ∈ c.res := fun x hx =>
    (mem_res_of_perm hperm).mem_iff.2 (mem_cons_of_mem _ hx)
  have hsmaller : Inv { c with table := rest } := by
    refine ⟨?_, ?_, hnodup.2, ?_, h.few, ?_, ?_, h.held, ?_, h.apart⟩
    · have := hperm.length_eq
      have := h.size
      rw [length_cons] at *
      show rest.length ≤ cacheMax
      omega
    · exact (nodup_cons.1 ((hperm.map _).nodup_iff.1 h.keys)).2
    · intro e he
      exact h.refs e (hperm.mem_iff.2 (mem_cons_of_mem _ he))
    · intro x hx
      by_cases hxo : x = old.re
      · exact hxo ▸ Nat.le_trans (Nat.le_of_eq hzero) (Nat.zero_le _)
      · refine h.once x fun hc => ?_
        rcases mem_cons.1 ((mem_res_of_perm hperm).mem_iff.1 hc) with hc | hc
        · exact hxo hc
        · exact hx hc
    · intro x hx
      exact h.stored x (hsub x hx)
    · intro t pattern flags x hpc
      obtain ⟨hx, hnot, hz⟩ := h.own t pattern flags x hpc
      exact ⟨hx, fun hc => hnot (hsub x hc), hz⟩
  refine ⟨hzero, h.stored _ (List.mem_map_of_mem hold), hsmaller.free hnodup.1 hzero ?_⟩
  intro t pattern flags hpc
  exact (h.own t pattern flags _ hpc).2.1 (List.mem_map_of_mem hold)

/-! ### Steps -/

/-- What a step frees is in use before it, not after it, and held by nobody. -/
def FreedOk (c c' : Cache T) (freed : List Addr) : Prop :=
  freed.Nodup ∧ ∀ re ∈ freed, re ∈ c.live ∧ re ∉ c'.live ∧ c'.outstanding re = 0

omit [DecidableEq T] in
theorem freedOk_nil (c c' : Cache T) : FreedOk c c' [] := ⟨nodup_nil, nofun⟩

omit [DecidableEq T] in
theorem freedOk_free {c' : Cache T} (hlive : re ∈ c.live) (hzero : c'.outstanding re = 0) :
    FreedOk c (c'.free re) [re] := by
  refine ⟨nodup_singleton re, ?_⟩
  intro x hx
  obtain rfl := mem_singleton.1 hx
  refine ⟨hlive, ?_, hzero⟩
  intro hmem
  exact absurd rfl (of_decide_eq_true (mem_filter.1 hmem).2)

/-- A pattern that is in the table is found again after a miss, and the compiled one is freed; else it is stored or
    returned as it is. -/
theorem insert_spec (h : Inv c)
    (hpc : c.pc t = .compiled pattern flags re)
    (hfits : ∀ e ∈ c.table, e.pat = pattern → e.flags = flags → c.outstanding e.re < 2 ^ 31 - 1) :
    Inv (c.insert t pattern flags re).1 ∧ FreedOk c (c.insert t pattern flags re).1 (c.insert t pattern flags re).2 := by
  obtain ⟨hlive, hnot, hzero⟩ := h.own t pattern flags re hpc
  unfold Cache.insert
  cases hhit : hitLoop pattern flags c.tick c.table with
  | some r =>
    obtain ⟨table, hit⟩ := r
    obtain ⟨e, rest, hperm, hperm', hpat, hflags, rfl⟩ := hitLoop_some hhit
    have he : e ∈ c.table := hperm.mem_iff.2 mem_cons_self
    have hne : e.re ≠ re := by
      rintro rfl
      exact hnot (List.mem_map_of_mem he)
    have hinv := h.hit t hperm hperm' (hfits e he hpat hflags)
    have hzero' : ({ c with table := table, clock := c.tick }.give t e.re).outstanding re = 0 := by
      have := outstanding_give (c := { c with table := table, clock := c.tick }) t e.re re
      rw [if_neg hne] at this
      exact this.trans hzero
    refine ⟨hinv.free ?_ hzero' ?_, freedOk_free hlive hzero'⟩
    · intro hmem
      have hres := (mem_res_of_perm hperm').trans (mem_res_of_perm hperm).symm
      exact hnot (hres.mem_iff.1 hmem)
    · intro u pattern' flags' hu
      obtain ⟨hut, hu⟩ := give_pc hu
      exact hut (h.apart u t pattern' flags' pattern flags re hu hpc)
  | none =>
    have hkey := hitLoop_none hhit
    dsimp only
    by_cases hsize : c.table.length < cacheMax
    · rw [if_pos hsize]
      have hperm := perm_append_singleton (⟨pattern, flags, re, c.tick, 1⟩ : Entry) c.table
      exact ⟨(h.store c.tick hpc hsize hkey).perm hperm c.tick, freedOk_nil _ _⟩
    · rw [if_neg hsize]
      cases hslot : slotLoop 0 none c.table with
      | none => exact ⟨h.uncached hpc, freedOk_nil _ _⟩
      | some r =>
        obtain ⟨slot, old⟩ := r
        obtain ⟨rest, hperm, hperm', hrefs⟩ := slotLoop_some hslot ⟨pattern, flags, re, c.tick, 1⟩
        obtain ⟨hzero', hlive', hinv⟩ := h.evict hperm hrefs
        have hold : old ∈ c.table := hperm.mem_iff.2 mem_cons_self
        have hne : re ≠ old.re := fun hc => hnot (hc ▸ List.mem_map_of_mem hold)
        have hsize' : rest.length < cacheMax := by
          have h1 := hperm.length_eq
          have h2 := h.size
          rw [length_cons] at h1
          omega
        have hstored := hinv.store c.tick hpc hsize' (fun e he => hkey e (hperm.mem_iff.2 (mem_cons_of_mem _ he)))
        refine ⟨hstored.perm hperm' c.tick, freedOk_free hlive' ?_⟩
        have := outstanding_give
          (c := { c with table := c.table.set slot ⟨pattern, flags, re, c.tick, 1⟩, clock := c.tick }) t re old.re
        rw [if_neg hne] at this
        exact this.trans hzero'

theorem Inv.goto {pc : Pc} (h : Inv c) (hpc : ∀ pattern flags re, pc ≠ .compiled pattern flags re) :
    Inv { c with pc := update c.pc t pc } := by
  have hold : ∀ u pattern flags re, update c.pc t pc u = .compiled pattern flags re →
      c.pc u = .compiled pattern flags re := by
    intro u pattern flags re hu
    by_cases hut : u = t
    · subst hut
      rw [update_self] at hu
      exact absurd hu (hpc pattern flags re)
    · rwa [update_of_ne hut] at hu
  refine ⟨h.size, h.keys, h.res, h.refs, h.few, h.once, h.stored, h.held, ?_, ?_⟩
  · intro u pattern flags re hu
    exact h.own u pattern flags re (hold u pattern flags re hu)
  · intro u v pattern flags pattern' flags' re hu hv
    exact h.apart u v pattern flags pattern' flags' re (hold u pattern flags re hu) (hold v pattern' flags' re hv)

theorem Inv.compile (h : Inv c) (hnew : re ∉ c.live) :
    Inv { c with pc := update c.pc t (.compiled pattern flags re), live := re :: c.live } := by
  have hres : re ∉ c.res := fun hc => hnew (h.stored re hc)
  have hzero : c.outstanding re = 0 := by
    refine countP_eq_zero.2 fun r hr hc => ?_
    exact hnew (of_decide_eq_true hc ▸ h.held r hr)
  have hcases : ∀ u pattern' flags' re', update c.pc t (.compiled pattern flags re) u =
      .compiled pattern' flags' re' → (u = t ∧ re' = re) ∨ (u ≠ t ∧ c.pc u = .compiled pattern' flags' re') := by
    intro u pattern' flags' re' hu
    by_cases hut : u = t
    · subst hut
      rw [update_self] at hu
      exact .inl ⟨rfl, (Pc.compiled.inj hu).2.2.symm⟩
    · rw [update_of_ne hut] at hu
      exact .inr ⟨hut, hu⟩
  refine ⟨h.size, h.keys, h.res, h.refs, h.few, h.once, ?_, ?_, ?_, ?_⟩
  · intro x hx
    exact mem_cons_of_mem _ (h.stored x hx)
  · intro r hr
    exact mem_cons_of_mem _ (h.held r hr)
  · intro u pattern' flags' re' hu
    rcases hcases u pattern' flags' re' hu with ⟨-, rfl⟩ | ⟨-, hu⟩
    · exact ⟨mem_cons_self, hres, hzero⟩
    · obtain ⟨hl, hr, hz⟩ := h.own u pattern' flags' re' hu
      exact ⟨mem_cons_of_mem _ hl, hr, hz⟩
  · intro u v pattern₁ flags₁ pattern₂ flags₂ re' hu hv
    rcases hcases u pattern₁ flags₁ re' hu with ⟨rfl, rfl⟩ | ⟨-, hu'⟩
    · rcases hcases v pattern₂ flags₂ re' hv with ⟨rfl, -⟩ | ⟨-, hv'⟩
      · rfl
      · exact absurd (h.own v pattern₂ flags₂ re' hv').1 hnew
    · rcases hcases v pattern₂ flags₂ re' hv with ⟨-, rfl⟩ | ⟨-, hv'⟩
      · exact absurd (h.own u pattern₁ flags₁ re' hu').1 hnew
      · exact h.apart u v pattern₁ flags₁ pattern₂ flags₂ re' hu' hv'

/-- A release counts down, or frees a pattern that is not in the table. -/
theorem release_spec (h : Inv c) (hheld : (t, re) ∈ c.held) :
    Inv (c.release t re).1 ∧ FreedOk c (c.release t re).1 (c.release t re).2 := by
  have hpos : 0 < c.outstanding re := countP_pos_iff.2 ⟨_, hheld, by simp⟩
  have hout : ∀ x, { c with held := c.held.erase (t, re) }.outstanding x = c.outstanding x - if re = x then 1 else 0 := by
    intro x
    simp [Cache.outstanding, countP_erase, hheld]
  have hle : ∀ x, { c with held := c.held.erase (t, re) }.outstanding x ≤ c.outstanding x := fun x => by
    rw [hout]
    exact Nat.sub_le _ _
  have hheld' : ∀ r ∈ c.held.erase (t, re), r ∈ c.held := fun r hr => mem_of_mem_erase hr
  unfold Cache.release
  dsimp only
  cases hdrop : dropLoop re c.table with
  | none =>
    have hne : ∀ e ∈ c.table, re ≠ e.re := fun e he hc => dropLoop_none hdrop e he hc.symm
    have hres : re ∉ c.res := by
      intro hmem
      obtain ⟨e, he, heq⟩ := List.mem_map.1 hmem
      exact hne e he heq.symm
    have hlast : { c with held := c.held.erase (t, re) }.outstanding re = 0 := by
      have := h.once re hres
      rw [hout, if_pos rfl]
      omega
    have hinv : Inv { c with held := c.held.erase (t, re) } := by
      refine ⟨h.size, h.keys, h.res, ?_, fun x => Nat.lt_of_le_of_lt (hle x) (h.few x), ?_, h.stored, ?_, ?_, h.apart⟩
      · intro e he
        rw [hout, if_neg (hne e he)]
        exact h.refs e he
      · intro x hx
        exact Nat.le_trans (hle x) (h.once x hx)
      · intro r hr
        exact h.held r (hheld' r hr)
      · intro u pattern flags x hu
        obtain ⟨hl, hr, hz⟩ := h.own u pattern flags x hu
        exact ⟨hl, hr, Nat.le_zero.1 (hz ▸ hle x)⟩
    refine ⟨hinv.free hres hlast ?_, freedOk_free (h.held _ hheld) hlast⟩
    intro u pattern flags hu
    have := (h.own u pattern flags re hu).2.2
    omega
  | some table =>
    obtain ⟨e, rest, hperm, hperm', rfl⟩ := dropLoop_some hdrop
    have he : e ∈ c.table := hperm.mem_iff.2 mem_cons_self
    have hrefs := h.refs e he
    have hpos' : 0 < e.refs := by omega
    rw [if_pos hpos'] at hperm'
    have hother : ∀ x ∈ rest, e.re ≠ x.re := by
      intro x hx heq
      have hnodup := (mem_res_of_perm hperm).nodup_iff.1 h.res
      exact (nodup_cons.1 hnodup).1 (heq ▸ List.mem_map_of_mem hx)
    have hres : (table.map (·.re)).Perm c.res := (mem_res_of_perm hperm').trans (mem_res_of_perm hperm).symm
    have hkeys : (table.map fun e => (e.pat, e.flags)).Perm (c.table.map fun e => (e.pat, e.flags)) :=
      List.Perm.trans (hperm'.map fun e => (e.pat, e.flags)) (hperm.map fun e => (e.pat, e.flags)).symm
    have hlen : table.length = c.table.length := (hperm'.length_eq).trans hperm.length_eq.symm
    refine ⟨⟨Nat.le_trans (Nat.le_of_eq hlen) h.size, hkeys.nodup_iff.2 h.keys, hres.nodup_iff.2 h.res, ?_,
      fun x => Nat.lt_of_le_of_lt (hle x) (h.few x), ?_, ?_, ?_, ?_, h.apart⟩, freedOk_nil _ _⟩
    · intro x hx
      show x.refs = ({ c with held := c.held.erase (t, e.re) }.outstanding x.re : Nat)
      rw [hout]
      rcases mem_cons.1 (hperm'.mem_iff.1 hx) with rfl | hx
      · rw [if_pos rfl]
        show e.refs - 1 = ((c.outstanding e.re - 1 : Nat) : Int)
        omega
      · rw [if_neg (hother x hx)]
        exact h.refs x (hperm.mem_iff.2 (mem_cons_of_mem _ hx))
    · intro x hx
      exact Nat.le_trans (hle x) (h.once x fun hc => hx (hres.mem_iff.2 hc))
    · intro x hx
      exact h.stored x (hres.mem_iff.1 hx)
    · intro r hr
      exact h.held r (hheld' r hr)
    · intro u pattern flags x hu
      obtain ⟨hl, hr, hz⟩ := h.own u pattern flags x hu
      exact ⟨hl, fun hc => hr (hres.mem_iff.1 hc), Nat.le_zero.1 (hz ▸ hle x)⟩

theorem step_spec {a : Act T} {c' : Cache T} {freed : List Addr} (h : Inv c) (hfits : a.Fits c)
    (hstep : c.step a = some (c', freed)) : Inv c' ∧ FreedOk c c' freed := by
  cases a with
  | lookup t pattern flags =>
    obtain ⟨-, ⟨⟩⟩ := ite_none_right_eq_some.1 hstep
    refine ⟨?_, freedOk_nil _ _⟩
    unfold Cache.lookup
    cases hhit : hitLoop pattern flags c.tick c.table with
    | none => exact h.goto fun _ _ _ hc => by cases hc
    | some r =>
      obtain ⟨table, hit⟩ := r
      obtain ⟨e, rest, hperm, hperm', hpat, hflags, rfl⟩ := hitLoop_some hhit
      have he : e ∈ c.table := hperm.mem_iff.2 mem_cons_self
      exact h.hit t hperm hperm' (hfits t pattern flags (.inl rfl) e he hpat hflags)
  | compile t re =>
    rw [Cache.step] at hstep
    cases hpc : c.pc t with
    | missed pattern flags =>
      rw [hpc] at hstep
      cases re with
      | none =>
        cases hstep
        exact ⟨h.goto fun _ _ _ hc => (by cases hc), freedOk_nil _ _⟩
      | some re =>
        obtain ⟨hnew, ⟨⟩⟩ := ite_none_left_eq_some.1 hstep
        exact ⟨h.compile hnew, freedOk_nil _ _⟩
    | idle | compiled _ _ _ =>
      rw [hpc] at hstep
      cases hstep
  | insert t key =>
    rw [Cache.step] at hstep
    cases hpc : c.pc t with
    | compiled pattern flags re =>
      rw [hpc] at hstep
      cases key with
      | false =>
        cases hstep
        exact ⟨h.uncached hpc, freedOk_nil _ _⟩
      | true =>
        have hspec := insert_spec h hpc (hfits t pattern flags (.inr ⟨re, rfl, hpc⟩))
        rw [some.inj hstep] at hspec
        exact hspec
    | idle | missed _ _ =>
      rw [hpc] at hstep
      cases hstep
  | release t re =>
    obtain ⟨⟨-, hheld⟩, hout⟩ := ite_none_right_eq_some.1 hstep
    have hspec := release_spec h hheld
    rw [some.inj hout] at hspec
    exact hspec

theorem ReachFits.inv (h : ReachFits c) : Inv c := by
  induction h with
  | init => exact Inv.init
  | step _ hfits hstep ih => exact (step_spec ih hfits hstep).1

/-- The cache keeps its references: what a step frees was in use and is held by nobody, what a thread holds was not freed,
    no two entries have one pattern and flags, and the counters are right. -/
structure Safe (c : Cache T) : Prop where
  freed : ∀ a c' freed, a.Fits c → c.step a = some (c', freed) →
    freed.Nodup ∧ ∀ re ∈ freed, re ∈ c.live ∧ re ∉ c'.live ∧ ∀ t, (t, re) ∉ c'.held
  held : ∀ t re, (t, re) ∈ c.held → re ∈ c.live
  keys : (c.table.map fun e => (e.pat, e.flags)).Nodup
  refs : ∀ e ∈ c.table, e.refs = c.outstanding e.re

theorem cache_safe (h : ReachFits c) : Safe c where
  freed a c' freed hfits hstep := by
    obtain ⟨hnodup, hok⟩ := (step_spec h.inv hfits hstep).2
    refine ⟨hnodup, ?_⟩
    intro re hre
    obtain ⟨hlive, hgone, hzero⟩ := hok re hre
    refine ⟨hlive, hgone, ?_⟩
    intro t ht
    exact countP_eq_zero.1 hzero _ ht (decide_eq_true rfl)
  held t re ht := h.inv.held (t, re) ht
  keys := h.inv.keys
  refs := h.inv.refs

end

/-- Two threads compile the same pattern, the second one finds the first one's. -/
theorem cache_safe_raced : ∃ c : Cache Nat, ReachFits c ∧ Safe c ∧ c.held = [(2, 10), (1, 10)] ∧ c.live = [10] ∧
    c.table = [⟨[97], 0, 10, 2, 2⟩] := by
  have hempty {a : Act Nat} {c : Cache Nat} (h : c.table = []) : a.Fits c := by
    intro t pattern flags _ e he
    rw [h] at he
    cases he
  have h₁ := (ReachFits.init (T := Nat)).step (a := .lookup 1 [97] 0) (hempty rfl) rfl
  have h₂ := h₁.step (a := .lookup 2 [97] 0) (hempty rfl) rfl
  have h₃ := h₂.step (a := .compile 1 (some 10)) (hempty rfl) rfl
  have h₄ := h₃.step (a := .compile 2 (some 11)) (hempty rfl) rfl
  have h₅ := h₄.step (a := .insert 1 true) (hempty rfl) rfl
  have h₆ := h₅.step (a := .insert 2 true) (by
    intro t pattern flags _ e he _ _
    obtain rfl := mem_singleton.1 he
    decide) rfl
  exact ⟨_, h₆, cache_safe h₆, rfl, rfl, rfl⟩

/-! ### A counter that wraps -/

/-- One thread that holds `n` references to the only pattern. -/
def grabbed (n : Nat) : Cache Unit :=
  ⟨[⟨[97], 0, 0, n, int n⟩], n, fun _ => .idle, [0], replicate n ((), 0)⟩

theorem grabbed_lookup {n : Nat} (hlt : n + 1 < 2 ^ 64) :
    (grabbed n).step (.lookup () [97] 0) = some (grabbed (n + 1), []) := by
  have htick : (grabbed n).tick = n + 1 := Nat.mod_eq_of_lt hlt
  have hrefs : int (int n + 1) = int ((n + 1 : Nat) : Int) := by
    rw [int, int, int, Int.bmod_add_bmod, Int.natCast_add]
    rfl
  have htable : (grabbed n).table = [⟨[97], 0, 0, n, int n⟩] := rfl
  have hhit : hitLoop [97] 0 (n + 1) (grabbed n).table = some ([⟨[97], 0, 0, n + 1, int (int n + 1)⟩], 0) := by
    rw [htable, hitLoop, if_pos ⟨rfl, rfl⟩]
  have hpc : update (grabbed n).pc () Pc.idle = fun _ => Pc.idle := by
    funext u
    rfl
  have hlookup : (grabbed n).lookup () [97] 0 = grabbed (n + 1) := by
    rw [Cache.lookup, htick, hhit, hrefs]
    exact congrArg (fun pc => Cache.mk [⟨[97], 0, 0, n + 1, int ((n + 1 : Nat) : Int)⟩] (n + 1) pc [0]
      (replicate (n + 1) ((), 0))) hpc
  have hidle : (grabbed n).pc () = .idle := rfl
  rw [Cache.step, if_pos hidle, hlookup]

theorem reach_grabbed {n : Nat} (hpos : 0 < n) (hle : n < 2 ^ 64) : Reach (grabbed n) := by
  induction n with
  | zero => exact absurd hpos (Nat.lt_irrefl 0)
  | succ n ih =>
    rcases Nat.eq_zero_or_pos n with rfl | hn
    · have h₁ := (Reach.init (T := Unit)).step (a := .lookup () [97] 0) rfl
      have h₂ := h₁.step (a := .compile () (some 0)) rfl
      have h₃ := h₂.step (a := .insert () true) rfl
      have hpc : update (update (update (fun _ => Pc.idle) () (.missed [97] 0)) ()
          (.compiled [97] 0 0)) () Pc.idle = fun _ : Unit => Pc.idle := by
        funext u
        rfl
      have heq := congrArg (fun pc => Cache.mk [⟨[97], 0, 0, 1, 1⟩] 1 pc [0] [((), 0)]) hpc
      show Reach (Cache.mk [⟨[97], 0, 0, 1, 1⟩] 1 (fun _ => Pc.idle) [0] [((), 0)])
      rw [← heq]
      exact h₃
    · exact (ih hn (Nat.lt_of_succ_lt hle)).step (grabbed_lookup hle)

/-- With 2^31 references the counter of the entry is negative. -/
theorem refs_wrap : ∃ c : Cache Unit, Reach c ∧ ∃ e ∈ c.table, c.outstanding e.re = 2 ^ 31 ∧ e.refs = -2 ^ 31 := by
  refine ⟨grabbed (2 ^ 31), reach_grabbed (Nat.two_pow_pos 31) (Nat.pow_lt_pow_right (by decide) (by decide)),
    ⟨[97], 0, 0, 2 ^ 31, int (2 ^ 31 : Nat)⟩, mem_cons_self, ?_, by decide⟩
  show (replicate (2 ^ 31) ((), 0)).countP _ = 2 ^ 31
  rw [countP_replicate, if_pos (by decide)]

end Lunaria.Regex
