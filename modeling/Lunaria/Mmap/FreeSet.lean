import Lunaria.Mmap.Space

/-! The free list as a set of addresses. Giving a range back adds its whole blocks, unless rounding its start up wraps to
    zero; taking one removes the blocks that cover it. -/

namespace Lunaria.Mmap
open Word Vm Spans List

/-- The address lies in a block that is inside `[lo, hi)`. -/
def WholeBlocks (lo hi x : Nat) : Prop := lo ≤ x / mmapAlign * mmapAlign ∧ x / mmapAlign * mmapAlign + mmapAlign ≤ hi

/-- The address lies in a block that `[addr, addr + len)` meets. -/
def Covering (addr len x : Nat) : Prop := ∃ y, addr ≤ y ∧ y < addr + len ∧ y / mmapAlign = x / mmapAlign

/-- The list is sorted and made of whole blocks, and there is a gap between its ranges. -/
structure Tidy (l : List MmapSlab) : Prop where
  free : FreeOk l
  apart : l.Pairwise fun a b => a.hi < b.lo

/-- The free lists that words can be given to and taken from, from no free ranges on. -/
inductive FreeList : List MmapSlab → Prop
  | nil : FreeList []
  | insert {l : List MmapSlab} {lo hi : Nat} (h : FreeList l) (hlo : lo < 2 ^ 32) (hhi : hi < 2 ^ 32) :
    FreeList (mmapFreeInsert l lo hi)
  | take {l l' : List MmapSlab} {len addr : Nat} (h : FreeList l) (hlen : len < 2 ^ 32)
    (htake : mmapFreeTake len l = some (addr, l')) : FreeList l'

section Tidy
variable {l l' : List MmapSlab} {a : MmapSlab}

theorem Tidy.nil : Tidy [] := ⟨⟨.nil, by simp, by simp⟩, .nil⟩

/-- A range of whole blocks. -/
structure Block (a : MmapSlab) : Prop where
  lt : a.lo < a.hi
  aligned : mmapAlign ∣ a.lo ∧ mmapAlign ∣ a.hi
  bound : a.hi ≤ 2 ^ 32

theorem Tidy.block (h : Tidy l) (ha : a ∈ l) : Block a :=
  ⟨h.free.ordered.nonempty a ha, h.free.aligned a ha, h.free.bound a ha⟩

theorem Tidy.sublist (h : Tidy l) (hs : l'.Sublist l) : Tidy l' :=
  ⟨⟨h.free.ordered.sublist hs, fun s hs' => h.free.aligned s (hs.subset hs'), fun s hs' => h.free.bound s (hs.subset hs')⟩,
    h.apart.sublist hs⟩

theorem Tidy.tail (h : Tidy (a :: l)) : Tidy l := h.sublist (sublist_cons_self a l)

theorem Tidy.append (h : Tidy l) (h' : Tidy l') (hlt : ∀ a ∈ l, ∀ b ∈ l', a.hi < b.lo) : Tidy (l ++ l') := by
  refine ⟨⟨h.free.ordered.append h'.free.ordered fun a ha b hb => (hlt a ha b hb).le, fun s hs => ?_, fun s hs => ?_⟩,
    pairwise_append.2 ⟨h.apart, h'.apart, hlt⟩⟩
  · exact (mem_append.1 hs).elim (h.free.aligned s) (h'.free.aligned s)
  · exact (mem_append.1 hs).elim (h.free.bound s) (h'.free.bound s)

theorem Tidy.singleton (ha : Block a) : Tidy [a] := by
  refine ⟨⟨⟨pairwise_singleton _ a, ?_⟩, ?_, ?_⟩, pairwise_singleton _ a⟩
  · exact fun _ hs => (mem_singleton.1 hs) ▸ ha.lt
  · exact fun _ hs => (mem_singleton.1 hs) ▸ ha.aligned
  · exact fun _ hs => (mem_singleton.1 hs) ▸ ha.bound

theorem Tidy.cons (ha : Block a) (h : Tidy l) (hlt : ∀ b ∈ l, a.hi < b.lo) : Tidy (a :: l) :=
  (Tidy.singleton ha).append h fun _ hs b hb => (mem_singleton.1 hs) ▸ hlt b hb

theorem Tidy.lt (h : Tidy (a :: l)) : ∀ b ∈ l, a.hi < b.lo := (pairwise_cons.1 h.apart).1

/-- The ranges after a new one that it meets or touches become one with it. -/
theorem absorb_tidy : ∀ {after : List MmapSlab} {it : MmapSlab}, Tidy after → Block it → (∀ s ∈ after, it.lo ≤ s.lo) →
    Tidy (absorb it after) ∧ (∀ s ∈ absorb it after, it.lo ≤ s.lo) ∧
      ∀ x, Within (absorb it after) x ↔ (it.lo ≤ x ∧ x < it.hi) ∨ Within after x
  | [], it, _, hit, _ => by
    refine ⟨.singleton hit, fun s hs => (mem_singleton.1 hs) ▸ le_rfl, fun x => ?_⟩
    rw [absorb, Within, Within, holds_cons]
    exact Iff.rfl
  | nxt :: rest, it, h, hit, hle => by
    have hnxt := h.block mem_cons_self
    have hlo := hle nxt mem_cons_self
    unfold absorb
    by_cases htouch : nxt.lo ≤ it.hi
    · rw [if_pos htouch]
      have hmerged : Block ⟨it.lo, max it.hi nxt.hi⟩ := by
        refine ⟨lt_of_lt_of_le hit.lt (Nat.le_max_left _ _), ⟨hit.aligned.1, ?_⟩, Nat.max_le.2 ⟨hit.bound, hnxt.bound⟩⟩
        rcases max_choice it.hi nxt.hi with heq | heq <;> simp only [heq]
        · exact hit.aligned.2
        · exact hnxt.aligned.2
      obtain ⟨htidy, hall, hsame⟩ := absorb_tidy h.tail hmerged fun s hs => hle s (mem_cons_of_mem _ hs)
      refine ⟨htidy, hall, fun x => ?_⟩
      have hone : (it.lo ≤ x ∧ x < max it.hi nxt.hi) ↔ (it.lo ≤ x ∧ x < it.hi) ∨ (nxt.lo ≤ x ∧ x < nxt.hi) := by
        have := hnxt.lt
        omega
      rw [hsame, hone, Within, Within, holds_cons, or_assoc]
      exact Iff.rfl
    · rw [if_neg htouch]
      have hlt : ∀ s ∈ nxt :: rest, it.hi < s.lo := by
        refine forall_mem_cons.2 ⟨by omega, fun s hs => ?_⟩
        have := h.lt s hs
        have := hnxt.lt
        omega
      refine ⟨.cons hit h hlt, forall_mem_cons.2 ⟨le_rfl, hle⟩, fun x => ?_⟩
      rw [Within, Within, holds_cons]
      exact Iff.rfl

end Tidy

/-! ### Giving a range back -/

section Insert
variable {l : List MmapSlab} {lo hi : Nat}

theorem within_append {x : Nat} {l' : List MmapSlab} : Within (l ++ l') x ↔ Within l x ∨ Within l' x := holds_append

theorem or_move {A B C N : Prop} : A ∨ (B ∨ N) ∨ C ↔ ((A ∨ B) ∨ C) ∨ N := by tauto

/-- A new range that meets or touches the one before it becomes one with that range. -/
theorem absorb_prev {pre after : List MmapSlab} {prev it : MmapSlab} (h : Tidy (pre ++ [prev] ++ after)) (hit : Block it)
    (hlt : prev.lo < it.lo) (htouch : it.lo ≤ prev.hi) :
    Tidy (pre ++ absorb ⟨prev.lo, max prev.hi it.hi⟩ after) ∧
      ∀ x, Within (pre ++ absorb ⟨prev.lo, max prev.hi it.hi⟩ after) x ↔
        Within (pre ++ [prev] ++ after) x ∨ (it.lo ≤ x ∧ x < it.hi) := by
  have hpb : Block prev := h.block (by simp)
  have hpairs := pairwise_append.1 h.apart
  have hmerged : Block ⟨prev.lo, max prev.hi it.hi⟩ := by
    refine ⟨lt_of_lt_of_le hpb.lt (Nat.le_max_left _ _), ⟨hpb.aligned.1, ?_⟩, Nat.max_le.2 ⟨hpb.bound, hit.bound⟩⟩
    rcases max_choice prev.hi it.hi with heq | heq <;> simp only [heq]
    · exact hpb.aligned.2
    · exact hit.aligned.2
  have hafter : ∀ s ∈ after, prev.lo ≤ s.lo := fun s hs =>
    (hpb.lt.trans (hpairs.2.2 prev (by simp) s hs)).le
  obtain ⟨hok, hall, hsame⟩ := absorb_tidy (h.sublist (sublist_append_right _ after)) hmerged hafter
  constructor
  · refine (h.sublist ((sublist_append_left pre [prev]).trans (sublist_append_left _ after))).append hok ?_
    intro s hs t ht
    exact ((pairwise_append.1 hpairs.1).2.2 s hs prev (by simp)).trans_le (hall t ht)
  · intro x
    have hone : (prev.lo ≤ x ∧ x < max prev.hi it.hi) ↔ Within [prev] x ∨ (it.lo ≤ x ∧ x < it.hi) := by
      have hp : Within [prev] x ↔ prev.lo ≤ x ∧ x < prev.hi :=
        ⟨fun ⟨s, hs, hx⟩ => (mem_singleton.1 hs) ▸ hx, fun hx => ⟨prev, mem_singleton_self _, hx⟩⟩
      have := hpb.lt
      rw [hp]
      omega
    rw [within_append, hsame, hone, or_move, within_append, within_append]

/-- The aligned range that is put on the list. -/
theorem mmapFreeInsert_tidy (h : Tidy l) (hhi : hi < 2 ^ 32) :
    Tidy (mmapFreeInsert l lo hi) ∧ ∀ x, Within (mmapFreeInsert l lo hi) x ↔
      Within l x ∨ (maskUp 64 mmapAlign lo % 2 ^ 32 ≤ x ∧ x < maskDown 32 mmapAlign hi) := by
  obtain ⟨hdnd, hdnle, -⟩ := maskDown_align hhi
  have hupd : mmapAlign ∣ maskUp 64 mmapAlign lo % 2 ^ 32 := by
    have hdvd : mmapAlign ∣ maskUp 64 mmapAlign lo := by
      have := maskDown_two_pow (w := 64) (k := 16) (x := add 64 lo (mmapAlign - 1)) (by omega) (Nat.mod_lt _ (by decide))
      exact Dvd.intro_left _ this.symm
    exact (Nat.dvd_mod_iff (by decide)).2 hdvd
  have hbound := hdnle.trans hhi.le
  unfold mmapFreeInsert
  dsimp only
  generalize maskUp 64 mmapAlign lo % 2 ^ 32 = lo' at *
  generalize maskDown 32 mmapAlign hi = hi' at *
  by_cases hgt : hi' ≤ lo'
  · rw [if_pos hgt]
    exact ⟨h, fun x => ⟨.inl, fun hx => hx.resolve_right fun hx => by omega⟩⟩
  rw [if_neg hgt]
  have hnew : Block ⟨lo', hi'⟩ := ⟨Nat.lt_of_not_le hgt, ⟨hupd, hdnd⟩, hbound⟩
  have hsplit := takeWhile_append_dropWhile (p := fun s : MmapSlab => decide (s.lo < lo')) (l := l)
  have hbefore : ∀ s ∈ l.takeWhile fun s => decide (s.lo < lo'), s.lo < lo' := fun s hs => Ordered.lt_of_mem_takeWhile hs
  have hafter : ∀ s ∈ l.dropWhile fun s => decide (s.lo < lo'), lo' ≤ s.lo := fun s hs =>
    h.free.ordered.le_of_mem_dropWhile s hs
  generalize l.takeWhile (fun s => decide (s.lo < lo')) = before at *
  generalize l.dropWhile (fun s => decide (s.lo < lo')) = after at *
  subst hsplit
  cases hprev : before.getLast?.filter fun prev => decide (lo' ≤ prev.hi) with
  | some prev =>
    obtain ⟨hlast, htouch⟩ := Option.filter_eq_some_iff.1 hprev
    obtain ⟨pre, rfl⟩ := getLast?_eq_some_iff.1 hlast
    dsimp only
    rw [dropLast_concat]
    exact absorb_prev h hnew (hbefore prev (by simp)) (of_decide_eq_true htouch)
  | none =>
    -- the last range before the new one ends below it, and so do those before that
    have hgap : ∀ s ∈ before, s.hi < lo' := by
      intro s hs
      rcases eq_nil_or_concat' before with rfl | ⟨pre, last, rfl⟩
      · cases hs
      · rw [getLast?_concat, Option.filter_eq_none_iff] at hprev
        have hlast : last.hi < lo' := by simpa using hprev
        exact ((h.free.ordered.sublist (sublist_append_left _ after)).le_getLast getLast?_concat s hs).trans_lt hlast
    obtain ⟨hok, hall, hsame⟩ := absorb_tidy (h.sublist (sublist_append_right before after)) hnew hafter
    refine ⟨(h.sublist (sublist_append_left before after)).append hok fun s hs t ht => ?_, fun x => ?_⟩
    · exact lt_of_lt_of_le (hgap s hs) (hall t ht)
    · dsimp only
      rw [within_append, hsame, or_left_comm, or_comm, within_append]

/-- Rounding wraps to zero above the start of the last block. -/
theorem maskUp_word (hlo : lo < 2 ^ 32) :
    maskUp 64 mmapAlign lo % 2 ^ 32 = if lo ≤ 0xffff0000 then (lo + 65535) / 65536 * 65536 else 0 := by
  have h := maskUp_two_pow (w := 64) (k := 16) (x := lo) (by omega) (by omega)
  have hup : maskUp 64 mmapAlign lo = (lo + 65535) / 65536 * 65536 := h
  rw [hup]
  split <;> omega

/-- A range that is given back adds its whole blocks exactly if rounding its start up does not wrap, or if what is added
    then is free already. -/
theorem mmapFreeInsert_blocks (h : Tidy l) (hlt : lo < hi) (hhi : hi < 2 ^ 32) :
    (∀ x, Within (mmapFreeInsert l lo hi) x ↔ Within l x ∨ WholeBlocks lo hi x) ↔
      lo ≤ 0xffff0000 ∨ ∀ x < 0xffff0000, Within l x := by
  obtain ⟨-, hsame⟩ := @mmapFreeInsert_tidy l lo hi h hhi
  have hdown : maskDown 32 mmapAlign hi = hi / 65536 * 65536 := maskDown_two_pow (w := 32) (k := 16) (by omega) hhi
  have halign : mmapAlign = 65536 := rfl
  simp only [hsame, maskUp_word (hlt.trans hhi), hdown]
  by_cases hlo : lo ≤ 0xffff0000
  · refine iff_of_true (fun x => or_congr_right ?_) (.inl hlo)
    rw [if_pos hlo, WholeBlocks, halign]
    omega
  · rw [if_neg hlo, or_iff_right hlo]
    have hempty : ∀ x, ¬ WholeBlocks lo hi x := by
      rintro x ⟨h₁, h₂⟩
      rw [halign] at h₁ h₂
      omega
    constructor
    · intro hblocks x hx
      exact ((hblocks x).1 (.inr ⟨Nat.zero_le x, by omega⟩)).resolve_right (hempty x)
    · intro hall x
      refine ⟨fun hx => .inl (hx.elim id fun hx => hall x (by omega)), fun hx => .inl (hx.resolve_right (hempty x))⟩

end Insert

/-! ### Taking a range -/

section Take
variable {len x : Nat}

theorem covering_iff {addr : Nat} (haddr : mmapAlign ∣ addr) :
    Covering addr len x ↔ addr ≤ x ∧ x < (addr + len + 65535) / 65536 * 65536 := by
  obtain ⟨k, rfl⟩ := haddr
  have halign : mmapAlign = 65536 := rfl
  simp only [Covering, halign]
  constructor
  · rintro ⟨y, h₁, h₂, h₃⟩
    omega
  · rintro ⟨h₁, h₂⟩
    exact ⟨x / 65536 * 65536, by omega, by omega, by omega⟩

/-- First fit removes the blocks that cover what it gives away, all of them free. -/
theorem mmapFreeTake_tidy : ∀ {l l' : List MmapSlab} {addr : Nat}, Tidy l → len < 2 ^ 32 →
    mmapFreeTake len l = some (addr, l') →
    Tidy l' ∧ (∀ s ∈ l', ∃ a ∈ l, a.lo ≤ s.lo) ∧ (∀ x, Covering addr len x → Within l x) ∧
      ∀ x, Within l' x ↔ Within l x ∧ ¬ Covering addr len x
  | [], _, _, _, _, htake => by cases htake
  | it :: rest, l', addr, h, hlen, htake => by
    have hit := h.block mem_cons_self
    have hfirst : ∀ x, Within rest x → it.hi ≤ x := by
      rintro x ⟨s, hs, hx, -⟩
      exact (h.lt s hs).le.trans hx
    unfold mmapFreeTake at htake
    split at htake
    · obtain ⟨⟨addr', rest'⟩, hrest, ⟨⟩⟩ := Option.map_eq_some_iff.1 htake
      obtain ⟨htidy, hfrom, hin, hsame⟩ := mmapFreeTake_tidy h.tail hlen hrest
      have hlt : ∀ b ∈ rest', it.hi < b.lo := by
        intro b hb
        obtain ⟨a, ha, hle⟩ := hfrom b hb
        exact (h.lt a ha).trans_le hle
      refine ⟨.cons hit htidy hlt, ?_, fun x hx => holds_cons.2 (.inr (hin x hx)), fun x => ?_⟩
      · refine forall_mem_cons.2 ⟨⟨it, mem_cons_self, le_rfl⟩, fun b hb => ?_⟩
        obtain ⟨a, ha, hle⟩ := hfrom b hb
        exact ⟨a, mem_cons_of_mem _ ha, hle⟩
      · have hnot : Spans.Has MmapSlab.lo MmapSlab.hi it x → ¬ Covering addr' len x := fun hx hcov =>
          absurd (hfirst x (hin x hcov)) (Nat.not_le.2 hx.2)
        rw [Within, Within, holds_cons, holds_cons, ← Within, ← Within, hsame, or_and_right]
        exact or_congr_left (iff_self_and.2 hnot)
    · rename_i hfits
      cases htake
      have hup : maskUp 64 mmapAlign (it.lo + len) = (it.lo + len + 65535) / 65536 * 65536 :=
        maskUp_two_pow (w := 64) (k := 16) (by omega) (by have := hit.lt; have := hit.bound; omega)
      have hcov : ∀ x, Covering it.lo len x ↔ it.lo ≤ x ∧ x < maskUp 64 mmapAlign (it.lo + len) := fun x => by
        rw [covering_iff hit.aligned.1, hup]
      have hle : maskUp 64 mmapAlign (it.lo + len) ≤ it.hi := by
        obtain ⟨k, hk⟩ := hit.aligned.2
        have halign : mmapAlign = 65536 := rfl
        have := hit.lt
        rw [halign] at hk
        omega
      have hnext : mmapAlign ∣ maskUp 64 mmapAlign (it.lo + len) := by
        rw [hup]
        exact Dvd.intro_left _ rfl
      have hlow : it.lo ≤ maskUp 64 mmapAlign (it.lo + len) := by omega
      generalize maskUp 64 mmapAlign (it.lo + len) = next at *
      have hin : ∀ x, Within (it :: rest) x ∧ ¬ Covering it.lo len x ↔ (next ≤ x ∧ x < it.hi) ∨ Within rest x := by
        intro x
        have hrest := hfirst x
        have hhas : Spans.Has MmapSlab.lo MmapSlab.hi it x ↔ it.lo ≤ x ∧ x < it.hi := Iff.rfl
        rw [Within, holds_cons, ← Within, hhas, hcov]
        constructor
        · rintro ⟨hx | hx, hnot⟩
          · exact .inl ⟨by omega, hx.2⟩
          · exact .inr hx
        · rintro (hx | hx)
          · exact ⟨.inl ⟨by omega, hx.2⟩, by omega⟩
          · exact ⟨.inr hx, fun h => by have := hrest hx; omega⟩
      refine ⟨?_, ?_, fun x hx => holds_cons.2 (.inl ⟨((hcov x).1 hx).1, ((hcov x).1 hx).2.trans_le hle⟩), fun x => ?_⟩
      · split
        · exact h.tail
        · exact .cons ⟨by simp only; omega, ⟨hnext, hit.aligned.2⟩, hit.bound⟩ h.tail h.lt
      · intro s hs
        split at hs
        · exact ⟨s, mem_cons_of_mem _ hs, le_rfl⟩
        · rcases mem_cons.1 hs with rfl | hs
          · exact ⟨it, mem_cons_self, hlow⟩
          · exact ⟨s, mem_cons_of_mem _ hs, le_rfl⟩
      · rw [hin]
        split
        · exact ⟨.inr, fun hx => hx.resolve_left fun hx => by omega⟩
        · rw [Within, holds_cons]
          exact Iff.rfl

theorem FreeList.tidy {l : List MmapSlab} (h : FreeList l) : Tidy l := by
  induction h with
  | nil => exact .nil
  | insert h hlo hhi ih => exact (mmapFreeInsert_tidy ih hhi).1
  | take h hlen htake ih => exact (mmapFreeTake_tidy ih hlen htake).1

end Take

/-- The free list stays tidy; a range that is given back adds its whole blocks, exactly if rounding its start up does not
    wrap or the blocks that are added then are free already; first fit takes the blocks that cover what it gives away. -/
theorem free_list_denotes {l : List MmapSlab} (h : FreeList l) {lo hi : Nat} (hlt : lo < hi) (hhi : hi < 2 ^ 32) :
    (Tidy l ∧ Tidy (mmapFreeInsert l lo hi)) ∧
      ((∀ x, Within (mmapFreeInsert l lo hi) x ↔ Within l x ∨ WholeBlocks lo hi x) ↔
        lo ≤ 0xffff0000 ∨ ∀ x < 0xffff0000, Within l x) ∧
      ∀ len < 2 ^ 32, (mmapFreeTake len l = none ↔ ∀ s ∈ l, s.hi - s.lo < len) ∧
        ∀ addr l', mmapFreeTake len l = some (addr, l') →
          Tidy l' ∧ (∀ x, Covering addr len x → Within l x) ∧ ∀ x, Within l' x ↔ Within l x ∧ ¬ Covering addr len x := by
  refine ⟨⟨h.tidy, (h.insert (hlt.trans hhi) hhi).tidy⟩, mmapFreeInsert_blocks h.tidy hlt hhi, fun len hlen => ?_⟩
  refine ⟨mmapFreeTake_none, fun addr l' htake => ?_⟩
  obtain ⟨htidy, -, hin, hsame⟩ := mmapFreeTake_tidy h.tidy hlen htake
  exact ⟨htidy, hin, hsame⟩

/-- A range of pages and a block are given back, and then pages that they leave between them. -/
theorem free_list_denotes_gap :
    Within (mmapFreeInsert [⟨0x10000000, 0x10020000⟩, ⟨0x10030000, 0x10040000⟩] 0x1001f000 0x10031000) 0x10020000 ↔
      Within [⟨0x10000000, 0x10020000⟩, ⟨0x10030000, 0x10040000⟩] 0x10020000 ∨
        WholeBlocks 0x1001f000 0x10031000 0x10020000 := by
  have hfirst : FreeList (mmapFreeInsert [] 0x10000000 0x10020000) := .insert .nil (by decide) (by decide)
  have hlist : FreeList (mmapFreeInsert (mmapFreeInsert [] 0x10000000 0x10020000) 0x10030000 0x10040000) :=
    .insert hfirst (by decide) (by decide)
  exact (free_list_denotes hlist (by decide) (by decide)).2.1.2 (.inl (by decide)) 0x10020000

/-- The last pages but some of the address space are given back, and the whole address space below its last block is free. -/
theorem insert_wraps : FreeList [] ∧
    ¬ ∀ x, Within (mmapFreeInsert [] 0xffff1000 0xffff2000) x ↔ Within [] x ∨ WholeBlocks 0xffff1000 0xffff2000 x := by
  refine ⟨.nil, fun h => ?_⟩
  have hfree : Within (mmapFreeInsert [] 0xffff1000 0xffff2000) 0 := ⟨⟨0, 0xffff0000⟩, by decide, by decide⟩
  rcases (h 0).1 hfree with ⟨s, hs, -⟩ | ⟨hlo, -⟩
  · cases hs
  · exact absurd hlo (by decide)

end Lunaria.Mmap
