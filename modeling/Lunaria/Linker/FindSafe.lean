import Lunaria.Linker.Find

/-! When a search of an image that `ln64_add_elf` registered ends and stays in its tables. The filter and the buckets are
    always inside what the callback was asked for. Of the chain of `DT_GNU_HASH` only the first word is, and the chains of
    `DT_HASH` are followed without a count. -/

namespace Lunaria.Linker
open List Option

section Registered
variable {H : Host} {path : List UInt8} {bias dynamicOff : UInt32} {elfClass : Nat} {isGlobal isMain : Bool} {m : Module}

variable {off : UInt32}

theorem Host.table_size {H : Host} {n : Nat} {t : Table} (h : H.table off n = some t) : t.size = n := by
  simp only [Host.table, map_eq_some_iff] at h
  obtain ⟨a, -, rfl⟩ := h
  rfl

/-- The tables of a registered image, where it has them. -/
structure Covered (m : Module) : Prop where
  bucket : ∀ t, m.bucket = some t → t.size = m.nbucket.toNat * 4
  chain : ∀ t, m.chain = some t → t.size = m.nchain.toNat * 4
  gnu : m.gnuBucket.isSome → m.gnuBloomSize ≠ 0 ∧
    (∃ t, m.gnuBloom = some t ∧ t.size = m.gnuBloomSize.toNat * bloomBytes m.elf32) ∧
    (∃ t, m.gnuBucket = some t ∧ t.size = m.gnuNbucket.toNat * 4) ∧ ∃ t, m.gnuChain = some t ∧ t.size = 4

theorem sysvTables_size :
    (∀ t, (sysvTables H off).bucket = some t → t.size = (sysvTables H off).nbucket.toNat * 4) ∧
    ∀ t, (sysvTables H off).chain = some t → t.size = (sysvTables H off).nchain.toNat * 4 := by
  unfold sysvTables
  split
  · exact ⟨nofun, nofun⟩
  · split
    · exact ⟨nofun, nofun⟩
    · exact ⟨fun t h => Host.table_size h, fun t h => Host.table_size h⟩

theorem gnuTables_size {elf32 : Bool} {g : GnuTables} (hg : gnuTables H elf32 off = g)
    (h : g.bucket.isSome) : g.bloomSize ≠ 0 ∧
    (∃ t, g.bloom = some t ∧ t.size = g.bloomSize.toNat * bloomBytes elf32) ∧
    (∃ t, g.bucket = some t ∧ t.size = g.nbucket.toNat * 4) ∧ ∃ t, g.chain = some t ∧ t.size = 4 := by
  unfold gnuTables at hg
  dsimp only at hg
  split at hg
  · subst hg
    cases h
  split at hg
  · subst hg
    cases h
  split at hg
  · rename_i hsizes
    split at hg
    · subst hg
      cases h
    · rename_i hall
      simp only [not_or, isNone_iff_eq_none, ← ne_eq, ne_none_iff_exists'] at hall
      obtain ⟨⟨b, hb⟩, ⟨k, hk⟩, ⟨c, hc⟩⟩ := hall
      subst hg
      exact ⟨hsizes.2, ⟨b, hb, Host.table_size hb⟩, ⟨k, hk, Host.table_size hk⟩, ⟨c, hc, Host.table_size hc⟩⟩
  · subst hg
    cases h

theorem addElf_covered (hadd : addElf H path bias dynamicOff elfClass isGlobal isMain = some m) : Covered m := by
  unfold addElf at hadd
  split at hadd
  · cases hadd
  split at hadd
  · cases hadd
  dsimp only at hadd
  split at hadd
  · cases hadd
  cases hadd
  exact ⟨sysvTables_size.1, sysvTables_size.2, gnuTables_size rfl⟩

end Registered

section Search
variable {H : Host} {m : Module} {name : List UInt8} {h : UInt32} {want : Option (List UInt8)}

/-- A search ends, and all it does on the way is fine. -/
def Safe (search : Nat → Search) : Prop :=
  ∃ steps, (search steps).found.isSome ∧ ∀ a ∈ (search steps).accesses, a.Fine

theorem safe_const {s : Search} (hf : s.found.isSome) : Safe (fun _ => s) ↔ ∀ a ∈ s.accesses, a.Fine :=
  ⟨fun ⟨_, _, h⟩ => h, fun h => ⟨0, hf, h⟩⟩

theorem safe_after {before : List Access} {search : Nat → Search} :
    Safe (fun k => (search k).after before) ↔ (∀ a ∈ before, a.Fine) ∧ Safe search := by
  constructor
  · rintro ⟨k, hf, ha⟩
    simp only [Search.after_accesses, mem_append] at ha
    exact ⟨fun a h => ha a (.inl h), k, hf, fun a h => ha a (.inr h)⟩
  · rintro ⟨hb, k, hf, ha⟩
    refine ⟨k, hf, fun a h => ?_⟩
    rcases mem_append.1 h with h | h
    · exact hb a h
    · exact ha a h

/-! `DT_GNU_HASH`. -/

/-- Where a walk of the chain may end at a symbol: it answers, or its word ends the chain. -/
def GnuEnds (H : Host) (m : Module) (name : List UInt8) (h : UInt32) (want : Option (List UInt8)) (n : UInt32) : Prop :=
  let c := word H m.gnuChain (chainIndex m n)
  ((c ||| 1 = h ||| 1) ∧ answers H m name want n) ∨ c &&& 1 ≠ 0

variable {n : UInt32}

theorem gnuWalk_safe_iff (hc : ∃ t, m.gnuChain = some t ∧ t.size = 4) :
    Safe (fun k => gnuWalk H m name h want k n) ↔ n = m.gnuSymoffset ∧ GnuEnds H m name h want n := by
  obtain ⟨t, ht, hsize⟩ := hc
  have hfine : ∀ i, (Access.read m.gnuChain i 4).Fine ↔ i = 0 := by
    intro i
    simp only [Access.Fine, ht, Option.some.injEq, exists_eq_left', hsize]
    omega
  constructor
  · rintro ⟨k, hf, ha⟩
    cases k with
    | zero => cases hf
    | succ k =>
      dsimp only at hf ha
      rw [gnuWalk] at hf ha
      have hfirst : chainIndex m n = 0 := by
        refine (hfine _).1 (ha _ ?_)
        split
        · exact mem_singleton_self _
        split
        · exact mem_singleton_self _
        · exact mem_cons_self
      have hn : n = m.gnuSymoffset := by
        rw [chainIndex, ← UInt32.toNat_zero, UInt32.toNat_inj] at hfirst
        exact sub_eq_zero.1 hfirst
      refine ⟨hn, ?_⟩
      by_contra hends
      simp only [GnuEnds, not_or, not_not] at hends
      rw [if_neg hends.1, if_neg (not_not.2 hends.2)] at hf ha
      -- The walk goes on to the second word, which nothing covers.
      cases k with
      | zero => cases hf
      | succ k =>
        have hsecond : chainIndex m (n + 1) = 0 := by
          refine (hfine _).1 (ha _ ?_)
          rw [gnuWalk]
          refine mem_append_right _ ?_
          split
          · exact mem_singleton_self _
          split
          · exact mem_singleton_self _
          · exact mem_cons_self
        rw [hn, chainIndex, add_sub_cancel_left] at hsecond
        cases hsecond
  · rintro ⟨hn, hends⟩
    have hfirst : chainIndex m n = 0 := by
      rw [chainIndex, hn, sub_self]
      rfl
    refine ⟨1, ?_⟩
    dsimp only
    rw [gnuWalk]
    split
    · exact ⟨rfl, fun a ha => (mem_singleton.1 ha) ▸ (hfine _).2 hfirst⟩
    · rename_i hno
      rw [if_pos (hends.resolve_left hno)]
      exact ⟨rfl, fun a ha => (mem_singleton.1 ha) ▸ (hfine _).2 hfirst⟩

/-- What a search through `DT_GNU_HASH` needs of the table. -/
def GnuSearchable (H : Host) (m : Module) (name : List UInt8) (want : Option (List UInt8)) : Prop :=
  let h := gnuHash name
  let n := word H m.gnuBucket (h % m.gnuNbucket).toNat
  m.gnuBloomShift < 32 ∧
    (bloomPasses H m h = false ∨ n = 0 ∨ (n = m.gnuSymoffset ∧ GnuEnds H m name h want n))

theorem toNat_mod_lt {a b : UInt32} (hb : b ≠ 0) : (a % b).toNat < b.toNat := by
  rw [UInt32.toNat_mod]
  refine Nat.mod_lt _ (Nat.pos_of_ne_zero fun h0 => hb ?_)
  exact UInt32.toNat_inj.1 h0

theorem findGnu_safe_iff (hm : Covered m) (hb : m.gnuBucket.isSome) (hn : m.gnuNbucket ≠ 0) :
    Safe (findGnu H m name (gnuHash name) want) ↔ GnuSearchable H m name want := by
  obtain ⟨hbloom, ⟨t1, h1, hs1⟩, ⟨t2, h2, hs2⟩, hchain⟩ := hm.gnu hb
  have hfilter : (∀ a ∈ [Access.remainder m.gnuBloomSize, .shift m.gnuBloomShift,
      .read m.gnuBloom (bloomIndex m (gnuHash name)) (bloomBytes m.elf32)], a.Fine) ↔ m.gnuBloomShift < 32 := by
    have hread : (Access.read m.gnuBloom (bloomIndex m (gnuHash name)) (bloomBytes m.elf32)).Fine :=
      ⟨t1, h1, hs1 ▸ Nat.mul_le_mul_right _ (toNat_mod_lt hbloom)⟩
    simp only [mem_cons, not_mem_nil, or_false, forall_eq_or_imp, forall_eq, hread, and_true]
    exact and_iff_right hbloom
  have hbucket : ∀ a ∈ [Access.remainder m.gnuNbucket, .read m.gnuBucket (gnuHash name % m.gnuNbucket).toNat 4],
      a.Fine := by
    simp only [mem_cons, not_mem_nil, or_false, forall_eq_or_imp, forall_eq]
    exact ⟨hn, t2, h2, hs2 ▸ Nat.mul_le_mul_right _ (toNat_mod_lt hn)⟩
  unfold findGnu GnuSearchable
  dsimp only
  cases hpass : bloomPasses H m (gnuHash name) with
  | false =>
    rw [show (fun steps : Nat => _) = fun _ => _ from rfl]
    simp only [Bool.not_false, if_true]
    rw [safe_const rfl, hfilter]
    simp
  | true =>
    simp only [Bool.not_true, Bool.false_eq_true, if_false, false_or, reduceCtorEq]
    by_cases h0 : word H m.gnuBucket (gnuHash name % m.gnuNbucket).toNat = 0
    · simp only [h0, if_true, true_or, and_true]
      rw [safe_const rfl]
      simp only [forall_mem_append, hfilter]
      exact and_iff_left hbucket
    · simp only [h0, if_false, false_or]
      rw [safe_after, gnuWalk_safe_iff hchain]
      simp only [forall_mem_append, hfilter]
      rw [and_iff_left hbucket]

/-! `DT_HASH`. -/

/-- Where a walk of the links ends. -/
def SysvEnds (H : Host) (m : Module) (name : List UInt8) (want : Option (List UInt8)) (n : UInt32) : Prop :=
  n = 0 ∨ ¬ n < m.nchain ∨ answers H m name want n

def link (H : Host) (m : Module) (n : UInt32) : UInt32 := word H m.chain n.toNat

/-- The links from a symbol come to an end, and there are links where they are needed. -/
def SysvFollows (H : Host) (m : Module) (name : List UInt8) (want : Option (List UInt8)) (n : UInt32) : Prop :=
  (∃ k, SysvEnds H m name want ((link H m)^[k] n)) ∧ (SysvEnds H m name want n ∨ m.chain.isSome)

theorem sysvWalk_ends (he : SysvEnds H m name want n) (k : Nat) :
    ∃ r, sysvWalk H m name want (k + 1) n = ⟨[], some r⟩ := by
  rw [sysvWalk]
  rcases he with rfl | hn | ha
  · exact ⟨none, rfl⟩
  · rw [if_neg fun h => hn h.2]
    exact ⟨none, rfl⟩
  · rw [if_pos ha]
    split
    · exact ⟨some n, rfl⟩
    · exact ⟨none, rfl⟩

theorem sysvWalk_follow (he : ¬ SysvEnds H m name want n) (k : Nat) :
    sysvWalk H m name want (k + 1) n =
      (sysvWalk H m name want k (link H m n)).after [.read m.chain n.toNat 4] := by
  simp only [SysvEnds, not_or, not_not] at he
  rw [sysvWalk, if_pos ⟨he.1, he.2.1⟩, if_neg he.2.2]
  rfl

theorem read_chain_fine (hm : Covered m) (he : ¬ SysvEnds H m name want n) :
    (Access.read m.chain n.toNat 4).Fine ↔ m.chain.isSome := by
  constructor
  · rintro ⟨t, ht, -⟩
    rw [ht]
    rfl
  · intro hs
    obtain ⟨t, ht⟩ := isSome_iff_exists.1 hs
    simp only [SysvEnds, not_or, not_not] at he
    exact ⟨t, ht, hm.chain t ht ▸ Nat.mul_le_mul_right 4 he.2.1⟩

/-- A walk of so many steps gets to the end of the links. -/
theorem sysvWalk_fine (hm : Covered m) (hc : m.chain.isSome) : ∀ (k : Nat) (n : UInt32),
    SysvEnds H m name want ((link H m)^[k] n) →
      (sysvWalk H m name want (k + 1) n).found.isSome ∧ ∀ a ∈ (sysvWalk H m name want (k + 1) n).accesses, a.Fine := by
  intro k
  induction k with
  | zero =>
    intro n he
    obtain ⟨r, hr⟩ := sysvWalk_ends (n := n) he 0
    rw [hr]
    exact ⟨rfl, nofun⟩
  | succ k ih =>
    intro n he
    by_cases hn : SysvEnds H m name want n
    · obtain ⟨r, hr⟩ := sysvWalk_ends hn (k + 1)
      rw [hr]
      exact ⟨rfl, nofun⟩
    · rw [sysvWalk_follow hn]
      obtain ⟨hf, ha⟩ := ih (link H m n) he
      refine ⟨hf, fun a h => ?_⟩
      rcases mem_append.1 h with h | h
      · rw [mem_singleton.1 h]
        exact (read_chain_fine hm hn).2 hc
      · exact ha a h

theorem sysvWalk_found : ∀ (k : Nat) (n : UInt32), (sysvWalk H m name want k n).found.isSome →
    ∃ j, SysvEnds H m name want ((link H m)^[j] n) := by
  intro k
  induction k with
  | zero => intro n hf; cases hf
  | succ k ih =>
    intro n hf
    by_cases hn : SysvEnds H m name want n
    · exact ⟨0, hn⟩
    · rw [sysvWalk_follow hn] at hf
      obtain ⟨j, hj⟩ := ih _ hf
      exact ⟨j + 1, hj⟩

theorem sysvWalk_safe_iff (hm : Covered m) :
    Safe (fun k => sysvWalk H m name want k n) ↔ SysvFollows H m name want n := by
  constructor
  · rintro ⟨k, hf, ha⟩
    refine ⟨sysvWalk_found k n hf, or_iff_not_imp_left.2 fun hn => ?_⟩
    cases k with
    | zero => cases hf
    | succ k =>
      dsimp only at ha
      rw [sysvWalk_follow hn] at ha
      exact (read_chain_fine hm hn).1 (ha _ mem_cons_self)
  · rintro ⟨⟨k, hk⟩, hn | hc⟩
    · obtain ⟨r, hr⟩ := sysvWalk_ends hn 0
      refine ⟨1, ?_⟩
      dsimp only
      rw [hr]
      exact ⟨rfl, nofun⟩
    · exact ⟨k + 1, sysvWalk_fine hm hc k n hk⟩

/-- What a search through `DT_HASH` needs of the table. -/
def SysvSearchable (H : Host) (m : Module) (name : List UInt8) (want : Option (List UInt8)) : Prop :=
  SysvFollows H m name want (word H m.bucket (sysvHash name % m.nbucket).toNat)

theorem findSysv_safe_iff (hm : Covered m) (hb : m.bucket.isSome) (hn : m.nbucket ≠ 0) :
    Safe (findSysv H m name (sysvHash name) want) ↔ SysvSearchable H m name want := by
  obtain ⟨t, ht⟩ := isSome_iff_exists.1 hb
  have hbucket : ∀ a ∈ [Access.remainder m.nbucket, .read m.bucket (sysvHash name % m.nbucket).toNat 4], a.Fine := by
    simp only [mem_cons, not_mem_nil, or_false, forall_eq_or_imp, forall_eq]
    exact ⟨hn, t, ht, hm.bucket t ht ▸ Nat.mul_le_mul_right _ (toNat_mod_lt hn)⟩
  unfold findSysv SysvSearchable
  dsimp only
  rw [safe_after, sysvWalk_safe_iff hm, and_iff_right hbucket]

/-- What a search of an image needs of the hash table it uses. -/
def Searchable (H : Host) (m : Module) (name : List UInt8) (want : Option (List UInt8)) : Prop :=
  m.symtab.isSome → m.strtab.isSome →
    if m.gnuBucket.isSome ∧ m.gnuNbucket ≠ 0 then GnuSearchable H m name want
    else m.bucket.isSome → m.nbucket ≠ 0 → SysvSearchable H m name want

theorem modFind_safe_iff (hm : Covered m) : Safe (modFind H m name want) ↔ Searchable H m name want := by
  have hnothing : Safe (fun _ => ⟨[], some none⟩) := ⟨0, rfl, nofun⟩
  unfold Searchable
  by_cases htabs : m.symtab.isNone ∨ m.strtab.isNone
  · have hfind : modFind H m name want = fun _ => ⟨[], some none⟩ := by
      funext k
      rw [modFind, if_pos htabs]
    rw [hfind]
    refine iff_of_true hnothing fun h1 h2 => ?_
    rcases htabs with h | h
    · rw [isNone_iff_eq_none.1 h] at h1
      cases h1
    · rw [isNone_iff_eq_none.1 h] at h2
      cases h2
  · have hthere : m.symtab.isSome ∧ m.strtab.isSome := by
      simpa only [not_or, isNone_iff_eq_none, ← ne_eq, ne_none_iff_isSome] using htabs
    rw [hthere.1, hthere.2]
    simp only [true_imp_iff]
    by_cases hgnu : m.gnuBucket.isSome ∧ m.gnuNbucket ≠ 0
    · have hfind : modFind H m name want = findGnu H m name (gnuHash name) want := by
        funext k
        rw [modFind, if_neg htabs, if_pos hgnu]
      rw [hfind, if_pos hgnu]
      exact findGnu_safe_iff hm hgnu.1 hgnu.2
    · rw [if_neg hgnu]
      by_cases hsysv : m.bucket.isSome ∧ m.nbucket ≠ 0
      · have hfind : modFind H m name want = findSysv H m name (sysvHash name) want := by
          funext k
          rw [modFind, if_neg htabs, if_neg hgnu, if_pos hsysv]
        rw [hfind, findSysv_safe_iff hm hsysv.1 hsysv.2]
        exact ⟨fun h _ _ => h, fun h => h hsysv.1 hsysv.2⟩
      · have hfind : modFind H m name want = fun _ => ⟨[], some none⟩ := by
          funext k
          rw [modFind, if_neg htabs, if_neg hgnu, if_neg hsysv]
        rw [hfind]
        exact iff_of_true hnothing fun h1 h2 => absurd ⟨h1, h2⟩ hsysv

/-- A search of a registered image ends, divides by nothing, shifts by less than the width and stays in the tables exactly
    when it needs one word of the chain at most, or when the links it follows end. -/
theorem search_safe_iff {path : List UInt8} {bias dynamicOff : UInt32} {elfClass : Nat} {isGlobal isMain : Bool}
    (hadd : addElf H path bias dynamicOff elfClass isGlobal isMain = some m) :
    Safe (modFind H m name want) ↔ Searchable H m name want :=
  modFind_safe_iff (addElf_covered hadd)

end Search

/-! A library of two symbols, `f` and `g`, whose hash table has one bucket. -/

def twoSymbols : List UInt32 :=
  [0, 0, 0, 0,
    -- the dynamic segment: DT_STRTAB, DT_SYMTAB, DT_GNU_HASH
    5, 64, 6, 80, 0x6ffffef5, 144, 0, 0, 0, 0, 0, 0,
    0x67006600, 0, 0, 0,
    0, 0, 0, 0, 1, 0x1000, 4, 0x10012, 3, 0x1010, 4, 0x10012, 0, 0, 0, 0,
    -- one bucket, which starts at symbol 1; the chain words of `f` and `g`
    1, 1, 1, 5, 0xffffffff, 1, 177674, 177677]

theorem twoSymbols_loads : (addElf (Host.ofWords twoSymbols) [] 0 16 1 false false).isSome := by decide

theorem search_safe_iff_two_symbols : ∃ m, addElf (Host.ofWords twoSymbols) [] 0 16 1 false false = some m ∧
    (Safe (modFind (Host.ofWords twoSymbols) m [103] none) ↔ Searchable (Host.ofWords twoSymbols) m [103] none) := by
  obtain ⟨m, hm⟩ := isSome_iff_exists.1 twoSymbols_loads
  exact ⟨m, hm, search_safe_iff hm⟩

/-- The search for `g` goes on to the second word of the chain, of which only the first was asked for. -/
theorem search_past_chain : ∃ m, addElf (Host.ofWords twoSymbols) [] 0 16 1 false false = some m ∧
    (modFind (Host.ofWords twoSymbols) m [103] none 2).found = some (some 2) ∧
    ¬ Safe (modFind (Host.ofWords twoSymbols) m [103] none) := by
  have hrun : ∀ m, addElf (Host.ofWords twoSymbols) [] 0 16 1 false false = some m → (m.symtab.isSome ∧ m.strtab.isSome ∧
      m.gnuBucket.isSome ∧ m.gnuNbucket ≠ 0) ∧ bloomPasses (Host.ofWords twoSymbols) m (gnuHash [103]) = true ∧
      word (Host.ofWords twoSymbols) m.gnuBucket (gnuHash [103] % m.gnuNbucket).toNat = 1 ∧ (gnuHash [103] = 177676) ∧
      word (Host.ofWords twoSymbols) m.gnuChain (chainIndex m 1) = 177674 ∧
      (modFind (Host.ofWords twoSymbols) m [103] none 2).found = some (some 2) := by
    intro m hm
    rw [← some_get twoSymbols_loads] at hm
    cases hm
    decide +kernel
  obtain ⟨m, hm⟩ := isSome_iff_exists.1 twoSymbols_loads
  obtain ⟨⟨h1, h2, h3, h4⟩, hpass, hbucket, hhash, hword, hfound⟩ := hrun m hm
  refine ⟨m, hm, hfound, fun hsafe => ?_⟩
  have hneeds := (modFind_safe_iff (addElf_covered hm)).1 hsafe h1 h2
  rw [if_pos ⟨h3, h4⟩] at hneeds
  rcases hneeds.2 with h | h | ⟨-, h⟩
  · rw [hpass] at h
    cases h
  · rw [hbucket] at h
    cases h
  · rw [hbucket] at h
    simp only [GnuEnds, hword, hhash] at h
    rcases h with ⟨h, -⟩ | h
    · cases h
    · exact absurd h (by decide)

end Lunaria.Linker
