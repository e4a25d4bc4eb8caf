import Lunaria.Linker.Find

/-! The two hash tables of an image answer alike, where both are well formed and index its exported symbols. The entries
    of a bucket are a list, by which the walks go, and a walk finds the first of them that answers. -/

namespace Lunaria.Linker
open List Nat

section Tables
variable (H : Host) (m : Module)

/-- A definition, global or weak, of the symbol table, which has as many entries as the chains of `DT_HASH`. -/
def Exported (i : UInt32) : Prop := i ≠ 0 ∧ i < m.nchain ∧ symUsable (symbolAt H m i) = true

def Named (i : UInt32) (s : List UInt8) : Prop := symNamed H m (symbolAt H m i) s = true

/-- The version name of a definition, where it has one. -/
def VersionIs (i : UInt32) : Option (List UInt8) → Prop
  | none => (defVersion H m i).1 = none
  | some w => ∃ a, (defVersion H m i).1 = some a ∧ H.streq a w = true

/-- The entries of `DT_GNU_HASH` from a symbol on, up to the word that ends the chain. -/
inductive GnuChain : UInt32 → List UInt32 → Prop
  | last {n : UInt32} : word H m.gnuChain (chainIndex m n) &&& 1 ≠ 0 → GnuChain n [n]
  | more {n : UInt32} {l : List UInt32} : word H m.gnuChain (chainIndex m n) &&& 1 = 0 → GnuChain (n + 1) l →
      GnuChain n (n :: l)

/-- The entries of `DT_HASH` from a symbol on, by the links, up to the link to 0. -/
inductive SysvChain : UInt32 → List UInt32 → Prop
  | nil : SysvChain 0 []
  | cons {n : UInt32} {l : List UInt32} : n ≠ 0 → n < m.nchain → SysvChain (word H m.chain n.toNat) l →
      SysvChain n (n :: l)

/-- Both bits of a hash are in the filter. -/
def InFilter (h : UInt32) : Prop :=
  (bloomWord H m (bloomIndex m h)).testBit (h % bloomWidth m).toNat = true ∧
    (bloomWord H m (bloomIndex m h)).testBit ((h >>> m.gnuBloomShift) % bloomWidth m).toNat = true

/-- A well-formed `DT_GNU_HASH` that indexes every exported symbol. -/
structure GnuFormed : Prop where
  nbucket : m.gnuNbucket ≠ 0
  bloomSize : m.gnuBloomSize ≠ 0
  bloomShift : m.gnuBloomShift < 32
  chains : ∀ b, b < m.gnuNbucket → word H m.gnuBucket b.toNat = 0 ∨
    ∃ l, GnuChain H m (word H m.gnuBucket b.toNat) l ∧ ∀ i ∈ l, i ≠ 0 ∧ i < m.nchain
  hashes : ∀ i s, Exported H m i → Named H m i s → word H m.gnuChain (chainIndex m i) ||| 1 = gnuHash s ||| 1
  filter : ∀ i s, Exported H m i → Named H m i s → InFilter H m (gnuHash s)
  indexed : ∀ i s, Exported H m i → Named H m i s →
    word H m.gnuBucket (gnuHash s % m.gnuNbucket).toNat ≠ 0 ∧
      ∃ l, GnuChain H m (word H m.gnuBucket (gnuHash s % m.gnuNbucket).toNat) l ∧ i ∈ l

/-- A well-formed `DT_HASH` that indexes every exported symbol. -/
structure SysvFormed : Prop where
  nbucket : m.nbucket ≠ 0
  chains : ∀ b, b < m.nbucket → ∃ l, SysvChain H m (word H m.bucket b.toNat) l
  indexed : ∀ i s, Exported H m i → Named H m i s →
    ∃ l, SysvChain H m (word H m.bucket (sysvHash s % m.nbucket).toNat) l ∧ i ∈ l

/-- At most one definition of a name and a version, and at most one of a name that is not hidden. -/
structure Distinct : Prop where
  version : ∀ i j s v, Exported H m i → Exported H m j → Named H m i s → Named H m j s →
    VersionIs H m i v → VersionIs H m j v → i = j
  default : ∀ i j s, Exported H m i → Exported H m j → Named H m i s → Named H m j s →
    (defVersion H m i).2 = false → (defVersion H m j).2 = false → i = j

end Tables

section Agree
variable {H : Host} {m : Module} {name : List UInt8} {h : UInt32} {want : Option (List UInt8)}

variable {n : UInt32} {l : List UInt32}

theorem GnuChain.unique {l l' : List UInt32} (hl : GnuChain H m n l) (hl' : GnuChain H m n l') : l = l' := by
  induction hl generalizing l' with
  | last hodd =>
    cases hl' with
    | last _ => rfl
    | more heven _ => exact absurd heven hodd
  | more heven _ ih =>
    cases hl' with
    | last hodd => exact absurd heven hodd
    | more _ hrest => rw [ih hrest]

theorem SysvChain.unique {l l' : List UInt32} (hl : SysvChain H m n l) (hl' : SysvChain H m n l') :
    l = l' := by
  induction hl generalizing l' with
  | nil =>
    cases hl' with
    | nil => rfl
    | cons h0 _ _ => exact absurd rfl h0
  | cons h0 _ _ ih =>
    cases hl' with
    | nil => exact absurd rfl h0
    | cons _ _ hrest => rw [ih hrest]

theorem SysvChain.inside (hl : SysvChain H m n l) : ∀ i ∈ l, i ≠ 0 ∧ i < m.nchain := by
  induction hl with
  | nil => nofun
  | cons h0 hlt _ ih =>
    intro i hi
    rcases mem_cons.1 hi with rfl | hi
    · exact ⟨h0, hlt⟩
    · exact ih i hi

/-- A symbol whose word has the hash and that answers. -/
def GnuHit (H : Host) (m : Module) (name : List UInt8) (h : UInt32) (want : Option (List UInt8)) (n : UInt32) : Bool :=
  word H m.gnuChain (chainIndex m n) ||| 1 = h ||| 1 && answers H m name want n

theorem gnuHit_iff : GnuHit H m name h want n = true ↔
    word H m.gnuChain (chainIndex m n) ||| 1 = h ||| 1 ∧ answers H m name want n = true := by
  rw [GnuHit, Bool.and_eq_true, decide_eq_true_eq]

theorem gnuWalk_chain (hl : GnuChain H m n l) : ∀ {k : Nat}, l.length ≤ k →
    (gnuWalk H m name h want k n).found = some (l.find? (GnuHit H m name h want)) := by
  induction hl with
  | @last n hodd =>
    intro k hk
    obtain ⟨k, rfl⟩ := exists_eq_succ_of_ne_zero (Nat.one_le_iff_ne_zero.1 hk)
    rw [gnuWalk, find?_cons]
    cases hit : GnuHit H m name h want n with
    | true =>
      rw [if_pos (gnuHit_iff.1 hit)]
    | false =>
      rw [if_neg fun hh => Bool.false_ne_true (hit.symm.trans (gnuHit_iff.2 hh)), if_pos hodd]
      rfl
  | @more n l heven _ ih =>
    intro k hk
    obtain ⟨k, rfl⟩ := exists_eq_succ_of_ne_zero (Nat.ne_zero_of_lt hk)
    rw [gnuWalk, find?_cons]
    cases hit : GnuHit H m name h want n with
    | true =>
      rw [if_pos (gnuHit_iff.1 hit)]
    | false =>
      rw [if_neg fun hh => Bool.false_ne_true (hit.symm.trans (gnuHit_iff.2 hh)), if_neg (not_not.2 heven),
        Search.after_found]
      exact ih (le_of_succ_le_succ hk)

theorem sysvWalk_chain (hl : SysvChain H m n l) : ∀ {k : Nat}, l.length < k →
    (sysvWalk H m name want k n).found = some (l.find? (answers H m name want)) := by
  induction hl with
  | nil =>
    intro k hk
    obtain ⟨k, rfl⟩ := exists_eq_succ_of_ne_zero (Nat.ne_zero_of_lt hk)
    rfl
  | @cons n l h0 hlt _ ih =>
    intro k hk
    obtain ⟨k, rfl⟩ := exists_eq_succ_of_ne_zero (Nat.ne_zero_of_lt hk)
    rw [sysvWalk, if_pos ⟨h0, hlt⟩, find?_cons]
    cases answers H m name want n with
    | true => rfl
    | false => exact ih (lt_of_succ_lt_succ hk)

theorem bloomPasses_iff : bloomPasses H m h = true ↔ InFilter H m h := by
  have hbit : ∀ x i : Nat, (x >>> i) &&& 1 = (x.testBit i).toNat := by
    intro x i
    rw [and_one_is_mod, testBit_eq_decide_div_mod_eq, shiftRight_eq_div_pow]
    rcases mod_two_eq_zero_or_one (x / 2 ^ i) with h | h <;> simp [h]
  unfold bloomPasses InFilter
  dsimp only
  rw [Nat.and_assoc, hbit]
  generalize (bloomWord H m (bloomIndex m h)).testBit ((h >>> m.gnuBloomShift) % bloomWidth m).toNat = b2
  cases b2 with
  | false => simp
  | true =>
    rw [Bool.toNat_true, hbit]
    cases (bloomWord H m (bloomIndex m h)).testBit (h % bloomWidth m).toNat <;> simp

/-- What both searches look for: a definition of the name whose version check passes. -/
def Defines (H : Host) (m : Module) (name : List UInt8) (want : Option (List UInt8)) (i : UInt32) : Prop :=
  Exported H m i ∧ Named H m i name ∧ versionOk H m i want = true

theorem answers_iff {i : UInt32} (hi : i ≠ 0 ∧ i < m.nchain) : answers H m name want i = true ↔
    Defines H m name want i := by
  unfold answers Defines Exported Named
  simp only [Bool.and_eq_true]
  exact ⟨fun ⟨⟨h1, h2⟩, h3⟩ => ⟨⟨hi.1, hi.2, h2⟩, h1, h3⟩, fun ⟨⟨_, _, h2⟩, h1, h3⟩ => ⟨⟨h1, h2⟩, h3⟩⟩

/-- The first of some symbols that passes a test, where those that pass it are the definitions and there is only one. -/
theorem find?_defines {p : UInt32 → Bool} (hp : ∀ i ∈ l, p i = true ↔ Defines H m name want i)
    (hall : ∀ i, Defines H m name want i → i ∈ l) (hone : ∀ i j, Defines H m name want i → Defines H m name want j → i = j)
    (i : UInt32) : l.find? p = some i ↔ Defines H m name want i := by
  constructor
  · intro hf
    exact (hp i (mem_of_find?_eq_some hf)).1 (find?_some hf)
  · intro hd
    have hfound : (l.find? p).isSome := find?_isSome.2 ⟨i, hall i hd, (hp i (hall i hd)).2 hd⟩
    obtain ⟨j, hj⟩ := Option.isSome_iff_exists.1 hfound
    rw [hj, hone j i ((hp j (mem_of_find?_eq_some hj)).1 (find?_some hj)) hd]

theorem defines_unique (hd : Distinct H m)
    (hplain : ∀ w, want = some w → ∀ i j, Exported H m i → Exported H m j → Named H m i name → Named H m j name →
      VersionIs H m i none → ¬ VersionIs H m j (some w))
    {i j : UInt32} (hi : Defines H m name want i) (hj : Defines H m name want j) : i = j := by
  obtain ⟨ei, ni, vi⟩ := hi
  obtain ⟨ej, nj, vj⟩ := hj
  cases want with
  | none =>
    simp only [versionOk, Bool.not_eq_true'] at vi vj
    exact hd.default i j name ei ej ni nj vi vj
  | some w =>
    -- Without a version, or of the version that is wanted.
    have hcases : ∀ k, versionOk H m k (some w) = true → VersionIs H m k none ∨ VersionIs H m k (some w) := by
      intro k hk
      cases hv : (defVersion H m k).1 with
      | none => exact .inl hv
      | some a =>
        simp only [versionOk, hv] at hk
        exact .inr ⟨a, hv, hk⟩
    rcases hcases i vi with hi | hi
    · rcases hcases j vj with hj | hj
      · exact hd.version i j name none ei ej ni nj hi hj
      · exact absurd hj (hplain w rfl i j ei ej ni nj hi)
    · rcases hcases j vj with hj | hj
      · exact absurd hi (hplain w rfl j i ej ei nj ni hj)
      · exact hd.version i j name (some w) ei ej ni nj hi hj

theorem findGnu_finds (hg : GnuFormed H m)
    (hone : ∀ i j, Defines H m name want i → Defines H m name want j → i = j) :
    ∃ r k, (∀ k' ≥ k, (findGnu H m name (gnuHash name) want k').found = some r) ∧
      ∀ i, r = some i ↔ Defines H m name want i := by
  by_cases hpass : bloomPasses H m (gnuHash name) = true
  · by_cases h0 : word H m.gnuBucket (gnuHash name % m.gnuNbucket).toNat = 0
    · refine ⟨none, 0, fun k _ => ?_, fun i => ⟨nofun, fun hi => absurd h0 (hg.indexed i name hi.1 hi.2.1).1⟩⟩
      simp only [findGnu, hpass, h0, Bool.not_true, Bool.false_eq_true, if_false, if_true]
    · have hlt : gnuHash name % m.gnuNbucket < m.gnuNbucket :=
        UInt32.mod_lt _ (UInt32.pos_iff_ne_zero.2 hg.nbucket)
      obtain ⟨l, hl, hin⟩ := (hg.chains _ hlt).resolve_left h0
      refine ⟨l.find? (GnuHit H m name (gnuHash name) want), l.length, fun k hk => ?_, ?_⟩
      · simp only [findGnu, hpass, Bool.not_true, Bool.false_eq_true, if_false, h0, Search.after_found]
        exact gnuWalk_chain hl hk
      · refine find?_defines (fun i hi => ?_) (fun i hi => ?_) hone
        · rw [gnuHit_iff, answers_iff (hin i hi)]
          exact ⟨And.right, fun hd => ⟨hg.hashes i name hd.1 hd.2.1, hd⟩⟩
        · obtain ⟨-, l', hl', hi'⟩ := hg.indexed i name hi.1 hi.2.1
          rw [hl.unique hl']
          exact hi'
  · refine ⟨none, 0, fun k _ => ?_, fun i => ⟨nofun, fun hi => ?_⟩⟩
    · simp [findGnu, hpass]
    · exact absurd (bloomPasses_iff.2 (hg.filter i name hi.1 hi.2.1)) hpass

theorem findSysv_finds (hs : SysvFormed H m)
    (hone : ∀ i j, Defines H m name want i → Defines H m name want j → i = j) :
    ∃ r k, (∀ k' ≥ k, (findSysv H m name (sysvHash name) want k').found = some r) ∧
      ∀ i, r = some i ↔ Defines H m name want i := by
  have hlt : sysvHash name % m.nbucket < m.nbucket := UInt32.mod_lt _ (UInt32.pos_iff_ne_zero.2 hs.nbucket)
  obtain ⟨l, hl⟩ := hs.chains _ hlt
  refine ⟨l.find? (answers H m name want), l.length + 1, fun k hk => ?_, ?_⟩
  · simp only [findSysv, Search.after_found]
    exact sysvWalk_chain hl hk
  · refine find?_defines (fun i hi => answers_iff (hl.inside i hi)) (fun i hi => ?_) hone
    obtain ⟨l', hl', hi'⟩ := hs.indexed i name hi.1 hi.2.1
    rw [hl.unique hl']
    exact hi'

/-- Both searches end with the one definition of the name whose version check passes, or both with none. -/
theorem finds_agree (hg : GnuFormed H m) (hs : SysvFormed H m) (hd : Distinct H m)
    (hplain : ∀ w, want = some w → ∀ i j, Exported H m i → Exported H m j → Named H m i name → Named H m j name →
      VersionIs H m i none → ¬ VersionIs H m j (some w)) :
    ∃ r k, (∀ k' ≥ k, (findGnu H m name (gnuHash name) want k').found = some r ∧
        (findSysv H m name (sysvHash name) want k').found = some r) ∧
      ∀ i, r = some i ↔ Defines H m name want i := by
  have hone : ∀ i j, Defines H m name want i → Defines H m name want j → i = j :=
    fun i j => defines_unique hd hplain
  obtain ⟨r, k, hr, hri⟩ := findGnu_finds hg hone
  obtain ⟨r', k', hr', hri'⟩ := findSysv_finds hs hone
  have hsame : r = r' := Option.ext fun i => (hri i).trans (hri' i).symm
  subst hsame
  refine ⟨r, max k k', fun j hj => ⟨hr j (le_of_max_le_left hj), hr' j (le_of_max_le_right hj)⟩, hri⟩

end Agree

/-! A library with two definitions of `f`: the first of the hidden version `V`, the second without a version. -/

def versions : Host := .ofWords
  [0, 0, 0, 0, 0, 0, 0, 0, 0, 0, 0, 0, 0, 0, 0, 0,
    0x56006600, 0, 0, 0,
    0, 0, 0, 0, 1, 0x1000, 4, 0x10012, 1, 0x1010, 4, 0x10012,
    -- DT_GNU_HASH from its filter on, with the chain 1, 2; DT_HASH from its bucket on, with the chain 2, 1
    0xffffffff, 1, 177674, 177675, 2, 0, 0, 1,
    -- DT_VERSYM and DT_VERDEF
    0x80020000, 1, 1, 0x10002, 0, 20, 0, 3, 0]

def versionsModule : Module where
  path := []
  soname := []
  bias := 0
  isGlobal := false
  isMain := false
  elf32 := true
  symbolic := false
  symtab := some 80
  strtab := some 64
  initFn := 0
  initArray := 0
  initArraySize := 0
  bucket := some ⟨144, 4⟩
  chain := some ⟨148, 12⟩
  nbucket := 1
  nchain := 3
  gnuBucket := some ⟨132, 4⟩
  gnuChain := some ⟨136, 4⟩
  gnuBloom := some ⟨128, 4⟩
  gnuNbucket := 1
  gnuSymoffset := 1
  gnuBloomSize := 1
  gnuBloomShift := 5
  versym := some 160
  verdef := some 168
  verneed := none
  verdefnum := 1
  verneednum := 0
  neededOff := []

theorem versions_exported {i : UInt32} (hi : Exported versions versionsModule i) : i = 1 ∨ i = 2 := by
  obtain ⟨h0, h3, -⟩ := hi
  have h0' : i.toNat ≠ 0 := fun h => h0 (UInt32.toNat_inj.1 h)
  have h3' : i.toNat < 3 := h3
  rcases (by omega : i.toNat = 1 ∨ i.toNat = 2) with h | h
  · exact .inl (UInt32.toNat_inj.1 h)
  · exact .inr (UInt32.toNat_inj.1 h)

theorem versions_named {i : UInt32} {s : List UInt8} (hi : Exported versions versionsModule i)
    (hs : Named versions versionsModule i s) : s = [102] := by
  rcases versions_exported hi with rfl | rfl
  · exact versions.streq_unique hs (by decide : symNamed versions versionsModule (symbolAt versions versionsModule 1)
      [102] = true)
  · exact versions.streq_unique hs (by decide : symNamed versions versionsModule (symbolAt versions versionsModule 2)
      [102] = true)

theorem versions_first : (defVersion versions versionsModule 1).1 ≠ none := by decide

theorem versions_gnu : GnuChain versions versionsModule 1 [1, 2] := .more (by decide) (.last (by decide))

theorem versions_sysv : SysvChain versions versionsModule 2 [2, 1] :=
  .cons (by decide) (by decide) (.cons (by decide) (by decide) .nil)

theorem versions_gnuFormed : GnuFormed versions versionsModule where
  nbucket := by decide
  bloomSize := by decide
  bloomShift := by decide
  chains b hb := by
    have hb0 : b = 0 := UInt32.toNat_inj.1 (Nat.lt_one_iff.1 hb)
    subst hb0
    refine .inr ⟨[1, 2], versions_gnu, fun i hi => ?_⟩
    simp only [mem_cons, not_mem_nil, or_false] at hi
    rcases hi with rfl | rfl
    · exact ⟨by decide, by decide⟩
    · exact ⟨by decide, by decide⟩
  hashes i s hi hs := by
    rw [versions_named hi hs]
    rcases versions_exported hi with rfl | rfl
    · decide
    · decide
  filter i s hi hs := by
    rw [versions_named hi hs, ← bloomPasses_iff]
    decide
  indexed i s hi hs := by
    rw [versions_named hi hs]
    refine ⟨by decide, [1, 2], versions_gnu, ?_⟩
    rcases versions_exported hi with rfl | rfl
    · decide
    · decide

theorem versions_sysvFormed : SysvFormed versions versionsModule where
  nbucket := by decide
  chains b hb := by
    have hb0 : b = 0 := UInt32.toNat_inj.1 (Nat.lt_one_iff.1 hb)
    subst hb0
    exact ⟨[2, 1], versions_sysv⟩
  indexed i s hi hs := by
    rw [versions_named hi hs]
    refine ⟨[2, 1], versions_sysv, ?_⟩
    rcases versions_exported hi with rfl | rfl
    · decide
    · decide

theorem versions_distinct : Distinct versions versionsModule where
  version i j s v hi hj _ _ vi vj := by
    rcases versions_exported hi with rfl | rfl <;> rcases versions_exported hj with rfl | rfl
    · rfl
    · cases v with
      | none => exact absurd vi versions_first
      | some w =>
        obtain ⟨a, ha, -⟩ := vj
        cases ha
    · cases v with
      | none => exact absurd vj versions_first
      | some w =>
        obtain ⟨a, ha, -⟩ := vi
        cases ha
    · rfl
  default i j s hi hj _ _ vi vj := by
    rcases versions_exported hi with rfl | rfl
    · cases vi
    · rcases versions_exported hj with rfl | rfl
      · cases vj
      · rfl

theorem finds_agree_versions : ∃ r k, (∀ k' ≥ k,
      (findGnu versions versionsModule [102] (gnuHash [102]) none k').found = some r ∧
      (findSysv versions versionsModule [102] (sysvHash [102]) none k').found = some r) ∧
    ∀ i, r = some i ↔ Defines versions versionsModule [102] none i :=
  finds_agree versions_gnuFormed versions_sysvFormed versions_distinct nofun

/-- Asked for `V`, the one table answers with the definition of that version, and the other with the one that has none. -/
theorem finds_differ : GnuFormed versions versionsModule ∧ SysvFormed versions versionsModule ∧
    Distinct versions versionsModule ∧
    (findGnu versions versionsModule [102] (gnuHash [102]) (some [86]) 2).found = some (some 1) ∧
    (findSysv versions versionsModule [102] (sysvHash [102]) (some [86]) 2).found = some (some 2) :=
  ⟨versions_gnuFormed, versions_sysvFormed, versions_distinct, by decide, by decide⟩

end Lunaria.Linker
