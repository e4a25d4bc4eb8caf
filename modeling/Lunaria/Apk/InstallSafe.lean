import Lunaria.Apk.Install

/-! The invariant of the install cache: which files are complete at each stage of a run, and what every run leaves behind
    for the next one. -/

namespace Lunaria.Apk
open Files List Function

section Paths
variable {name name' : List UInt8} {p : List (List UInt8)}

theorem instPath_inj (hsafe : entrySafe name = true) (hsafe' : entrySafe name' = true) (hfile : isDirName name = false)
    (hfile' : isDirName name' = false) (h : instPath name = instPath name') : name = name' := by
  rw [← intercalate_parts hsafe hfile, ← intercalate_parts hsafe' hfile', (List.cons.inj h).2]

theorem pkgPath_inj (hsafe : entrySafe name = true) (hsafe' : entrySafe name' = true) (hfile : isDirName name = false)
    (hfile' : isDirName name' = false) (h : pkgPath name = pkgPath name') : name = name' := by
  rw [← intercalate_parts hsafe hfile, ← intercalate_parts hsafe' hfile', (List.cons.inj h).2]

theorem inst_ne_pkg : instPath name ≠ pkgPath name' := fun h => absurd (List.cons.inj h).1 (by decide)

theorem inst_ne_ready : instPath name ≠ readyPath := fun h => absurd (List.cons.inj h).1 (by decide)

theorem inst_ne_input : instPath name ≠ inputPath := fun h => absurd (List.cons.inj h).1 (by decide)

theorem pkg_ne_ready : pkgPath name ≠ readyPath := fun h => absurd (List.cons.inj h).1 (by decide)

theorem pkg_ne_input : pkgPath name ≠ inputPath := fun h => absurd (List.cons.inj h).1 (by decide)

theorem base_ne_pkg : baseApk ≠ pkgPath name := fun h => absurd (List.cons.inj h).1 (by decide)

theorem base_ne_basePath {base : Option (List UInt8)} : baseApk ≠ Input.basePath base := by
  cases base with
  | none => exact fun h => absurd (List.cons.inj h).1 (by decide)
  | some n => exact base_ne_pkg

theorem not_managed {c d : List UInt8} {rest : List (List UInt8)} (hp : p = c :: d :: rest)
    (h : ¬ (c = bytes "inst" ∧ (d = bytes "assets" ∨ d = bytes "mono-etc"))) : ¬ managedPath p := by
  rintro (⟨t, ht⟩ | ⟨t, ht⟩)
  · rw [hp] at ht
    obtain ⟨rfl, ⟨⟩⟩ := List.cons.inj ht
    exact h ⟨rfl, .inl rfl⟩
  · rw [hp] at ht
    obtain ⟨rfl, ⟨⟩⟩ := List.cons.inj ht
    exact h ⟨rfl, .inr rfl⟩

theorem managed_head (h : managedPath p) : p.head? = some (bytes "inst") := by
  rcases h with ⟨t, rfl⟩ | ⟨t, rfl⟩ <;> rfl

theorem not_managed_of_head (h : p.head? ≠ some (bytes "inst")) : ¬ managedPath p :=
  fun hm => h (managed_head hm)

theorem heads_apart {p q : List (List UInt8)} {c : List UInt8} (hp : p.head? = some c) (hq : q.head? ≠ some c) :
    ¬ p <+: q := by
  rintro ⟨t, rfl⟩
  refine hq ?_
  cases p with
  | nil => cases hp
  | cons d p => exact hp

end Paths

section Inv
variable (I : Input)

/-- The archives have no name twice. -/
structure Distinct : Prop where
  outer : (I.outer.map Item.name).Nodup
  base : ∀ base p, I.chooseBase I.truth = some (base, p) → (p.items.map Item.name).Nodup

/-- No entry has the name of a file that the installer itself makes in `inst`. -/
def Unreserved : Prop :=
  ∀ base p, I.chooseBase I.truth = some (base, p) → ∀ item ∈ I.allItems base p,
    (parts item.name).head? ≠ some (bytes "base.apk") ∧ item.name ≠ signerName

/-- The path of an entry in `inst`. -/
def Tracked (p : List (List UInt8)) : Prop :=
  ∃ base q item, I.chooseBase I.truth = some (base, q) ∧ item ∈ I.allItems base q ∧ entrySafe item.name = true ∧
    isDirName item.name = false ∧ p = instPath item.name

/-- A path that shares its file with no other such path but for `inst/base.apk`. -/
def Key (p : List (List UInt8)) : Prop := managedPath p → Tracked I p

/-- The two paths that may be links of one file. -/
def Pair (p q : List (List UInt8)) : Prop :=
  ∃ base pk, I.chooseBase I.truth = some (base, pk) ∧
    (p = baseApk ∧ q = Input.basePath base ∨ p = Input.basePath base ∧ q = baseApk)

/-- What is written goes to the file of its path, and is what belongs there. -/
structure Open (fs : Disk) (w : Writing) : Prop where
  node : fs.node w.path = some (.file w.inode)
  data : fs.data w.inode = w.written
  owner : ∀ q, Key I q → fs.node q = some (.file w.inode) → q = w.path ∨ q = baseApk ∧ Pair I w.path q
  input : w.path ≠ inputPath
  pkg : ∀ item ∈ I.outer, entrySafe item.name = true → isDirName item.name = false → w.path = pkgPath item.name →
    w.written ++ w.rest = item.data ∧ w.ok = item.ok
  inst : ∀ base p item, I.chooseBase I.truth = some (base, p) → entrySafe item.name = true → isDirName item.name = false →
    (I.allItems base p).find? (fun x => x.name = item.name) = some item → w.path = instPath item.name →
    w.written ++ w.rest = item.data ∧ w.ok = item.ok
  apk : w.path = baseApk → ∀ base p, I.chooseBase I.truth = some (base, p) →
    I.truth (Input.basePath base) = some (w.written ++ w.rest) ∧ w.ok = true
  kept : w.drop = false → ¬ Tracked I w.path ∧ w.path ≠ baseApk ∧ ∀ base, w.path ≠ Input.basePath base

/-- The path of the file that is open. -/
def At (cur : Option Writing) (p : List (List UInt8)) : Prop := ∃ w, cur = some w ∧ w.path = p

/-- What holds of the disk always. The files that no run writes again are complete, but for the one that is open. -/
structure DiskInv (fs : Disk) (cur : Option Writing) : Prop where
  fresh : fs.Fresh
  input : fs.read inputPath = some I.file
  apart : ∀ p q i, Key I p → Key I q → fs.node p = some (.file i) → fs.node q = some (.file i) → p = q ∨ Pair I p q
  base : fs.node baseApk ≠ some .dir
  current : ∀ w, cur = some w → Open I fs w
  splits : ∀ base p item, I.chooseBase I.truth = some (base, p) → entrySafe item.name = true → isDirName item.name = false →
    (I.allItems base p).find? (fun x => x.name = item.name) = some item → item.name ∉ p.items.map Item.name →
    ∀ d, fs.read (instPath item.name) = some d → item.ok = true ∧ d = item.data ∨ At cur (instPath item.name)
  apk : ∀ base p, I.chooseBase I.truth = some (base, p) → ∀ d, fs.read baseApk = some d →
    I.truth (Input.basePath base) = some d ∨ ∃ w, cur = some w ∧ fs.node baseApk = some (.file w.inode)

end Inv

section Keys
variable {I : Input} {name : List UInt8} {p q : List (List UInt8)}

theorem Tracked.key (h : Tracked I p) : Key I p := fun _ => h

theorem key_of_head (h : p.head? ≠ some (bytes "inst")) : Key I p := fun hm => absurd hm (not_managed_of_head h)

theorem key_pkg : Key I (pkgPath name) := key_of_head fun h => absurd (Option.some.inj h) (by decide)

theorem key_input : Key I inputPath := key_of_head (by decide)

theorem key_ready : Key I readyPath := key_of_head (by decide)

theorem key_base : Key I baseApk := fun hm => absurd hm (not_managed rfl (by decide))

theorem signer_path : instPath signerName = [bytes "inst", bytes ".lunaria-apk-signer.p7b"] := by decide

theorem key_signer : Key I (instPath signerName) := fun hm => absurd hm (not_managed signer_path (by decide))

theorem Pair.symm (h : Pair I p q) : Pair I q p := by
  obtain ⟨base, pk, hbase, h⟩ := h
  exact ⟨base, pk, hbase, h.symm.imp And.symm And.symm⟩

theorem Tracked.inst (h : Tracked I p) : ∃ name, p = instPath name := by
  obtain ⟨-, -, item, -, -, -, -, rfl⟩ := h
  exact ⟨_, rfl⟩

theorem Tracked.ne_base (hun : Unreserved I) (h : Tracked I p) : p ≠ baseApk := by
  obtain ⟨base, q, item, hbase, hitem, -, -, rfl⟩ := h
  intro heq
  refine (hun base q hbase item hitem).1 ?_
  rw [(List.cons.inj heq).2]
  rfl

end Keys

/-! ### The archives of the input -/

section Archives
variable {I : Input} {name : List UInt8} {data : List UInt8} {base : Option (List UInt8)} {p : Package}
  {read : List (List UInt8) → Option (List UInt8)}

theorem truth_pkg (h : I.truth (pkgPath name) = some data) : ∃ item ∈ I.outer, entrySafe item.name = true ∧
    isDirName item.name = false ∧ pkgPath item.name = pkgPath name ∧ item.data = data := by
  rw [Input.truth, if_neg pkg_ne_input, Option.map_eq_some_iff] at h
  obtain ⟨item, hfind, hdata⟩ := h
  have hitem := find?_some hfind
  simp only [decide_eq_true_eq] at hitem
  exact ⟨item, mem_of_find?_eq_some hfind, hitem.1, hitem.2.1, hitem.2.2, hdata⟩

theorem firstBase_some : ∀ {names : List (List UInt8)}, I.firstBase read names = some (base, p) →
    ∃ n data, base = some n ∧ n ∈ names ∧ read (pkgPath n) = some data ∧ I.package data = some p
  | [], h => by cases h
  | n :: names, h => by
    rw [Input.firstBase] at h
    split at h
    · cases h
    · rename_i q hq
      split at h
      · obtain ⟨m, data, hbase, hmem, hrest⟩ := firstBase_some h
        exact ⟨m, data, hbase, mem_cons_of_mem n hmem, hrest⟩
      · cases h
        obtain ⟨data, hread, hpkg⟩ := Option.bind_eq_some_iff.1 hq
        exact ⟨n, data, rfl, mem_cons_self, hread, hpkg⟩

theorem chooseBase_truth (h : I.chooseBase read = some (base, p)) :
    ∃ data, read (Input.basePath base) = some data ∧ I.package data = some p := by
  unfold Input.chooseBase at h
  split at h
  · obtain ⟨n, data, rfl, -, hrest⟩ := firstBase_some h
    exact ⟨data, hrest⟩
  · obtain ⟨q, hq, ⟨⟩⟩ := Option.map_eq_some_iff.1 h
    exact Option.bind_eq_some_iff.1 hq

end Archives

/-! ### Opening a file -/

section Open
variable {I : Input} {fs fs' : Disk} {p q : List (List UInt8)} {i : Nat} {w : Writing}

theorem DiskInv.read_opened (h : DiskInv I fs none) (ho : Fs.Opened fs fs' p i) (hkey : fs.node p = none ∨ Key I p)
    (hbase : p = baseApk → fs.node baseApk = none) (hq : Key I q) (hne : q ≠ p) (hqb : q ≠ baseApk) :
    fs'.read q = fs.read q := by
  refine ho.read h.fresh hne fun hp hqi => ?_
  have hkey : Key I p := hkey.resolve_left fun hnone => absurd (hnone.symm.trans hp) (by simp)
  rcases h.apart p q i hkey hq hp hqi with heq | ⟨base, pk, -, ⟨hpb, -⟩ | ⟨-, hqb'⟩⟩
  · exact hne heq.symm
  · rw [hpb, hbase hpb] at hp
    cases hp
  · exact hqb hqb'

theorem DiskInv.opened (hun : Unreserved I) (h : DiskInv I fs none) (ho : Fs.Opened fs fs' w.path w.inode)
    (hkey : fs.node w.path = none ∨ Key I w.path) (hbase : w.path = baseApk → fs.node baseApk = none)
    (hunder : baseApk <+: w.path → w.path = baseApk ∨ fs.present baseApk = true) (hinput : w.path ≠ inputPath)
    (hw : Open I fs' w) : DiskInv I fs' (some w) where
  fresh := ho.fresh h.fresh
  input := by
    rw [h.read_opened ho hkey hbase key_input (Ne.symm hinput) (by decide), h.input]
  apart p q j hp hq hpj hqj := by
    by_cases hpw : p = w.path
    · subst hpw
      obtain rfl : j = w.inode := by simpa using hpj.symm.trans ho.self
      exact (hw.owner q hq hqj).imp Eq.symm And.right
    · by_cases hqw : q = w.path
      · subst hqw
        obtain rfl : j = w.inode := by simpa using hqj.symm.trans ho.self
        exact (hw.owner p hp hpj).imp id fun h => h.2.symm
      · exact h.apart p q j hp hq ((ho.file p j hpw).1 hpj) ((ho.file q j hqw).1 hqj)
  base := by
    intro hdir
    by_cases hb : baseApk = w.path
    · rw [hb, ho.self] at hdir
      cases hdir
    · rcases ho.made baseApk (Fs.present_iff.2 ⟨_, hdir⟩) with hpre | hpre
      · obtain ⟨n, hn⟩ := Fs.present_iff.1 hpre
        cases n with
        | dir => exact h.base hn
        | file j =>
          have := (ho.file baseApk j hb).2 hn
          cases this.symm.trans hdir
      · rcases hunder hpre with hp | hp
        · exact hb hp.symm
        · obtain ⟨n, hn⟩ := Fs.present_iff.1 hp
          cases n with
          | dir => exact h.base hn
          | file j =>
            have := (ho.file baseApk j hb).2 hn
            cases this.symm.trans hdir
  current v hv := by
    cases hv
    exact hw
  splits base p item hchoose hsafe hfile hfind hnot d hd := by
    by_cases heq : w.path = instPath item.name
    · exact .inr ⟨w, rfl, heq⟩
    · have htr : Tracked I (instPath item.name) :=
        ⟨base, p, item, hchoose, mem_of_find?_eq_some hfind, hsafe, hfile, rfl⟩
      rw [h.read_opened ho hkey hbase htr.key (Ne.symm heq) (htr.ne_base hun)] at hd
      exact .inl ((h.splits base p item hchoose hsafe hfile hfind hnot d hd).resolve_right fun ⟨v, hv, _⟩ => nomatch hv)
  apk base p hchoose d hd := by
    by_cases hnode : fs'.node baseApk = some (.file w.inode)
    · exact .inr ⟨w, rfl, hnode⟩
    · have hb : baseApk ≠ w.path := fun heq => hnode (heq ▸ ho.self)
      have hread : fs'.read baseApk = fs.read baseApk := by
        refine ho.read h.fresh hb fun _ hsame => hnode ((ho.file baseApk _ hb).2 hsame)
      rw [hread] at hd
      exact .inl ((h.apk base p hchoose d hd).resolve_right fun ⟨v, hv, _⟩ => nomatch hv)

theorem DiskInv.owner_opened (h : DiskInv I fs none) (ho : Fs.Opened fs fs' p i) (hkey : fs.node p = none ∨ Key I p)
    (hbase : p = baseApk → fs.node baseApk = none) (hq : Key I q) (hnode : fs'.node q = some (.file i)) :
    q = p ∨ q = baseApk ∧ Pair I p q := by
  by_cases heq : q = p
  · exact .inl heq
  · have hqi := (ho.file q i heq).1 hnode
    rcases ho.old with hold | ⟨-, rfl⟩
    · have hkey : Key I p := hkey.resolve_left fun hnone => absurd (hnone.symm.trans hold) (by simp)
      rcases h.apart p q i hkey hq hold hqi with heq | hpair
      · exact .inl heq.symm
      · refine .inr ⟨?_, hpair⟩
        obtain ⟨base, pk, -, ⟨hp, -⟩ | ⟨-, hq⟩⟩ := hpair
        · rw [hp, hbase hp] at hold
          cases hold
        · exact hq
    · exact absurd (h.fresh q _ hqi) (Nat.lt_irrefl _)

end Open

/-! ### Writing, closing and the end of a run -/

section Write
variable {I : Input} {fs : Disk} {q : List (List UInt8)} {w : Writing} {chunk rest : List UInt8}

theorem Open.write (h : Open I fs w) (hrest : w.rest = chunk ++ rest) :
    Open I (fs.append w.inode chunk) { w with written := w.written ++ chunk, rest := rest } where
  node := h.node
  data := by rw [Fs.data_append_self, h.data]
  owner := h.owner
  input := h.input
  pkg item hitem hsafe hfile hpath := by
    rw [append_assoc, ← hrest]
    exact h.pkg item hitem hsafe hfile hpath
  inst base p item hchoose hsafe hfile hfind hpath := by
    rw [append_assoc, ← hrest]
    exact h.inst base p item hchoose hsafe hfile hfind hpath
  apk hpath base p hchoose := by
    rw [append_assoc, ← hrest]
    exact h.apk hpath base p hchoose
  kept := h.kept

theorem Open.read_append_key (h : Open I fs w) (hq : Key I q) (hne : w.path ≠ q) (hbase : q ≠ baseApk) :
    (fs.append w.inode chunk).read q = fs.read q := by
  refine Fs.read_append_of_ne fun hnode => ?_
  rcases h.owner q hq hnode with heq | ⟨heq, -⟩
  · exact hne heq.symm
  · exact hbase heq

theorem DiskInv.write (hun : Unreserved I) (h : DiskInv I fs (some w)) (hrest : w.rest = chunk ++ rest) :
    DiskInv I (fs.append w.inode chunk) (some { w with written := w.written ++ chunk, rest := rest }) := by
  have hw := h.current w rfl
  refine ⟨h.fresh, ?_, h.apart, h.base, ?_, ?_, ?_⟩
  · rw [hw.read_append_key key_input hw.input (by decide), h.input]
  · intro v hv
    cases hv
    exact hw.write hrest
  · intro base p item hchoose hsafe hfile hfind hnot d hd
    by_cases heq : w.path = instPath item.name
    · exact .inr ⟨_, rfl, heq⟩
    · have htr : Tracked I (instPath item.name) :=
        ⟨base, p, item, hchoose, mem_of_find?_eq_some hfind, hsafe, hfile, rfl⟩
      rw [hw.read_append_key htr.key heq (htr.ne_base hun)] at hd
      refine .inl ((h.splits base p item hchoose hsafe hfile hfind hnot d hd).resolve_right ?_)
      rintro ⟨v, hv, hpath⟩
      exact heq (Option.some.inj hv ▸ hpath)
  · intro base p hchoose d hd
    by_cases hnode : fs.node baseApk = some (.file w.inode)
    · exact .inr ⟨_, rfl, hnode⟩
    · rw [Fs.read_append_of_ne hnode] at hd
      refine .inl ((h.apk base p hchoose d hd).resolve_right ?_)
      rintro ⟨v, hv, hsame⟩
      cases hv
      exact hnode hsame

/-- Nothing is missing in the file. -/
def Complete (w : Writing) : Prop := w.rest = [] ∧ w.ok = true

theorem DiskInv.leave (h : DiskInv I fs (some w))
    (hleave : Complete w ∨ (∀ base p item, I.chooseBase I.truth = some (base, p) → entrySafe item.name = true →
      isDirName item.name = false → (I.allItems base p).find? (fun x => x.name = item.name) = some item →
        item.name ∉ p.items.map Item.name →
        w.path ≠ instPath item.name) ∧ fs.node baseApk ≠ some (.file w.inode)) : DiskInv I fs none := by
  have hw := h.current w rfl
  refine ⟨h.fresh, h.input, h.apart, h.base, nofun, ?_, ?_⟩
  · intro base p item hchoose hsafe hfile hfind hnot d hread
    rcases h.splits base p item hchoose hsafe hfile hfind hnot d hread with hgood | ⟨v, hv, hpath⟩
    · exact .inl hgood
    · cases hv
      rcases hleave with ⟨hrest, hok⟩ | ⟨hnone, -⟩
      · obtain ⟨hwhole, hsame⟩ := hw.inst base p item hchoose hsafe hfile hfind hpath
        rw [hrest, append_nil] at hwhole
        rw [← hpath, Fs.read_eq_some.2 ⟨_, hw.node, hw.data⟩, Option.some.injEq] at hread
        exact .inl ⟨hsame ▸ hok, hread.symm.trans hwhole⟩
      · exact absurd hpath (hnone base p item hchoose hsafe hfile hfind hnot)
  · intro base p hchoose d hread
    rcases h.apk base p hchoose d hread with hgood | ⟨v, hv, hnode⟩
    · exact .inl hgood
    · cases hv
      rcases hleave with ⟨hrest, hok⟩ | ⟨-, hnone⟩
      · rw [Fs.read_eq_some.2 ⟨_, hnode, hw.data⟩, Option.some.injEq] at hread
        rcases hw.owner _ key_base hnode with hpath | ⟨-, base', pk, hchoose', hpair⟩
        · obtain ⟨htruth, -⟩ := hw.apk hpath.symm base p hchoose
          rw [hrest, append_nil, hread] at htruth
          exact .inl htruth
        · cases hchoose.symm.trans hchoose'
          rcases hpair with ⟨-, hb⟩ | ⟨hb, -⟩
          · exact absurd hb base_ne_basePath
          · obtain ⟨data, htruth, -⟩ := chooseBase_truth hchoose
            cases base with
            | none => exact absurd hb hw.input
            | some n =>
              obtain ⟨item, hitem, hsafe, hfile, hsame, rfl⟩ := truth_pkg htruth
              obtain ⟨hwhole, -⟩ := hw.pkg item hitem hsafe hfile (hb.trans hsame.symm)
              rw [hrest, append_nil] at hwhole
              exact .inl (htruth.trans (congrArg some (hwhole.symm.trans hread)))
      · exact absurd hnode hnone

theorem DiskInv.drop {cur : Option Writing} {p : List (List UInt8)} (h : DiskInv I fs cur) (hp : p ≠ inputPath)
    (hcur : ∀ w, cur = some w → w.path = p ∧ (fs.node baseApk = some (.file w.inode) → p = baseApk)) :
    DiskInv I (fs.unlink p) none := by
  refine ⟨Fs.unlink_fresh h.fresh, ?_, ?_, ?_, nofun, ?_, ?_⟩
  · rw [Fs.unlink_read (Ne.symm hp), h.input]
  · intro q r j hq hr hqj hrj
    exact h.apart q r j hq hr (Fs.unlink_file hqj) (Fs.unlink_file hrj)
  · intro hdir
    refine h.base ?_
    by_cases hb : baseApk = p
    · subst hb
      unfold Fs.unlink at hdir
      split at hdir
      · simp at hdir
      · exact hdir
    · rwa [Fs.unlink_node hb] at hdir
  · intro base q item hchoose hsafe hfile hfind hnot d hread
    obtain ⟨j, hj, hd⟩ := Fs.read_eq_some.1 hread
    rw [Fs.unlink_data] at hd
    have hold := Fs.read_eq_some.2 ⟨j, Fs.unlink_file hj, hd⟩
    refine .inl ((h.splits base q item hchoose hsafe hfile hfind hnot d hold).resolve_right ?_)
    rintro ⟨w, hw, hpath⟩
    rw [← hpath, (hcur w hw).1, Fs.unlink_self ((hcur w hw).1 ▸ (h.current w hw).node)] at hj
    cases hj
  · intro base q hchoose d hread
    obtain ⟨j, hj, hd⟩ := Fs.read_eq_some.1 hread
    rw [Fs.unlink_data] at hd
    have hold := Fs.read_eq_some.2 ⟨j, Fs.unlink_file hj, hd⟩
    refine .inl ((h.apk base q hchoose d hold).resolve_right ?_)
    rintro ⟨w, hw, hnode⟩
    have hpath := (hcur w hw).2 hnode
    rw [hpath, Fs.unlink_self hnode] at hj
    cases hj

end Write

/-! ### Directories and links -/

section Links
variable {I : Input} {fs fs' : Disk} {p q : List (List UInt8)} {i : Nat}

theorem DiskInv.keeps (h : DiskInv I fs none) (hk : Fs.Keeps fs fs') (hbase : fs'.node baseApk ≠ some .dir) :
    DiskInv I fs' none := by
  refine ⟨hk.fresh h.fresh, ?_, ?_, hbase, nofun, ?_, ?_⟩
  · rw [hk.read, h.input]
  · intro q r j hq hr hqj hrj
    exact h.apart q r j hq hr ((hk.file q j).1 hqj) ((hk.file r j).1 hrj)
  · intro base q item hchoose hsafe hfile hfind hnot d hread
    rw [hk.read] at hread
    exact h.splits base q item hchoose hsafe hfile hfind hnot d hread
  · intro base q hchoose d hread
    rw [hk.read] at hread
    exact .inl ((h.apk base q hchoose d hread).resolve_right fun ⟨v, hv, _⟩ => by cases hv)

theorem DiskInv.mkdirs (h : DiskInv I fs none) (hmk : fs.mkdirs p = some fs')
    (hunder : baseApk <+: p → fs.present baseApk = true) : DiskInv I fs' none := by
  refine h.keeps (Fs.mkdirs_keeps hmk) fun hdir => ?_
  have hpre : fs.present baseApk = true := by
    rcases Fs.mkdirs_made hmk (Fs.present_iff.2 ⟨_, hdir⟩) with hpre | hpre
    · exact hpre
    · exact hunder hpre
  obtain ⟨n, hn⟩ := Fs.present_iff.1 hpre
  cases n with
  | dir => exact h.base hn
  | file j => exact absurd ((((Fs.mkdirs_keeps hmk).file _ j).2 hn).symm.trans hdir) (by simp)

/-- A new path for a file. -/
def link (fs : Disk) (p : List (List UInt8)) (i : Nat) : Disk :=
  { fs with node := update fs.node p (some (.file i)) }

theorem link_self : (link fs p i).node p = some (.file i) := update_self ..

theorem link_node (h : q ≠ p) : (link fs p i).node q = fs.node q := update_of_ne h ..

theorem link_read (h : q ≠ p) : (link fs p i).read q = fs.read q := by
  unfold Fs.read
  rw [link_node h]
  rfl

theorem link_present (h : fs.present q = true) : (link fs p i).present q = true := by
  by_cases hq : q = p
  · subst hq
    exact Fs.present_iff.2 ⟨_, link_self⟩
  · rwa [Fs.present, link_node hq]

theorem link_fresh (h : fs.Fresh) (hsource : fs.node q = some (.file i)) : (link fs p i).Fresh := by
  intro r j hr
  by_cases hrp : r = p
  · subst hrp
    obtain rfl : j = i := by simpa using hr.symm.trans link_self
    exact h q j hsource
  · rw [link_node hrp] at hr
    exact h r j hr

theorem DiskInv.link_aside (h : DiskInv I fs none) (hp : ¬ Key I p) (hsource : fs.node q = some (.file i)) :
    DiskInv I (link fs p i) none := by
  have hne : ∀ {r}, Key I r → r ≠ p := fun hr heq => hp (heq ▸ hr)
  refine ⟨link_fresh h.fresh hsource, ?_, ?_, ?_, nofun, ?_, ?_⟩
  · rw [link_read (hne key_input), h.input]
  · intro r t j hr ht hrj htj
    rw [link_node (hne hr)] at hrj
    rw [link_node (hne ht)] at htj
    exact h.apart r t j hr ht hrj htj
  · rw [link_node (hne key_base)]
    exact h.base
  · intro base q item hchoose hsafe hfile hfind hnot d hread
    have htr : Tracked I (instPath item.name) :=
      ⟨base, q, item, hchoose, mem_of_find?_eq_some hfind, hsafe, hfile, rfl⟩
    rw [link_read (hne htr.key)] at hread
    exact h.splits base q item hchoose hsafe hfile hfind hnot d hread
  · intro base q hchoose d hread
    rw [link_read (hne key_base)] at hread
    exact .inl ((h.apk base q hchoose d hread).resolve_right fun ⟨v, hv, _⟩ => by cases hv)

theorem DiskInv.link_base (hun : Unreserved I) (h : DiskInv I fs none) {base : Option (List UInt8)} {pk : Package}
    (hchoose : I.chooseBase I.truth = some (base, pk))
    (hsource : fs.node (Input.basePath base) = some (.file i))
    (htruth : fs.read (Input.basePath base) = I.truth (Input.basePath base)) : DiskInv I (link fs baseApk i) none := by
  have hkey : Key I (Input.basePath base) := by
    cases base with
    | none => exact key_input
    | some n => exact key_pkg
  have hother : ∀ r j, r ≠ baseApk → Key I r → (link fs baseApk i).node r = some (.file j) →
      j = i → r = Input.basePath base := by
    intro r j hr hrk hrj hji
    rw [link_node hr, hji] at hrj
    rcases h.apart _ r i hkey hrk hsource hrj with heq | ⟨_, _, -, ⟨hb, -⟩ | ⟨-, hb⟩⟩
    · exact heq.symm
    · exact absurd hb.symm base_ne_basePath
    · exact absurd hb hr
  refine ⟨link_fresh h.fresh hsource, ?_, ?_, ?_, nofun, ?_, ?_⟩
  · rw [link_read (by decide), h.input]
  · intro r t j hr ht hrj htj
    by_cases hrb : r = baseApk
    · subst hrb
      obtain rfl : j = i := by simpa using hrj.symm.trans link_self
      by_cases htb : t = baseApk
      · exact .inl htb.symm
      · exact .inr ⟨base, pk, hchoose, .inl ⟨rfl, hother t j htb ht htj rfl⟩⟩
    · by_cases htb : t = baseApk
      · subst htb
        obtain rfl : j = i := by simpa using htj.symm.trans link_self
        exact .inr ⟨base, pk, hchoose, .inr ⟨hother r j hrb hr hrj rfl, rfl⟩⟩
      · rw [link_node hrb] at hrj
        rw [link_node htb] at htj
        exact h.apart r t j hr ht hrj htj
  · rw [link_self]
    simp
  · intro base q item hchoose hsafe hfile hfind hnot d hread
    have htr : Tracked I (instPath item.name) :=
      ⟨base, q, item, hchoose, mem_of_find?_eq_some hfind, hsafe, hfile, rfl⟩
    rw [link_read (htr.ne_base hun)] at hread
    exact h.splits base q item hchoose hsafe hfile hfind hnot d hread
  · intro base' q hchoose' d hread
    cases hchoose.symm.trans hchoose'
    obtain ⟨j, hj, hd⟩ := Fs.read_eq_some.1 hread
    obtain rfl : j = i := by simpa using hj.symm.trans link_self
    rw [← htruth]
    exact .inl (Fs.read_eq_some.2 ⟨j, hsource, hd⟩)

end Links

end Lunaria.Apk
