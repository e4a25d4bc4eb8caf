import Mathlib
import Lunaria.Apk.InstallSafe

/-! The runs of the install cache: when no run is killed in the middle of a file that later runs keep, the stamp
    certifies a complete tree. -/

namespace Lunaria.Apk
open Files List Option
open CText (toLower)

section Inv
variable (I : Input)

/-- A path has the data of its entry, or is that of the file that is open. -/
def Done (fs : Disk) (cur : Option Writing) (item : Item) (q : List (List UInt8)) : Prop :=
  At cur q ∨ item.ok = true ∧ fs.read q = some item.data

/-- The files of some entries are complete, but for the one that is open. -/
def FilesDone (path : List UInt8 → List (List UInt8)) (fs : Disk) (cur : Option Writing) (items : List Item) : Prop :=
  ∀ item ∈ items, isDirName item.name = false → entrySafe item.name = true ∧ Done fs cur item (path item.name)

/-- There is something at the paths of some entries. -/
def FilesThere (fs : Disk) (items : List Item) : Prop :=
  ∀ item ∈ items, isDirName item.name = false → entrySafe item.name = true ∧ fs.present (instPath item.name) = true

/-- The entries of all splits. -/
def splitsOf (base : Option (List UInt8)) : List Item := (I.others base).flatMap I.splitItems

/-- What is left to do for a tree is at most in the file that is open. -/
structure Good (fs : Disk) (cur : Option Writing) (base : Option (List UInt8)) (p : Package) : Prop where
  choose : I.chooseBase I.truth = some (base, p)
  done : FilesDone instPath fs cur p.items
  there : FilesThere fs (splitsOf I base)
  apk : ∃ i, fs.node baseApk = some (.file i)

/-- What a run that is no hit has done at each stage. -/
def StageInv (fs : Disk) (cur : Option Writing) : Stage → Prop
  | .outer todo => ∃ before, I.outer = before ++ todo ∧ FilesDone pkgPath fs cur before
  | .chosen base p => I.chooseBase I.truth = some (base, p) ∧ FilesDone pkgPath fs cur I.outer
  | .base base p todo => I.chooseBase I.truth = some (base, p) ∧ FilesDone pkgPath fs cur I.outer ∧
      fs.present readyPath = false ∧ ∃ before, p.items = before ++ todo ∧ FilesDone instPath fs cur before
  | .splits base p todo names => I.chooseBase I.truth = some (base, p) ∧ FilesDone pkgPath fs cur I.outer ∧
      fs.present readyPath = false ∧ FilesDone instPath fs cur p.items ∧ (∀ name ∈ names, name ∈ I.others base) ∧
      ∃ before, splitsOf I base = before ++ (todo ++ names.flatMap I.splitItems) ∧ FilesThere fs before
  | .copy base p => I.chooseBase I.truth = some (base, p) ∧ FilesDone pkgPath fs cur I.outer ∧
      fs.present readyPath = false ∧ FilesDone instPath fs cur p.items ∧ FilesThere fs (splitsOf I base)
  | .signer _ | .managed | .stamp => fs.present readyPath = false ∧ ∃ base p, Good I fs cur base p
  | .done => True

/-- The path of the file that is open is no path of an entry, and not `inst/base.apk`. -/
def Aside (cur : Option Writing) : Prop := ∀ w, cur = some w → ¬ Tracked I w.path ∧ w.path ≠ baseApk

def Cache.current (s : Cache) : Option Writing := s.run.bind Run.current

structure CacheInv (s : Cache) : Prop where
  disk : DiskInv I s.fs s.current
  ready : s.fs.present readyPath = true → (∃ base p, Good I s.fs none base p) ∧ Aside I s.current
  outer : ∀ r todo, s.run = some r → r.stage = .outer todo → ∀ item ∈ todo, item ∈ I.outer
  hit : ∀ r, s.run = some r → r.hit = true → s.fs.present readyPath = true
  stage : ∀ r, s.run = some r → r.hit = false → StageInv I s.fs r.current r.stage

end Inv

/-! ### How the parts of the invariant change -/

section Parts
variable {I : Input} {path : List UInt8 → List (List UInt8)} {fs fs' : Disk} {cur cur' : Option Writing}
  {items before : List Item} {base : Option (List UInt8)} {p : Package}

theorem tracked_base (hchoose : I.chooseBase I.truth = some (base, p)) {item : Item} (hitem : item ∈ p.items)
    (hsafe : entrySafe item.name = true) (hfile : isDirName item.name = false) : Tracked I (instPath item.name) :=
  ⟨base, p, item, hchoose, mem_append_left _ hitem, hsafe, hfile, rfl⟩

variable {q : List (List UInt8)}

theorem Good.present (h : Good I fs none base p) (hq : Tracked I q) : fs.present q = true := by
  obtain ⟨base', p', item, hchoose, hitem, hsafe, hfile, rfl⟩ := hq
  cases h.choose.symm.trans hchoose
  rcases mem_append.1 hitem with hitem | hitem
  · rcases (h.done item hitem hfile).2 with ⟨w, hw, -⟩ | ⟨-, hread⟩
    · cases hw
    · obtain ⟨i, hi, -⟩ := Fs.read_eq_some.1 hread
      exact Fs.present_of_file hi
  · exact (h.there item hitem hfile).2

theorem Good.base_present (h : Good I fs cur base p) : fs.present baseApk = true := by
  obtain ⟨i, hi⟩ := h.apk
  exact Fs.present_of_file hi

/-- A path that stages speak of: a file of the container, or of an entry. -/
def Kept (I : Input) (q : List (List UInt8)) : Prop := (∃ name, q = pkgPath name) ∨ Tracked I q

theorem Kept.key (h : Kept I q) : Key I q := by
  rcases h with ⟨name, rfl⟩ | h
  · exact key_pkg
  · exact h.key

theorem Kept.ne_base (hun : Unreserved I) (h : Kept I q) : q ≠ baseApk := by
  rcases h with ⟨name, rfl⟩ | h
  · exact base_ne_pkg.symm
  · exact h.ne_base hun

theorem Kept.ne_ready (h : Kept I q) : q ≠ readyPath := by
  rcases h with ⟨name, rfl⟩ | h
  · exact pkg_ne_ready
  · obtain ⟨name, rfl⟩ := h.inst
    exact inst_ne_ready

/-- A change of the disk that takes nothing back of what stages have done. -/
structure Change (I : Input) (fs : Disk) (cur : Option Writing) (fs' : Disk) (cur' : Option Writing) : Prop where
  pkg : ∀ item ∈ I.outer, entrySafe item.name = true → isDirName item.name = false →
    Done fs cur item (pkgPath item.name) → Done fs' cur' item (pkgPath item.name)
  inst : ∀ base p, I.chooseBase I.truth = some (base, p) → ∀ item ∈ p.items, entrySafe item.name = true →
    isDirName item.name = false → Done fs cur item (instPath item.name) → Done fs' cur' item (instPath item.name)
  there : ∀ q, Tracked I q → fs.present q = true → fs'.present q = true
  base : ∀ i, fs.node baseApk = some (.file i) → fs'.node baseApk = some (.file i)

theorem Change.of_read (hat : ∀ q, At cur q → At cur' q)
    (hread : ∀ q, Kept I q → At cur' q ∨ fs'.read q = fs.read q)
    (hthere : ∀ q, Tracked I q → fs.present q = true → fs'.present q = true)
    (hbase : ∀ i, fs.node baseApk = some (.file i) → fs'.node baseApk = some (.file i)) : Change I fs cur fs' cur' := by
  have hdone : ∀ item q, Kept I q → Done fs cur item q → Done fs' cur' item q := by
    rintro item q hq (hcur | ⟨hok, hdata⟩)
    · exact .inl (hat q hcur)
    · exact (hread q hq).imp_right fun hsame => ⟨hok, hsame.trans hdata⟩
  exact ⟨fun item _ _ _ => hdone item _ (.inl ⟨_, rfl⟩),
    fun base p hchoose item hitem hsafe hfile => hdone item _ (.inr (tracked_base hchoose hitem hsafe hfile)),
      hthere, hbase⟩

section
variable (h : Change I fs cur fs' cur')
include h

theorem Change.filesThere (hchoose : I.chooseBase I.truth = some (base, p))
    (hsub : ∀ item ∈ before, item ∈ splitsOf I base) (hthere : FilesThere fs before) : FilesThere fs' before := by
  intro item hitem hfile
  obtain ⟨hsafe, hpresent⟩ := hthere item hitem hfile
  exact ⟨hsafe, h.there _ ⟨base, p, item, hchoose, mem_append_right _ (hsub item hitem), hsafe, hfile, rfl⟩ hpresent⟩

theorem Change.filesPkg (hsub : ∀ item ∈ before, item ∈ I.outer)
    (hdone : FilesDone pkgPath fs cur before) : FilesDone pkgPath fs' cur' before := by
  intro item hitem hfile
  obtain ⟨hsafe, hitemDone⟩ := hdone item hitem hfile
  exact ⟨hsafe, h.pkg item (hsub item hitem) hsafe hfile hitemDone⟩

theorem Change.filesInst (hchoose : I.chooseBase I.truth = some (base, p))
    (hsub : ∀ item ∈ before, item ∈ p.items) (hdone : FilesDone instPath fs cur before) :
    FilesDone instPath fs' cur' before := by
  intro item hitem hfile
  obtain ⟨hsafe, hitemDone⟩ := hdone item hitem hfile
  exact ⟨hsafe, h.inst base p hchoose item (hsub item hitem) hsafe hfile hitemDone⟩

theorem Change.good (hgood : Good I fs cur base p) : Good I fs' cur' base p where
  choose := hgood.choose
  done := h.filesInst hgood.choose (fun _ => id) hgood.done
  there := h.filesThere hgood.choose (fun _ => id) hgood.there
  apk := by
    obtain ⟨i, hi⟩ := hgood.apk
    exact ⟨i, h.base i hi⟩

theorem StageInv.change {stage : Stage}
    (hready : fs.present readyPath = false → fs'.present readyPath = false) (hstage : StageInv I fs cur stage) :
    StageInv I fs' cur' stage := by
  cases stage with
  | outer todo =>
    obtain ⟨before, hbefore, hdone⟩ := hstage
    exact ⟨before, hbefore, h.filesPkg (fun item hitem => hbefore ▸ mem_append_left _ hitem) hdone⟩
  | chosen base p => exact ⟨hstage.1, h.filesPkg (fun _ => id) hstage.2⟩
  | base base p todo =>
    obtain ⟨hchoose, hpkg, hno, before, hbefore, hdone⟩ := hstage
    exact ⟨hchoose, h.filesPkg (fun _ => id) hpkg, hready hno, before, hbefore,
      h.filesInst hchoose (fun item hitem => hbefore ▸ mem_append_left _ hitem) hdone⟩
  | splits base p todo names =>
    obtain ⟨hchoose, hpkg, hno, hinst, hnames, before, hbefore, hthere⟩ := hstage
    exact ⟨hchoose, h.filesPkg (fun _ => id) hpkg, hready hno, h.filesInst hchoose (fun _ => id) hinst, hnames, before,
      hbefore, h.filesThere hchoose (fun item hitem => hbefore ▸ mem_append_left _ hitem) hthere⟩
  | copy base p =>
    obtain ⟨hchoose, hpkg, hno, hinst, hthere⟩ := hstage
    exact ⟨hchoose, h.filesPkg (fun _ => id) hpkg, hready hno, h.filesInst hchoose (fun _ => id) hinst,
      h.filesThere hchoose (fun _ => id) hthere⟩
  | signer p =>
    obtain ⟨hno, base, q, hgood⟩ := hstage
    exact ⟨hready hno, base, q, h.good hgood⟩
  | managed =>
    obtain ⟨hno, base, q, hgood⟩ := hstage
    exact ⟨hready hno, base, q, h.good hgood⟩
  | stamp =>
    obtain ⟨hno, base, q, hgood⟩ := hstage
    exact ⟨hready hno, base, q, h.good hgood⟩
  | done => trivial

end

end Parts

/-! ### The archives on the disk -/

section Archives
variable {I : Input} {fs : Disk} {item : Item} {name : List UInt8} {read read' : List (List UInt8) → Option (List UInt8)}

theorem suffix_apk (h : suffix name (bytes ".apk") = true) : isDirName name = false := by
  simp only [suffix, decide_eq_true_eq] at h
  obtain ⟨t, ht⟩ := h
  have hlast : (name.map toLower).getLast? = some (ch 'k') := by
    rw [← ht, getLast?_append]
    rfl
  by_contra hdir
  have hslash : name.getLast? = some (ch '/') := by simpa [isDirName] using hdir
  rw [getLast?_map, hslash] at hlast
  cases hlast

theorem mem_apks (h : name ∈ I.apks) : isDirName name = false ∧ ∃ item ∈ I.outer, item.name = name := by
  rw [Input.apks, mem_insertionSort, mem_filter, List.mem_map] at h
  exact ⟨suffix_apk h.2, h.1⟩

theorem truth_item (hd : Distinct I) (hitem : item ∈ I.outer) (hsafe : entrySafe item.name = true)
    (hfile : isDirName item.name = false) : I.truth (pkgPath item.name) = some item.data := by
  rw [Input.truth, if_neg pkg_ne_input, map_eq_some_iff]
  have hsome : (I.outer.find? fun x => entrySafe x.name ∧ isDirName x.name = false ∧
      pkgPath x.name = pkgPath item.name).isSome :=
    find?_isSome.2 ⟨item, hitem, by simp [hsafe, hfile]⟩
  obtain ⟨found, hfind⟩ := isSome_iff_exists.1 hsome
  refine ⟨found, hfind, ?_⟩
  have hfound := find?_some hfind
  simp only [decide_eq_true_eq] at hfound
  have hname := pkgPath_inj hfound.1 hsafe hfound.2.1 hfile hfound.2.2
  rw [inj_on_of_nodup_map hd.outer (mem_of_find?_eq_some hfind) hitem hname]

theorem FilesDone.read_apk (hd : Distinct I) (h : FilesDone pkgPath fs none I.outer) (hname : name ∈ I.apks) :
    fs.read (pkgPath name) = I.truth (pkgPath name) := by
  obtain ⟨hfile, item, hitem, rfl⟩ := mem_apks hname
  obtain ⟨hsafe, ⟨w, hw, -⟩ | ⟨-, hread⟩⟩ := h item hitem hfile
  · cases hw
  · rw [hread, truth_item hd hitem hsafe hfile]

theorem firstBase_congr : ∀ {names : List (List UInt8)}, (∀ n ∈ names, read (pkgPath n) = read' (pkgPath n)) →
    I.firstBase read names = I.firstBase read' names
  | [], _ => rfl
  | n :: names, h => by
    rw [Input.firstBase, Input.firstBase, h n mem_cons_self,
      firstBase_congr fun m hm => h m (mem_cons_of_mem n hm)]

theorem chooseBase_eq (hd : Distinct I) (hinput : fs.read inputPath = some I.file)
    (h : FilesDone pkgPath fs none I.outer) : I.chooseBase fs.read = I.chooseBase I.truth := by
  unfold Input.chooseBase
  split
  · exact firstBase_congr fun n hn => h.read_apk hd hn
  · rw [hinput, Input.truth, if_pos rfl]

theorem read_basePath (hd : Distinct I) (hinput : fs.read inputPath = some I.file) (h : FilesDone pkgPath fs none I.outer)
    {base : Option (List UInt8)} {p : Package} (hchoose : I.chooseBase I.truth = some (base, p)) :
    fs.read (Input.basePath base) = I.truth (Input.basePath base) := by
  cases base with
  | none =>
    show fs.read inputPath = I.truth inputPath
    rw [hinput, Input.truth, if_pos rfl]
  | some n =>
    refine h.read_apk hd ?_
    unfold Input.chooseBase at hchoose
    split at hchoose
    · obtain ⟨m, data, hm, hmem, -⟩ := firstBase_some hchoose
      exact some.inj hm ▸ hmem
    · obtain ⟨q, -, heq⟩ := map_eq_some_iff.1 hchoose
      cases (Prod.mk.inj heq).1

end Archives

/-! ### Steps that open no file -/

section Steps
variable {I : Input} {fs fs' : Disk} {hit : Bool} {stage stage' : Stage} {w : Writing} {p q : List (List UInt8)} {i : Nat}

/-- The invariant in the middle of a run. -/
theorem CacheInv.running {cur : Option Writing} (hdisk : DiskInv I fs cur)
    (hready : fs.present readyPath = true → (∃ base p, Good I fs none base p) ∧ Aside I cur)
    (houter : ∀ todo, stage = .outer todo → ∀ item ∈ todo, item ∈ I.outer) (hhit : hit = true → fs.present readyPath = true)
    (hstage : hit = false → StageInv I fs cur stage) : CacheInv I ⟨fs, some ⟨hit, stage, cur⟩⟩ where
  disk := hdisk
  ready := hready
  outer r todo hr hs := by
    cases hr
    exact houter todo hs
  hit r hr hh := by
    cases hr
    exact hhit hh
  stage r hr hh := by
    cases hr
    exact hstage hh

theorem CacheInv.same (h : CacheInv I ⟨fs, some ⟨hit, stage, none⟩⟩)
    (houter : ∀ todo, stage' = .outer todo → ∀ item ∈ todo, item ∈ I.outer)
    (hstage : hit = false → StageInv I fs none stage') : CacheInv I ⟨fs, some ⟨hit, stage', none⟩⟩ :=
  .running h.disk h.ready houter (h.hit _ rfl) hstage

theorem CacheInv.moved (h : CacheInv I ⟨fs, some ⟨hit, stage, none⟩⟩) (hdisk : DiskInv I fs' none)
    (hchange : Change I fs none fs' none) (hready : fs'.present readyPath = fs.present readyPath)
    (houter : ∀ todo, stage' = .outer todo → ∀ item ∈ todo, item ∈ I.outer)
    (hstage : hit = false → StageInv I fs' none stage') : CacheInv I ⟨fs', some ⟨hit, stage', none⟩⟩ := by
  refine .running hdisk (fun hr => ?_) houter (fun hh => hready.trans (h.hit _ rfl hh)) hstage
  obtain ⟨⟨base, p, hgood⟩, haside⟩ := h.ready (hready ▸ hr)
  exact ⟨⟨base, p, hchange.good hgood⟩, haside⟩

theorem change_mkdirs (hmk : fs.mkdirs p = some fs') : Change I fs none fs' none := by
  have hk := Fs.mkdirs_keeps hmk
  exact .of_read (fun _ => id) (fun q _ => .inr (hk.read q)) (fun q _ => hk.present q) fun i => (hk.file _ i).2

theorem ready_mkdirs (hmk : fs.mkdirs p = some fs') (hp : p.head? ≠ some (bytes ".ready")) :
    fs'.present readyPath = fs.present readyPath := by
  refine Bool.eq_iff_iff.2 ⟨fun h => ?_, (Fs.mkdirs_keeps hmk).present _⟩
  rcases Fs.mkdirs_made hmk h with h | ⟨t, rfl⟩
  · exact h
  · exact absurd rfl hp

theorem Good.aside {base : Option (List UInt8)} {pk : Package} (h : Good I fs (some w) base pk) (hw : ¬ Tracked I w.path) :
    Good I fs none base pk where
  choose := h.choose
  done := by
    intro item hitem hfile
    obtain ⟨hsafe, hdone⟩ := h.done item hitem hfile
    refine ⟨hsafe, .inr (hdone.resolve_left ?_)⟩
    rintro ⟨v, hv, hpath⟩
    cases hv
    exact hw (hpath ▸ tracked_base h.choose hitem hsafe hfile)
  there := h.there
  apk := h.apk

theorem DiskInv.change_opened (hun : Unreserved I) (h : DiskInv I fs none) (ho : Fs.Opened fs fs' w.path w.inode)
    (hkey : fs.node w.path = none ∨ Key I w.path) (hbase : w.path = baseApk → fs.node baseApk = none) :
    Change I fs none fs' (some w) := by
  refine .of_read (fun q hq => ?_) (fun q hq => ?_) (fun q _ => ho.present q) fun j hj => ?_
  · obtain ⟨v, hv, -⟩ := hq
    cases hv
  · by_cases heq : w.path = q
    · exact .inl ⟨w, rfl, heq⟩
    · exact .inr (h.read_opened ho hkey hbase hq.key (Ne.symm heq) (hq.ne_base hun))
  · refine (ho.file _ j fun heq => ?_).2 hj
    cases (hbase heq.symm).symm.trans hj

theorem CacheInv.opened (hun : Unreserved I) (h : CacheInv I ⟨fs, some ⟨hit, stage, none⟩⟩)
    (ho : Fs.Opened fs fs' w.path w.inode) (hkey : fs.node w.path = none ∨ Key I w.path)
    (hbase : w.path = baseApk → fs.node baseApk = none)
    (hunder : baseApk <+: w.path → w.path = baseApk ∨ fs.present baseApk = true) (hw : Open I fs' w)
    (haside : fs.present readyPath = true ∨ w.path = readyPath → ¬ Tracked I w.path ∧ w.path ≠ baseApk)
    (hready : readyPath <+: w.path → w.path = readyPath ∧ ∃ base p, Good I fs none base p)
    (houter : ∀ todo, stage' = .outer todo → ∀ item ∈ todo, item ∈ I.outer)
    (hstage : hit = false → StageInv I fs' (some w) stage') : CacheInv I ⟨fs', some ⟨hit, stage', some w⟩⟩ := by
  refine .running (h.disk.opened hun ho hkey hbase hunder hw.input hw) (fun hr => ?_) houter
    (fun hh => ho.present _ (h.hit _ rfl hh)) hstage
  have hgood : (∃ base p, Good I fs none base p) ∧ ¬ Tracked I w.path ∧ w.path ≠ baseApk := by
    rcases ho.made _ hr with hr | hr
    · exact ⟨(h.ready hr).1, haside (.inl hr)⟩
    · exact ⟨(hready hr).2, haside (.inr (hready hr).1)⟩
  obtain ⟨⟨base, p, hgood⟩, hnot⟩ := hgood
  refine ⟨⟨base, p, ((h.disk.change_opened hun ho hkey hbase).good hgood).aside hnot.1⟩, fun v hv => ?_⟩
  cases hv
  exact hnot

theorem open_aside {data : List UInt8} {ok drop : Bool} (h : DiskInv I fs none) (ho : Fs.Opened fs fs' p i)
    (hkey : fs.node p = none ∨ Key I p) (htracked : ¬ Tracked I p) (hbase : p ≠ baseApk)
    (hpkg : p.head? ≠ some (bytes "pkg"))
    (hinput : p ≠ inputPath) : Open I fs' ⟨p, i, [], data, ok, drop⟩ where
  node := ho.self
  data := ho.empty
  owner q hq hnode := h.owner_opened ho hkey (fun heq => absurd heq hbase) hq hnode
  input := hinput
  pkg item _ _ _ hpath := absurd (congrArg List.head? hpath) hpkg
  inst base pk item hchoose hsafe hfile hfind hpath :=
    absurd ⟨base, pk, item, hchoose, mem_of_find?_eq_some hfind, hsafe, hfile, hpath⟩ htracked
  apk hpath := absurd hpath hbase
  kept _ := by
    refine ⟨htracked, hbase, fun base hpath => ?_⟩
    cases base with
    | none => exact hinput hpath
    | some n => exact hpkg (congrArg List.head? hpath)

theorem CacheInv.hit_present (h : CacheInv I ⟨fs, some ⟨true, stage, none⟩⟩) :
    (∀ q, Tracked I q → fs.present q = true) ∧ fs.present baseApk = true := by
  obtain ⟨⟨base, p, hgood⟩, -⟩ := h.ready (h.hit _ rfl rfl)
  exact ⟨fun q hq => hgood.present hq, hgood.base_present⟩

end Steps

/-! ### The stages -/

section Stages
variable {I : Input} {fs fs' : Disk} {hit : Bool} {stage : Stage} {item : Item} {todo : List Item} {w : Option Writing}
  {base : Option (List UInt8)} {p : Package} {names : List (List UInt8)}

variable {before : List Item} {stage' : Stage} {i : Nat} {q : List (List UInt8)} {data : List UInt8}

theorem FilesDone.snoc {path : List UInt8 → List (List UInt8)} {cur : Option Writing}
    (h : FilesDone path fs cur before)
    (hitem : isDirName item.name = false → entrySafe item.name = true ∧ Done fs cur item (path item.name)) :
    FilesDone path fs cur (before ++ [item]) := by
  intro x hx hfile
  rcases mem_append.1 hx with hx | hx
  · exact h x hx hfile
  · obtain rfl := mem_singleton.1 hx
    exact hitem hfile

theorem FilesThere.snoc (h : FilesThere fs before)
    (hitem : isDirName item.name = false → entrySafe item.name = true ∧ fs.present (instPath item.name) = true) :
    FilesThere fs (before ++ [item]) := by
  intro x hx hfile
  rcases mem_append.1 hx with hx | hx
  · exact h x hx hfile
  · obtain rfl := mem_singleton.1 hx
    exact hitem hfile

/-- An entry of the container. -/
theorem CacheInv.outer_step (hun : Unreserved I) (hd : Distinct I)
    (h : CacheInv I ⟨fs, some ⟨hit, .outer (item :: todo), none⟩⟩)
    (hx : Extracts (!hit) (pkgPath item.name) item fs fs' w) :
    CacheInv I ⟨fs', some ⟨hit, .outer todo, w⟩⟩ := by
  have hmem : ∀ x ∈ item :: todo, x ∈ I.outer := h.outer _ _ rfl rfl
  have hout : ∀ t, Stage.outer todo = .outer t → ∀ x ∈ t, x ∈ I.outer := by
    rintro t ⟨⟩ x hx
    exact hmem x (mem_cons_of_mem item hx)
  have hhead : (pkgPath item.name).head? = some (bytes "pkg") := rfl
  have hnot : ¬ baseApk <+: pkgPath item.name := heads_apart rfl (by rw [hhead]; decide)
  cases hx with
  | dir hsafe hdir hmk =>
    have hchange : Change I fs none fs' none := change_mkdirs hmk
    refine h.moved (h.disk.mkdirs hmk fun hpre => absurd hpre hnot) hchange
      (ready_mkdirs hmk (by rw [hhead]; decide)) hout fun hhit => ?_
    obtain ⟨before, hbefore, hdone⟩ := h.stage _ rfl hhit
    refine ⟨before ++ [item], by rw [hbefore, append_assoc]; rfl, ?_⟩
    refine (hchange.filesPkg (fun x hx => hbefore ▸ mem_append_left _ hx) hdone).snoc fun hfile => ?_
    cases hfile.symm.trans hdir
  | keep hsafe hfile hover hpresent =>
    refine h.same hout fun hhit => ?_
    rw [hhit] at hover
    cases hover
  | write hsafe hfile hover hmk hcreate =>
    rename_i fs₁ i
    have ho := Fs.mkdirs_create_opened hmk hcreate
    have hbase : pkgPath item.name = baseApk → fs.node baseApk = none := fun heq => absurd heq.symm base_ne_pkg
    have htracked : ¬ Tracked I (pkgPath item.name) := by
      intro htr
      obtain ⟨n, hn⟩ := htr.inst
      exact inst_ne_pkg hn.symm
    have hopen : Open I fs' ⟨pkgPath item.name, i, [], item.data, item.ok, true⟩ := by
      refine ⟨ho.self, ho.empty, fun q hq hnode => h.disk.owner_opened ho (.inr key_pkg) hbase hq hnode, pkg_ne_input,
        ?_, ?_, ?_, nofun⟩
      · intro x hx hsafe' hfile' hpath
        have hname := pkgPath_inj hsafe hsafe' hfile hfile' hpath
        rw [inj_on_of_nodup_map hd.outer (hmem item mem_cons_self) hx hname]
        exact ⟨rfl, rfl⟩
      · intro base' p' x _ _ _ _ hpath
        exact absurd hpath.symm inst_ne_pkg
      · intro hpath
        exact absurd hpath.symm base_ne_pkg
    refine h.opened hun ho (.inr key_pkg) hbase (fun hpre => absurd hpre hnot) hopen
      (fun _ => ⟨htracked, base_ne_pkg.symm⟩) (fun hpre => absurd hpre (heads_apart rfl (by rw [hhead]; decide))) hout
      fun hhit => ?_
    · obtain ⟨before, hbefore, hdone⟩ := h.stage _ rfl hhit
      have hchange := h.disk.change_opened (w := ⟨pkgPath item.name, i, [], item.data, item.ok, true⟩)
        hun ho (.inr key_pkg) hbase
      refine ⟨before ++ [item], by rw [hbefore, append_assoc]; rfl, ?_⟩
      refine (hchange.filesPkg (fun x hx => hbefore ▸ mem_append_left _ hx) hdone).snoc fun _ => ?_
      exact ⟨hsafe, .inl ⟨_, rfl, rfl⟩⟩

theorem inst_head {name : List UInt8} : (instPath name).head? = some (bytes "inst") := rfl

theorem CacheInv.hit_step (hun : Unreserved I) (h : CacheInv I ⟨fs, some ⟨true, stage, none⟩⟩)
    (hx : Extracts false (instPath item.name) item fs fs' w) (hout : ∀ t, stage' ≠ .outer t) :
    CacheInv I ⟨fs', some ⟨true, stage', w⟩⟩ := by
  obtain ⟨htracked, hapk⟩ := h.hit_present
  have hout' : ∀ t, stage' = .outer t → ∀ x ∈ t, x ∈ I.outer := fun t ht => absurd ht (hout t)
  cases hx with
  | dir hsafe hdir hmk =>
    exact h.moved (h.disk.mkdirs hmk fun _ => hapk) (change_mkdirs hmk)
      (ready_mkdirs hmk (by rw [inst_head]; decide)) hout' nofun
  | keep => exact h.same hout' nofun
  | write hsafe hfile hover hmk hcreate =>
    rename_i fs₁ i
    have ho := Fs.mkdirs_create_opened hmk hcreate
    have habsent : fs.present (instPath item.name) = false := by
      by_contra hpre
      exact hover ⟨rfl, by simpa using hpre⟩
    have hnone := Fs.present_eq_false.1 habsent
    have hnot : ¬ Tracked I (instPath item.name) :=
      fun htr => absurd (habsent.symm.trans (htracked _ htr)) Bool.false_ne_true
    have hne : instPath item.name ≠ baseApk := by
      intro heq
      rw [heq, hapk] at habsent
      cases habsent
    refine h.opened hun ho (.inl hnone) (fun heq => absurd heq hne) (fun _ => .inr hapk)
      (open_aside h.disk ho (.inl hnone) hnot hne (by rw [inst_head]; decide) inst_ne_input) (fun _ => ⟨hnot, hne⟩)
      (fun hpre => absurd hpre (heads_apart rfl (by rw [inst_head]; decide))) hout' nofun

theorem find_of_nodup {items rest : List Item} (hnodup : (items.map Item.name).Nodup) (hitem : item ∈ items) :
    (items ++ rest).find? (fun x => x.name = item.name) = some item := by
  have hsome : (items.find? fun x => x.name = item.name).isSome := find?_isSome.2 ⟨item, hitem, by simp⟩
  obtain ⟨found, hfind⟩ := isSome_iff_exists.1 hsome
  have hname : found.name = item.name := by simpa using find?_some hfind
  rw [find?_append, hfind, inj_on_of_nodup_map hnodup (mem_of_find?_eq_some hfind) hitem hname]
  rfl

theorem open_item (hun : Unreserved I) (h : DiskInv I fs none) (ho : Fs.Opened fs fs' (instPath item.name) i)
    (hchoose : I.chooseBase I.truth = some (base, p))
    (hfind : (I.allItems base p).find? (fun x => x.name = item.name) = some item) (hsafe : entrySafe item.name = true)
    (hfile : isDirName item.name = false) : Open I fs' ⟨instPath item.name, i, [], item.data, item.ok, true⟩ := by
  have htr : Tracked I (instPath item.name) :=
    ⟨base, p, item, hchoose, mem_of_find?_eq_some hfind, hsafe, hfile, rfl⟩
  have hne := htr.ne_base hun
  refine ⟨ho.self, ho.empty,
    fun q hq hnode => h.owner_opened ho (.inr htr.key) (fun heq => absurd heq hne) hq hnode, inst_ne_input, ?_, ?_, ?_, nofun⟩
  · intro x _ _ _ hpath
    exact absurd hpath inst_ne_pkg
  · intro base' p' x hchoose' hsafe' hfile' hfind' hpath
    cases hchoose.symm.trans hchoose'
    have hname := instPath_inj hsafe hsafe' hfile hfile' hpath
    rw [← hname, hfind] at hfind'
    rw [some.inj hfind']
    exact ⟨rfl, rfl⟩
  · intro hpath
    exact absurd hpath hne

/-- The stamp stays away while files of `inst` are opened. -/
theorem ready_opened (ho : Fs.Opened fs fs' q i) (hready : fs.present readyPath = false)
    (hq : q.head? ≠ some (bytes ".ready")) : fs'.present readyPath = false := by
  by_contra hpre
  rcases ho.made readyPath (by simpa using hpre) with hpre | hpre
  · cases hready.symm.trans hpre
  · exact heads_apart rfl hq hpre

section Item
variable (hun : Unreserved I) (hchoose : I.chooseBase I.truth = some (base, p)) (hall : item ∈ I.allItems base p)
include hun hchoose hall

theorem not_under_base : ¬ baseApk <+: instPath item.name := by
  rintro ⟨t, ht⟩
  refine (hun base p hchoose item hall).1 ?_
  rw [← (List.cons.inj ht).2]
  rfl

/-- The directories of an entry are made. -/
theorem CacheInv.item_dir (h : CacheInv I ⟨fs, some ⟨false, stage, none⟩⟩) (hmk : fs.mkdirs (instPath item.name) = some fs')
    (hout : ∀ t, stage' ≠ .outer t)
    (hstage : Change I fs none fs' none → fs'.present readyPath = fs.present readyPath → StageInv I fs' none stage') :
    CacheInv I ⟨fs', some ⟨false, stage', none⟩⟩ := by
  have hsame := ready_mkdirs hmk (by rw [inst_head]; decide)
  exact h.moved (h.disk.mkdirs hmk fun hpre => absurd hpre (not_under_base hun hchoose hall)) (change_mkdirs hmk) hsame
    (fun t ht => absurd ht (hout t)) fun _ => hstage (change_mkdirs hmk) hsame

/-- The file of an entry is opened, while there is no stamp. -/
theorem CacheInv.item_write (h : CacheInv I ⟨fs, some ⟨false, stage, none⟩⟩) (hready : fs.present readyPath = false)
    (hfind : (I.allItems base p).find? (fun x => x.name = item.name) = some item) (hsafe : entrySafe item.name = true)
    (hfile : isDirName item.name = false) (ho : Fs.Opened fs fs' (instPath item.name) i) (hout : ∀ t, stage' ≠ .outer t)
    {w : Writing} (hw : w = ⟨instPath item.name, i, [], item.data, item.ok, true⟩)
    (hstage : Change I fs none fs' (some w) → fs'.present readyPath = false → StageInv I fs' (some w) stage') :
    CacheInv I ⟨fs', some ⟨false, stage', some w⟩⟩ := by
  subst hw
  have htr : Tracked I (instPath item.name) := ⟨base, p, item, hchoose, hall, hsafe, hfile, rfl⟩
  have hne := htr.ne_base hun
  refine h.opened hun ho (.inr htr.key) (fun heq => absurd heq hne)
    (fun hpre => absurd hpre (not_under_base hun hchoose hall)) (open_item hun h.disk ho hchoose hfind hsafe hfile) ?_
    (fun hpre => absurd hpre (heads_apart rfl (by rw [inst_head]; decide))) (fun t ht => absurd ht (hout t)) fun _ => ?_
  · rintro (hpre | hpath)
    · cases hready.symm.trans hpre
    · exact absurd hpath inst_ne_ready
  · exact hstage (h.disk.change_opened hun ho (.inr htr.key) fun heq => absurd heq hne)
      (ready_opened ho hready (by rw [inst_head]; decide))

end Item

/-- An entry of the base APK. -/
theorem CacheInv.base_step (hun : Unreserved I) (hd : Distinct I)
    (h : CacheInv I ⟨fs, some ⟨hit, .base base p (item :: todo), none⟩⟩)
    (hx : Extracts (!hit) (instPath item.name) item fs fs' w) : CacheInv I ⟨fs', some ⟨hit, .base base p todo, w⟩⟩ := by
  cases hit with
  | true => exact h.hit_step hun hx fun _ => Stage.noConfusion
  | false =>
    obtain ⟨hchoose, hpkg, hready, before, hbefore, hdone⟩ := h.stage _ rfl rfl
    have hmem : item ∈ p.items := hbefore ▸ mem_append_right _ mem_cons_self
    have hall : item ∈ I.allItems base p := mem_append_left _ hmem
    have hsub : ∀ x ∈ before, x ∈ p.items := fun x hx => hbefore ▸ mem_append_left _ hx
    have hsplit : p.items = (before ++ [item]) ++ todo := by rw [hbefore, append_assoc]; rfl
    cases hx with
    | dir hsafe hdir hmk =>
      refine h.item_dir hun hchoose hall hmk (fun _ => Stage.noConfusion) fun hchange hsame => ?_
      refine ⟨hchoose, hchange.filesPkg (fun _ => id) hpkg, hsame.trans hready, before ++ [item], hsplit, ?_⟩
      exact (hchange.filesInst hchoose hsub hdone).snoc fun hfile => absurd (hfile.symm.trans hdir) Bool.false_ne_true
    | keep hsafe hfile hover => cases hover
    | write hsafe hfile hover hmk hcreate =>
      refine h.item_write hun hchoose hall hready (find_of_nodup (hd.base base p hchoose) hmem) hsafe hfile
        (Fs.mkdirs_create_opened hmk hcreate) (fun _ => Stage.noConfusion) rfl fun hchange hready' => ?_
      refine ⟨hchoose, hchange.filesPkg (fun _ => id) hpkg, hready', before ++ [item], hsplit, ?_⟩
      exact (hchange.filesInst hchoose hsub hdone).snoc fun _ => ⟨hsafe, .inl ⟨_, rfl, rfl⟩⟩

/-- An entry of a split. -/
theorem CacheInv.split_step (hun : Unreserved I)
    (h : CacheInv I ⟨fs, some ⟨hit, .splits base p (item :: todo) names, none⟩⟩)
    (hx : Extracts false (instPath item.name) item fs fs' w) :
    CacheInv I ⟨fs', some ⟨hit, .splits base p todo names, w⟩⟩ := by
  cases hit with
  | true => exact h.hit_step hun hx fun _ => Stage.noConfusion
  | false =>
    obtain ⟨hchoose, hpkg, hready, hinst, hnames, before, hbefore, hthere⟩ := h.stage _ rfl rfl
    have hmem : item ∈ splitsOf I base :=
      hbefore ▸ mem_append_right _ (mem_append_left _ mem_cons_self)
    have hall : item ∈ I.allItems base p := mem_append_right _ hmem
    have hsub : ∀ x ∈ before, x ∈ splitsOf I base := fun x hx => hbefore ▸ mem_append_left _ hx
    have hsplit : splitsOf I base = (before ++ [item]) ++ (todo ++ names.flatMap I.splitItems) := by
      rw [hbefore, append_assoc]
      rfl
    cases hx with
    | dir hsafe hdir hmk =>
      refine h.item_dir hun hchoose hall hmk (fun _ => Stage.noConfusion) fun hchange hsame => ?_
      refine ⟨hchoose, hchange.filesPkg (fun _ => id) hpkg, hsame.trans hready,
        hchange.filesInst hchoose (fun _ => id) hinst, hnames, before ++ [item], hsplit, ?_⟩
      exact (hchange.filesThere hchoose hsub hthere).snoc fun hfile => absurd (hfile.symm.trans hdir) Bool.false_ne_true
    | keep hsafe hfile hover hpresent =>
      exact h.same nofun fun _ => ⟨hchoose, hpkg, hready, hinst, hnames, before ++ [item], hsplit,
        hthere.snoc fun _ => ⟨hsafe, hpresent⟩⟩
    | write hsafe hfile hover hmk hcreate =>
      have ho := Fs.mkdirs_create_opened hmk hcreate
      have habsent : fs.present (instPath item.name) ≠ true := fun hpre => hover ⟨rfl, hpre⟩
      -- the entries before it have their files, so none of them has its name
      have hfirst : ∀ x ∈ p.items ++ before, x.name ≠ item.name := by
        intro x hx hname
        have hfile' : isDirName x.name = false := hname ▸ hfile
        refine habsent ?_
        rw [← hname]
        rcases mem_append.1 hx with hx | hx
        · obtain ⟨-, ⟨v, hv, -⟩ | ⟨-, hread⟩⟩ := hinst x hx hfile'
          · cases hv
          · obtain ⟨j, hj, -⟩ := Fs.read_eq_some.1 hread
            exact Fs.present_of_file hj
        · exact (hthere x hx hfile').2
      have hfind : (I.allItems base p).find? (fun x => x.name = item.name) = some item := by
        have hlist : I.allItems base p = (p.items ++ before) ++ item :: (todo ++ names.flatMap I.splitItems) := by
          rw [append_assoc]
          exact congrArg (p.items ++ ·) hbefore
        rw [hlist, find?_append, find?_eq_none.2 fun x hx => by simpa using hfirst x hx, none_or,
          find?_cons_of_pos (by simp)]
      refine h.item_write hun hchoose hall hready hfind hsafe hfile ho (fun _ => Stage.noConfusion) rfl
        fun hchange hready' => ?_
      refine ⟨hchoose, hchange.filesPkg (fun _ => id) hpkg, hready', hchange.filesInst hchoose (fun _ => id) hinst, hnames,
        before ++ [item], hsplit, ?_⟩
      exact (hchange.filesThere hchoose hsub hthere).snoc fun _ => ⟨hsafe, Fs.present_of_file ho.self⟩

/-- The stamp is taken away. -/
theorem CacheInv.begin_step (h : CacheInv I ⟨fs, some ⟨hit, .chosen base p, none⟩⟩)
    (hdir : hit = false → fs.node readyPath ≠ some .dir) :
    CacheInv I ⟨if hit then fs else fs.unlink readyPath, some ⟨hit, .base base p p.items, none⟩⟩ := by
  cases hit with
  | true => exact h.same (by simp) (by simp)
  | false =>
    rw [if_neg Bool.false_ne_true]
    obtain ⟨hchoose, hpkg⟩ := h.stage _ rfl rfl
    have hgone : (fs.unlink readyPath).present readyPath = false := by
      rw [Fs.present_eq_false]
      rcases hnode : fs.node readyPath with _ | _ | i
      · by_contra hne
        obtain ⟨n, hn⟩ := ne_none_iff_exists'.1 hne
        unfold Fs.unlink at hn
        rw [hnode] at hn
        cases hnode.symm.trans hn
      · exact absurd hnode (hdir rfl)
      · exact Fs.unlink_self hnode
    have hchange : Change I fs none (fs.unlink readyPath) none := by
      refine .of_read (fun _ => id) (fun q hq => .inr (Fs.unlink_read hq.ne_ready)) (fun q hq hpre => ?_) fun i hi => ?_
      · rwa [Fs.present, Fs.unlink_node (Kept.ne_ready (.inr hq))]
      · rwa [Fs.unlink_node (by decide)]
    refine .running (h.disk.drop (by decide) (by rintro _ ⟨⟩)) (fun hpre => ?_) (by simp) (by simp) fun _ => ?_
    · cases hgone.symm.trans hpre
    · exact ⟨hchoose, hchange.filesPkg (fun _ => id) hpkg, hgone, [], rfl, by intro x hx; cases hx⟩

theorem CacheInv.tree_present (h : CacheInv I ⟨fs, some ⟨hit, stage, none⟩⟩)
    (hstage : hit = false → ∃ base p, Good I fs none base p) :
    (∃ base p, Good I fs none base p) ∧ (∀ q, Tracked I q → fs.present q = true) ∧ fs.present baseApk = true := by
  have hgood : ∃ base p, Good I fs none base p := by
    cases hit with
    | true => exact (h.ready (h.hit _ rfl rfl)).1
    | false => exact hstage rfl
  refine ⟨hgood, ?_⟩
  obtain ⟨base, p, hgood⟩ := hgood
  exact ⟨fun q hq => hgood.present hq, hgood.base_present⟩

theorem CacheInv.extra_step (hun : Unreserved I)
    {ok drop : Bool} (h : CacheInv I ⟨fs, some ⟨hit, stage, none⟩⟩)
    (hgood : hit = false → fs.present readyPath = false ∧ ∃ base p, Good I fs none base p)
    (ho : Fs.Opened fs fs' q i) (hkey : fs.node q = none ∨ Key I q) (hinst : q.head? = some (bytes "inst"))
    (hnot : ¬ Tracked I q) (hbase : q ≠ baseApk)
    (hstage' : stage' = .managed) : CacheInv I ⟨fs', some ⟨hit, stage', some ⟨q, i, [], data, ok, drop⟩⟩⟩ := by
  subst hstage'
  obtain ⟨⟨base, p, htree⟩, -, hapk⟩ := h.tree_present fun hh => (hgood hh).2
  have hinput : q ≠ inputPath := by
    rintro rfl
    cases hinst
  refine h.opened hun ho hkey (fun heq => absurd heq hbase) (fun _ => .inr hapk)
    (open_aside h.disk ho hkey hnot hbase (by rw [hinst]; decide) hinput) (fun _ => ⟨hnot, hbase⟩)
    (fun hpre => absurd hpre (heads_apart rfl (by rw [hinst]; decide))) nofun fun hh => ?_
  refine ⟨ready_opened ho (hgood hh).1 (by rw [hinst]; decide), base, p, ?_⟩
  exact (h.disk.change_opened (w := ⟨q, i, [], data, ok, drop⟩) hun ho hkey fun heq => absurd heq hbase).good htree

theorem base_ne_input : baseApk ≠ inputPath := by decide

theorem base_head : baseApk.head? ≠ some (bytes ".ready") := by decide

theorem CacheInv.copy_step (hun : Unreserved I) (hd : Distinct I)
    (h : CacheInv I ⟨fs, some ⟨hit, .copy base p, none⟩⟩) (hnone : fs.present baseApk = false)
    (hread : fs.read (Input.basePath base) = some data) (hcreate : fs.create baseApk = some (fs', i)) :
    CacheInv I ⟨fs', some ⟨hit, .signer p, some ⟨baseApk, i, [], data, true, true⟩⟩⟩ := by
  cases hit with
  | true => exact absurd (hnone.symm.trans h.hit_present.2) Bool.false_ne_true
  | false =>
    obtain ⟨hchoose, hpkg, hready, hinst, hthere⟩ := h.stage _ rfl rfl
    have hnode := Fs.present_eq_false.1 hnone
    have ho := Fs.create_opened hcreate
    have htruth := read_basePath hd h.disk.input hpkg hchoose
    have hopen : Open I fs' ⟨baseApk, i, [], data, true, true⟩ := by
      refine ⟨ho.self, ho.empty, fun q hq hn => h.disk.owner_opened ho (.inl hnode) (fun _ => hnode) hq hn,
        base_ne_input, ?_, ?_, ?_, nofun⟩
      · intro item _ _ _ hpath
        exact absurd hpath base_ne_pkg
      · intro base' p' item hchoose' hsafe hfile hfind hpath
        have htr : Tracked I (instPath item.name) :=
          ⟨base', p', item, hchoose', mem_of_find?_eq_some hfind, hsafe, hfile, rfl⟩
        exact absurd hpath.symm (htr.ne_base hun)
      · intro _ base' p' hchoose'
        cases hchoose.symm.trans hchoose'
        exact ⟨htruth.symm.trans hread, rfl⟩
    have hchange := h.disk.change_opened (w := ⟨baseApk, i, [], data, true, true⟩) hun ho (.inl hnode) fun _ => hnode
    refine h.opened hun ho (.inl hnode) (fun _ => hnode) (fun _ => .inl rfl) hopen ?_
      (fun hpre => absurd hpre (heads_apart rfl base_head)) nofun fun _ => ?_
    · rintro (hpre | hpath)
      · cases hready.symm.trans hpre
      · exact absurd (congrArg List.head? hpath) base_head
    · exact ⟨ready_opened ho hready base_head, base, p, hchoose, hchange.filesInst hchoose (fun _ => id) hinst,
        hchange.filesThere hchoose (fun _ => id) hthere, i, ho.self⟩

theorem CacheInv.link_step (hun : Unreserved I) (hd : Distinct I)
    (h : CacheInv I ⟨fs, some ⟨hit, .copy base p, none⟩⟩) (hnone : fs.present baseApk = false)
    (hsource : fs.node (Input.basePath base) = some (.file i)) :
    CacheInv I ⟨link fs baseApk i, some ⟨hit, .signer p, none⟩⟩ := by
  cases hit with
  | true => exact absurd (hnone.symm.trans h.hit_present.2) Bool.false_ne_true
  | false =>
    obtain ⟨hchoose, hpkg, hready, hinst, hthere⟩ := h.stage _ rfl rfl
    have hchange : Change I fs none (link fs baseApk i) none := by
      refine .of_read (fun _ => id) (fun q hq => .inr (link_read (hq.ne_base hun))) (fun q _ => link_present) fun j hj => ?_
      cases (Fs.present_eq_false.1 hnone).symm.trans hj
    have hsame : (link fs baseApk i).present readyPath = fs.present readyPath := by
      rw [Fs.present, link_node (by decide)]
      rfl
    refine h.moved (h.disk.link_base hun hchoose hsource (read_basePath hd h.disk.input hpkg hchoose)) hchange hsame
      (fun _ hs => Stage.noConfusion hs) fun _ => ?_
    exact ⟨hsame.trans hready, base, p, hchoose, hchange.filesInst hchoose (fun _ => id) hinst,
      hchange.filesThere hchoose (fun _ => id) hthere, i, link_self⟩

theorem CacheInv.managed_link_step {q source : List (List UInt8)} (h : CacheInv I ⟨fs, some ⟨hit, .managed, none⟩⟩)
    (hq : managedPath q) (hnone : fs.present q = false) (hsource : fs.node source = some (.file i)) :
    CacheInv I ⟨link fs q i, some ⟨hit, .managed, none⟩⟩ := by
  obtain ⟨-, htracked, hapk⟩ := h.tree_present fun hh => (h.stage _ rfl hh).2
  have hnot : ¬ Key I q := fun hk => absurd (hnone.symm.trans (htracked q (hk hq))) Bool.false_ne_true
  have hne : ∀ {r}, Key I r → r ≠ q := fun hr heq => hnot (heq ▸ hr)
  have hchange : Change I fs none (link fs q i) none := by
    refine .of_read (fun _ => id) (fun r hr => .inr (link_read (hne hr.key))) (fun r _ => link_present) fun j hj => ?_
    rwa [link_node (hne key_base)]
  have hsame : (link fs q i).present readyPath = fs.present readyPath := by
    rw [Fs.present, link_node (hne key_ready)]
    rfl
  refine h.moved (h.disk.link_aside hnot hsource) hchange hsame (fun _ hs => Stage.noConfusion hs) fun hh => ?_
  exact StageInv.change hchange (fun hno => hsame.trans hno) (h.stage _ rfl hh)

theorem CacheInv.stamp_step (hun : Unreserved I) (h : CacheInv I ⟨fs, some ⟨hit, .stamp, none⟩⟩)
    (hcreate : fs.create readyPath = some (fs', i)) :
    CacheInv I ⟨fs', some ⟨hit, .done, some ⟨readyPath, i, [], data, true, true⟩⟩⟩ := by
  obtain ⟨hgood, -, hapk⟩ := h.tree_present fun hh => (h.stage _ rfl hh).2
  have ho := Fs.create_opened hcreate
  have hnot : ¬ Tracked I readyPath := by
    intro htr
    obtain ⟨name, hname⟩ := htr.inst
    exact inst_ne_ready hname.symm
  have hne : readyPath ≠ baseApk := fun heq => base_head (congrArg List.head? heq.symm)
  exact h.opened hun ho (.inr key_ready) (fun heq => absurd heq hne) (fun _ => .inr hapk)
    (open_aside h.disk ho (.inr key_ready) hnot hne (fun hh => absurd (some.inj hh) (by decide))
      fun hh => absurd (List.cons.inj hh).1 (by decide))
    (fun _ => ⟨hnot, hne⟩) (fun _ => ⟨rfl, hgood⟩) nofun fun _ => trivial

theorem signer_not_tracked (hun : Unreserved I) : ¬ Tracked I (instPath signerName) := by
  rintro ⟨base, p, item, hchoose, hitem, hsafe, hfile, hpath⟩
  refine (hun base p hchoose item hitem).2 ?_
  exact (instPath_inj (by decide) hsafe (by decide) hfile hpath).symm

/-- Every step of the stages keeps the invariant. -/
theorem CacheInv.works (hun : Unreserved I) (hd : Distinct I)
    (h : CacheInv I ⟨fs, some ⟨hit, stage, none⟩⟩) (hstep : Works I hit stage fs stage' fs' w) :
    CacheInv I ⟨fs', some ⟨hit, stage', w⟩⟩ := by
  cases hstep with
  | outer hx => exact h.outer_step hun hd hx
  | choose hbase =>
    refine h.same nofun fun hh => ?_
    obtain ⟨before, hbefore, hdone⟩ := h.stage _ rfl hh
    rw [append_nil] at hbefore
    subst hbefore
    exact ⟨(chooseBase_eq hd h.disk.input hdone).symm.trans hbase, hdone⟩
  | begin hdir => exact h.begin_step hdir
  | base hx => exact h.base_step hun hd hx
  | based =>
    refine h.same nofun fun hh => ?_
    obtain ⟨hchoose, hpkg, hready, before, hbefore, hdone⟩ := h.stage _ rfl hh
    rw [append_nil] at hbefore
    subst hbefore
    exact ⟨hchoose, hpkg, hready, hdone, fun _ => id, [], rfl, by intro x hx; cases hx⟩
  | openSplit hopen =>
    rename_i base p q name names
    refine h.same nofun fun hh => ?_
    obtain ⟨hchoose, hpkg, hready, hinst, hnames, before, hbefore, hthere⟩ := h.stage _ rfl hh
    have hname : name ∈ I.apks := (mem_filter.1 (hnames name mem_cons_self)).1
    rw [hpkg.read_apk hd hname] at hopen
    have hitems : q.items = I.splitItems name := by rw [Input.splitItems, hopen]
    refine ⟨hchoose, hpkg, hready, hinst, fun n hn => hnames n (mem_cons_of_mem name hn), before, ?_, hthere⟩
    rw [hbefore, hitems]
    rfl
  | split hx => exact h.split_step hun hx
  | splitted =>
    rename_i base p
    refine h.same nofun fun hh => ?_
    obtain ⟨hchoose, hpkg, hready, hinst, -, before, hbefore, hthere⟩ := h.stage _ rfl hh
    have hall : splitsOf I base = before := by simpa using hbefore
    exact ⟨hchoose, hpkg, hready, hinst, hall ▸ hthere⟩
  | kept hpresent =>
    refine h.same nofun fun hh => ?_
    obtain ⟨hchoose, -, hready, hinst, hthere⟩ := h.stage _ rfl hh
    obtain ⟨n, hn⟩ := Fs.present_iff.1 hpresent
    refine ⟨hready, _, _, hchoose, hinst, hthere, ?_⟩
    cases n with
    | dir => exact absurd hn h.disk.base
    | file i => exact ⟨i, hn⟩
  | linked hnone hsource => exact h.link_step hun hd hnone hsource
  | copied hnone hread hcreate => exact h.copy_step hun hd hnone hread hcreate
  | unsigned => exact h.same nofun fun hh => h.stage _ rfl hh
  | signed hitem hcreate =>
    exact h.extra_step hun (fun hh => h.stage _ rfl hh) (Fs.create_opened hcreate) (.inr key_signer) rfl
      (signer_not_tracked hun) (by decide) rfl
  | managedDirs hpath hmk =>
    have hready := ready_mkdirs hmk (by rw [managed_head hpath]; decide)
    obtain ⟨-, -, hapk⟩ := h.tree_present fun hh => (h.stage _ rfl hh).2
    refine h.moved (h.disk.mkdirs hmk fun _ => hapk) (change_mkdirs hmk) hready nofun fun hh => ?_
    exact StageInv.change (change_mkdirs hmk) (fun hno => hready.trans hno) (h.stage _ rfl hh)
  | managedLink hpath hnone hsource => exact h.managed_link_step hpath hnone hsource
  | managedWrite hpath hnone hcreate =>
    obtain ⟨-, htracked, hapk⟩ := h.tree_present fun hh => (h.stage _ rfl hh).2
    refine h.extra_step hun (fun hh => h.stage _ rfl hh) (Fs.create_opened hcreate) (.inl (Fs.present_eq_false.1 hnone))
      (managed_head hpath) (fun htr => absurd (hnone.symm.trans (htracked _ htr)) Bool.false_ne_true) ?_ rfl
    rintro rfl
    cases hnone.symm.trans hapk
  | managed => exact h.same nofun fun hh => h.stage _ rfl hh
  | stamp hcreate => exact h.stamp_step hun hcreate

end Stages

/-! ### Runs -/

section Runs
variable {I : Input} {fs : Disk} {s s' : Cache} {w : Writing} {l : Label}

/-- A run does not end in the middle of a file that later runs keep: it is not killed while it writes a file that only a
    split has, or the file of `inst/base.apk`; and it does not fail while it writes, under another name, the file that
    `inst/base.apk` is a link of. Nor does the way of a call lead over a link. -/
def Spared (I : Input) (s : Cache) : Label → Prop
  | .work => True
  | .abort => ∀ w, s.current = some w → s.fs.node baseApk = some (.file w.inode) → w.path = baseApk ∨ Complete w
  | .kill => ∀ w, s.current = some w → Complete w ∨ (∀ base p item, I.chooseBase I.truth = some (base, p) →
      entrySafe item.name = true → isDirName item.name = false →
        (I.allItems base p).find? (fun x => x.name = item.name) = some item →
      item.name ∉ p.items.map Item.name → w.path ≠ instPath item.name) ∧ s.fs.node baseApk ≠ some (.file w.inode)

/-- The states of a cache directory after steps of that kind. -/
inductive Reach (I : Input) : Cache → Prop
  | init : Reach I (.init I)
  | step {s s' : Cache} {l : Label} : Reach I s → Step I s l s' ∨ Detour I s l s' → s.Straight I l →
    Spared I s l → Reach I s'

theorem CacheInv.init : CacheInv I (.init I) := by
  have hnode : ∀ q i, (Cache.init I).fs.node q = some (.file i) → q = inputPath ∧ i = 0 := by
    intro q i hq
    simp only [Cache.init] at hq
    split at hq
    · cases hq
    · split at hq
      · rename_i hin
        cases hq
        exact ⟨hin, rfl⟩
      · cases hq
  have hread : ∀ q d, (Cache.init I).fs.read q = some d → q = inputPath := by
    intro q d hq
    obtain ⟨i, hi, -⟩ := Fs.read_eq_some.1 hq
    exact (hnode q i hi).1
  refine ⟨⟨?_, rfl, ?_, ?_, nofun, ?_, ?_⟩, fun hready => ?_, nofun, nofun, nofun⟩
  · intro q i hq
    rw [(hnode q i hq).2]
    exact Nat.zero_lt_one
  · intro p q i _ _ hp hq
    exact .inl ((hnode p i hp).1.trans (hnode q i hq).1.symm)
  · have hbase : baseApk ≠ [] ∧ baseApk ≠ inputPath := by decide
    simp [Cache.init, hbase]
  · intro base p item _ _ _ _ _ d hd
    exact absurd (hread _ d hd) inst_ne_input
  · intro base p _ d hd
    exact absurd (hread _ d hd) base_ne_input
  · have hnone : readyPath ≠ [] ∧ readyPath ≠ inputPath := by decide
    simp only [Cache.init, Fs.present, if_neg hnone.1, if_neg hnone.2] at hready
    cases hready

theorem CacheInv.start {noCache : Bool} (h : CacheInv I ⟨fs, none⟩) :
    CacheInv I ⟨fs, some ⟨fs.present readyPath && !noCache, .outer I.outer, none⟩⟩ := by
  refine .running h.disk h.ready ?_ (fun hh => (Bool.and_eq_true_iff.1 hh).1) fun _ => ⟨[], rfl, by intro x hx; cases hx⟩
  rintro _ ⟨⟩ item hitem
  exact hitem

variable {hit : Bool} {stage : Stage}

theorem CacheInv.append (hun : Unreserved I) {chunk rest : List UInt8} (h : CacheInv I ⟨fs, some ⟨hit, stage, some w⟩⟩)
    (hrest : w.rest = chunk ++ rest) : CacheInv I ⟨fs.append w.inode chunk,
      some ⟨hit, stage, some { w with written := w.written ++ chunk, rest := rest }⟩⟩ := by
  have hw : Open I fs w := h.disk.current w rfl
  have hread : ∀ q, Kept I q → w.path ≠ q → (fs.append w.inode chunk).read q = fs.read q :=
    fun q hq hne => hw.read_append_key hq.key hne (hq.ne_base hun)
  have hchange : Change I fs (some w) (fs.append w.inode chunk)
      (some { w with written := w.written ++ chunk, rest := rest }) := by
    refine .of_read (fun q hq => ?_) (fun q hq => ?_) (fun _ _ => id) fun _ => id
    · obtain ⟨v, hv, hpath⟩ := hq
      cases hv
      exact ⟨_, rfl, hpath⟩
    · by_cases hpath : w.path = q
      · exact .inl ⟨_, rfl, hpath⟩
      · exact .inr (hread q hq hpath)
  refine .running (h.disk.write hun hrest) (fun hready => ?_) (h.outer _ · rfl) (h.hit _ rfl)
    fun hh => StageInv.change hchange id (h.stage _ rfl hh)
  obtain ⟨⟨base, p, hgood⟩, haside⟩ := h.ready hready
  have hnot := haside w rfl
  refine ⟨⟨base, p, hgood.choose, ?_, hgood.there, hgood.apk⟩, ?_⟩
  · intro item hitem hfile
    obtain ⟨hsafe, ⟨v, hv, -⟩ | ⟨hok, hdata⟩⟩ := hgood.done item hitem hfile
    · cases hv
    · have htr := tracked_base hgood.choose hitem hsafe hfile
      refine ⟨hsafe, .inr ⟨hok, ?_⟩⟩
      rw [hread _ (.inr htr) fun heq => hnot.1 (heq ▸ htr)]
      exact hdata
  · intro v hv
    cases hv
    exact hnot

theorem CacheInv.close (hd : Distinct I) (h : CacheInv I ⟨fs, some ⟨hit, stage, some w⟩⟩) (hcomplete : Complete w) :
    CacheInv I ⟨fs, some ⟨hit, stage, none⟩⟩ := by
  have hw : Open I fs w := h.disk.current w rfl
  obtain ⟨hrest, hok⟩ := hcomplete
  have hread : fs.read w.path = some (w.written ++ w.rest) := by
    rw [hrest, append_nil]
    exact Fs.read_eq_some.2 ⟨_, hw.node, hw.data⟩
  -- the file that was open has the data of its entry
  have hdone : ∀ item q, (w.path = q → w.written ++ w.rest = item.data ∧ w.ok = item.ok) → Done fs (some w) item q →
      Done fs none item q := by
    rintro item q hwhole (⟨v, hv, rfl⟩ | hdone)
    · cases hv
      obtain ⟨hdata, hsame⟩ := hwhole rfl
      exact .inr ⟨hsame ▸ hok, hdata ▸ hread⟩
    · exact .inr hdone
  have hchange : Change I fs (some w) fs none := by
    refine ⟨fun item hitem hsafe hfile => hdone item _ (hw.pkg item hitem hsafe hfile), ?_, fun _ _ => id, fun _ => id⟩
    intro base p hchoose item hitem hsafe hfile
    exact hdone item _ (hw.inst base p item hchoose hsafe hfile (find_of_nodup (hd.base base p hchoose) hitem))
  exact .running (h.disk.leave (.inl ⟨hrest, hok⟩)) (fun hready => ⟨(h.ready hready).1, nofun⟩)
    (h.outer _ · rfl) (h.hit _ rfl) fun hh => StageInv.change hchange id (h.stage _ rfl hh)

theorem CacheInv.ended (hdisk : DiskInv I fs none)
    (hready : fs.present readyPath = true → ∃ base p, Good I fs none base p) : CacheInv I ⟨fs, none⟩ :=
  ⟨hdisk, fun hr => ⟨hready hr, nofun⟩, nofun, nofun, nofun⟩

theorem CacheInv.kill {r : Run} (h : CacheInv I ⟨fs, some r⟩) (hspared : Spared I ⟨fs, some r⟩ .kill) :
    CacheInv I ⟨fs, none⟩ := by
  refine .ended ?_ fun hready => (h.ready hready).1
  obtain ⟨hit, stage, cur⟩ := r
  cases cur with
  | none => exact h.disk
  | some w => exact DiskInv.leave h.disk (hspared w rfl)

theorem CacheInv.abort (h : CacheInv I ⟨fs, some ⟨hit, stage, some w⟩⟩)
    (hspared : Spared I ⟨fs, some ⟨hit, stage, some w⟩⟩ .abort) :
    CacheInv I ⟨if w.drop then fs.unlink w.path else fs, none⟩ := by
  have hw : Open I fs w := h.disk.current w rfl
  cases hdrop : w.drop with
  | false =>
    obtain ⟨htracked, hbase, hnot⟩ := hw.kept hdrop
    refine .ended (h.disk.leave (.inr ⟨fun base p item hchoose hsafe hfile hfind _ hpath => ?_, fun hnode => ?_⟩))
      fun hready => (h.ready hready).1
    · exact htracked ⟨base, p, item, hchoose, mem_of_find?_eq_some hfind, hsafe, hfile, hpath⟩
    · rcases hw.owner _ key_base hnode with hpath | ⟨-, base, p, -, ⟨hpath, -⟩ | ⟨hpath, -⟩⟩
      · exact hbase hpath.symm
      · exact hbase hpath
      · exact hnot base hpath
  | true =>
    rw [if_pos rfl]
    have hdisk : DiskInv I (fs.unlink w.path) none := by
      by_cases hcomplete : Complete w
      · exact (h.disk.leave (.inl hcomplete)).drop hw.input nofun
      · refine h.disk.drop hw.input fun v hv => ?_
        cases hv
        exact ⟨rfl, fun hnode => (hspared w rfl hnode).resolve_right hcomplete⟩
    refine .ended hdisk fun hready => ?_
    have hne : readyPath ≠ w.path := by
      intro heq
      rw [heq, Fs.present, Fs.unlink_self hw.node] at hready
      cases hready
    rw [Fs.present, Fs.unlink_node hne] at hready
    obtain ⟨⟨base, p, hgood⟩, haside⟩ := h.ready hready
    have hnot := haside w rfl
    refine ⟨base, p, hgood.choose, ?_, ?_, ?_⟩
    · intro item hitem hfile
      obtain ⟨hsafe, ⟨v, hv, -⟩ | ⟨hok, hdata⟩⟩ := hgood.done item hitem hfile
      · cases hv
      · have htr := tracked_base hgood.choose hitem hsafe hfile
        have hne' : instPath item.name ≠ w.path := fun heq => hnot.1 (heq ▸ htr)
        refine ⟨hsafe, .inr ⟨hok, ?_⟩⟩
        rw [Fs.unlink_read hne']
        exact hdata
    · intro item hitem hfile
      obtain ⟨hsafe, hthere⟩ := hgood.there item hitem hfile
      have htr : Tracked I (instPath item.name) :=
        ⟨base, p, item, hgood.choose, mem_append_right _ hitem, hsafe, hfile, rfl⟩
      have hne' : instPath item.name ≠ w.path := fun heq => hnot.1 (heq ▸ htr)
      refine ⟨hsafe, ?_⟩
      rw [Fs.present, Fs.unlink_node hne']
      exact hthere
    · obtain ⟨i, hi⟩ := hgood.apk
      exact ⟨i, by rw [Fs.unlink_node (Ne.symm hnot.2)]; exact hi⟩

theorem CacheInv.step (hun : Unreserved I) (hd : Distinct I) (h : CacheInv I s) (hstep : Step I s l s')
    (hspared : Spared I s l) : CacheInv I s' := by
  cases hstep with
  | start => exact h.start
  | works hworks => exact h.works hun hd hworks
  | append hrest => exact h.append hun hrest
  | close hrest hok => exact h.close hd ⟨hrest, hok⟩
  | abort => exact h.abort hspared
  | kill => exact h.kill hspared

theorem Cache.Straight.step (h : s.Straight I l) (hmove : Step I s l s' ∨ Detour I s l s') : Step I s l s' := by
  refine hmove.resolve_right fun hdetour => ?_
  cases hdetour with
  | link hasks hlink => exact (h _ hasks).1 hlink
  | hidden herror => exact (h _ rfl).2 rfl herror

theorem Reach.inv (hun : Unreserved I) (hd : Distinct I) (h : Reach I s) : CacheInv I s := by
  induction h with
  | init => exact .init
  | step _ hmove hstraight hspared ih => exact ih.step hun hd (hstraight.step hmove) hspared

/-- In every run of the kind, the stamp certifies a complete tree when no run is in progress. -/
theorem reach_certified (hd : Distinct I) (hun : Unreserved I) (h : Reach I s) (hrun : s.run = none)
    (hready : s.fs.present readyPath = true) : Certified I s.fs := by
  have hinv := h.inv hun hd
  obtain ⟨⟨base, p, hgood⟩, -⟩ := hinv.ready hready
  have hnone : s.current = none := by rw [Cache.current, hrun]; rfl
  have hdisk := hinv.disk
  rw [hnone] at hdisk
  refine ⟨base, p, hgood.choose, fun name item hfind hfile data hread => ?_, ?_⟩
  · obtain rfl : item.name = name := by simpa using find?_some hfind
    have hmem := mem_of_find?_eq_some hfind
    by_cases hin : item.name ∈ p.items.map Item.name
    · -- an entry of the base APK
      obtain ⟨x, hx, hname⟩ := List.mem_map.1 hin
      have hfind' := @find_of_nodup x p.items (splitsOf I base) (hd.base base p hgood.choose) hx
      rw [hname] at hfind'
      obtain rfl := some.inj (hfind'.symm.trans hfind)
      obtain ⟨-, ⟨v, hv, -⟩ | ⟨hok, hdata⟩⟩ := hgood.done x hx hfile
      · cases hv
      · exact ⟨hok, some.inj (hread.symm.trans hdata)⟩
    · have hsplit : item ∈ splitsOf I base := by
        rcases mem_append.1 hmem with h | h
        · exact absurd (List.mem_map_of_mem h) hin
        · exact h
      have hsafe := (hgood.there item hsplit hfile).1
      refine (hdisk.splits base p item hgood.choose hsafe hfile hfind hin data hread).resolve_right ?_
      rintro ⟨v, hv, -⟩
      cases hv
  · obtain ⟨i, hi⟩ := hgood.apk
    have hread : s.fs.read baseApk = some (s.fs.data i) := Fs.read_eq_some.2 ⟨i, hi, rfl⟩
    rw [hread]
    refine ((hdisk.apk base p hgood.choose _ hread).resolve_right ?_).symm
    rintro ⟨v, hv, -⟩
    cases hv

/-- The states of a cache directory after any steps. -/
inductive Anyhow (I : Input) : Cache → Prop
  | init : Anyhow I (.init I)
  | step {s s' : Cache} {l : Label} : Anyhow I s → Step I s l s' ∨ Detour I s l s' → Anyhow I s'

variable {choices : List Choice}

theorem Anyhow.exec (h : Anyhow I s) (hexec : execAll I s choices = some s') : Anyhow I s' := by
  induction choices generalizing s with
  | nil =>
    cases hexec
    exact h
  | cons c choices ih =>
    rw [execAll, foldlM_cons, bind_eq_bind, bind_eq_some_iff] at hexec
    obtain ⟨s₁, hfirst, hrest⟩ := hexec
    obtain ⟨l, hstep, -⟩ := exec_step hfirst
    exact ih (h.step (.inl hstep)) hrest

theorem makes_extract {overwrite : Bool} {path : List (List UInt8)} {item : Item} {fs' : Disk} {w : Option Writing}
    (h : extract overwrite path item fs = some (fs', w)) {q : List (List UInt8)} (hq : fs'.present q = true) :
    fs.present q = true ∨ q <+: path := by
  cases extract_extracts h with
  | dir _ _ hmk => exact Fs.mkdirs_made hmk hq
  | keep => exact .inl hq
  | write _ _ _ hmk hcreate => exact (Fs.mkdirs_create_opened hmk hcreate).made q hq

theorem makes_work {hit : Bool} {stage stage' : Stage} {fs' : Disk} {w : Option Writing}
    (h : work I hit fs stage = some (stage', fs', w)) {q : List (List UInt8)} (hq : fs'.present q = true) :
    fs.present q = true ∨ q <+: makes stage := by
  have hcreated : ∀ {p : List (List UInt8)} {r : Disk × Nat}, fs.create p = some r → r.1.present q = true →
      fs.present q = true ∨ q <+: p := fun hcreate hq => (Fs.create_opened hcreate).made q hq
  unfold work at h
  split at h
  · obtain ⟨r, hr, ⟨⟩⟩ := map_eq_some_iff.1 h
    exact makes_extract hr hq
  · obtain ⟨r, -, ⟨⟩⟩ := map_eq_some_iff.1 h
    exact .inl hq
  · split at h
    · cases h
    · cases h
      split at hq
      · exact .inl hq
      · exact .inl (Fs.unlink_present hq)
  · obtain ⟨r, hr, ⟨⟩⟩ := map_eq_some_iff.1 h
    exact makes_extract hr hq
  · cases h
    exact .inl hq
  · obtain ⟨r, hr, ⟨⟩⟩ := map_eq_some_iff.1 h
    exact makes_extract hr hq
  · obtain ⟨r, -, ⟨⟩⟩ := map_eq_some_iff.1 h
    exact .inl hq
  · cases h
    exact .inl hq
  · split at h
    · cases h
      exact .inl hq
    · split at h
      · cases h
        by_cases hbase : q = baseApk
        · exact .inr (hbase ▸ List.prefix_rfl)
        · exact .inl (by simpa [Fs.present, Function.update_of_ne hbase] using hq)
      · cases h
  · split at h
    · cases h
      exact .inl hq
    · obtain ⟨r, hr, ⟨⟩⟩ := map_eq_some_iff.1 h
      exact hcreated hr hq
  · cases h
    exact .inl hq
  · obtain ⟨r, hr, ⟨⟩⟩ := map_eq_some_iff.1 h
    exact hcreated hr hq
  · cases h

/-- A step that makes no path of a link leaves a disk without links. -/
theorem Unlinked.exec {c : Choice} (h : Unlinked s.fs)
    (hplain : s.run.all (fun r => (makes r.stage).all fun part => !reserved part) = true) (hexec : exec I s c = some s') :
    Unlinked s'.fs := by
  obtain ⟨fs, run⟩ := s
  unfold Apk.exec at hexec
  split at hexec
  · split at hexec <;> cases hexec
    exact h
  · split at hexec
    · rename_i hit stage hrun
      cases hrun
      obtain ⟨r, hr, ⟨⟩⟩ := map_eq_some_iff.1 hexec
      refine h.made (fun q hq => makes_work hr hq) fun part hpart => ?_
      simpa using List.all_eq_true.1 hplain part hpart
    · cases hexec
  · split at hexec <;> cases hexec
    exact h
  · split at hexec
    · split at hexec <;> cases hexec
      exact h
    · cases hexec
  · split at hexec <;> cases hexec
    exact h
  · split at hexec <;> cases hexec
    exact h

theorem Unlinked.init : Unlinked (Cache.init I).fs := by
  intro dir leaf
  have hne : dir ++ [symName leaf] ≠ inputPath := by
    intro heq
    obtain ⟨-, hleaf⟩ := List.append_inj' (heq.trans (List.nil_append _).symm) rfl
    have hdot := congrArg List.head? (cons.inj hleaf).1
    cases hdot
  simp [Cache.init, Fs.present, hne]

theorem Reach.exec (h : Reach I s) (hfree : Unlinked s.fs) (hkill : Choice.kill ∉ choices)
    (hplain : plainRun I s choices = true) (hexec : execAll I s choices = some s') : Reach I s' := by
  induction choices generalizing s with
  | nil =>
    cases hexec
    exact h
  | cons c choices ih =>
    rw [execAll, foldlM_cons, bind_eq_bind, bind_eq_some_iff] at hexec
    obtain ⟨s₁, hfirst, hrest⟩ := hexec
    obtain ⟨hc, hkill⟩ := not_or.1 (mt mem_cons.2 hkill)
    obtain ⟨l, hstep, hl⟩ := exec_step hfirst
    rw [plainRun, hfirst, Bool.and_eq_true] at hplain
    have hstraight : s.Straight I l := by
      refine fun path _ => ⟨hfree.ne_link, ?_⟩
      rintro rfl
      rcases hl with hl | ⟨hl, -⟩ <;> cases hl
    refine ih (h.step (.inl hstep) hstraight ?_) (hfree.exec hplain.1 hfirst) hkill hplain.2 hrest
    rcases hl with rfl | ⟨rfl, hl⟩
    · trivial
    · intro w hw
      cases (hl.resolve_left (Ne.symm hc)).symm.trans hw

end Runs

/-! ### A clean install, and one after a kill -/

/-- A container with a base APK and a split, of one file each. -/
def sample : Input where
  file := []
  container := some [⟨bytes "a.apk", [1], true⟩, ⟨bytes "b.apk", [2], true⟩]
  package d :=
    if d = [1] then some ⟨[⟨bytes "m", [7], true⟩], false⟩
    else if d = [2] then some ⟨[⟨bytes "x", [8, 9], true⟩], true⟩
    else none

variable {p : Package}

theorem sample_base {base : Option (List UInt8)} (h : sample.chooseBase sample.truth = some (base, p)) :
    base = some (bytes "a.apk") ∧ p.items = [⟨bytes "m", [7], true⟩] := by
  have hbase : (sample.chooseBase sample.truth).map (fun r => (r.1, r.2.items)) =
      some (some (bytes "a.apk"), [⟨bytes "m", [7], true⟩]) := by decide +kernel
  rw [h] at hbase
  exact Prod.mk.inj (some.inj hbase)

theorem sample_items (h : p.items = [⟨bytes "m", [7], true⟩]) :
    sample.allItems (some (bytes "a.apk")) p = [⟨bytes "m", [7], true⟩, ⟨bytes "x", [8, 9], true⟩] := by
  have hsplits : (sample.others (some (bytes "a.apk"))).flatMap sample.splitItems = [⟨bytes "x", [8, 9], true⟩] := by
    decide +kernel
  rw [Input.allItems, h, hsplits]
  rfl

theorem sample_distinct : Distinct sample where
  outer := by decide
  base base p h := by
    rw [(sample_base h).2]
    decide

theorem sample_unreserved : Unreserved sample := by
  intro base p h item hitem
  obtain ⟨rfl, hitems⟩ := sample_base h
  rw [sample_items hitems] at hitem
  rcases mem_cons.1 hitem with rfl | hitem
  · decide
  · obtain rfl := mem_singleton.1 hitem
    decide

/-- One file from its creation to its end. -/
def writeAll : List Choice := [.work, .append 100, .close]

/-- The container, the base APK, and the split up to its entry. -/
def untilSplit : List Choice :=
  [.start false] ++ writeAll ++ writeAll ++ [.work, .work] ++ writeAll ++ [.work, .work]

/-- From `inst/base.apk` to the end of a run. -/
def fromCopy : List Choice := [.work, .work, .work, .work] ++ writeAll ++ [.finish]

def clean : List Choice := untilSplit ++ writeAll ++ fromCopy

/-- A run that is killed after the first byte of the file of the split, and a run after it. -/
def killed : List Choice := untilSplit ++ [.work, .append 1, .kill] ++ untilSplit ++ [.work] ++ fromCopy

/-- The last state of a run of choices. -/
def after (choices : List Choice) : Cache := (execAll sample (.init sample) choices).getD (.init sample)

theorem after_eq {choices : List Choice} (h : (execAll sample (.init sample) choices).isSome = true) :
    execAll sample (.init sample) choices = some (after choices) := by
  obtain ⟨s, hs⟩ := isSome_iff_exists.1 h
  rw [after, hs]
  rfl

theorem clean_certified : Reach sample (after clean) ∧ (after clean).run.isNone = true ∧
    (after clean).fs.present readyPath = true ∧ Certified sample (after clean).fs := by
  have hreach : Reach sample (after clean) := Reach.init.exec .init (by decide) (by decide +kernel)
    (after_eq (by decide +kernel))
  have hrun : (after clean).run.isNone = true := by decide +kernel
  have hready : (after clean).fs.present readyPath = true := by decide +kernel
  exact ⟨hreach, hrun, hready,
    reach_certified sample_distinct sample_unreserved hreach (isNone_iff_eq_none.1 hrun) hready⟩

/-- The second run keeps the first byte of the file of the split, and stamps the tree. -/
theorem killed_not_certified : Distinct sample ∧ Unreserved sample ∧ Anyhow sample (after killed) ∧
    (after killed).run.isNone = true ∧ (after killed).fs.present readyPath = true ∧
    ¬ Certified sample (after killed).fs := by
  refine ⟨sample_distinct, sample_unreserved, Anyhow.init.exec (after_eq (by decide +kernel)), by decide +kernel,
    by decide +kernel, ?_⟩
  rintro ⟨base, p, hchoose, hfiles, -⟩
  obtain ⟨rfl, hitems⟩ := sample_base hchoose
  have hread : (after killed).fs.read (instPath (bytes "x")) = some [8] := by decide +kernel
  have hfind : (sample.allItems (some (bytes "a.apk")) p).find? (fun item => item.name = bytes "x") =
      some ⟨bytes "x", [8, 9], true⟩ := by
    rw [sample_items hitems]
    decide
  cases (hfiles _ _ hfind (by decide) _ hread).2

end Lunaria.Apk
