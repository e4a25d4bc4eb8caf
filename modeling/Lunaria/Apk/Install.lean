import Mathlib.Data.List.Sort
import Lunaria.Apk.Extract
import Lunaria.Lib.CText

/-! The install cache of `apk_prepare_inner` as a machine over a file system: a run creates, appends, closes, unlinks and
    links files one step at a time, and may fail or be killed between any two of them. The runs of one cache directory
    have one input.

    Archives are what `zip_open`, `manifest_zip` and `zip_read` make of the bytes of a file, a parameter: a file of the
    cache that is not complete may be any archive or none. -/

namespace Lunaria.Apk
open Files Option Function
open CText (toLower)

/-- An entry as `zip_read` delivers it: its data, and whether the call returns 0 after it. -/
structure Item where
  name : List UInt8
  data : List UInt8
  ok : Bool
  deriving DecidableEq

/-- An APK: its entries under their installed names, and whether its manifest names a split. -/
structure Package where
  items : List Item
  split : Bool

/-- What the runs of one cache directory have in common: the file, the entries of a container, and how files are read as
    APKs. -/
structure Input where
  file : List UInt8
  container : Option (List Item)
  package : List UInt8 → Option Package

/-! ### Paths -/

def pkgPath (name : List UInt8) : List (List UInt8) := bytes "pkg" :: parts name

def instPath (name : List UInt8) : List (List UInt8) := bytes "inst" :: parts name

def readyPath : List (List UInt8) := [bytes ".ready"]

/-- The file the user gave, which is not in the cache. -/
def inputPath : List (List UInt8) := [bytes "input"]

def baseApk : List (List UInt8) := [bytes "inst", bytes "base.apk"]

def signerName : List UInt8 := bytes ".lunaria-apk-signer.p7b"

/-- The directories in which `managed_setup` makes files. -/
def managedPath (p : List (List UInt8)) : Prop :=
  [bytes "inst", bytes "assets", bytes "bin", bytes "Data", bytes "Managed", bytes "mono"] <+: p ∨
    [bytes "inst", bytes "mono-etc"] <+: p

/-! ### The archives of an input -/

/-- `suffix`: the end of a name, whatever the case. -/
def suffix (s ext : List UInt8) : Bool := (ext.map toLower) <:+ s.map toLower

/-- The name of a signature block: `META-INF/` and one of three suffixes. -/
def isSigner (name : List UInt8) : Bool :=
  (bytes "meta-inf/") <+: name.map toLower ∧
    (suffix name (bytes ".RSA") ∨ suffix name (bytes ".DSA") ∨ suffix name (bytes ".EC"))

namespace Input
variable (I : Input)

def outer : List Item := I.container.getD []

/-- The APKs of a container, sorted. -/
def apks : List (List UInt8) :=
  ((I.outer.map Item.name).filter fun name => suffix name (bytes ".apk")).insertionSort fun a b => a ≤ b

/-- The path of the base APK: a file of the container, or the input itself. -/
def basePath : Option (List UInt8) → List (List UInt8)
  | some name => pkgPath name
  | none => inputPath

def firstBase (read : List (List UInt8) → Option (List UInt8)) :
    List (List UInt8) → Option (Option (List UInt8) × Package)
  | [] => none
  | name :: names =>
    match (read (pkgPath name)).bind I.package with
    | none => none
    | some p => if p.split then firstBase read names else some (some name, p)

def chooseBase (read : List (List UInt8) → Option (List UInt8)) : Option (Option (List UInt8) × Package) :=
  match I.container with
  | some _ => I.firstBase read I.apks
  | none => ((read inputPath).bind I.package).map fun p => (none, p)

/-- The splits of a base APK. -/
def others (base : Option (List UInt8)) : List (List UInt8) := I.apks.filter fun name => some name ≠ base

/-- The files that the archives come from, when they are complete. -/
def truth (p : List (List UInt8)) : Option (List UInt8) :=
  if p = inputPath then some I.file
  else (I.outer.find? fun item => entrySafe item.name ∧ isDirName item.name = false ∧ pkgPath item.name = p).map Item.data

def splitItems (name : List UInt8) : List Item :=
  match (I.truth (pkgPath name)).bind I.package with
  | some p => p.items
  | none => []

/-- All entries, in the order of the base and then the splits. -/
def allItems (base : Option (List UInt8)) (p : Package) : List Item :=
  p.items ++ (I.others base).flatMap I.splitItems

end Input

/-! ### The machine -/

/-- A file being written: how much of the data is in it, what is to come, and whether all goes well after that. `drop`
    says that the file is unlinked where it does not. -/
structure Writing where
  path : List (List UInt8)
  inode : Nat
  written : List UInt8
  rest : List UInt8
  ok : Bool
  drop : Bool

/-- Where a run is in `apk_prepare_inner`. -/
inductive Stage
  /-- The container, with the entries to come. -/
  | outer (todo : List Item)
  /-- The base APK is open. -/
  | chosen (base : Option (List UInt8)) (p : Package)
  /-- The entries of the base APK. -/
  | base (base : Option (List UInt8)) (p : Package) (todo : List Item)
  /-- The entries of a split, and the splits to come. -/
  | splits (base : Option (List UInt8)) (p : Package) (todo : List Item) (names : List (List UInt8))
  /-- `inst/base.apk`. -/
  | copy (base : Option (List UInt8)) (p : Package)
  | signer (p : Package)
  | managed
  | stamp
  | done

structure Run where
  hit : Bool
  stage : Stage
  current : Option Writing

structure Cache where
  fs : Disk
  run : Option Run

/-- An empty cache directory beside the input. -/
def Cache.init (I : Input) : Cache where
  fs :=
    { node := fun p => if p = [] then some .dir else if p = inputPath then some (.file 0) else none
      data := fun _ => I.file
      next := 1 }
  run := none

/-- What `zip_extract` does for one entry before it reads data. -/
inductive Extracts (overwrite : Bool) (path : List (List UInt8)) (item : Item) (fs : Disk) : Disk → Option Writing → Prop
  | dir {fs' : Disk} : entrySafe item.name → isDirName item.name → fs.mkdirs path = some fs' →
      Extracts overwrite path item fs fs' none
  | keep : entrySafe item.name → isDirName item.name = false → overwrite = false → fs.present path →
      Extracts overwrite path item fs fs none
  | write {fs₁ fs' : Disk} {i : Nat} : entrySafe item.name → isDirName item.name = false →
      ¬ (overwrite = false ∧ fs.present path) → fs.mkdirs path.dropLast = some fs₁ → fs₁.create path = some (fs', i) →
      Extracts overwrite path item fs fs' (some ⟨path, i, [], item.data, item.ok, true⟩)

/-- What a step does, as far as the end of runs is concerned. -/
inductive Label
  | work
  | abort
  | kill

section Step
variable (I : Input)

/-- One step of the stages, which needs no file to be open: the stage, the disk and the file that is opened. -/
inductive Works (hit : Bool) : Stage → Disk → Stage → Disk → Option Writing → Prop
  | outer {item : Item} {todo : List Item} {fs fs' : Disk} {w : Option Writing} :
      Extracts (!hit) (pkgPath item.name) item fs fs' w → Works hit (.outer (item :: todo)) fs (.outer todo) fs' w
  | choose {base : Option (List UInt8)} {p : Package} {fs : Disk} :
      I.chooseBase fs.read = some (base, p) → Works hit (.outer []) fs (.chosen base p) fs none
  /-- A run that is no hit takes the stamp away before it writes to `inst`. -/
  | begin {base : Option (List UInt8)} {p : Package} {fs : Disk} : (hit = false → fs.node readyPath ≠ some .dir) →
      Works hit (.chosen base p) fs (.base base p p.items) (if hit then fs else fs.unlink readyPath) none
  | base {base : Option (List UInt8)} {p : Package} {item : Item} {todo : List Item} {fs fs' : Disk} {w : Option Writing} :
      Extracts (!hit) (instPath item.name) item fs fs' w →
        Works hit (.base base p (item :: todo)) fs (.base base p todo) fs' w
  | based {base : Option (List UInt8)} {p : Package} {fs : Disk} :
      Works hit (.base base p []) fs (.splits base p [] (I.others base)) fs none
  | openSplit {base : Option (List UInt8)} {p q : Package} {name : List UInt8} {names : List (List UInt8)} {fs : Disk} :
      (fs.read (pkgPath name)).bind I.package = some q →
        Works hit (.splits base p [] (name :: names)) fs (.splits base p q.items names) fs none
  | split {base : Option (List UInt8)} {p : Package} {item : Item} {todo : List Item} {names : List (List UInt8)}
      {fs fs' : Disk} {w : Option Writing} : Extracts false (instPath item.name) item fs fs' w →
        Works hit (.splits base p (item :: todo) names) fs (.splits base p todo names) fs' w
  | splitted {base : Option (List UInt8)} {p : Package} {fs : Disk} :
      Works hit (.splits base p [] []) fs (.copy base p) fs none
  /-- `materialize`: the file is there, -/
  | kept {base : Option (List UInt8)} {p : Package} {fs : Disk} :
      fs.present baseApk → Works hit (.copy base p) fs (.signer p) fs none
  /-- or it is linked, -/
  | linked {base : Option (List UInt8)} {p : Package} {i : Nat} {fs : Disk} :
      fs.present baseApk = false → fs.node (Input.basePath base) = some (.file i) →
        Works hit (.copy base p) fs (.signer p) { fs with node := update fs.node baseApk (some (.file i)) } none
  /-- or it is copied. -/
  | copied {base : Option (List UInt8)} {p : Package} {i : Nat} {data : List UInt8} {fs fs' : Disk} :
      fs.present baseApk = false → fs.read (Input.basePath base) = some data → fs.create baseApk = some (fs', i) →
        Works hit (.copy base p) fs (.signer p) fs' (some ⟨baseApk, i, [], data, true, true⟩)
  | unsigned {p : Package} {fs : Disk} : p.items.find? (fun item => isSigner item.name) = none →
      Works hit (.signer p) fs .managed fs none
  | signed {p : Package} {item : Item} {i : Nat} {fs fs' : Disk} :
      p.items.find? (fun item => isSigner item.name) = some item → fs.create (instPath signerName) = some (fs', i) →
        Works hit (.signer p) fs .managed fs' (some ⟨instPath signerName, i, [], item.data, item.ok, false⟩)
  /-- `managed_setup` makes directories, -/
  | managedDirs {path : List (List UInt8)} {fs fs' : Disk} : managedPath path → fs.mkdirs path = some fs' →
      Works hit .managed fs .managed fs' none
  /-- links files of `inst` to new names, -/
  | managedLink {path source : List (List UInt8)} {i : Nat} {fs : Disk} : managedPath path → fs.present path = false →
      fs.node (bytes "inst" :: source) = some (.file i) →
        Works hit .managed fs .managed { fs with node := update fs.node path (some (.file i)) } none
  /-- and writes new ones. -/
  | managedWrite {path : List (List UInt8)} {i : Nat} {data : List UInt8} {drop : Bool} {fs fs' : Disk} :
      managedPath path → fs.present path = false → fs.create path = some (fs', i) →
        Works hit .managed fs .managed fs' (some ⟨path, i, [], data, true, drop⟩)
  | managed {fs : Disk} : Works hit .managed fs .stamp fs none
  | stamp {i : Nat} {fs fs' : Disk} : fs.create readyPath = some (fs', i) →
      Works hit .stamp fs .done fs' (some ⟨readyPath, i, [], bytes "native-v1\n", true, true⟩)

inductive Step : Cache → Label → Cache → Prop
  /-- A run starts. `LUNARIA_NO_CACHE` is read once. -/
  | start {fs : Disk} {noCache : Bool} :
      Step ⟨fs, none⟩ .work ⟨fs, some ⟨fs.present readyPath && !noCache, .outer I.outer, none⟩⟩
  | works {fs fs' : Disk} {hit : Bool} {stage stage' : Stage} {w : Option Writing} :
      Works I hit stage fs stage' fs' w → Step ⟨fs, some ⟨hit, stage, none⟩⟩ .work ⟨fs', some ⟨hit, stage', w⟩⟩
  | append {fs : Disk} {hit : Bool} {stage : Stage} {w : Writing} {chunk rest : List UInt8} : w.rest = chunk ++ rest →
      Step ⟨fs, some ⟨hit, stage, some w⟩⟩ .work
        ⟨fs.append w.inode chunk, some ⟨hit, stage, some { w with written := w.written ++ chunk, rest := rest }⟩⟩
  | close {fs : Disk} {hit : Bool} {stage : Stage} {w : Writing} : w.rest = [] → w.ok →
      Step ⟨fs, some ⟨hit, stage, some w⟩⟩ .work ⟨fs, some ⟨hit, stage, none⟩⟩
  /-- A read, a write or the close fails, or the user cancels: the file is unlinked and the run ends. -/
  | abort {fs : Disk} {hit : Bool} {stage : Stage} {w : Writing} :
      Step ⟨fs, some ⟨hit, stage, some w⟩⟩ .abort ⟨if w.drop then fs.unlink w.path else fs, none⟩
  /-- The run ends as it is, by a kill, or by a failure or the normal end where no file is open. -/
  | kill {fs : Disk} {r : Run} : Step ⟨fs, some r⟩ .kill ⟨fs, none⟩

end Step

/-! ### Links -/

/-- The paths that the next step of a stage asks the file system for. -/
inductive Asks (I : Input) : Stage → List (List UInt8) → Prop
  | outer {item : Item} {todo : List Item} : Asks I (.outer (item :: todo)) (pkgPath item.name)
  | choose {name : List UInt8} : name ∈ I.apks → Asks I (.outer []) (pkgPath name)
  | begin {base : Option (List UInt8)} {p : Package} : Asks I (.chosen base p) readyPath
  | base {base : Option (List UInt8)} {p : Package} {item : Item} {todo : List Item} :
      Asks I (.base base p (item :: todo)) (instPath item.name)
  | openSplit {base : Option (List UInt8)} {p : Package} {name : List UInt8} {names : List (List UInt8)} :
      Asks I (.splits base p [] (name :: names)) (pkgPath name)
  | split {base : Option (List UInt8)} {p : Package} {item : Item} {todo : List Item} {names : List (List UInt8)} :
      Asks I (.splits base p (item :: todo) names) (instPath item.name)
  | target {base : Option (List UInt8)} {p : Package} : Asks I (.copy base p) baseApk
  | source {base : Option (List UInt8)} {p : Package} : Asks I (.copy base p) (Input.basePath base)
  | signer {p : Package} : Asks I (.signer p) (instPath signerName)
  | managed {path : List (List UInt8)} : [bytes "inst"] <+: path → Asks I .managed path
  | stamp : Asks I .stamp readyPath

/-- The paths that the next step asks the file system for. -/
def Cache.Asks (I : Input) (s : Cache) (path : List (List UInt8)) : Prop :=
  match s.run with
  | none => path = readyPath
  | some ⟨_, stage, none⟩ => Apk.Asks I stage path
  | some ⟨_, _, some w⟩ => path = w.path

/-- The other steps: the way of a call leads over a link, and anything may come of it; or a file that is to be unlinked is
    hidden by then, and stays. -/
inductive Detour (I : Input) : Cache → Label → Cache → Prop
  | link {s s' : Cache} {l : Label} {path : List (List UInt8)} : s.Asks I path → symResolve s.fs [] path = .link →
      Detour I s l s'
  | hidden {fs : Disk} {hit : Bool} {stage : Stage} {w : Writing} : symResolve fs [] w.path = .error →
      Detour I ⟨fs, some ⟨hit, stage, some w⟩⟩ .abort ⟨fs, none⟩

/-- The next step is none of those. -/
def Cache.Straight (I : Input) (s : Cache) (l : Label) : Prop :=
  ∀ path, s.Asks I path → symResolve s.fs [] path ≠ .link ∧ (l = .abort → symResolve s.fs [] path ≠ .error)

/-! ### The machine as a function -/

/-- `zip_extract` for one entry. -/
def extract (overwrite : Bool) (path : List (List UInt8)) (item : Item) (fs : Disk) : Option (Disk × Option Writing) :=
  if entrySafe item.name then
    if isDirName item.name then (fs.mkdirs path).map fun fs' => (fs', none)
    else if overwrite = false ∧ fs.present path then some (fs, none)
    else (fs.mkdirs path.dropLast).bind fun fs₁ =>
      (fs₁.create path).map fun (fs', i) => (fs', some ⟨path, i, [], item.data, item.ok, true⟩)
  else none

/-- The next step of the stages where links can be made and nothing is managed. -/
def work (I : Input) (hit : Bool) (fs : Disk) : Stage → Option (Stage × Disk × Option Writing)
  | .outer (item :: todo) => (extract (!hit) (pkgPath item.name) item fs).map fun r => (.outer todo, r)
  | .outer [] => (I.chooseBase fs.read).map fun (base, p) => (.chosen base p, fs, none)
  | .chosen base p =>
    if hit = false ∧ fs.node readyPath = some .dir then none
    else some (.base base p p.items, if hit then fs else fs.unlink readyPath, none)
  | .base base p (item :: todo) => (extract (!hit) (instPath item.name) item fs).map fun r => (.base base p todo, r)
  | .base base p [] => some (.splits base p [] (I.others base), fs, none)
  | .splits base p (item :: todo) names =>
    (extract false (instPath item.name) item fs).map fun r => (.splits base p todo names, r)
  | .splits base p [] (name :: names) =>
    ((fs.read (pkgPath name)).bind I.package).map fun q => (.splits base p q.items names, fs, none)
  | .splits base p [] [] => some (.copy base p, fs, none)
  | .copy base p =>
    if fs.present baseApk then some (.signer p, fs, none)
    else
      match fs.node (Input.basePath base) with
      | some (.file i) => some (.signer p, { fs with node := update fs.node baseApk (some (.file i)) }, none)
      | _ => none
  | .signer p =>
    match p.items.find? fun item => isSigner item.name with
    | none => some (.managed, fs, none)
    | some item => (fs.create (instPath signerName)).map fun (fs', i) =>
      (.managed, fs', some ⟨instPath signerName, i, [], item.data, item.ok, false⟩)
  | .managed => some (.stamp, fs, none)
  | .stamp => (fs.create readyPath).map fun (fs', i) =>
    (.done, fs', some ⟨readyPath, i, [], bytes "native-v1\n", true, true⟩)
  | .done => none

/-- What can happen to a cache next. -/
inductive Choice
  | start (noCache : Bool)
  | work
  | append (n : Nat)
  | close
  | finish
  | kill
  deriving DecidableEq

def exec (I : Input) (s : Cache) : Choice → Option Cache
  | .start noCache =>
    if s.run.isNone then some ⟨s.fs, some ⟨s.fs.present readyPath && !noCache, .outer I.outer, none⟩⟩ else none
  | .work =>
    match s.run with
    | some ⟨hit, stage, none⟩ => (work I hit s.fs stage).map fun (stage', fs', w) => ⟨fs', some ⟨hit, stage', w⟩⟩
    | _ => none
  | .append n =>
    match s.run with
    | some ⟨hit, stage, some w⟩ =>
      some ⟨s.fs.append w.inode (w.rest.take n),
        some ⟨hit, stage, some { w with written := w.written ++ w.rest.take n, rest := w.rest.drop n }⟩⟩
    | _ => none
  | .close =>
    match s.run with
    | some ⟨hit, stage, some w⟩ => if w.rest = [] ∧ w.ok then some ⟨s.fs, some ⟨hit, stage, none⟩⟩ else none
    | _ => none
  | .finish =>
    match s.run with
    | some ⟨_, _, none⟩ => some ⟨s.fs, none⟩
    | _ => none
  | .kill => if s.run.isSome then some ⟨s.fs, none⟩ else none

/-- The path that `work` makes. -/
def makes : Stage → List (List UInt8)
  | .outer (item :: _) => pkgPath item.name
  | .base _ _ (item :: _) => instPath item.name
  | .splits _ _ (item :: _) _ => instPath item.name
  | .copy _ _ => baseApk
  | .signer _ => instPath signerName
  | .stamp => readyPath
  | _ => []

/-- No path that a run makes is one of a link. -/
def plainRun (I : Input) : Cache → List Choice → Bool
  | _, [] => true
  | s, c :: choices =>
    (s.run.all fun r => (makes r.stage).all fun part => !reserved part) &&
      ((exec I s c).all fun s' => plainRun I s' choices)

def execAll (I : Input) (s : Cache) (choices : List Choice) : Option Cache := choices.foldlM (exec I) s

section Exec
variable {I : Input} {hit : Bool} {fs fs' : Disk} {stage stage' : Stage} {w : Option Writing} {s s' : Cache} {c : Choice}

theorem extract_extracts {overwrite : Bool} {path : List (List UInt8)} {item : Item}
    (h : extract overwrite path item fs = some (fs', w)) : Extracts overwrite path item fs fs' w := by
  unfold extract at h
  split at h
  · rename_i hsafe
    split at h
    · rename_i hdir
      obtain ⟨fs₁, hmk, ⟨⟩⟩ := map_eq_some_iff.1 h
      exact .dir hsafe hdir hmk
    · rename_i hdir
      have hfile : isDirName item.name = false := by simpa using hdir
      split at h
      · rename_i hkeep
        cases h
        exact .keep hsafe hfile hkeep.1 hkeep.2
      · rename_i hwrite
        obtain ⟨fs₁, hmk, h⟩ := bind_eq_some_iff.1 h
        obtain ⟨⟨fs₂, i⟩, hcreate, ⟨⟩⟩ := map_eq_some_iff.1 h
        exact .write hsafe hfile hwrite hmk hcreate
  · cases h

theorem work_works (h : work I hit fs stage = some (stage', fs', w)) : Works I hit stage fs stage' fs' w := by
  unfold work at h
  split at h
  · obtain ⟨r, hr, ⟨⟩⟩ := map_eq_some_iff.1 h
    exact .outer (extract_extracts hr)
  · obtain ⟨⟨base, p⟩, hbase, ⟨⟩⟩ := map_eq_some_iff.1 h
    exact .choose hbase
  · split at h
    · cases h
    · rename_i hdir
      cases h
      exact .begin fun hh hnode => hdir ⟨hh, hnode⟩
  · obtain ⟨r, hr, ⟨⟩⟩ := map_eq_some_iff.1 h
    exact .base (extract_extracts hr)
  · cases h
    exact .based
  · obtain ⟨r, hr, ⟨⟩⟩ := map_eq_some_iff.1 h
    exact .split (extract_extracts hr)
  · obtain ⟨q, hq, ⟨⟩⟩ := map_eq_some_iff.1 h
    exact .openSplit hq
  · cases h
    exact .splitted
  · split at h
    · rename_i hpresent
      cases h
      exact .kept hpresent
    · rename_i hnone
      split at h
      · rename_i i hnode
        cases h
        exact .linked (by simpa using hnone) hnode
      · cases h
  · split at h
    · rename_i hnone
      cases h
      exact .unsigned hnone
    · rename_i item hitem
      obtain ⟨⟨fs₁, i⟩, hcreate, ⟨⟩⟩ := map_eq_some_iff.1 h
      exact .signed hitem hcreate
  · cases h
    exact .managed
  · obtain ⟨⟨fs₁, i⟩, hcreate, ⟨⟩⟩ := map_eq_some_iff.1 h
    exact .stamp hcreate
  · cases h

/-- The function takes steps of the machine, and no file is open where a run finishes. -/
theorem exec_step (h : exec I s c = some s') : ∃ l, Step I s l s' ∧
    (l = .work ∨ l = .kill ∧ (c = .kill ∨ s.run.bind Run.current = none)) := by
  obtain ⟨fs, run⟩ := s
  unfold exec at h
  split at h
  · split at h
    · rename_i hnone
      cases h
      obtain rfl := isNone_iff_eq_none.1 hnone
      exact ⟨.work, .start, .inl rfl⟩
    · cases h
  · split at h
    · rename_i hit stage hrun
      cases hrun
      obtain ⟨r, hr, ⟨⟩⟩ := map_eq_some_iff.1 h
      exact ⟨.work, .works (work_works hr), .inl rfl⟩
    · cases h
  · split at h
    · rename_i hit stage w hrun
      cases hrun
      cases h
      exact ⟨.work, .append (List.take_append_drop _ _).symm, .inl rfl⟩
    · cases h
  · split at h
    · rename_i hit stage w hrun
      cases hrun
      split at h
      · rename_i hdone
        cases h
        exact ⟨.work, .close hdone.1 hdone.2, .inl rfl⟩
      · cases h
    · cases h
  · split at h
    · rename_i hit stage hrun
      cases hrun
      cases h
      exact ⟨.kill, .kill, .inr ⟨rfl, .inr rfl⟩⟩
    · cases h
  · split at h
    · rename_i hsome
      cases h
      obtain ⟨r, rfl⟩ := isSome_iff_exists.1 hsome
      exact ⟨.kill, .kill, .inr ⟨rfl, .inl rfl⟩⟩
    · cases h

end Exec

/-! ### What the stamp certifies -/

/-- Each file of `inst` that names an entry has the data of the first entry with the name, and `inst/base.apk` is a copy of
    the base APK. -/
def Certified (I : Input) (fs : Disk) : Prop :=
  ∃ base p, I.chooseBase I.truth = some (base, p) ∧
    (∀ name item, (I.allItems base p).find? (fun item => item.name = name) = some item → isDirName name = false →
      ∀ data, fs.read (instPath name) = some data → item.ok = true ∧ data = item.data) ∧
    fs.read baseApk = I.truth (Input.basePath base)

end Lunaria.Apk
