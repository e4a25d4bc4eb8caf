import Lunaria.Apk.Bundle
import Lunaria.Apk.ReadExact

/-! Which APK of a container is the base: the one whose manifest `launcher_display_metadata` reads before there is a window,
    and the one that `apk_prepare_inner` takes from the files it has extracted. -/

namespace Lunaria.Apk
open Files List Option
open CText (toLower)

section Choice
variable (zlib : Inflate) (fuel : Nat) (cancelled : Nat → Bool)

/-- `manifest_zip`. -/
def manifestZip (z : Zip) (polls : Nat) : Option Manifest × Nat :=
  match zipMemory zlib fuel cancelled z (bytes "AndroidManifest.xml") polls with
  | (some data, polls) => ((parseManifest data data.length).value?, polls)
  | (none, polls) =>
    if (zipFind z.entries (bytes "BundleConfig.pb")).isSome then
      match zipMemory zlib fuel cancelled z (bytes "base/manifest/AndroidManifest.xml") polls with
      | (some data, polls) => ((parseBundleManifest data data.length).value?, polls)
      | (none, polls) => (none, polls)
    else (none, polls)

/-! ### The launcher -/

/-- A stored APK is read where it is. -/
def inPlace (file : List UInt8) (outer : Zip) (e : Entry) : Option Zip := do
  let h ← outer.fread e.offset 30
  if le32 h 0 ≠ 0x04034b50 then none
  let at' := e.offset + 30 + le16 h 26 + le16 h 28
  if outer.size < at' ∨ outer.size - at' < e.size then none
  zipOpenRange file at' e.size

/-- The archive that an entry holds: a compressed one is unpacked to a temporary file. -/
def candidate (file : List UInt8) (outer : Zip) (e : Entry) (polls : Nat) : Option Zip × Nat :=
  if e.flags % 2 = 1 then (none, polls)
  else if e.method = 0 then (inPlace file outer e, polls)
  else
    match zipRead zlib e fuel cancelled outer none polls with
    | (some data, polls) => (zipIndex ⟨data, 0, e.size, []⟩, polls)
    | (none, polls) => (none, polls)

def isApk (e : Entry) : Bool := suffix e.name (bytes ".apk")

/-- The loop of `launcher_display_metadata`: the first APK that is no split. -/
def launcherLoop (file : List UInt8) (outer : Zip) : List Entry → Nat → Option (Entry × Manifest) × Nat
  | [], polls => (none, polls)
  | e :: entries, polls =>
    if isApk e then
      match candidate zlib fuel cancelled file outer e polls with
      | (none, polls) => (none, polls)
      | (some z, polls) =>
        match manifestZip zlib fuel cancelled z polls with
        | (none, polls) => (none, polls)
        | (some m, polls) => if m.split.text = [] then (some (e, m), polls) else launcherLoop file outer entries polls
    else launcherLoop file outer entries polls

/-- The APK of a container whose manifest the launcher goes by. -/
def launcherBase (file : List UInt8) (polls : Nat) : Option (Entry × Manifest) :=
  (zipOpen file).bind fun outer => (launcherLoop zlib fuel cancelled file outer outer.entries polls).1

/-! ### The installer -/

/-- The paths of the extracted APKs. -/
def apkLoop (pkgdir : List UInt8) : List Entry → Option (List (List UInt8))
  | [] => some []
  | e :: entries =>
    if isApk e then
      (pathJoin pkgdir e.name).bind fun path => (apkLoop pkgdir entries).map fun paths => path :: paths
    else apkLoop pkgdir entries

/-- They are sorted. -/
def apkPaths (pkgdir : List UInt8) (entries : List Entry) : Option (List (List UInt8)) :=
  (apkLoop pkgdir entries).map (List.insertionSort fun a b => a ≤ b)

def openFile (beyond : Beyond) (fs : Disk) (path : List UInt8) : Option Zip := (beyond.symRead fs (parts path)).bind zipOpen

/-- The loop that looks for the base: the first path whose manifest has no split. -/
def installerLoop (beyond : Beyond) (fs : Disk) : List (List UInt8) → Nat → Option (List UInt8) × Nat
  | [], polls => (none, polls)
  | path :: paths, polls =>
    match openFile beyond fs path with
    | none => (none, polls)
    | some z =>
      match manifestZip zlib fuel cancelled z polls with
      | (none, polls) => (none, polls)
      | (some m, polls) => if m.split.text = [] then (some path, polls) else installerLoop beyond fs paths polls

/-- The base APK that is installed from a container, and its manifest, which is read again. -/
def installerBase (beyond : Beyond) (pkgdir file : List UInt8) (hit : Bool) (fs : Disk) (polls : Nat) :
    Option (List UInt8 × Manifest) :=
  match zipOpen file with
  | none => none
  | some outer =>
    match zipExtract beyond zlib fuel cancelled outer pkgdir (!hit) fs polls with
    | (false, _, _) => none
    | (true, fs, polls) =>
      match apkPaths pkgdir outer.entries with
      | none => none
      | some paths =>
        match installerLoop zlib fuel cancelled beyond fs paths polls with
        | (none, _) => none
        | (some path, polls) =>
          match openFile beyond fs path with
          | none => none
          | some z => (manifestZip zlib fuel cancelled z polls).1.map fun m => (path, m)

/-! ### The manifests -/

def seenManifest (file : List UInt8) (outer : Zip) (e : Entry) : Option Manifest :=
  (candidate zlib fuel (fun _ => false) file outer e 0).1.bind fun z => (manifestZip zlib fuel (fun _ => false) z 0).1

/-- The manifest in the file that is made of an entry. -/
def apkManifest (outer : Zip) (e : Entry) : Option Manifest :=
  ((content zlib fuel outer e).bind zipOpen).bind fun z => (manifestZip zlib fuel (fun _ => false) z 0).1

end Choice

/-! ### Cancelled reads -/

section Cancelled
variable {zlib : Inflate} {fuel : Nat} {cancelled : Nat → Bool} {e : Entry} {z : Zip} {polls polls' : Nat}

variable {σ : Type} {next : Nat → List UInt8 → Reading σ → Option (Reading σ)} {capacity : Option Nat}
  {name data : List UInt8}

/-- A loop that does not come to the same result as it would without the cancel button was cancelled. -/
theorem readLoop_or_cancelled :
    ∀ {l : List (List UInt8)} {polls polls' : Nat} {r : Reading σ},
      (readLoop e cancelled next l polls r).1 = (readLoop e (fun _ => false) next l polls' r).1 ∨
        ∃ k < (readLoop e cancelled next l polls r).2, cancelled k = true
  | [], _, _, _ => .inl rfl
  | input :: rest, polls, polls', r => by
    rw [readLoop, readLoop]
    by_cases hc : cancelled polls = true
    · rw [if_pos hc]
      exact .inr ⟨polls, Nat.lt_succ_self _, hc⟩
    · rw [if_neg hc, if_neg Bool.false_ne_true]
      cases next (rest.map List.length).sum input r with
      | none => exact .inl rfl
      | some r' =>
        dsimp only
        by_cases hended : e.method = 8 ∧ r'.ended = true
        · rw [if_pos hended, if_pos hended]
          exact .inl rfl
        · rw [if_neg hended, if_neg hended]
          exact readLoop_or_cancelled

theorem finish_congr {p q : Option (Reading σ) × Nat} (h : p.1 = q.1) : (finish e p).1 = (finish e q).1 := by
  obtain ⟨a, m⟩ := p
  obtain ⟨b, n⟩ := q
  obtain rfl : a = b := h
  cases a <;> rfl

theorem finish_polls (p : Option (Reading σ) × Nat) : (finish e p).2 = p.2 := by
  obtain ⟨a, n⟩ := p
  cases a <;> rfl

theorem readData_or_cancelled (input : List UInt8) (polls polls' : Nat) :
    (readData zlib e fuel cancelled input polls).1 = (readData zlib e fuel (fun _ => false) input polls').1 ∨
      ∃ k < (readData zlib e fuel cancelled input polls).2, cancelled k = true := by
  unfold readData
  by_cases hmethod : e.method = 8
  · rw [if_pos hmethod, if_pos hmethod]
    cases zlib.init with
    | none => exact .inl rfl
    | some stream =>
      dsimp only
      rw [finish_polls]
      exact readLoop_or_cancelled.imp_left finish_congr
  · rw [if_neg hmethod, if_neg hmethod, finish_polls]
    exact readLoop_or_cancelled.imp_left finish_congr

theorem zipRead_or_cancelled (capacity : Option Nat) (polls polls' : Nat) :
    (zipRead zlib e fuel cancelled z capacity polls).1 = (zipRead zlib e fuel (fun _ => false) z capacity polls').1 ∨
      ∃ k < (zipRead zlib e fuel cancelled z capacity polls).2, cancelled k = true := by
  unfold zipRead
  by_cases hkind : e.flags % 2 = 1 ∨ ¬ (e.method = 0 ∨ e.method = 8)
  · rw [if_pos hkind, if_pos hkind]
    exact .inl rfl
  · rw [if_neg hkind, if_neg hkind]
    cases dataAt e z with
    | none => exact .inl rfl
    | some place =>
      dsimp only
      by_cases hcap : capacity.any (· < e.size)
      · rw [if_pos hcap, if_pos hcap]
        exact .inl rfl
      · rw [if_neg hcap, if_neg hcap]
        cases z.fread place e.compressed with
        | none => exact .inl rfl
        | some input => exact readData_or_cancelled _ _ _

theorem readLoop_all_cancelled {r r' : Reading σ}
    (hall : cancelled polls = true) : ∀ {l : List (List UInt8)}, (readLoop e cancelled next l polls r).1 = some r' → r' = r
  | [], h => (some.inj h).symm
  | input :: rest, h => by
    rw [readLoop, if_pos hall] at h
    cases h

theorem zipRead_all_cancelled {data : List UInt8} (hall : cancelled polls = true)
    (h : (zipRead zlib e fuel cancelled z capacity polls).1 = some data) : data = [] := by
  unfold zipRead at h
  iterate 4
    split at h
    · cases h
  unfold readData at h
  split at h
  · split at h
    · cases h
    · obtain ⟨r, hr, -, rfl⟩ := finish_eq_some.1 h
      rw [readLoop_all_cancelled hall hr]
  · obtain ⟨r, hr, -, rfl⟩ := finish_eq_some.1 h
    rw [readLoop_all_cancelled hall hr]

theorem zipRead_length {data : List UInt8}
    (h : (zipRead zlib e fuel cancelled z capacity polls).1 = some data) : data.length = e.size := by
  unfold zipRead at h
  iterate 4
    split at h
    · cases h
  have hdone : ∀ {σ : Type} {r : Reading σ}, complete e r = true → r.data.length = e.size := by
    intro σ r hr
    simp only [complete, decide_eq_true_eq] at hr
    exact hr.2.1
  unfold readData at h
  split at h
  · split at h
    · cases h
    · obtain ⟨r, -, hr, rfl⟩ := finish_eq_some.1 h
      exact hdone hr
  · obtain ⟨r, -, hr, rfl⟩ := finish_eq_some.1 h
    exact hdone hr

theorem zipMemory_or_cancelled (name : List UInt8) (polls polls' : Nat) :
    (zipMemory zlib fuel cancelled z name polls).1 = (zipMemory zlib fuel (fun _ => false) z name polls').1 ∨
      ∃ k < (zipMemory zlib fuel cancelled z name polls).2, cancelled k = true := by
  unfold zipMemory
  cases zipFind z.entries name with
  | none => exact .inl rfl
  | some e =>
    dsimp only
    split
    · exact .inl rfl
    · exact zipRead_or_cancelled _ _ _

theorem zipMemory_uncancelled (h : (zipMemory zlib fuel cancelled z name polls).1 = some data)
    (polls' : Nat) : (zipMemory zlib fuel (fun _ => false) z name polls').1 = some data := by
  unfold zipMemory at h ⊢
  cases hfind : zipFind z.entries name with
  | none =>
    rw [hfind] at h
    cases h
  | some e =>
    rw [hfind] at h
    dsimp only at h ⊢
    split at h
    · cases h
    · rename_i hsize
      rw [if_neg hsize, zipRead_capacity (by simp)]
      exact zipRead_uncancelled h polls'

theorem zipMemory_all_cancelled (hall : cancelled polls = true)
    (h : (zipMemory zlib fuel cancelled z name polls).1 = some data) : data = [] := by
  unfold zipMemory at h
  split at h
  · cases h
  split at h
  · cases h
  · exact zipRead_all_cancelled hall h

theorem parseBundleManifest_nil : (parseBundleManifest [] 0).value? = none := by decide +kernel

theorem manifestZip_uncancelled {m : Manifest} (hmono : Monotone cancelled)
    (h : (manifestZip zlib fuel cancelled z polls).1 = some m) (polls' : Nat) :
    (manifestZip zlib fuel (fun _ => false) z polls').1 = some m := by
  unfold manifestZip at h ⊢
  have hor := @zipMemory_or_cancelled zlib fuel cancelled z (bytes "AndroidManifest.xml") polls polls'
  cases hfirst : zipMemory zlib fuel cancelled z (bytes "AndroidManifest.xml") polls with
  | mk first n =>
  cases hplain : zipMemory zlib fuel (fun _ => false) z (bytes "AndroidManifest.xml") polls' with
  | mk plain n' =>
  rw [hfirst] at h
  rw [hfirst, hplain] at hor
  cases first with
  | some data =>
    have hdata := zipMemory_uncancelled (by rw [hfirst]) polls'
    rw [hplain] at hdata
    obtain rfl : plain = some data := hdata
    exact h
  | none =>
    dsimp only at h hor ⊢
    split at h
    · rename_i hbundle
      split at h
      · rename_i data n₂ hsecond
        rcases hor with heq | ⟨k, hk, hcancel⟩
        · subst heq
          dsimp only
          have hdata := zipMemory_uncancelled (by rw [hsecond]) n'
          rw [if_pos hbundle]
          split
          · rename_i data' n₃ hplain₂
            rw [hplain₂] at hdata
            obtain rfl : data' = data := some.inj hdata
            exact h
          · rename_i n₃ hplain₂
            rw [hplain₂] at hdata
            cases hdata
        · -- what is read after the cancel is empty, and that is no manifest
          have hall : cancelled n = true := by
            have hle := hmono hk.le
            rw [hcancel] at hle
            exact top_le_iff.1 hle
          obtain rfl := zipMemory_all_cancelled hall (by rw [hsecond])
          cases h.symm.trans parseBundleManifest_nil
      · cases h
    · cases h

end Cancelled

/-! ### In place and extracted -/

section InPlace
variable {zlib : Inflate} {fuel : Nat} {cancelled : Nat → Bool} {e : Entry} {z z' z₂ outer : Zip} {polls : Nat}
  {file data view : List UInt8}

theorem zipOpen_eq (data : List UInt8) : zipOpen data = zipIndex ⟨data, 0, data.length, []⟩ := by
  unfold zipOpen zipOpenRange
  by_cases hshort : data.length < 22
  · rw [if_pos (.inl hshort)]
    unfold zipIndex
    rw [if_pos hshort]
    rfl
  · rw [if_neg (by omega), if_neg (by simp), Nat.sub_zero]

theorem zipOpen_size (h : zipOpen file = some outer) : outer.file = file ∧ outer.origin = 0 ∧ outer.size = file.length := by
  rw [zipOpen_eq] at h
  rw [zipIndex_kept h]
  exact ⟨rfl, rfl, rfl⟩

theorem sameArchive_of_open (h : SameView z z' view) (hend : z'.file.length = z'.origin + view.length)
    (hopen : zipIndex z' = some z₂) : SameArchive (zipIndex z) (zipIndex z') := by
  refine sameArchive h ?_
  cases hrec : recordAt z with
  | none => exact index_plain_view h hrec
  | some r =>
    have hrec' := (recordAt_view h).symm.trans hrec
    have hin : r + 56 ≤ view.length := by
      by_contra hout
      have hread : z'.fread r 56 = none := by
        unfold Zip.fread
        split
        · rfl
        · rw [if_neg (by omega)]
      have hnone := index_zip64 hrec'
      rw [hread, hopen] at hnone
      cases hnone
    rw [index_zip64 hrec, index_zip64 hrec', h.fread hin]
    exact Option.bind_congr fun n _ => directory_view h n

theorem zipMemory_congr {zlib : Inflate} {fuel : Nat} {cancelled : Nat → Bool} (hentries : z.entries = z'.entries)
    (hread : ∀ e ∈ z.entries, ∀ zlib fuel cancelled capacity polls,
      zipRead zlib e fuel cancelled z capacity polls = zipRead zlib e fuel cancelled z' capacity polls)
    (name : List UInt8) (polls : Nat) :
    zipMemory zlib fuel cancelled z name polls = zipMemory zlib fuel cancelled z' name polls := by
  unfold zipMemory
  rw [← hentries]
  cases hfind : zipFind z.entries name with
  | none => rfl
  | some e =>
    dsimp only
    rw [hread e (zipFind_mem hfind).1]

theorem manifestZip_congr (h : SameArchive (some z) (some z')) :
    manifestZip zlib fuel cancelled z polls = manifestZip zlib fuel cancelled z' polls := by
  unfold manifestZip
  have hmemory := @zipMemory_congr z z' zlib fuel cancelled h.1 h.2
  rw [hmemory, h.1]
  split
  · rfl
  · rw [hmemory]

theorem content_stored (hmethod : e.method = 0) (h : content zlib fuel z e = some data) :
    ∃ place, dataAt e z = some place ∧ z.fread place e.compressed = some data ∧ data.length = e.size := by
  have hlen := zipRead_length h
  unfold content zipRead at h
  split at h
  · cases h
  split at h
  · cases h
  rename_i place hplace
  rw [any_none, if_neg Bool.false_ne_true] at h
  split at h
  · cases h
  rename_i input hinput
  obtain ⟨ok, written, n, hrun, -, -, hdata⟩ := readDataInto_stored (e := e)
    (by omega) input
  rw [readData_eq hrun] at h
  cases ok with
  | false => cases h
  | true =>
    obtain rfl : written = data := some.inj h
    rw [hdata rfl] at hlen ⊢
    exact ⟨place, hplace, hinput, hlen⟩

theorem inPlace_eq (hopen : zipOpen file = some outer) (hmethod : e.method = 0)
    (hcontent : content zlib fuel outer e = some data) (hdata : data ≠ []) :
    ∃ place, HasView file place data ∧ inPlace file outer e = zipIndex ⟨file, place, data.length, []⟩ := by
  obtain ⟨place, hplace, hread, hlen⟩ := content_stored hmethod hcontent
  obtain ⟨hfile, horigin, hsize⟩ := zipOpen_size hopen
  obtain ⟨header, hheader, hsign, hat, hroom⟩ := dataAt_eq_some.1 hplace
  have hcompressed : e.compressed = e.size := (fread_length hread).symm.trans hlen
  have hview : HasView file place data := by
    unfold Zip.fread at hread
    rw [horigin, hfile, Nat.zero_add] at hread
    split at hread
    · cases hread
    split at hread
    · rename_i hin
      rw [hcompressed, ← hlen] at hin hread
      exact ⟨hin, some.inj hread⟩
    · cases hread
  refine ⟨place, hview, ?_⟩
  unfold inPlace
  simp only [bind_eq_bind, bind_none]
  rw [hheader, bind_some, if_neg (not_not.2 hsign), ← hat, if_neg (by omega), ← hlen]
  exact open_view hdata hview

/-- What the launcher sees in an entry is what is extracted of it, where that is an archive. -/
theorem seenManifest_eq (hfile : file.length < 2 ^ 63) (hopen : zipOpen file = some outer) {m m' : Manifest}
    (hseen : seenManifest zlib fuel file outer e = some m) (hapk : apkManifest zlib fuel outer e = some m') : m = m' := by
  obtain ⟨z', hz', hm'⟩ := bind_eq_some_iff.1 hapk
  obtain ⟨data, hcontent, hdata⟩ := bind_eq_some_iff.1 hz'
  obtain ⟨z, hz, hm⟩ := bind_eq_some_iff.1 hseen
  rw [zipOpen_eq] at hdata
  have hsame : SameArchive (some z) (some z') := by
    unfold candidate at hz
    split at hz
    · cases hz
    split at hz
    · rename_i hmethod
      have hne : data ≠ [] := by
        rintro rfl
        have hnone : zipIndex ⟨[], 0, 0, []⟩ = none := by decide
        rw [length_nil, hnone] at hdata
        cases hdata
      obtain ⟨place, hview, hplace⟩ := inPlace_eq hopen hmethod hcontent hne
      rw [← hdata, ← hz, hplace]
      refine sameArchive_of_open (z := ⟨file, place, data.length, []⟩) ⟨fun off hoff => ?_, hview.shows, ?_⟩ ?_
        hdata
      · have hroom := hview.1
        dsimp only
        omega
      · exact ⟨rfl, by simp, take_length⟩
      · exact (Nat.zero_add _).symm
    · split at hz
      · rename_i data' n hread
        have hcontent' : content zlib fuel outer e = some data' := by
          unfold content
          rw [hread]
        cases hcontent.symm.trans hcontent'
        rw [← zipRead_length hcontent, hdata] at hz
        rw [← some.inj hz]
        exact ⟨rfl, fun _ _ _ _ _ _ _ => rfl⟩
      · cases hz
  rw [manifestZip_congr hsame, hm'] at hm
  exact (some.inj hm).symm

end InPlace

/-! ### The files -/

section Files
variable {beyond : Beyond} {zlib : Inflate} {fuel : Nat} {cancelled : Nat → Bool} {outer : Zip} {root path : List UInt8}
  {fs fs' : Disk} {polls polls' : Nat} {entries : List Entry} {d e : Entry}

/-- The files of an archive are on the disk, each with the data of the last entry of its name. -/
def OnDisk (zlib : Inflate) (fuel : Nat) (outer : Zip) (root : List UInt8) (fs : Disk) : Prop :=
  ∀ e, findLast outer.entries e.name = some e → isDirName e.name = false →
    ∃ path data, pathJoin root e.name = some path ∧ content zlib fuel outer e = some data ∧ Clear fs (parts path) ∧
      fs.read (parts path) = some data

/-- The directory before the archive is extracted: it has no link to follow, and its files are its own, and all there
    where a stamp says so. -/
def Ready (zlib : Inflate) (fuel : Nat) (outer : Zip) (root : List UInt8) (hit : Bool) (fs : Disk) : Prop :=
  Idle (parts root) fs ∧ if hit then OnDisk zlib fuel outer root fs else Own root fs

theorem findLast_name {name : List UInt8} (h : findLast entries name = some e) : e ∈ entries ∧ e.name = name := by
  obtain ⟨hmem, hname⟩ := zipFind_mem h
  exact ⟨mem_reverse.1 hmem, hname⟩

theorem findLast_of_mem (h : e ∈ entries) : ∃ l, findLast entries e.name = some l ∧ l.name = e.name := by
  cases hl : findLast entries e.name with
  | some l => exact ⟨l, rfl, (findLast_name hl).2⟩
  | none =>
    rw [findLast, zipFind, find?_eq_none] at hl
    exact absurd (decide_eq_true rfl) (hl e (mem_reverse.2 h))

theorem findLast_split {pre post : List Entry} (h : findLast (pre ++ e :: post) e.name = some d) : d = e ∨ d ∈ post := by
  rw [findLast, zipFind, reverse_append, find?_append] at h
  cases hfind : (e :: post).reverse.find? (fun d => decide (d.name = e.name)) with
  | none =>
    rw [find?_eq_none] at hfind
    exact absurd (decide_eq_true rfl) (hfind e (mem_reverse.2 mem_cons_self))
  | some c =>
    rw [hfind, some_or] at h
    cases h
    exact mem_cons.1 (mem_reverse.1 (mem_of_find?_eq_some hfind))

/-- Where all files are there, nothing is written to them. -/
theorem extractLoop_keeps : ∀ {entries : List Entry} {fs : Disk} {polls : Nat}, Idle (parts root) fs →
    (∀ e ∈ entries, isDirName e.name = false → ∀ path, pathJoin root e.name = some path →
      Clear fs (parts path) ∧ ∃ data, fs.read (parts path) = some data) →
    extractLoop beyond zlib fuel cancelled outer root false entries fs polls = (true, fs', polls') → Fs.Keeps fs fs'
  | [], _, _, _, _, h => by
    cases h
    exact Fs.Keeps.refl _
  | e :: entries, fs, polls, hidle, hall, h => by
    rw [extractLoop] at h
    split at h
    · cases h
    split at h
    · rename_i fs₁ n hentry
      have hkeeps : Fs.Keeps fs fs₁ := by
        unfold extractEntry at hentry
        split at hentry
        · cases hentry
        split at hentry
        · cases hentry
        rename_i path hpath
        split at hentry
        · split at hentry
          · cases hentry
          · rename_i fs₂ hmk
            cases hentry
            exact Fs.mkdirs_keeps (mkdirs_eq hidle (near_pathJoin hpath) hmk)
        · rename_i hfile
          obtain ⟨hclear, data, hdata⟩ := hall e mem_cons_self (by simpa using hfile) path hpath
          rw [if_pos ⟨rfl, symAccess_clear hidle (near_pathJoin hpath) hclear hdata⟩] at hentry
          cases hentry
          exact Fs.Keeps.refl _
      refine hkeeps.trans (extractLoop_keeps (hidle.keeps hkeeps) (fun d hd hfile path hpath => ?_) h)
      rw [hkeeps.read]
      exact (hall d (mem_cons_of_mem _ hd) hfile path hpath).imp_left fun hclear => hclear.mono hkeeps.grows.dir
    · cases h

theorem zipExtract_complete {hit : Bool} (hlinks : LinksNamed zlib fuel outer [] outer.entries)
    (hready : Ready zlib fuel outer root hit fs)
    (h : zipExtract beyond zlib fuel cancelled outer root (!hit) fs polls = (true, fs', polls')) :
    Ready zlib fuel outer root true fs' := by
  obtain ⟨hidle, hready⟩ := hready
  unfold zipExtract at h
  split at h
  · cases h
  rename_i fs₁ hmk
  split at h
  · cases h
  have hkeeps := Fs.mkdirs_keeps (mkdirs_eq hidle (.inl prefix_rfl) hmk)
  cases hit with
  | false =>
    have hown : Own root fs := hready
    have hsettled : Settled root [] fs₁ := ⟨hown.keeps hkeeps, hidle.keeps hkeeps, by simp⟩
    obtain ⟨hs, -, hall, hlast⟩ := extractLoop_spec hsettled hlinks h
    refine ⟨hs.idle, fun e he hfile => ?_⟩
    obtain ⟨hsafe, hcontent, path, hpath, hclear⟩ := hall e (findLast_name he).1 hfile
    obtain ⟨data, hdata⟩ := isSome_iff_exists.1 hcontent
    have hread := hlast e.name path hsafe hfile hpath
    rw [he] at hread
    exact ⟨path, data, hpath, hdata, hclear, hread.trans hdata⟩
  | true =>
    have hcomplete : OnDisk zlib fuel outer root fs := hready
    have hkeeps' : Fs.Keeps fs₁ fs' := by
      refine extractLoop_keeps (hidle.keeps hkeeps) (fun e he hfile path hpath => ?_) h
      obtain ⟨l, hl, hname⟩ := findLast_of_mem he
      rw [← hname] at hl hfile hpath
      obtain ⟨path', data, hpath', -, hclear, hread⟩ := hcomplete l hl hfile
      cases hpath.symm.trans hpath'
      exact ⟨hclear.mono hkeeps.grows.dir, data, by rw [hkeeps.read, hread]⟩
    refine ⟨(hidle.keeps hkeeps).keeps hkeeps', fun e he hfile => ?_⟩
    obtain ⟨path, data, hpath, hdata, hclear, hread⟩ := hcomplete e he hfile
    exact ⟨path, data, hpath, hdata, (hclear.mono hkeeps.grows.dir).mono hkeeps'.grows.dir,
      by rw [hkeeps'.read, hkeeps.read, hread]⟩

theorem isApk_file (h : isApk e = true) : isDirName e.name = false := by
  unfold isApk suffix at h
  obtain ⟨front, hfront⟩ := of_decide_eq_true h
  have hlast : (e.name.map toLower).getLast? = some (ch 'k') := by
    rw [← hfront, getLast?_append]
    rfl
  rw [getLast?_map, map_eq_some_iff] at hlast
  obtain ⟨c, hc, hlower⟩ := hlast
  unfold isDirName
  rw [hc, decide_eq_false_iff_not]
  intro hslash
  rw [some.inj hslash] at hlower
  cases hlower

def fileManifest (beyond : Beyond) (zlib : Inflate) (fuel : Nat) (fs : Disk) (path : List UInt8) : Option Manifest :=
  (openFile beyond fs path).bind fun z => (manifestZip zlib fuel (fun _ => false) z 0).1

theorem fileManifest_eq (hfs : Ready zlib fuel outer root true fs) (he : findLast outer.entries e.name = some e)
    (hapk : isApk e = true) (hpath : pathJoin root e.name = some path) :
    fileManifest beyond zlib fuel fs path = apkManifest zlib fuel outer e := by
  have hcomplete : OnDisk zlib fuel outer root fs := hfs.2
  obtain ⟨path', data, hpath', hdata, hclear, hread⟩ := hcomplete e he (isApk_file hapk)
  cases hpath.symm.trans hpath'
  unfold fileManifest openFile apkManifest
  rw [symRead_clear hfs.1 (near_pathJoin hpath) hclear hread, hdata]

end Files

/-! ### The paths -/

section Paths
variable {root path path' name name' : List UInt8} {entries : List Entry}

section
variable (h : pathJoin root name = some path)
include h

theorem pathJoin_append :
    path = root ++ (if root ≠ [] ∧ root.getLast? ≠ some (ch '/') then [ch '/'] else []) ++ name := by
  rw [pathJoin, ite_none_right_eq_some] at h
  exact (some.inj h.2).symm

/-- Paths under a directory are sorted as their names are. -/
theorem pathJoin_lt (h' : pathJoin root name' = some path') (hlt : name < name') :
    path < path' := by
  rw [pathJoin_append h, pathJoin_append h']
  exact append_left_lt hlt

theorem pathJoin_inj (h' : pathJoin root name' = some path) : name = name' :=
  append_cancel_left ((pathJoin_append h).symm.trans (pathJoin_append h'))

end

theorem mem_apkLoop : ∀ {entries : List Entry} {paths : List (List UInt8)}, apkLoop root entries = some paths →
    (path ∈ paths ↔ ∃ e ∈ entries, isApk e = true ∧ pathJoin root e.name = some path)
  | [], paths, h => by
    cases h
    simp
  | e :: entries, paths, h => by
    rw [apkLoop] at h
    by_cases hapk : isApk e = true
    · rw [if_pos hapk] at h
      obtain ⟨first, hfirst, h⟩ := bind_eq_some_iff.1 h
      obtain ⟨rest, hrest, rfl⟩ := map_eq_some_iff.1 h
      rw [mem_cons, mem_apkLoop hrest, exists_mem_cons_iff, hfirst, Option.some.injEq]
      exact or_congr_left ⟨fun heq => ⟨hapk, heq.symm⟩, fun heq => heq.2.symm⟩
    · rw [if_neg hapk] at h
      rw [mem_apkLoop h, exists_mem_cons_iff]
      simp [hapk]

variable {paths : List (List UInt8)}

theorem mem_apkPaths (h : apkPaths root entries = some paths) :
    path ∈ paths ↔ ∃ e ∈ entries, isApk e = true ∧ pathJoin root e.name = some path := by
  obtain ⟨l, hl, rfl⟩ := map_eq_some_iff.1 h
  rw [mem_insertionSort, mem_apkLoop hl]

theorem apkPaths_sorted (h : apkPaths root entries = some paths) : paths.Pairwise (· ≤ ·) := by
  obtain ⟨l, hl, rfl⟩ := map_eq_some_iff.1 h
  exact pairwise_insertionSort _ _

end Paths

/-! ### The choices -/

def IsSplit (m? : Option Manifest) : Prop := ∃ m, m? = some m ∧ m.split.text ≠ []

section Loops
variable {zlib : Inflate} {fuel : Nat} {cancelled : Nat → Bool} {file root path : List UInt8} {outer : Zip} {e : Entry}
  {m : Manifest} {polls : Nat} {fs : Disk}

theorem candidate_uncancelled {z : Zip} (h : (candidate zlib fuel cancelled file outer e polls).1 = some z) :
    (candidate zlib fuel (fun _ => false) file outer e 0).1 = some z := by
  unfold candidate at h ⊢
  split at h
  · cases h
  rename_i hflag
  rw [if_neg hflag]
  split at h
  · rename_i hmethod
    rw [if_pos hmethod]
    exact h
  · rename_i hmethod
    rw [if_neg hmethod]
    split at h
    · rename_i data n hread
      have hdata := zipRead_uncancelled (by rw [hread]) 0
      split
      · rename_i data' n' hread'
        rw [hread'] at hdata
        obtain rfl : data' = data := some.inj hdata
        exact h
      · rename_i n' hread'
        rw [hread'] at hdata
        cases hdata
    · cases h

theorem launcherLoop_spec (hmono : Monotone cancelled) : ∀ {l : List Entry} {polls : Nat},
    (launcherLoop zlib fuel cancelled file outer l polls).1 = some (e, m) →
    ∃ pre post, l = pre ++ e :: post ∧ isApk e = true ∧ seenManifest zlib fuel file outer e = some m ∧ m.split.text = [] ∧
      ∀ d ∈ pre, isApk d = true → IsSplit (seenManifest zlib fuel file outer d)
  | [], _, h => by cases h
  | d :: l, polls, h => by
    rw [launcherLoop] at h
    by_cases hapk : isApk d = true
    · rw [if_pos hapk] at h
      split at h
      · cases h
      rename_i z n hz
      split at h
      · cases h
      rename_i m' n' hm'
      have hseen : seenManifest zlib fuel file outer d = some m' := by
        rw [seenManifest, candidate_uncancelled (by rw [hz]), bind_some]
        exact manifestZip_uncancelled hmono (by rw [hm']) 0
      split at h
      · rename_i hsplit
        cases h
        exact ⟨[], l, rfl, hapk, hseen, hsplit, by simp⟩
      · rename_i hsplit
        obtain ⟨pre, post, rfl, hapk', hm, hno, hpre⟩ := launcherLoop_spec hmono h
        refine ⟨d :: pre, post, rfl, hapk', hm, hno, fun c hc hcapk => ?_⟩
        rcases mem_cons.1 hc with rfl | hc
        · exact ⟨m', hseen, hsplit⟩
        · exact hpre c hc hcapk
    · rw [if_neg hapk] at h
      obtain ⟨pre, post, rfl, hapk', hm, hno, hpre⟩ := launcherLoop_spec hmono h
      refine ⟨d :: pre, post, rfl, hapk', hm, hno, fun c hc hcapk => ?_⟩
      rcases mem_cons.1 hc with rfl | hc
      · exact absurd hcapk hapk
      · exact hpre c hc hcapk

theorem installerLoop_spec (hmono : Monotone cancelled) : ∀ {l : List (List UInt8)} {polls : Nat},
    (installerLoop zlib fuel cancelled beyond fs l polls).1 = some path →
    ∃ pre post m, l = pre ++ path :: post ∧ fileManifest beyond zlib fuel fs path = some m ∧ m.split.text = [] ∧
      ∀ q ∈ pre, IsSplit (fileManifest beyond zlib fuel fs q)
  | [], _, h => by cases h
  | q :: l, polls, h => by
    rw [installerLoop] at h
    split at h
    · cases h
    rename_i z hz
    split at h
    · cases h
    rename_i m n hm
    have hfile : fileManifest beyond zlib fuel fs q = some m := by
      rw [fileManifest, hz, bind_some]
      exact manifestZip_uncancelled hmono (by rw [hm]) 0
    split at h
    · rename_i hsplit
      cases h
      exact ⟨[], l, m, rfl, hfile, hsplit, by simp⟩
    · rename_i hsplit
      obtain ⟨pre, post, m', rfl, hm', hno, hpre⟩ := installerLoop_spec hmono h
      refine ⟨q :: pre, post, m', rfl, hm', hno, fun c hc => ?_⟩
      rcases mem_cons.1 hc with rfl | hc
      · exact ⟨m, hfile, hsplit⟩
      · exact hpre c hc

/-- The base that is installed: the last entry of its name, whose path is the least of those that are no splits. -/
structure Installs (zlib : Inflate) (fuel : Nat) (outer : Zip) (root path : List UInt8) (m : Manifest) (b : Entry) : Prop where
  last : findLast outer.entries b.name = some b
  apk : isApk b = true
  joined : pathJoin root b.name = some path
  manifest : apkManifest zlib fuel outer b = some m
  base : m.split.text = []
  least : ∀ d, isApk d = true → findLast outer.entries d.name = some d → d.name < b.name →
    IsSplit (apkManifest zlib fuel outer d)

theorem installerBase_spec (hmono : Monotone cancelled) {hit : Bool} (hopen : zipOpen file = some outer)
    (hlinks : LinksNamed zlib fuel outer [] outer.entries) (hready : Ready zlib fuel outer root hit fs)
    (h : installerBase zlib fuel cancelled beyond root file hit fs polls = some (path, m)) :
    ∃ b, Installs zlib fuel outer root path m b := by
  unfold installerBase at h
  rw [hopen] at h
  dsimp only at h
  split at h
  · cases h
  rename_i fs' n hextract
  split at h
  · cases h
  rename_i paths hpaths
  split at h
  · cases h
  rename_i path' n' hloop
  split at h
  · cases h
  rename_i z hz
  obtain ⟨m', hm, heq⟩ := map_eq_some_iff.1 h
  obtain ⟨rfl, rfl⟩ := Prod.mk.inj heq
  have hready' := zipExtract_complete hlinks hready hextract
  have hcomplete : OnDisk zlib fuel outer root fs' := hready'.2
  have hmanifest : fileManifest beyond zlib fuel fs' path' = some m' := by
    rw [fileManifest, hz, bind_some]
    exact manifestZip_uncancelled hmono hm 0
  obtain ⟨pre, post, m'', rfl, hm'', hbase, hpre⟩ := installerLoop_spec hmono (l := paths) (by rw [hloop])
  cases hm''.symm.trans hmanifest
  obtain ⟨e, he, hapk, hjoin⟩ := (mem_apkPaths hpaths).1 (mem_append_right _ mem_cons_self)
  obtain ⟨b, hb, hname⟩ := findLast_of_mem he
  rw [← hname] at hb hjoin
  have hbapk : isApk b = true := by
    unfold isApk at hapk ⊢
    rw [hname]
    exact hapk
  refine ⟨b, hb, hbapk, hjoin, (fileManifest_eq hready' hb hbapk hjoin).symm.trans hmanifest, hbase, ?_⟩
  intro d hdapk hd hlt
  obtain ⟨q, -, hq, -⟩ := hcomplete d hd (isApk_file hdapk)
  have hqlt := pathJoin_lt hq hjoin hlt
  rw [← fileManifest_eq hready' hd hdapk hq]
  -- a path that is less comes before
  have hmem : q ∈ pre ++ path' :: post := (mem_apkPaths hpaths).2 ⟨d, (findLast_name hd).1, hdapk, hq⟩
  have hsorted := pairwise_append.1 (apkPaths_sorted hpaths)
  rcases mem_append.1 hmem with hin | hin
  · exact hpre q hin
  · rcases mem_cons.1 hin with rfl | hin
    · exact absurd hqlt (List.lt_irrefl _)
    · exact absurd hqlt ((pairwise_cons.1 hsorted.2.1).1 q hin)

end Loops

/-- Of the APKs without a split, the first in the directory has the least name, and no later entry of its name has another
    manifest. -/
def FirstIsLeast (zlib : Inflate) (fuel : Nat) (file : List UInt8) (outer : Zip) : Prop :=
  ∃ pre e post m, outer.entries = pre ++ e :: post ∧ isApk e = true ∧ seenManifest zlib fuel file outer e = some m ∧
    m.split.text = [] ∧ (∀ d ∈ pre, isApk d = true → IsSplit (seenManifest zlib fuel file outer d)) ∧
    (∀ d, isApk d = true → findLast outer.entries d.name = some d → d.name < e.name →
      IsSplit (apkManifest zlib fuel outer d)) ∧
    ∀ d ∈ post, findLast outer.entries e.name = some d → apkManifest zlib fuel outer d = some m

theorem not_isSplit {m? : Option Manifest} {m : Manifest} (h : m? = some m) (hsplit : m.split.text = []) :
    ¬ IsSplit m? := by
  rintro ⟨m', hm', hne⟩
  rw [h, Option.some.injEq] at hm'
  exact hne (hm' ▸ hsplit)

/-- The launcher and the installer of one container choose the same APK, and read the same manifest, exactly when the first
    APK without a split has the least name. -/
theorem same_base_iff {beyond : Beyond} {zlib : Inflate} {fuel : Nat} {cancelled cancelled' : Nat → Bool}
    {file root path : List UInt8}
    {outer : Zip} {hit : Bool} {fs : Disk} {polls polls' : Nat} {e : Entry} {m m' : Manifest} (hfile : file.length < 2 ^ 63)
    (hopen : zipOpen file = some outer) (hmono : Monotone cancelled) (hmono' : Monotone cancelled')
    (hlinks : LinksNamed zlib fuel outer [] outer.entries) (hready : Ready zlib fuel outer root hit fs)
    (hlauncher : launcherBase zlib fuel cancelled file polls = some (e, m))
    (hinstaller : installerBase zlib fuel cancelled' beyond root file hit fs polls' = some (path, m')) :
    (pathJoin root e.name = some path ∧ m = m') ↔ FirstIsLeast zlib fuel file outer := by
  unfold launcherBase at hlauncher
  rw [hopen, bind_some] at hlauncher
  obtain ⟨pre, post, hentries, hapk, hseen, hbase, hpre⟩ := launcherLoop_spec hmono hlauncher
  obtain ⟨b, hb⟩ := installerBase_spec hmono' hopen hlinks hready hinstaller
  constructor
  · rintro ⟨hjoin, rfl⟩
    have hname : e.name = b.name := pathJoin_inj hjoin hb.joined
    refine ⟨pre, e, post, m, hentries, hapk, hseen, hbase, hpre, fun d hdapk hd hlt => hb.least d hdapk hd (hname ▸ hlt), ?_⟩
    intro d _ hd
    rw [hname, hb.last, Option.some.injEq] at hd
    rw [← hd, hb.manifest]
  · rintro ⟨pre', e', post', m₀, hentries', hapk', hseen', hbase', hpre', hleast, hlast⟩
    -- there is only one first APK without a split
    obtain ⟨rfl, rfl⟩ : e' = e ∧ post' = post := by
      rw [hentries] at hentries'
      rcases append_eq_append_iff.1 hentries' with ⟨c, rfl, hc⟩ | ⟨c, rfl, hc⟩
      · cases c with
        | nil =>
          obtain ⟨h1, h2⟩ := List.cons.inj hc
          exact ⟨h1.symm, h2.symm⟩
        | cons x c =>
          cases hc
          exact absurd (hpre' e (mem_append_right _ mem_cons_self) hapk) (not_isSplit hseen hbase)
      · cases c with
        | nil =>
          obtain ⟨h1, h2⟩ := List.cons.inj hc
          exact ⟨h1, h2⟩
        | cons x c =>
          cases hc
          exact absurd (hpre e' (mem_append_right _ mem_cons_self) hapk') (not_isSplit hseen' hbase')
    obtain rfl := some.inj (hseen'.symm.trans hseen)
    have hmem : e' ∈ outer.entries := by
      rw [hentries]
      exact mem_append_right _ mem_cons_self
    obtain ⟨l, hl, hname⟩ := findLast_of_mem hmem
    -- the last entry of the name has the manifest, or none
    have hmanifest : ∀ m'', apkManifest zlib fuel outer l = some m'' → m'' = m₀ := by
      intro m'' hm''
      rcases findLast_split (hentries ▸ hl) with rfl | hin
      · exact (seenManifest_eq hfile hopen hseen hm'').symm
      · exact (some.inj ((hlast l hin hl).symm.trans hm'')).symm
    have hlapk : isApk l = true := by
      unfold isApk at hapk ⊢
      rw [hname]
      exact hapk
    rw [← hname] at hl hleast
    have hsame : l.name = b.name := by
      refine List.le_antisymm (fun hgt => ?_) fun hlt => ?_
      · exact absurd (hleast b hb.apk hb.last hgt) (not_isSplit hb.manifest hb.base)
      · -- the installer went past the last entry of the name, which is a split then
        obtain ⟨m'', hm'', hne⟩ := hb.least l hlapk hl hlt
        exact absurd (hmanifest m'' hm'' ▸ hbase) hne
    rw [hsame, hb.last, Option.some.injEq] at hl
    subst hl
    exact ⟨hname ▸ hb.joined, (hmanifest m' hb.manifest).symm⟩

/-! ### A container of two APKs -/

/-- A file with its name and its sum. -/
structure Stored where
  name : List UInt8
  data : List UInt8
  crc : Nat

def Stored.fields (f : Stored) : List UInt8 :=
  number 8 0 ++ number 4 f.crc ++ number 4 f.data.length ++ number 4 f.data.length ++ number 2 f.name.length

/-- An archive of stored files: what is before the directory, and the directory. -/
def storedParts : List Stored → Nat → List UInt8 × List UInt8
  | [], _ => ([], [])
  | f :: files, offset =>
    let first := number 4 0x04034b50 ++ number 2 20 ++ f.fields ++ number 2 0 ++ f.name ++ f.data
    let rest := storedParts files (offset + first.length)
    (first ++ rest.1, number 4 0x02014b50 ++ number 4 20 ++ f.fields ++ number 12 0 ++ number 4 offset ++ f.name ++ rest.2)

def storedZip (files : List Stored) : List UInt8 :=
  let parts := storedParts files 0
  parts.1 ++ parts.2 ++ endRecord files.length parts.2.length parts.1.length

def pooled (s : List UInt8) : List UInt8 := [UInt8.ofNat s.length, UInt8.ofNat s.length] ++ s ++ [0]

def poolOffsets : List (List UInt8) → Nat → List UInt8
  | [], _ => []
  | s :: strings, at' => number 4 at' ++ poolOffsets strings (at' + (pooled s).length)

def poolChunk (strings : List (List UInt8)) : List UInt8 :=
  let text := strings.flatMap pooled
  let head := 28 + 4 * strings.length
  number 2 1 ++ number 2 28 ++ number 4 (head + text.length) ++ number 4 strings.length ++ number 4 0 ++ number 4 256 ++
    number 4 head ++ number 4 0 ++ poolOffsets strings 0 ++ text

/-- The strings `manifest`, `package`, `p` and `application`. -/
def manifestStrings : List (List UInt8) :=
  [[109, 97, 110, 105, 102, 101, 115, 116], [112, 97, 99, 107, 97, 103, 101], [112],
    [97, 112, 112, 108, 105, 99, 97, 116, 105, 111, 110]]

/-- A manifest of the package `p` with these elements in it. -/
def manifestOf (events : List UInt8) : List UInt8 :=
  let chunks := poolChunk manifestStrings ++ startEvent 0 [⟨1, 2, 3, 2⟩] ++ events ++ endEvent 0
  number 4 0x00080003 ++ number 4 (8 + chunks.length) ++ chunks

/-- The name `AndroidManifest.xml`. -/
def manifestName : List UInt8 :=
  [65, 110, 100, 114, 111, 105, 100, 77, 97, 110, 105, 102, 101, 115, 116, 46, 120, 109, 108]

def bareApk : List UInt8 := storedZip [⟨manifestName, manifestOf [], 604798941⟩]

def fullApk : List UInt8 := storedZip [⟨manifestName, manifestOf (startEvent 3 [] ++ endEvent 3), 3960277989⟩]

/-- The name `a.apk`, with another letter. -/
def apkName (letter : Char) : List UInt8 := [ch letter, 46, 97, 112, 107]

/-- The directory of this container is not sorted. -/
def mixedContainer : List UInt8 := storedZip [⟨apkName 'b', bareApk, 1777873328⟩, ⟨apkName 'a', fullApk, 893636357⟩]

def mixedZip : Zip := (zipOpen mixedContainer).getD ⟨[], 0, 0, []⟩

def launched : Option (Entry × Manifest) := launcherBase noInflate 1 (fun _ => false) mixedContainer 0

def installed : Option (List UInt8 × Manifest) :=
  installerBase noInflate 1 (fun _ => false) noBeyond [ch '/', ch 'p'] mixedContainer false Fs.empty 0

section Mixed
set_option maxRecDepth 100000

theorem launched_bare : launched.map (fun r => r.2.applicationProcess.text) = some [] := by decide +kernel

theorem installed_full : installed.map (fun r => r.2.applicationProcess.text) = some [ch 'p'] := by decide +kernel

theorem mixedZip_open : zipOpen mixedContainer = some mixedZip := by
  have hsome : (zipOpen mixedContainer).isSome = true := by
    obtain ⟨r, hr, -⟩ := map_eq_some_iff.1 launched_bare
    unfold launched launcherBase at hr
    obtain ⟨outer, houter, -⟩ := bind_eq_some_iff.1 hr
    rw [houter]
    rfl
  obtain ⟨outer, houter⟩ := isSome_iff_exists.1 hsome
  rw [mixedZip, houter]
  rfl

/-- Both succeed with this container, and the manifests differ. -/
theorem launcher_differs : ∃ e m path m', launched = some (e, m) ∧ installed = some (path, m') ∧ m ≠ m' := by
  obtain ⟨⟨e, m⟩, hlaunched, hbare⟩ := map_eq_some_iff.1 launched_bare
  obtain ⟨⟨path, m'⟩, hinstalled, hfull⟩ := map_eq_some_iff.1 installed_full
  refine ⟨e, m, path, m', hlaunched, hinstalled, ?_⟩
  rintro rfl
  cases hbare.symm.trans hfull

/-- Its first APK without a split has not the least name. -/
theorem mixed_not_first : ¬ FirstIsLeast noInflate 1 mixedContainer mixedZip := by
  obtain ⟨⟨e, m⟩, hlaunched, hbare⟩ := map_eq_some_iff.1 launched_bare
  obtain ⟨⟨path, m'⟩, hinstalled, hfull⟩ := map_eq_some_iff.1 installed_full
  have hlength : mixedContainer.length < 2 ^ 63 := by decide +kernel
  have hready : Ready noInflate 1 mixedZip [ch '/', ch 'p'] false Fs.empty := by
    refine ⟨empty_idle, empty_fresh, fun p _ q i hp => ?_⟩
    unfold Fs.empty at hp
    cases p <;> cases hp
  have hlinks : LinksNamed noInflate 1 mixedZip [] mixedZip.entries := by
    intro before e after heq dir leaf hlays
    have hparts : ∀ e ∈ mixedZip.entries, ∀ part ∈ parts e.name, reserved part = false := by decide +kernel
    refine absurd hlays (not_laysLink (hparts e ?_))
    rw [heq]
    exact mem_append_right _ mem_cons_self
  have hiff := same_base_iff hlength mixedZip_open (monotone_const (c := false)) (monotone_const (c := false)) hlinks hready
    hlaunched hinstalled
  intro hfirst
  obtain rfl := (hiff.2 hfirst).2
  cases hbare.symm.trans hfull

end Mixed

end Lunaria.Apk
