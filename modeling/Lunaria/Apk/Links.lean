import Lunaria.Lib.Files
import Lunaria.Apk.Zip

/-! The symbolic links of `luna_symlink_*`, which `apk.c` has in place of the calls of the file system. The link `dir/x`
    is a file `dir/.sym.x` that begins with a marker, where there is no `dir/x`; the file itself is hidden as long as it
    is a link. What a call does whose way leads over a link is left open. -/

namespace Lunaria.Apk
open Files List Option

/-- The disk: the components of a path are the parts between slashes. -/
abbrev Disk := Fs (List UInt8) UInt8

def bytes (s : String) : List UInt8 := s.toList.map ch

def marker : List UInt8 := bytes "#!/symlink\n"

/-- `SYM_PATH` -/
def symPath : Nat := 8192

/-- What `sym_text` takes for a link: the marker, and a text that is neither empty nor too long. -/
def linkText (data : List UInt8) : Bool :=
  marker <+: data ∧ marker.length < data.length ∧ data.length - marker.length < symPath ∧ 0 ∉ data.drop marker.length

/-- `sym_text`: whether there is a link in a file. A directory is opened, but it cannot be read. -/
def symText (fs : Disk) (path : List (List UInt8)) : Option Bool :=
  match fs.node path with
  | none => some false
  | some .dir => none
  | some (.file i) => some (linkText (fs.data i))

def symName (leaf : List UInt8) : List UInt8 := bytes ".sym." ++ leaf

/-- The names that are no file's own. -/
def ownless (leaf : List UInt8) : Bool := leaf = [] ∨ leaf = bytes "." ∨ leaf = bytes ".."

/-- The names that the links are kept under. -/
def reserved (leaf : List UInt8) : Bool := bytes ".sym." <+: leaf ∨ bytes ".sym-stage-" <+: leaf

/-- There is something under the name of the link that this file would be. -/
def occupied (fs : Disk) (dir : List (List UInt8)) (leaf : List UInt8) : Bool :=
  bytes ".sym." <+: leaf ∧ (ownless (leaf.drop 5) ∨ fs.present (dir ++ [leaf.drop 5]))

/-- `sym_hidden` -/
def symHidden (fs : Disk) (dir : List (List UInt8)) (leaf : List UInt8) : Option Bool :=
  if reserved leaf then (symText fs (dir ++ [leaf])).map fun link => link && !occupied fs dir leaf else some false

/-- `sym_probe` -/
def symProbe (fs : Disk) (dir : List (List UInt8)) (leaf : List UInt8) : Option Bool :=
  if fs.present (dir ++ [leaf]) ∨ ownless leaf then some false else symText fs (dir ++ [symName leaf])

/-- Where a path leads: to a file of the host, or to none, or over a link. -/
inductive Resolved
  | host
  | error
  | link

/-- `sym_resolve`, up to the first link. Nothing that it does not find on a path can be a link, so that it need not walk the
    paths that are there. -/
def symResolve (fs : Disk) : List (List UInt8) → List (List UInt8) → Resolved
  | _, [] => .host
  | dir, leaf :: rest =>
    match symHidden fs dir leaf, symProbe fs dir leaf with
    | some false, some false => symResolve fs (dir ++ [leaf]) rest
    | some false, some true => .link
    | _, _ => .error

/-- What is left open: what the calls do whose way leads over a link, and how much of an entry is written when it cannot be
    read to its end. -/
structure Beyond where
  mkdir : Disk → List (List UInt8) → Option Disk
  present : Disk → List (List UInt8) → Bool
  read : Disk → List (List UInt8) → Option (List UInt8)
  create : Disk → List (List UInt8) → Option (Disk × Nat)
  unlink : Disk → List (List UInt8) → Disk
  written : Entry → List UInt8

/-- A call of `luna_symlink_*`. -/
def through {α : Type} (fs : Disk) (path : List (List UInt8)) (host link error : α) : α :=
  match symResolve fs [] path with
  | .host => host
  | .link => link
  | .error => error

namespace Beyond
variable (beyond : Beyond) (fs : Disk) (path : List (List UInt8))

def symMkdir : Option Disk := through fs path (fs.mkdir path) (beyond.mkdir fs path) none

def symMkdirs : Option Disk := path.inits.foldlM beyond.symMkdir fs

def symAccess : Bool := through fs path (fs.present path) (beyond.present fs path) false

def symRead : Option (List UInt8) := through fs path (fs.read path) (beyond.read fs path) none

def symCreate : Option (Disk × Nat) := through fs path (fs.create path) (beyond.create fs path) none

def symUnlink : Disk := through fs path (fs.unlink path) (beyond.unlink fs path) fs

end Beyond

/-! ### Disks where no call meets a link -/

/-- A path on the way to the root, or under it. -/
def Near (root path : List (List UInt8)) : Prop := path <+: root ∨ root <+: path

theorem Near.of_prefix {root p q : List (List UInt8)} (h : Near root p) (hq : q <+: p) : Near root q :=
  h.elim (fun h => .inl (hq.trans h)) fun h => prefix_or_prefix_of_prefix hq h

/-- Near the root, the name of each link is something else's. -/
def Idle (root : List (List UInt8)) (fs : Disk) : Prop :=
  ∀ dir leaf data, Near root dir → reserved leaf = true → fs.read (dir ++ [leaf]) = some data → linkText data = true →
    occupied fs dir leaf = true

/-- Nothing on the way to a path is kept for links. -/
def Clear (fs : Disk) (path : List (List UInt8)) : Prop :=
  ∀ dir leaf, dir ++ [leaf] <+: path.dropLast → fs.node (dir ++ [leaf]) = some .dir ∧ reserved leaf = false

section Calls
variable {beyond : Beyond} {fs fs' : Disk} {root dir path rest : List (List UInt8)} {leaf data : List UInt8} {i : Nat}

theorem symText_eq_true : symText fs path = some true ↔ ∃ data, fs.read path = some data ∧ linkText data = true := by
  unfold symText Fs.read
  split <;> simp_all

theorem occupied_mono (hpresent : ∀ p, fs.present p = true → fs'.present p = true) (h : occupied fs dir leaf = true) :
    occupied fs' dir leaf = true := by
  simp only [occupied, decide_eq_true_eq] at h ⊢
  exact ⟨h.1, h.2.imp_right (hpresent _)⟩

theorem symProbe_ne_true (leaf : List UInt8) (hidle : Idle root fs) (hdir : Near root dir) :
    symProbe fs dir leaf ≠ some true := by
  intro h
  unfold symProbe at h
  split at h
  · cases h
  · rename_i hnone
    obtain ⟨data, hread, hlink⟩ := symText_eq_true.1 h
    have hoccupied := hidle dir (symName leaf) data hdir
      (by simp [reserved, symName]) hread hlink
    have hdrop : (symName leaf).drop 5 = leaf := rfl
    simp only [occupied, hdrop, decide_eq_true_eq] at hoccupied
    exact hnone hoccupied.2.symm

theorem symResolve_ne_link (h : ∀ q leaf, q ++ [leaf] <+: dir ++ rest → symProbe fs q leaf ≠ some true) :
    symResolve fs dir rest ≠ .link := by
  induction rest generalizing dir with
  | nil =>
    intro hlink
    cases hlink
  | cons leaf rest ih =>
    rw [symResolve]
    split
    · refine ih ?_
      rwa [append_assoc, singleton_append]
    · rename_i hlink
      exact absurd hlink (h dir leaf ((prefix_append_right_inj dir).2 (by simp)))
    · intro hlink
      cases hlink

/-- There is nothing under the name of a link. -/
def Unlinked (fs : Disk) : Prop := ∀ dir leaf, fs.present (dir ++ [symName leaf]) = false

theorem Unlinked.ne_link (h : Unlinked fs) : symResolve fs [] path ≠ .link := by
  refine symResolve_ne_link fun dir leaf _ hprobe => ?_
  unfold symProbe at hprobe
  split at hprobe
  · cases hprobe
  · rw [symText, Fs.present_eq_false.1 (h dir leaf)] at hprobe
    cases hprobe

theorem Unlinked.made (h : Unlinked fs) (hmade : ∀ q, fs'.present q = true → fs.present q = true ∨ q <+: path)
    (hplain : ∀ part ∈ path, reserved part = false) : Unlinked fs' := by
  intro dir leaf
  by_contra hpresent
  rcases hmade _ (by simpa using hpresent) with hold | hpre
  · exact absurd hold (by simp [h dir leaf])
  · have hname := hplain _ (hpre.subset (mem_append_right dir mem_cons_self))
    simp [reserved, symName] at hname

theorem Idle.ne_link (hidle : Idle root fs) (hnear : Near root path) : symResolve fs [] path ≠ .link :=
  symResolve_ne_link fun _ leaf hpre => symProbe_ne_true leaf hidle (hnear.of_prefix ((prefix_append _ _).trans hpre))

/-- A call whose way leads over no link does what the host does, or fails. -/
theorem through_eq {α : Type} {host link error : α} (h : symResolve fs [] path ≠ .link) :
    through fs path host link error = host ∨ through fs path host link error = error := by
  unfold through
  split
  · exact .inl rfl
  · contradiction
  · exact .inr rfl

theorem symMkdir_eq (hidle : Idle root fs) (hnear : Near root path) (h : beyond.symMkdir fs path = some fs') :
    fs.mkdir path = some fs' := by
  unfold Beyond.symMkdir at h
  rcases through_eq (hidle.ne_link hnear) with heq | heq
  · rwa [heq] at h
  · cases heq.symm.trans h

theorem symCreate_eq (hidle : Idle root fs) (hnear : Near root path) (h : beyond.symCreate fs path = some (fs', i)) :
    fs.create path = some (fs', i) := by
  unfold Beyond.symCreate at h
  rcases through_eq (hidle.ne_link hnear) with heq | heq
  · rwa [heq] at h
  · cases heq.symm.trans h

theorem Idle.mono (hidle : Idle root fs) (hpresent : ∀ p, fs.present p = true → fs'.present p = true)
    (hread : ∀ p, fs'.read p = fs.read p) : Idle root fs' := by
  intro dir leaf data hdir hname hdata hlink
  rw [hread] at hdata
  exact occupied_mono hpresent (hidle dir leaf data hdir hname hdata hlink)

theorem Idle.keeps (hidle : Idle root fs) (h : Fs.Keeps fs fs') : Idle root fs' := hidle.mono h.present h.read

/-- A file is opened, and data written to it that is no link, or is one whose name is something else's. -/
theorem Idle.created (hidle : Idle root fs) (hfresh : fs.Fresh) (halone : fs.Alone path) (h : Fs.Created fs fs' path i)
    (hdata : ∀ dir leaf, dir ++ [leaf] = path → reserved leaf = true → linkText data = true → occupied fs dir leaf = true) :
    Idle root (fs'.append i data) := by
  intro dir leaf data' hdir hname hread hlink
  refine occupied_mono h.grows.present ?_
  by_cases hpath : dir ++ [leaf] = path
  · rw [hpath, Fs.read_append_self h.self, h.empty, nil_append, Option.some.injEq] at hread
    exact hdata dir leaf hpath hname (hread ▸ hlink)
  · rw [Fs.read_append_of_ne (h.ne hfresh halone hpath), h.read hfresh halone hpath] at hread
    exact hidle dir leaf data' hdir hname hread hlink

/-- Whatever was written to a file, it is unlinked, or it stays. -/
theorem symUnlink_created (beyond : Beyond) (data : List UInt8) (hidle : Idle root fs) (hnear : Near root path)
    (hfresh : fs.Fresh) (halone : fs.Alone path)
    (h : Fs.Created fs fs' path i) : beyond.symUnlink (fs'.append i data) path = (fs'.append i data).unlink path ∨
      beyond.symUnlink (fs'.append i data) path = fs'.append i data := by
  refine through_eq (symResolve_ne_link fun dir leaf hpre hprobe => ?_)
  unfold symProbe at hprobe
  split at hprobe
  · cases hprobe
  · rename_i hnone
    -- no file is the link of its own name
    have hpath : dir ++ [symName leaf] ≠ path := by
      rintro rfl
      have hleaf := hpre.eq_of_length (by simp)
      rw [nil_append, append_cancel_left_eq] at hleaf
      have hlength := congrArg length (cons.inj hleaf).1
      rw [symName, length_append] at hlength
      exact absurd hlength (Nat.ne_of_lt (Nat.lt_add_of_pos_left (Nat.zero_lt_succ 4)))
    obtain ⟨data', hread, hlink⟩ := symText_eq_true.1 hprobe
    rw [Fs.read_append_of_ne (h.ne hfresh halone hpath), h.read hfresh halone hpath] at hread
    refine symProbe_ne_true leaf hidle (hnear.of_prefix ((prefix_append _ _).trans hpre)) ?_
    rw [symProbe, if_neg fun hsome => hnone (hsome.imp_left (h.grows.present _)), symText_eq_true]
    exact ⟨data', hread, hlink⟩

theorem foldlM_symMkdir : ∀ {l : List (List (List UInt8))} {fs : Disk}, Idle root fs → (∀ p ∈ l, Near root p) →
    l.foldlM beyond.symMkdir fs = some fs' → l.foldlM Fs.mkdir fs = some fs'
  | [], _, _, _, h => h
  | p :: l, fs, hidle, hnear, h => by
    rw [foldlM_cons, bind_eq_bind, bind_eq_some_iff] at h ⊢
    obtain ⟨fs₁, hfirst, hrest⟩ := h
    have hmk := symMkdir_eq hidle (hnear p mem_cons_self) hfirst
    exact ⟨fs₁, hmk, foldlM_symMkdir (hidle.keeps (Fs.mkdir_keeps hmk)) (fun q hq => hnear q (mem_cons_of_mem p hq)) hrest⟩

theorem symMkdirs_eq (hidle : Idle root fs) (hnear : Near root path) (h : beyond.symMkdirs fs path = some fs') :
    fs.mkdirs path = some fs' :=
  foldlM_symMkdir hidle (fun p hp => hnear.of_prefix ((mem_inits p path).1 hp)) h

/-- What the walk went past was not hidden. -/
theorem symHidden_of_host (h : symResolve fs dir rest = .host) (hpre : path ++ [leaf] <+: rest) :
    symHidden fs (dir ++ path) leaf = some false := by
  induction rest generalizing dir path with
  | nil => exact absurd (prefix_nil.1 hpre) (by simp)
  | cons first rest ih =>
    rw [symResolve] at h
    split at h
    · rename_i hhidden _
      cases path with
      | nil =>
        obtain rfl : leaf = first := by simpa using hpre
        rwa [append_nil]
      | cons c path =>
        rw [cons_append, cons_prefix_cons] at hpre
        have := ih (hpre.1 ▸ h) hpre.2
        rwa [append_assoc, singleton_append] at this
    · cases h
    · cases h

/-- The directories on the way to a file that is opened are not kept for links. -/
theorem clear_of_create {r : Disk × Nat} (hidle : Idle root fs) (hnear : Near root path)
    (hdirs : ∀ q, q <+: path.dropLast → fs.node q = some .dir) (h : beyond.symCreate fs path = some r) : Clear fs path := by
  have hhost : symResolve fs [] path = .host := by
    unfold Beyond.symCreate through at h
    split at h
    · assumption
    · rename_i hlink
      exact absurd hlink (hidle.ne_link hnear)
    · cases h
  intro dir leaf hpre
  have hdir := hdirs _ hpre
  refine ⟨hdir, ?_⟩
  have hhidden := symHidden_of_host hhost (hpre.trans ( dropLast_prefix path))
  by_contra hname
  rw [nil_append, symHidden, if_pos (by simpa using hname), symText, hdir] at hhidden
  cases hhidden

theorem Clear.mono (h : Clear fs path) (hdirs : ∀ q, fs.node q = some .dir → fs'.node q = some .dir) : Clear fs' path :=
  fun dir leaf hpre => ⟨hdirs _ (h dir leaf hpre).1, (h dir leaf hpre).2⟩

/-- A file that nothing hides is opened on the host. -/
theorem symResolve_clear (hidle : Idle root fs) (hnear : Near root path) (hclear : Clear fs path)
    (hfile : fs.read path = some data) (hpath : dir ++ rest = path) : symResolve fs dir rest = .host := by
  induction rest generalizing dir with
  | nil => rfl
  | cons leaf rest ih =>
    have hpre : dir ++ [leaf] <+: path := ⟨rest, by rw [← hpath, append_assoc, singleton_append]⟩
    have hboth : symHidden fs dir leaf = some false ∧ fs.present (dir ++ [leaf]) = true := by
      cases rest with
      | nil =>
        subst hpath
        obtain ⟨i, hnode, rfl⟩ := Fs.read_eq_some.1 hfile
        refine ⟨?_, Fs.present_of_file hnode⟩
        unfold symHidden symText
        split
        · rename_i hname
          rw [hnode]
          by_cases hlink : linkText (fs.data i) = true
          · simp [hidle dir leaf _ (hnear.of_prefix (prefix_append _ _)) hname hfile hlink]
          · simp [Bool.eq_false_iff.2 hlink]
        · rfl
      | cons next rest =>
        have hdrop : dir ++ [leaf] <+: path.dropLast := by
          rw [← hpath, dropLast_append_of_ne_nil (cons_ne_nil _ _), dropLast_cons_cons]
          exact (prefix_append_right_inj dir).2 (by simp)
        obtain ⟨hnode, hname⟩ := hclear dir leaf hdrop
        exact ⟨by rw [symHidden, hname, if_neg Bool.false_ne_true], Fs.present_iff.2 ⟨_, hnode⟩⟩
    have hprobe : symProbe fs dir leaf = some false := by
      rw [symProbe, if_pos (.inl hboth.2)]
    rw [symResolve, hboth.1, hprobe]
    exact ih (by rw [append_assoc, singleton_append, hpath])

theorem symRead_clear (hidle : Idle root fs) (hnear : Near root path) (hclear : Clear fs path)
    (hfile : fs.read path = some data) : beyond.symRead fs path = some data := by
  rw [Beyond.symRead, through, symResolve_clear hidle hnear hclear hfile rfl, hfile]

theorem symAccess_clear (hidle : Idle root fs) (hnear : Near root path) (hclear : Clear fs path)
    (hfile : fs.read path = some data) : beyond.symAccess fs path = true := by
  obtain ⟨i, hnode, -⟩ := Fs.read_eq_some.1 hfile
  rw [Beyond.symAccess, through, symResolve_clear hidle hnear hclear hfile rfl]
  exact Fs.present_of_file hnode

end Calls

end Lunaria.Apk
