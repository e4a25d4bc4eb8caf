import Lunaria.Apk.Links

/-! `zip_extract`, and when the files it leaves are the entries that `zip_find` finds. -/

namespace Lunaria.Apk
open Files List Option

/-- `path_join`. -/
def pathJoin (first second : List UInt8) : Option (List UInt8) :=
  let path := first ++ (if first ≠ [] ∧ first.getLast? ≠ some (ch '/') then [ch '/'] else []) ++ second
  if path.length < apkPath then some path else none

/-- Where a path leads. Slashes at its ends, and two together, make no difference. -/
def parts (path : List UInt8) : List (List UInt8) := (path.splitOn (ch '/')).filter fun p => p ≠ []

/-- `mkdirs`. The directories made before one that cannot be made are left out. -/
def mkdirs (beyond : Beyond) (fs : Disk) (path : List UInt8) : Option Disk :=
  if path.length < apkPath then beyond.symMkdirs fs (parts path) else none

def isDirName (name : List UInt8) : Bool := name.getLast? = some (ch '/')

/-- The file type of a symbolic link. -/
def isSymlink (e : Entry) : Bool := (e.attrs >>> 16) &&& 0o170000 = 0o120000

section Extract
variable (beyond : Beyond) (zlib : Inflate) (fuel : Nat) (cancelled : Nat → Bool) (z : Zip) (root : List UInt8)
  (overwrite : Bool)

/-- What the loop of `zip_extract` does for one entry: whether it goes on, the disk, and how often the launcher was
    asked. -/
def extractEntry (e : Entry) (fs : Disk) (polls : Nat) : Bool × Disk × Nat :=
  if ¬ entrySafe e.name ∨ isSymlink e then (false, fs, polls)
  else
    match pathJoin root e.name with
    | none => (false, fs, polls)
    | some path =>
      if isDirName e.name then
        match mkdirs beyond fs path with
        | none => (false, fs, polls)
        | some fs => (true, fs, polls)
      else if overwrite = false ∧ beyond.symAccess fs (parts path) then (true, fs, polls)
      else
        match beyond.symMkdirs fs (parts path).dropLast with
        | none => (false, fs, polls)
        | some fs =>
          match beyond.symCreate fs (parts path) with
          | none => (false, fs, polls)
          | some (fs, i) =>
            match zipRead zlib e fuel cancelled z none polls with
            | (none, polls) => (false, beyond.symUnlink (fs.append i (beyond.written e)) (parts path), polls)
            | (some data, polls) => (true, fs.append i data, polls)

def extractLoop : List Entry → Disk → Nat → Bool × Disk × Nat
  | [], fs, polls => (true, fs, polls)
  | e :: entries, fs, polls =>
    if cancelled polls then (false, fs, polls + 1)
    else
      match extractEntry beyond zlib fuel cancelled z root overwrite e fs (polls + 1) with
      | (true, fs, polls) => extractLoop entries fs polls
      | (false, fs, polls) => (false, fs, polls)

/-- The sum of the sizes, unless it does not fit. -/
def totalSize : List Entry → Nat → Option Nat
  | [], total => some total
  | e :: entries, total => if uint64Max - total < e.size then none else totalSize entries (total + e.size)

/-- `zip_extract`: whether it returns 0, the disk, and how often the launcher was asked. -/
def zipExtract (fs : Disk) (polls : Nat) : Bool × Disk × Nat :=
  match mkdirs beyond fs root with
  | none => (false, fs, polls)
  | some fs =>
    match totalSize z.entries 0 with
    | none => (false, fs, polls)
    | some _ => extractLoop beyond zlib fuel cancelled z root overwrite z.entries fs polls

end Extract

/-! ### Names and paths -/

section Paths
variable {name name' root path path' : List UInt8}

theorem getLast?_splitOn (x : UInt8) : ∀ {name : List UInt8}, name ≠ [] → name.getLast? ≠ some x →
    (name.splitOn x).getLast? ≠ some []
  | [c], _, hlast => by
    have hc : c ≠ x := by simpa using hlast
    simp [splitOn_cons_eq_if_modifyHead, hc]
  | c :: d :: name, _, hlast => by
    have ih := @getLast?_splitOn x (d :: name) (cons_ne_nil _ _) (by simpa using hlast)
    rw [splitOn_cons_eq_if_modifyHead]
    have hne := splitOn_ne_nil x (d :: name)
    match hs : (d :: name).splitOn x with
    | [] => exact absurd hs hne
    | [h] =>
      rw [hs] at ih
      split
      · simpa using ih
      · simp
    | h :: t :: rest =>
      rw [hs] at ih
      split <;> simpa using ih

theorem partsSafe_ne_nil : ∀ {l : List (List UInt8)}, partsSafe l = true → l.getLast? ≠ some [] → ∀ p ∈ l, p ≠ []
  | [], _, _ => by simp
  | [p], _, hlast => by simpa using hlast
  | p :: q :: rest, hsafe, hlast => by
    have hsafe : partSafe p = true ∧ partsSafe (q :: rest) = true := by simpa [partsSafe] using hsafe
    have hp : p ≠ [] := by
      have := hsafe.1
      simp only [partSafe, decide_eq_true_eq] at this
      exact this.1
    have ih := partsSafe_ne_nil hsafe.2 (by simpa using hlast)
    intro r hr
    rcases mem_cons.1 hr with rfl | hr
    · exact hp
    · exact ih r hr

theorem intercalate_parts (hsafe : entrySafe name = true) (hfile : isDirName name = false) :
    [ch '/'].intercalate (parts name) = name := by
  simp only [entrySafe, decide_eq_true_eq] at hsafe
  have hlast : name.getLast? ≠ some (ch '/') := by simpa [isDirName] using hfile
  have hne := partsSafe_ne_nil hsafe.2.2.2.2 (getLast?_splitOn _ hsafe.1 hlast)
  have hparts : parts name = name.splitOn (ch '/') := filter_eq_self.2 fun p hp => by simpa using hne p hp
  rw [hparts, intercalate_splitOn]

theorem parts_ne_nil (hsafe : entrySafe name = true) (hfile : isDirName name = false) : parts name ≠ [] := by
  intro hnil
  have hname := intercalate_parts hsafe hfile
  rw [hnil] at hname
  simp only [entrySafe, decide_eq_true_eq] at hsafe
  exact hsafe.1 hname.symm

theorem parts_append_slash (a b : List UInt8) : parts (a ++ ch '/' :: b) = parts a ++ parts b := by
  unfold parts
  rw [splitOn_append_cons_self, filter_append]

theorem parts_nil : parts [] = [] := rfl

theorem parts_pathJoin (h : pathJoin root name = some path) : parts path = parts root ++ parts name := by
  rw [pathJoin, ite_none_right_eq_some] at h
  cases h.2
  split
  · rw [append_assoc]
    exact parts_append_slash root name
  · rename_i hslash
    rw [append_nil]
    by_cases hnil : root = []
    · rw [hnil, parts_nil]
      rfl
    · -- the root has its slash already
      have hlast : root.getLast? = some (ch '/') := by simpa [hnil] using hslash
      obtain ⟨dir, rfl⟩ := getLast?_eq_some_iff.1 hlast
      rw [append_assoc, singleton_append, parts_append_slash, parts_append_slash, parts_nil, append_nil]

/-- Different files of an archive have different paths. -/
theorem parts_pathJoin_inj (h : pathJoin root name = some path) (h' : pathJoin root name' = some path')
    (hsafe : entrySafe name = true) (hsafe' : entrySafe name' = true) (hfile : isDirName name = false)
    (hfile' : isDirName name' = false) (heq : parts path = parts path') : name = name' := by
  rw [parts_pathJoin h, parts_pathJoin h', append_cancel_left_eq] at heq
  rw [← intercalate_parts hsafe hfile, ← intercalate_parts hsafe' hfile', heq]

end Paths

/-! ### What an entry delivers -/

section Delivers
variable {zlib : Inflate} {fuel : Nat} {cancelled : Nat → Bool} {z : Zip} {e : Entry} {polls : Nat} {data : List UInt8}

def findLast (entries : List Entry) (name : List UInt8) : Option Entry := zipFind entries.reverse name

/-- The data of an entry: what `zip_read` delivers when nothing cancels it. -/
def content (zlib : Inflate) (fuel : Nat) (z : Zip) (e : Entry) : Option (List UInt8) :=
  (zipRead zlib e fuel (fun _ => false) z none 0).1

/-- The file of an entry is a link, by its name and its data. -/
def LaysLink (zlib : Inflate) (fuel : Nat) (z : Zip) (e : Entry) (dir : List (List UInt8)) (leaf : List UInt8) : Prop :=
  isDirName e.name = false ∧ parts e.name = dir ++ [leaf] ∧ reserved leaf = true ∧
    ∃ data, content zlib fuel z e = some data ∧ linkText data = true

/-- Entries that lie at the path that is the name of a link, or under it. -/
def Named (entries : List Entry) (dir : List (List UInt8)) (leaf : List UInt8) : Prop :=
  bytes ".sym." <+: leaf ∧ (ownless (leaf.drop 5) = true ∨ ∃ d ∈ entries, dir ++ [leaf.drop 5] <+: parts d.name)

/-- Wherever the file of an entry is a link, its name is that of something else before it. -/
def LinksNamed (zlib : Inflate) (fuel : Nat) (z : Zip) (done entries : List Entry) : Prop :=
  ∀ before e after, entries = before ++ e :: after → ∀ dir leaf, LaysLink zlib fuel z e dir leaf →
    Named (done ++ before) dir leaf

theorem readLoop_cancelled {σ : Type} {next : Nat → List UInt8 → Reading σ → Option (Reading σ)} {r' : Reading σ} :
    ∀ {l : List (List UInt8)} {polls polls' : Nat} {r : Reading σ}, (readLoop e cancelled next l polls r).1 = some r' →
      (readLoop e (fun _ => false) next l polls' r).1 = some r'
  | [], _, _, _, h => h
  | input :: rest, polls, polls', r, h => by
    rw [readLoop] at h ⊢
    rw [if_neg Bool.false_ne_true]
    by_cases hcancel : cancelled polls = true
    · rw [if_pos hcancel] at h
      cases h
    · rw [if_neg hcancel] at h
      split at h
      · cases h
      · split at h
        · rename_i hended
          rw [if_pos hended]
          exact h
        · rename_i hended
          rw [if_neg hended]
          exact readLoop_cancelled h

theorem finish_eq_some {σ : Type} {p : Option (Reading σ) × Nat} :
    (finish e p).1 = some data ↔ ∃ r, p.1 = some r ∧ complete e r = true ∧ r.data = data := by
  obtain ⟨r, n⟩ := p
  cases r with
  | none => simp [finish]
  | some r =>
    by_cases hc : complete e r = true <;> simp [finish, hc]

theorem readData_cancelled {input : List UInt8} {polls' : Nat}
    (h : (readData zlib e fuel cancelled input polls).1 = some data) :
    (readData zlib e fuel (fun _ => false) input polls').1 = some data := by
  unfold readData at h ⊢
  by_cases hmethod : e.method = 8
  · rw [if_pos hmethod] at h ⊢
    split at h
    · cases h
    · obtain ⟨r, hr, hrest⟩ := finish_eq_some.1 h
      exact finish_eq_some.2 ⟨r, readLoop_cancelled hr, hrest⟩
  · rw [if_neg hmethod] at h ⊢
    obtain ⟨r, hr, hrest⟩ := finish_eq_some.1 h
    exact finish_eq_some.2 ⟨r, readLoop_cancelled hr, hrest⟩

/-- Whatever call of `zip_read` delivers data, the others deliver it unless they are cancelled. -/
theorem zipRead_uncancelled {capacity : Option Nat} (h : (zipRead zlib e fuel cancelled z capacity polls).1 = some data)
    (polls' : Nat) : (zipRead zlib e fuel (fun _ => false) z none polls').1 = some data := by
  unfold zipRead at h ⊢
  by_cases hkind : e.flags % 2 = 1 ∨ ¬ (e.method = 0 ∨ e.method = 8)
  · rw [if_pos hkind] at h
    cases h
  · rw [if_neg hkind] at h ⊢
    split at h
    · cases h
    · split at h
      · cases h
      · rw [any_none, if_neg Bool.false_ne_true]
        split at h
        · cases h
        · exact readData_cancelled h

/-- A memory that is not too small gets the same data. -/
theorem zipRead_capacity {capacity : Option Nat} (h : capacity.any (· < e.size) = false) :
    zipRead zlib e fuel cancelled z capacity polls = zipRead zlib e fuel cancelled z none polls := by
  simp only [zipRead, h, any_none]

end Delivers

/-! ### The loop -/

section Loop
variable {beyond : Beyond} {zlib : Inflate} {fuel : Nat} {cancelled : Nat → Bool} {z : Zip} {root path data : List UInt8}
  {fs fs' : Disk} {polls polls' i : Nat} {e : Entry} {entries done : List Entry} {overwrite : Bool}

/-- No file under the root has a path elsewhere. -/
structure Own (root : List UInt8) (fs : Disk) : Prop where
  fresh : fs.Fresh
  alone : ∀ p, parts root <+: p → fs.Alone p

theorem Own.keeps (hown : Own root fs) (h : Fs.Keeps fs fs') : Own root fs' :=
  ⟨h.fresh hown.fresh, fun p hp => h.alone (hown.alone p hp)⟩

theorem prefix_dropLast_or_eq {α : Type} {l p : List α} (h : l <+: p) : l <+: p.dropLast ∨ l = p := by
  obtain rfl | ⟨dir, leaf, rfl⟩ := eq_nil_or_concat' p
  · exact .inr (prefix_nil.1 h)
  · rw [dropLast_concat]
    exact (prefix_concat_iff.1 h).symm

theorem near_pathJoin {name : List UInt8} (h : pathJoin root name = some path) : Near (parts root) (parts path) := by
  rw [parts_pathJoin h]
  exact .inr (prefix_append _ _)

theorem mkdirs_eq (hidle : Idle (parts root) fs) (hnear : Near (parts root) (parts path))
    (h : mkdirs beyond fs path = some fs') : fs.mkdirs (parts path) = some fs' := by
  rw [mkdirs, ite_none_right_eq_some] at h
  exact symMkdirs_eq hidle hnear h.2

/-- The disk while an archive is extracted: the entries that are done are there. -/
structure Settled (root : List UInt8) (done : List Entry) (fs : Disk) : Prop where
  own : Own root fs
  idle : Idle (parts root) fs
  laid : ∀ d ∈ done, ∀ q, q <+: parts d.name → fs.present (parts root ++ q) = true

theorem Settled.occupied {dir : List (List UInt8)} {leaf : List UInt8} (h : Settled root done fs)
    (hnamed : Named done dir leaf) : occupied fs (parts root ++ dir) leaf = true := by
  simp only [Apk.occupied, decide_eq_true_eq]
  refine ⟨hnamed.1, hnamed.2.imp_right ?_⟩
  rintro ⟨d, hd, hpre⟩
  rw [append_assoc]
  exact h.laid d hd _ hpre

theorem Settled.step (h : Settled root done fs) (hown : Own root fs') (hidle : Idle (parts root) fs')
    (hgrows : Fs.Grows fs fs')
    (hnew : ∀ q, q <+: parts e.name → fs'.present (parts root ++ q) = true) : Settled root (done ++ [e]) fs' := by
  refine ⟨hown, hidle, fun d hd q hq => ?_⟩
  rcases mem_append.1 hd with hd | hd
  · exact hgrows.present _ (h.laid d hd q hq)
  · rw [mem_singleton.1 hd] at hq
    exact hnew q hq

/-- The file of an entry is no link, or its name is something else's. -/
theorem idle_entry (hown : Own root fs) (hidle : Idle (parts root) fs) (hpath : pathJoin root e.name = some path)
    (hsafe : entrySafe e.name = true) (hfile : isDirName e.name = false)
    (hlinks : ∀ dir leaf, LaysLink zlib fuel z e dir leaf → occupied fs (parts root ++ dir) leaf = true)
    (hcontent : content zlib fuel z e = some data) (hcreated : Fs.Created fs fs' (parts path) i) :
    Idle (parts root) (fs'.append i data) := by
  have halone := hown.alone (parts path) (by rw [parts_pathJoin hpath]; exact prefix_append _ _)
  refine hidle.created hown.fresh halone hcreated fun dir leaf hdir hname hlink => ?_
  obtain hnil | ⟨edir, last, hlast⟩ := eq_nil_or_concat' (parts e.name)
  · exact absurd hnil (parts_ne_nil hsafe hfile)
  · rw [parts_pathJoin hpath, hlast, ← append_assoc] at hdir
    obtain ⟨rfl, hleaf⟩ := append_inj' hdir rfl
    obtain rfl := (cons.inj hleaf).1
    exact hlinks edir leaf ⟨hfile, hlast, hname, data, hcontent, hlink⟩

theorem extractEntry_spec (hs : Settled root done fs)
    (hlinks : ∀ dir leaf, LaysLink zlib fuel z e dir leaf → Named done dir leaf)
    (h : extractEntry beyond zlib fuel cancelled z root true e fs polls = (true, fs', polls')) :
    Settled root (done ++ [e]) fs' ∧ Fs.Grows fs fs' ∧ (isDirName e.name = true → ∀ p, fs'.read p = fs.read p) ∧
      (isDirName e.name = false → entrySafe e.name = true ∧ ∃ path data, pathJoin root e.name = some path ∧
        content zlib fuel z e = some data ∧ Clear fs' (parts path) ∧ fs'.read (parts path) = some data ∧
          ∀ p, p ≠ parts path → fs'.read p = fs.read p) := by
  have hown := hs.own
  have hidle := hs.idle
  unfold extractEntry at h
  split at h
  · cases h
  rename_i hsafe
  have hsafe : entrySafe e.name = true := by
    by_contra hnot
    exact hsafe (.inl hnot)
  split at h
  · cases h
  rename_i path hpath
  have hnear := near_pathJoin hpath
  split at h
  · rename_i hdir
    split at h
    · cases h
    · rename_i fs₁ hmk
      cases h
      have hmk := mkdirs_eq hidle hnear hmk
      have hkeeps := Fs.mkdirs_keeps hmk
      refine ⟨hs.step (hown.keeps hkeeps) (hidle.keeps hkeeps) hkeeps.grows fun q hq => ?_, hkeeps.grows,
        fun _ p => hkeeps.read p, fun hfile => absurd (hfile.symm.trans hdir) Bool.false_ne_true⟩
      rw [Fs.present, Fs.mkdirs_dir hmk (by rw [parts_pathJoin hpath]; exact (prefix_append_right_inj _).2 hq)]
      rfl
  · rename_i hdir
    have hfile : isDirName e.name = false := by simpa using hdir
    split at h
    · rename_i hover
      cases hover.1
    split at h
    · cases h
    rename_i fs₁ hmk
    split at h
    · cases h
    rename_i fs₂ i hcreate
    split at h
    · cases h
    rename_i data n hread
    cases h
    have hmk := symMkdirs_eq hidle (hnear.of_prefix ( dropLast_prefix _)) hmk
    have hkeeps := Fs.mkdirs_keeps hmk
    have hown₁ := hown.keeps hkeeps
    have hidle₁ := hidle.keeps hkeeps
    have hcreated := Fs.create_created (symCreate_eq hidle₁ hnear hcreate)
    have halone := hown₁.alone (parts path) (by rw [parts_pathJoin hpath]; exact prefix_append _ _)
    have hcontent : content zlib fuel z e = some data := zipRead_uncancelled (by rw [hread]) 0
    have hself : (fs₂.append i data).node (parts path) = some (.file i) := hcreated.self
    have hgrows : Fs.Grows fs (fs₂.append i data) := hkeeps.grows.trans ⟨hcreated.grows.dir, hcreated.grows.present⟩
    have hdirs : ∀ q, q <+: (parts path).dropLast → fs₁.node q = some .dir := fun q hq => Fs.mkdirs_dir hmk hq
    refine ⟨hs.step ⟨hcreated.fresh hown₁.fresh, fun p hp => hcreated.alone hown₁.fresh halone (hown₁.alone p hp)⟩
      (idle_entry hown₁ hidle₁ hpath hsafe hfile (fun dir leaf hl => ?_) hcontent hcreated) hgrows fun q hq => ?_, hgrows,
      fun hd => absurd hd hdir, fun _ => ⟨hsafe, path, data, hpath, hcontent, ?_, ?_, ?_⟩⟩
    · exact occupied_mono hkeeps.present (hs.occupied (hlinks dir leaf hl))
    · have hpre : parts root ++ q <+: parts path := by
        rw [parts_pathJoin hpath]
        exact (prefix_append_right_inj _).2 hq
      rcases prefix_dropLast_or_eq hpre with hdrop | heq
      · exact Fs.present_iff.2 ⟨_, hcreated.grows.dir _ (hdirs _ hdrop)⟩
      · rw [heq]
        exact Fs.present_of_file hself
    · exact (clear_of_create hidle₁ hnear hdirs hcreate).mono hcreated.grows.dir
    · rw [Fs.read_append_self hcreated.self, hcreated.empty, nil_append]
    · intro p hp
      rw [Fs.read_append_of_ne (hcreated.ne hown₁.fresh halone hp), hcreated.read hown₁.fresh halone hp, hkeeps.read]

theorem findLast_cons (e : Entry) (entries : List Entry) (name : List UInt8) :
    findLast (e :: entries) name = (findLast entries name).or (if e.name = name then some e else none) := by
  unfold findLast zipFind
  rw [reverse_cons, find?_append]
  by_cases h : e.name = name <;> simp [h]

theorem extractLoop_spec : ∀ {entries done : List Entry} {fs : Disk} {polls : Nat}, Settled root done fs →
    LinksNamed zlib fuel z done entries →
    extractLoop beyond zlib fuel cancelled z root true entries fs polls = (true, fs', polls') →
    Settled root (done ++ entries) fs' ∧ Fs.Grows fs fs' ∧
    (∀ e ∈ entries, isDirName e.name = false → entrySafe e.name = true ∧ (content zlib fuel z e).isSome = true ∧
      ∃ path, pathJoin root e.name = some path ∧ Clear fs' (parts path)) ∧
    ∀ name path, entrySafe name = true → isDirName name = false → pathJoin root name = some path →
      fs'.read (parts path) = match findLast entries name with
        | some e => content zlib fuel z e
        | none => fs.read (parts path)
  | [], done, fs, polls, hs, _, h => by
    cases h
    exact ⟨by rwa [append_nil], .refl _, by simp, fun _ _ _ _ _ => rfl⟩
  | e :: entries, done, fs, polls, hs, hlinks, h => by
    rw [extractLoop] at h
    split at h
    · cases h
    split at h
    · rename_i fs₁ n hentry
      have hfirst : ∀ dir leaf, LaysLink zlib fuel z e dir leaf → Named done dir leaf := by
        intro dir leaf hl
        have := hlinks [] e entries rfl dir leaf hl
        rwa [append_nil] at this
      obtain ⟨hs₁, hgrows, hdir, hfile⟩ := extractEntry_spec hs hfirst hentry
      have hrest : LinksNamed zlib fuel z (done ++ [e]) entries := by
        intro before d after heq dir leaf hl
        have := hlinks (e :: before) d after (by rw [heq, cons_append]) dir leaf hl
        rwa [append_assoc, singleton_append]
      obtain ⟨hs', hgrows', hall, hlast⟩ := extractLoop_spec hs₁ hrest h
      refine ⟨by rwa [append_assoc, singleton_append] at hs', hgrows.trans hgrows', ?_, ?_⟩
      · intro d hd hname
        rcases mem_cons.1 hd with rfl | hd
        · obtain ⟨hsafe, path, data, hpath, hcontent, hclear, -⟩ := hfile hname
          exact ⟨hsafe, by rw [hcontent]; rfl, path, hpath, hclear.mono hgrows'.dir⟩
        · exact hall d hd hname
      · intro name path hsafe hname hpath
        rw [hlast name path hsafe hname hpath, findLast_cons]
        cases findLast entries name with
        | some d => rfl
        | none =>
          rw [none_or]
          by_cases hsame : e.name = name
          · rw [if_pos hsame]
            obtain ⟨-, path', data, hpath', hcontent, -, hread, -⟩ := hfile (hsame ▸ hname)
            rw [hsame, hpath, Option.some.injEq] at hpath'
            rw [hpath']
            exact hread.trans hcontent.symm
          · rw [if_neg hsame]
            cases hd : isDirName e.name with
            | true => exact hdir hd _
            | false =>
              obtain ⟨hsafe', path', data, hpath', -, -, -, hother⟩ := hfile hd
              refine hother _ fun heq => hsame ?_
              exact (parts_pathJoin_inj hpath hpath' hsafe hsafe' hname hd heq).symm
    · cases h

/-- What an extraction leaves as it is: what is outside the root is read as before, and what is new is on the way to the
    root or under it. -/
structure Outside (root : List UInt8) (fs fs' : Disk) : Prop where
  own : Own root fs'
  read : ∀ q, ¬parts root <+: q → fs'.read q = fs.read q
  made : ∀ q, fs'.present q = true → fs.present q = true ∨ q <+: parts root ∨ parts root <+: q

theorem Outside.refl (hown : Own root fs) : Outside root fs fs := ⟨hown, fun _ _ => rfl, fun _ => .inl⟩

theorem Outside.trans {fs₁ : Disk} (h : Outside root fs fs₁) (h' : Outside root fs₁ fs') : Outside root fs fs' :=
  ⟨h'.own, fun q hq => (h'.read q hq).trans (h.read q hq), fun q hq => (h'.made q hq).elim (h.made q) .inr⟩

theorem Outside.mkdirs {p : List (List UInt8)} (hown : Own root fs) (h : fs.mkdirs p = some fs')
    (hp : ∀ q, q <+: p → q <+: parts root ∨ parts root <+: q) : Outside root fs fs' :=
  ⟨hown.keeps (Fs.mkdirs_keeps h), fun q _ => (Fs.mkdirs_keeps h).read q,
    fun q hq => (Fs.mkdirs_made h hq).imp_right (hp q)⟩

theorem extractEntry_outside (hown : Own root fs) (hidle : Idle (parts root) fs)
    (hlinks : ∀ dir leaf, ¬LaysLink zlib fuel z e dir leaf) {r : Bool × Disk × Nat}
    (hr : extractEntry beyond zlib fuel cancelled z root overwrite e fs polls = r) :
    Outside root fs r.2.1 ∧ (r.1 = true → Idle (parts root) r.2.1) := by
  unfold extractEntry at hr
  split at hr
  · exact hr ▸ ⟨.refl hown, fun _ => hidle⟩
  rename_i hsafe
  have hsafe : entrySafe e.name = true := by
    by_contra hnot
    exact hsafe (.inl hnot)
  split at hr
  · exact hr ▸ ⟨.refl hown, fun _ => hidle⟩
  rename_i path hpath
  have hjoin := near_pathJoin hpath
  have hunder : parts root <+: parts path := by
    rw [parts_pathJoin hpath]
    exact prefix_append _ _
  have hnear : ∀ q, q <+: parts path → q <+: parts root ∨ parts root <+: q :=
    fun q hq => prefix_or_prefix_of_prefix hq hunder
  split at hr
  · split at hr
    · exact hr ▸ ⟨.refl hown, fun _ => hidle⟩
    · rename_i fs₁ hmk
      have hmk := mkdirs_eq hidle hjoin hmk
      exact hr ▸ ⟨.mkdirs hown hmk hnear, fun _ => hidle.keeps (Fs.mkdirs_keeps hmk)⟩
  rename_i hdir
  have hname : isDirName e.name = false := by simpa using hdir
  split at hr
  · exact hr ▸ ⟨.refl hown, fun _ => hidle⟩
  split at hr
  · exact hr ▸ ⟨.refl hown, fun _ => hidle⟩
  rename_i fs₁ hmk
  have hmk := symMkdirs_eq hidle (hjoin.of_prefix ( dropLast_prefix _)) hmk
  have hdirs : Outside root fs fs₁ := .mkdirs hown hmk fun q hq => hnear q (hq.trans ( dropLast_prefix _))
  have hidle₁ := hidle.keeps (Fs.mkdirs_keeps hmk)
  split at hr
  · exact hr ▸ ⟨hdirs, fun _ => hidle₁⟩
  rename_i fs₂ i hcreate
  have hcreate := symCreate_eq hidle₁ hjoin hcreate
  have hfresh := hdirs.own.fresh
  have halone := hdirs.own.alone _ hunder
  have hcreated := Fs.create_created hcreate
  have hne : ∀ {q}, ¬parts root <+: q → q ≠ parts path := fun hq heq => hq (heq ▸ hunder)
  have hwritten : ∀ data, Outside root fs (fs₂.append i data) := fun data => hdirs.trans
    ⟨⟨hcreated.fresh hfresh, fun q hq => hcreated.alone hfresh halone (hdirs.own.alone q hq)⟩,
      fun q hq => (Fs.read_append_of_ne (hcreated.ne hfresh halone (hne hq))).trans (hcreated.read hfresh halone (hne hq)),
      fun q hq => ((Fs.create_opened hcreate).made q hq).imp_right (hnear q)⟩
  split at hr
  · -- what was written is unlinked, or it stays
    rw [← hr]
    refine ⟨?_, fun h => absurd h Bool.false_ne_true⟩
    dsimp only
    rcases symUnlink_created beyond (beyond.written e) hidle₁ hjoin hfresh halone hcreated with heq | heq
    · rw [heq]
      have hfile := hwritten (beyond.written e)
      refine hfile.trans ⟨⟨Fs.unlink_fresh hfile.own.fresh, fun q hq r j hqj hrj => ?_⟩,
        fun q hq => Fs.unlink_read (hne hq), fun q hq => ?_⟩
      · exact hfile.own.alone q hq r j (Fs.unlink_file hqj) (Fs.unlink_file hrj)
      · by_cases heq : q = parts path
        · exact .inr (.inr (heq ▸ hunder))
        · exact .inl (by rwa [Fs.present, Fs.unlink_node heq] at hq)
    · rw [heq]
      exact hwritten _
  · rename_i data n hread
    have hcontent : content zlib fuel z e = some data := zipRead_uncancelled (by rw [hread]) 0
    exact hr ▸ ⟨hwritten data, fun _ => idle_entry hdirs.own hidle₁ hpath hsafe hname
      (fun dir leaf hl => absurd hl (hlinks dir leaf)) hcontent hcreated⟩

theorem extractLoop_outside (hown : Own root fs) (hidle : Idle (parts root) fs)
    (hlinks : ∀ e ∈ entries, ∀ dir leaf, ¬LaysLink zlib fuel z e dir leaf) :
    Outside root fs (extractLoop beyond zlib fuel cancelled z root overwrite entries fs polls).2.1 := by
  induction entries generalizing fs polls with
  | nil => exact .refl hown
  | cons e entries ih =>
    rw [extractLoop]
    split
    · exact .refl hown
    · split
      all_goals
        rename_i hentry
        obtain ⟨houtside, hidle'⟩ := extractEntry_outside hown hidle (hlinks e mem_cons_self) hentry
      · exact houtside.trans (ih houtside.own (hidle' rfl) fun d hd => hlinks d (mem_cons_of_mem e hd))
      · exact houtside

/-- Whatever the archive, if no file of it is a link, and whether the extraction succeeds, fails or is cancelled, no file
    outside the root changes, and nothing is made but on the way to it and under it. -/
theorem extract_outside (hown : Own root fs) (hidle : Idle (parts root) fs)
    (hlinks : ∀ e ∈ z.entries, ∀ dir leaf, ¬LaysLink zlib fuel z e dir leaf) :
    Outside root fs (zipExtract beyond zlib fuel cancelled z root overwrite fs polls).2.1 := by
  unfold zipExtract
  split
  · exact .refl hown
  · rename_i fs₁ hmk
    have hmk := mkdirs_eq hidle (.inl prefix_rfl) hmk
    have hdirs := Outside.mkdirs hown hmk fun _ => .inl
    split
    · exact hdirs
    · exact hdirs.trans (extractLoop_outside hdirs.own (hidle.keeps (Fs.mkdirs_keeps hmk)) hlinks)

/-- The files agree with the lookups: under each name that is found, `zip_read` delivers to a file and to every memory
    that is not too small the data that is on the disk. -/
def Agrees (beyond : Beyond) (zlib : Inflate) (fuel : Nat) (z : Zip) (root : List UInt8) (fs : Disk) : Prop :=
  ∀ name e, zipFind z.entries name = some e → isDirName name = false →
    ∃ path data, pathJoin root name = some path ∧ beyond.symRead fs (parts path) = some data ∧
      ∀ capacity, capacity.any (· < e.size) = false → ∀ polls,
        (zipRead zlib e fuel (fun _ => false) z capacity polls).1 = some data

theorem zipFind_mem {name : List UInt8} (h : zipFind entries name = some e) : e ∈ entries ∧ e.name = name := by
  refine ⟨mem_of_find?_eq_some h, ?_⟩
  simpa using find?_some h

theorem zipRead_of_content {data : List UInt8} {capacity : Option Nat} (h : content zlib fuel z e = some data)
    (hcap : capacity.any (· < e.size) = false) (polls : Nat) :
    (zipRead zlib e fuel (fun _ => false) z capacity polls).1 = some data := by
  rw [zipRead_capacity hcap]
  exact zipRead_uncancelled h polls

theorem findLast_isSome {name : List UInt8} (h : zipFind entries name = some e) :
    ∃ last, findLast entries name = some last := by
  obtain ⟨hmem, hname⟩ := zipFind_mem h
  refine isSome_iff_exists.1 ?_
  rw [findLast, zipFind, find?_isSome]
  exact ⟨e, mem_reverse.2 hmem, by simpa using hname⟩

/-- An archive that is extracted to an empty directory, and whose links have names that are something else's, agrees with
    the lookups exactly when the first and the last entry of each file name have the same data. -/
theorem extract_agrees_iff {file : List UInt8} {origin size : Nat} (hfresh : fs.Fresh)
    (hempty : ∀ p, parts root <+: p → p ≠ parts root → fs.node p = none)
    (hroot : ∀ i, fs.node (parts root) ≠ some (.file i))
    (hidle : Idle (parts root) fs) (hlinks : LinksNamed zlib fuel z [] z.entries)
    (hextract : zipExtract beyond zlib fuel cancelled z root true fs polls = (true, fs', polls')) :
    zipOpenRange file origin size = some z → (Agrees beyond zlib fuel z root fs' ↔
      ∀ name first last, zipFind z.entries name = some first → findLast z.entries name = some last →
        isDirName name = false → content zlib fuel z first = content zlib fuel z last) := by
  intro _
  have hown : Own root fs := by
    refine ⟨hfresh, fun p hp q i hpi _ => ?_⟩
    by_cases heq : p = parts root
    · exact absurd (heq ▸ hpi) (hroot i)
    · cases (hempty p hp heq).symm.trans hpi
  unfold zipExtract at hextract
  split at hextract
  · cases hextract
  rename_i fs₁ hmk
  split at hextract
  · cases hextract
  have hkeeps := Fs.mkdirs_keeps (mkdirs_eq hidle (.inl prefix_rfl) hmk)
  have hsettled : Settled root [] fs₁ := ⟨hown.keeps hkeeps, hidle.keeps hkeeps, by simp⟩
  obtain ⟨hs, -, hall, hlast⟩ := extractLoop_spec hsettled hlinks hextract
  -- every entry was extracted, and under its name is the last one
  have hread : ∀ name first last, zipFind z.entries name = some first → findLast z.entries name = some last →
      isDirName name = false → ∃ path, pathJoin root name = some path ∧
        beyond.symRead fs' (parts path) = content zlib fuel z last := by
    intro name first last hfirst hl hfile
    obtain ⟨hmem, rfl⟩ := zipFind_mem hfirst
    obtain ⟨hsafe, -, path, hpath, hclear⟩ := hall first hmem hfile
    obtain ⟨hmem', hname⟩ := zipFind_mem hl
    obtain ⟨data, hdata⟩ := isSome_iff_exists.1 (hall last (mem_reverse.1 hmem') (hname ▸ hfile)).2.1
    have hdisk := hlast _ path hsafe hfile hpath
    rw [hl] at hdisk
    refine ⟨path, hpath, ?_⟩
    rw [hdata]
    exact symRead_clear hs.idle (near_pathJoin hpath) hclear (hdisk.trans hdata)
  constructor
  · intro hagrees name first last hfirst hl hfile
    obtain ⟨path, data, hpath, hdisk, hdata⟩ := hagrees name first hfirst hfile
    obtain ⟨path', hpath', hdisk'⟩ := hread name first last hfirst hl hfile
    cases hpath.symm.trans hpath'
    exact (hdata none rfl 0).trans (hdisk.symm.trans hdisk')
  · intro hsame name first hfirst hfile
    obtain ⟨last, hl⟩ := findLast_isSome hfirst
    obtain ⟨path, hpath, hdisk⟩ := hread name first last hfirst hl hfile
    obtain ⟨hmem, rfl⟩ := zipFind_mem hfirst
    obtain ⟨data, hdata⟩ := isSome_iff_exists.1 (hall first hmem hfile).2.1
    refine ⟨path, data, hpath, ?_, fun capacity hcap polls => zipRead_of_content hdata hcap polls⟩
    rw [hdisk, ← hsame _ first last hfirst hl hfile, hdata]

end Loop

/-! ### Archives with and without a repeated name -/

/-- The bytes of a number, the least first. -/
def number (width n : Nat) : List UInt8 := (List.range width).map fun i => UInt8.ofNat (n / 256 ^ i)

/-- A stored entry of one byte under the name `a`, as the archive holds it. -/
def localEntry (b : UInt8) : List UInt8 :=
  number 4 0x04034b50 ++ number 2 20 ++ number 8 0 ++ number 4 (crc32 0 [b]).toNat ++ number 4 1 ++ number 4 1 ++
    number 2 1 ++ number 2 0 ++ [ch 'a'] ++ [b]

/-- Its header in the central directory. -/
def centralEntry (b : UInt8) (offset : Nat) : List UInt8 :=
  number 4 0x02014b50 ++ number 2 20 ++ number 2 20 ++ number 8 0 ++ number 4 (crc32 0 [b]).toNat ++ number 4 1 ++
    number 4 1 ++ number 2 1 ++ number 2 0 ++ number 2 0 ++ number 2 0 ++ number 2 0 ++ number 4 0 ++ number 4 offset ++
    [ch 'a']

def endRecord (count size offset : Nat) : List UInt8 :=
  number 4 0x06054b50 ++ number 4 0 ++ number 2 count ++ number 2 count ++ number 4 size ++ number 4 offset ++ number 2 0

def single : List UInt8 := localEntry 1 ++ centralEntry 1 0 ++ endRecord 1 47 32

/-- Two entries with one name and different data. -/
def doubled : List UInt8 :=
  localEntry 1 ++ localEntry 2 ++ centralEntry 1 0 ++ centralEntry 2 32 ++ endRecord 2 94 64

/-- What the index says of such an entry. -/
def storedEntry (b : UInt8) (offset : Nat) : Entry := ⟨[ch 'a'], offset, 1, 1, (crc32 0 [b]).toNat, 0, 0, 0⟩

def singleZip : Zip := ⟨single, 0, 101, [storedEntry 1 0]⟩

def doubledZip : Zip := ⟨doubled, 0, 180, [storedEntry 1 0, storedEntry 2 32]⟩

/-- Stored entries need no decoder. -/
def noInflate : Inflate := ⟨Unit, none, fun _ input => (.other, [], input, ())⟩

/-- No entry of these archives is a link, so that nothing is asked of this. -/
def noBeyond : Beyond :=
  ⟨fun _ _ => none, fun _ _ => false, fun _ _ => none, fun _ _ => none, fun fs _ => fs, fun _ => []⟩

/-- The disk that an archive leaves in the directory `/r`. -/
def extracted (z : Zip) : Bool × Disk × Nat :=
  zipExtract noBeyond noInflate 1 (fun _ => false) z [ch '/', ch 'r'] true Fs.empty 0

theorem empty_fresh : (Fs.empty : Disk).Fresh := by
  intro p i h
  unfold Fs.empty at h
  cases p <;> cases h

theorem empty_idle {root : List (List UInt8)} : Idle root Fs.empty := by
  intro dir leaf data _ _ hread
  obtain ⟨i, hnode, -⟩ := Fs.read_eq_some.1 hread
  exact absurd (empty_fresh _ i hnode) (Nat.not_lt_zero i)

theorem not_laysLink {z : Zip} {e : Entry} {dir : List (List UInt8)} {leaf : List UInt8}
    (h : ∀ part ∈ parts e.name, reserved part = false) : ¬LaysLink noInflate 1 z e dir leaf := by
  rintro ⟨-, hparts, hname, -⟩
  exact absurd (h leaf (hparts ▸ mem_append_right dir mem_cons_self)) (ne_false_of_eq_true hname)

theorem extract_outside_doubled : Outside [ch '/', ch 'r'] Fs.empty (extracted doubledZip).2.1 := by
  unfold extracted
  have hparts : ∀ e ∈ doubledZip.entries, ∀ part ∈ parts e.name, reserved part = false := by decide
  exact extract_outside ⟨empty_fresh, fun p _ _ i hp _ => absurd (empty_fresh p i hp) (Nat.not_lt_zero i)⟩ empty_idle
    fun e he _ _ => not_laysLink (hparts e he)

theorem extract_single : zipOpen single = some singleZip ∧ (extracted singleZip).1 = true ∧
    (Agrees noBeyond noInflate 1 singleZip [ch '/', ch 'r'] (extracted singleZip).2.1 ↔
      ∀ name first last, zipFind singleZip.entries name = some first → findLast singleZip.entries name = some last →
        isDirName name = false → content noInflate 1 singleZip first = content noInflate 1 singleZip last) := by
  have hopen : zipOpen single = some singleZip := by decide +kernel
  have hdone : (extracted singleZip).1 = true := by decide +kernel
  refine ⟨hopen, hdone, extract_agrees_iff empty_fresh ?_ ?_ empty_idle ?_ (Prod.ext hdone rfl) hopen⟩
  · rintro p ⟨rest, rfl⟩ hne
    rfl
  · intro i hfile
    have hnone : (Fs.empty : Disk).node (parts [ch '/', ch 'r']) = none := by decide
    cases hnone.symm.trans hfile
  · intro before e after heq dir leaf hlays
    have he : e ∈ singleZip.entries := by
      rw [heq]
      exact mem_append_right _ mem_cons_self
    have hparts : ∀ d ∈ singleZip.entries, ∀ part ∈ parts d.name, reserved part = false := by decide
    exact absurd hlays (not_laysLink (hparts e he))

/-- The archive with a repeated name is accepted and extracted, the lookup finds the first entry, and the disk has the
    second. -/
theorem extract_doubled : zipOpen doubled = some doubledZip ∧ (extracted doubledZip).1 = true ∧
    ¬ Agrees noBeyond noInflate 1 doubledZip [ch '/', ch 'r'] (extracted doubledZip).2.1 := by
  refine ⟨by decide +kernel, by decide +kernel, fun hagrees => ?_⟩
  obtain ⟨path, data, hpath, hdisk, hdata⟩ := hagrees [ch 'a'] (storedEntry 1 0) (by decide +kernel) (by decide)
  have hpath' : pathJoin [ch '/', ch 'r'] [ch 'a'] = some [ch '/', ch 'r', ch '/', ch 'a'] := by decide
  cases hpath.symm.trans hpath'
  have hfirst : (zipRead noInflate (storedEntry 1 0) 1 (fun _ => false) doubledZip none 0).1 = some [1] := by decide +kernel
  have hsecond : noBeyond.symRead (extracted doubledZip).2.1 (parts [ch '/', ch 'r', ch '/', ch 'a']) = some [2] := by
    decide +kernel
  cases (hdata none rfl 0).symm.trans hfirst
  cases hdisk.symm.trans hsecond

end Lunaria.Apk
