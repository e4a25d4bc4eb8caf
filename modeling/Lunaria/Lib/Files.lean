import Mathlib.Data.List.Infix

/-! A file system of directories and files with hard links: a path leads to a directory or to the number of a file, and
    the data is kept by number. Paths are lists of components. -/

namespace Lunaria.Files
open List Option Function

inductive Node
  | dir
  | file (inode : Nat)
  deriving DecidableEq

structure Fs (α β : Type) where
  node : List α → Option Node
  data : Nat → List β
  /-- The number of the next new file. -/
  next : Nat

namespace Fs
variable {α β : Type}

/-- No file has a number that is still to be given. -/
def Fresh (fs : Fs α β) : Prop := ∀ p i, fs.node p = some (.file i) → i < fs.next

/-- The file at a path, if there is one, has no other path. -/
def Alone (fs : Fs α β) (p : List α) : Prop := ∀ q i, fs.node p = some (.file i) → fs.node q = some (.file i) → q = p

def read (fs : Fs α β) (p : List α) : Option (List β) :=
  match fs.node p with
  | some (.file i) => some (fs.data i)
  | _ => none

/-- There is something at the path. -/
def present (fs : Fs α β) (p : List α) : Bool := (fs.node p).isSome

/-- Only the top directory. -/
def empty : Fs α β := ⟨fun p => if p.isEmpty then some .dir else none, fun _ => [], 0⟩

/-- Write at the end of an open file. -/
def append (fs : Fs α β) (i : Nat) (chunk : List β) : Fs α β :=
  { fs with data := update fs.data i (fs.data i ++ chunk) }

section Views
variable {fs fs' : Fs α β} {p q : List α} {i j : Nat} {chunk : List β}

/-- Making directories changes no file. -/
structure Keeps (fs fs' : Fs α β) : Prop where
  file : ∀ p i, fs'.node p = some (.file i) ↔ fs.node p = some (.file i)
  present : ∀ p, fs.present p = true → fs'.present p = true
  data : fs'.data = fs.data
  next : fs'.next = fs.next

theorem Keeps.refl (fs : Fs α β) : Keeps fs fs := ⟨fun _ _ => Iff.rfl, fun _ => id, rfl, rfl⟩

theorem Keeps.trans {fs'' : Fs α β} (h : Keeps fs fs') (h' : Keeps fs' fs'') : Keeps fs fs'' :=
  ⟨fun p i => (h'.file p i).trans (h.file p i), fun p hp => h'.present p (h.present p hp), h'.data.trans h.data,
    h'.next.trans h.next⟩

/-- What is there stays, and directories stay directories. -/
structure Grows (fs fs' : Fs α β) : Prop where
  dir : ∀ q, fs.node q = some .dir → fs'.node q = some .dir
  present : ∀ q, fs.present q = true → fs'.present q = true

theorem Grows.refl (fs : Fs α β) : Grows fs fs := ⟨fun _ => id, fun _ => id⟩

theorem Grows.trans {fs'' : Fs α β} (h : Grows fs fs') (h' : Grows fs' fs'') : Grows fs fs'' :=
  ⟨fun q hq => h'.dir q (h.dir q hq), fun q hq => h'.present q (h.present q hq)⟩

theorem Keeps.grows (h : Keeps fs fs') : Grows fs fs' := by
  refine ⟨fun q hq => ?_, h.present⟩
  obtain ⟨n, hn⟩ := isSome_iff_exists.1 (h.present q (by rw [Fs.present, hq]; rfl))
  cases n with
  | dir => exact hn
  | file i => cases hq.symm.trans ((h.file q i).1 hn)

theorem Keeps.fresh (h : Keeps fs fs') (hfresh : fs.Fresh) : fs'.Fresh := by
  intro p i hp
  rw [h.next]
  exact hfresh p i ((h.file p i).1 hp)

theorem Keeps.alone (h : Keeps fs fs') (halone : fs.Alone p) : fs'.Alone p := by
  intro q i hp hq
  exact halone q i ((h.file p i).1 hp) ((h.file q i).1 hq)

theorem read_eq_some {d : List β} : fs.read p = some d ↔ ∃ i, fs.node p = some (.file i) ∧ fs.data i = d := by
  unfold read
  split
  · rename_i i hi
    simp [hi]
  · rename_i hnot
    simp only [reduceCtorEq, false_iff, not_exists, not_and]
    intro i hi
    exact absurd hi (hnot i)

theorem Keeps.read (h : Keeps fs fs') (p : List α) : fs'.read p = fs.read p := by
  refine ext fun d => ?_
  rw [read_eq_some, read_eq_some, h.data]
  simp only [h.file]

/-- What `create` leaves of the rest. -/
structure Created (fs fs' : Fs α β) (p : List α) (i : Nat) : Prop where
  self : fs'.node p = some (.file i)
  empty : fs'.data i = []
  node : ∀ q, q ≠ p → fs'.node q = fs.node q
  data : ∀ j, j ≠ i → fs'.data j = fs.data j
  old : fs.node p = some (.file i) ∧ fs'.next = fs.next ∨ fs.node p = none ∧ i = fs.next ∧ fs'.next = fs.next + 1

theorem Created.grows (h : Created fs fs' p i) : Grows fs fs' := by
  have hne : ∀ q, fs.node q = some .dir → q ≠ p := by
    rintro q hq rfl
    rcases h.old with ⟨hold, -⟩ | ⟨hold, -⟩ <;> cases hq.symm.trans hold
  refine ⟨fun q hq => (h.node q (hne q hq)).trans hq, fun q hq => ?_⟩
  by_cases hqp : q = p
  · rw [hqp, Fs.present, h.self]
    rfl
  · rwa [Fs.present, h.node q hqp]

section
variable (h : Created fs fs' p i)
include h

theorem Created.fresh (hfresh : fs.Fresh) : fs'.Fresh := by
  intro q j hq
  by_cases hqp : q = p
  · subst hqp
    obtain rfl : i = j := by simpa using h.self.symm.trans hq
    rcases h.old with ⟨hold, hnext⟩ | ⟨-, rfl, hnext⟩
    · rw [hnext]
      exact hfresh q i hold
    · rw [hnext]
      exact Nat.lt_succ_self _
  · rw [h.node q hqp] at hq
    rcases h.old with ⟨-, hnext⟩ | ⟨-, -, hnext⟩
    · rw [hnext]
      exact hfresh q j hq
    · rw [hnext]
      exact Nat.lt_succ_of_lt (hfresh q j hq)

theorem Created.ne (hfresh : fs.Fresh) (halone : fs.Alone p) (hq : q ≠ p) :
    fs'.node q ≠ some (.file i) := by
  intro hqi
  rw [h.node q hq] at hqi
  rcases h.old with ⟨hold, -⟩ | ⟨-, rfl, -⟩
  · exact hq (halone q i hold hqi)
  · exact absurd (hfresh q _ hqi) (Nat.lt_irrefl _)

theorem Created.inode (hp : fs'.node p = some (.file j)) : j = i := by
  simpa using hp.symm.trans h.self

theorem Created.alone (hfresh : fs.Fresh) (halone : fs.Alone p) (hq : fs.Alone q) : fs'.Alone q := by
  intro r j hqj hrj
  by_cases hqp : q = p
  · subst hqp
    obtain rfl := h.inode hqj
    by_contra hne
    exact h.ne hfresh halone hne hrj
  · by_cases hrp : r = p
    · subst hrp
      obtain rfl := h.inode hrj
      exact absurd hqj (h.ne hfresh halone hqp)
    · rw [h.node q hqp] at hqj
      rw [h.node r hrp] at hrj
      exact hq r j hqj hrj

theorem Created.read (hfresh : fs.Fresh) (halone : fs.Alone p) (hq : q ≠ p) :
    fs'.read q = fs.read q := by
  have hne := h.ne hfresh halone hq
  refine ext fun d => ?_
  rw [read_eq_some, read_eq_some]
  refine exists_congr fun j => ?_
  rw [h.node q hq] at hne ⊢
  refine and_congr_right fun hj => ?_
  rw [h.data j (fun heq => hne (heq ▸ hj))]

end

theorem data_append_self : (fs.append i chunk).data i = fs.data i ++ chunk := update_self ..

theorem data_append_of_ne (h : j ≠ i) : (fs.append i chunk).data j = fs.data j := update_of_ne h ..

theorem read_append_of_ne (h : fs.node q ≠ some (.file i)) : (fs.append i chunk).read q = fs.read q := by
  refine ext fun d => ?_
  rw [read_eq_some, read_eq_some]
  refine exists_congr fun j => and_congr_right fun hj => ?_
  rw [data_append_of_ne (by rintro rfl; exact h hj)]

theorem read_append_self (h : fs.node p = some (.file i)) : (fs.append i chunk).read p = some (fs.data i ++ chunk) :=
  read_eq_some.2 ⟨i, h, data_append_self⟩

/-- A file is opened for writing, after the directories on its way were made. -/
structure Opened (fs fs' : Fs α β) (p : List α) (i : Nat) : Prop where
  self : fs'.node p = some (.file i)
  file : ∀ q j, q ≠ p → (fs'.node q = some (.file j) ↔ fs.node q = some (.file j))
  present : ∀ q, fs.present q = true → fs'.present q = true
  made : ∀ q, fs'.present q = true → fs.present q = true ∨ q <+: p
  empty : fs'.data i = []
  data : ∀ j, j ≠ i → fs'.data j = fs.data j
  old : fs.node p = some (.file i) ∨ fs.node p = none ∧ i = fs.next
  fresh : fs.Fresh → fs'.Fresh

theorem present_iff : fs.present p = true ↔ ∃ n, fs.node p = some n := isSome_iff_exists

theorem present_eq_false : fs.present p = false ↔ fs.node p = none := isSome_eq_false_iff.trans isNone_iff_eq_none

theorem present_of_file (h : fs.node p = some (.file i)) : fs.present p = true := present_iff.2 ⟨_, h⟩

theorem Opened.read (h : Opened fs fs' p i) (hfresh : fs.Fresh) (hq : q ≠ p)
    (hapart : fs.node p = some (.file i) → fs.node q ≠ some (.file i)) : fs'.read q = fs.read q := by
  have hne : fs.node q ≠ some (.file i) := by
    rcases h.old with hold | ⟨-, rfl⟩
    · exact hapart hold
    · exact fun hfile => absurd (hfresh q _ hfile) (Nat.lt_irrefl _)
  refine ext fun d => ?_
  rw [read_eq_some, read_eq_some]
  refine exists_congr fun j => ?_
  rw [h.file q j hq]
  refine and_congr_right fun hj => ?_
  rw [h.data j (by rintro rfl; exact hne hj)]

end Views

variable [DecidableEq α]

/-- Make one directory, unless it is there. -/
def mkdir (fs : Fs α β) (p : List α) : Option (Fs α β) :=
  match fs.node p with
  | some .dir => some fs
  | some (.file _) => none
  | none => some { fs with node := update fs.node p (some .dir) }

/-- Make a directory and those above it. -/
def mkdirs (fs : Fs α β) (p : List α) : Option (Fs α β) := p.inits.foldlM mkdir fs

/-- Open a file to write it from its start: the file is made, or its data dropped. The number is what is written to. -/
def create (fs : Fs α β) (p : List α) : Option (Fs α β × Nat) :=
  match fs.node p with
  | some .dir => none
  | some (.file i) => some ({ fs with data := update fs.data i [] }, i)
  | none =>
    if fs.node p.dropLast = some .dir then
      some (⟨update fs.node p (some (.file fs.next)), update fs.data fs.next [], fs.next + 1⟩, fs.next)
    else none

/-- Remove the path of a file. -/
def unlink (fs : Fs α β) (p : List α) : Fs α β :=
  match fs.node p with
  | some (.file _) => { fs with node := update fs.node p none }
  | _ => fs

section Operations
variable {fs fs' : Fs α β} {p q : List α} {i : Nat}

theorem mkdir_keeps (h : fs.mkdir p = some fs') : Keeps fs fs' := by
  unfold mkdir at h
  split at h
  · cases h
    exact .refl fs
  · cases h
  · rename_i hnone
    cases h
    refine ⟨fun q i => ?_, fun q hq => ?_, rfl, rfl⟩
    · by_cases hqp : q = p
      · subst hqp
        simp [hnone]
      · simp [update_of_ne hqp]
    · by_cases hqp : q = p
      · subst hqp
        simp [present]
      · simpa [present, update_of_ne hqp] using hq

theorem mkdir_made (h : fs.mkdir p = some fs') (hq : fs'.present q = true) : fs.present q = true ∨ q = p := by
  unfold mkdir at h
  split at h
  · cases h
    exact .inl hq
  · cases h
  · cases h
    by_cases hqp : q = p
    · exact .inr hqp
    · exact .inl (by simpa [present, update_of_ne hqp] using hq)

theorem foldlM_mkdir : ∀ {l : List (List α)} {fs : Fs α β}, l.foldlM mkdir fs = some fs' →
    Keeps fs fs' ∧ ∀ q, fs'.present q = true → fs.present q = true ∨ q ∈ l
  | [], fs, h => by
    obtain rfl := some.inj h
    exact ⟨.refl fs, fun _ => .inl⟩
  | p :: l, fs, h => by
    rw [foldlM_cons, bind_eq_bind, bind_eq_some_iff] at h
    obtain ⟨fs₁, hfirst, hrest⟩ := h
    obtain ⟨hkeeps, hmade⟩ := foldlM_mkdir hrest
    refine ⟨(mkdir_keeps hfirst).trans hkeeps, fun q hq => ?_⟩
    rcases hmade q hq with hq | hq
    · rcases mkdir_made hfirst hq with hq | rfl
      · exact .inl hq
      · exact .inr mem_cons_self
    · exact .inr (mem_cons_of_mem p hq)

theorem mkdirs_keeps (h : fs.mkdirs p = some fs') : Keeps fs fs' := (foldlM_mkdir h).1

theorem mkdirs_made (h : fs.mkdirs p = some fs') (hq : fs'.present q = true) : fs.present q = true ∨ q <+: p :=
  ((foldlM_mkdir h).2 q hq).imp_right (mem_inits q p).1

theorem foldlM_mkdir_dir : ∀ {l : List (List α)} {fs : Fs α β}, l.foldlM mkdir fs = some fs' →
    ∀ q ∈ l, fs'.node q = some .dir
  | p :: l, fs, h, q, hq => by
    rw [foldlM_cons, bind_eq_bind, bind_eq_some_iff] at h
    obtain ⟨fs₁, hfirst, hrest⟩ := h
    rcases mem_cons.1 hq with rfl | hq
    · refine (foldlM_mkdir hrest).1.grows.dir q ?_
      unfold mkdir at hfirst
      split at hfirst
      · cases hfirst
        assumption
      · cases hfirst
      · cases hfirst
        exact update_self ..
    · exact foldlM_mkdir_dir hrest q hq

theorem mkdirs_dir (h : fs.mkdirs p = some fs') (hq : q <+: p) : fs'.node q = some .dir :=
  foldlM_mkdir_dir h q ((mem_inits q p).2 hq)

theorem create_created (h : fs.create p = some (fs', i)) : Created fs fs' p i := by
  unfold create at h
  split at h
  · cases h
  · rename_i j hj
    cases h
    exact ⟨hj, update_self .., fun _ _ => rfl, fun _ hne => update_of_ne hne .., .inl ⟨hj, rfl⟩⟩
  · rename_i hnone
    split at h
    · cases h
      exact ⟨update_self .., update_self .., fun _ hne => update_of_ne hne ..,
        fun _ hne => update_of_ne hne .., .inr ⟨hnone, rfl, rfl⟩⟩
    · cases h

theorem create_opened (h : fs.create p = some (fs', i)) : Opened fs fs' p i := by
  have hc := create_created h
  refine ⟨hc.self, fun q j hq => by rw [hc.node q hq], fun q hq => ?_, fun q hq => ?_, hc.empty, hc.data,
    hc.old.imp And.left fun h => ⟨h.1, h.2.1⟩, hc.fresh⟩
  · by_cases hqp : q = p
    · exact present_of_file (hqp ▸ hc.self)
    · rwa [Fs.present, hc.node q hqp]
  · by_cases hqp : q = p
    · exact .inr (hqp ▸ prefix_rfl)
    · rw [Fs.present, hc.node q hqp] at hq
      exact .inl hq

theorem mkdirs_create_opened {fs₁ : Fs α β} (hmk : fs.mkdirs p.dropLast = some fs₁) (h : fs₁.create p = some (fs', i)) :
    Opened fs fs' p i := by
  have hk := mkdirs_keeps hmk
  have ho := create_opened h
  refine ⟨ho.self, fun q j hq => (ho.file q j hq).trans (hk.file q j), fun q hq => ho.present q (hk.present q hq),
    fun q hq => ?_, ho.empty, fun j hj => by rw [ho.data j hj, hk.data], ?_, fun hf => ho.fresh (hk.fresh hf)⟩
  · rcases ho.made q hq with hq | hq
    · exact (mkdirs_made hmk hq).imp_right fun hpre => hpre.trans ( dropLast_prefix p)
    · exact .inr hq
  · rcases ho.old with hold | ⟨hold, hnext⟩
    · exact .inl ((hk.file p i).1 hold)
    · refine .inr ⟨?_, hnext.trans hk.next⟩
      by_contra hne
      have := hk.present p (present_iff.2 (ne_none_iff_exists'.1 hne))
      rw [present_iff] at this
      obtain ⟨n, hn⟩ := this
      cases hold.symm.trans hn

theorem unlink_self (h : fs.node p = some (.file i)) : (fs.unlink p).node p = none := by
  simp [unlink, h]

theorem unlink_node (hq : q ≠ p) : (fs.unlink p).node q = fs.node q := by
  unfold unlink
  split
  · exact update_of_ne hq ..
  · rfl

theorem unlink_data : (fs.unlink p).data = fs.data := by
  unfold unlink
  split <;> rfl

theorem unlink_next : (fs.unlink p).next = fs.next := by
  unfold unlink
  split <;> rfl

theorem unlink_file (h : (fs.unlink p).node q = some (.file i)) : fs.node q = some (.file i) := by
  by_cases hq : q = p
  · subst hq
    unfold unlink at h
    split at h
    · simp at h
    · exact h
  · rwa [unlink_node hq] at h

theorem unlink_present (h : (fs.unlink p).present q = true) : fs.present q = true := by
  by_cases hq : q = p
  · subst hq
    unfold unlink at h
    split at h
    · simp [present] at h
    · exact h
  · rwa [present, unlink_node hq] at h

theorem unlink_read (hq : q ≠ p) : (fs.unlink p).read q = fs.read q := by
  unfold read
  rw [unlink_node hq, unlink_data]

theorem unlink_fresh (h : fs.Fresh) : (fs.unlink p).Fresh := by
  intro q i hq
  rw [unlink_next]
  exact h q i (unlink_file hq)

end Operations

end Fs

end Lunaria.Files
