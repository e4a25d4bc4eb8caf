import Lunaria.Apk.Extract

/-! What a bounded view of a file lets through: an archive in a range of a file, and the bytes around it. -/

namespace Lunaria.Apk
open List Option

/-- The archive is read from a range of a file with these bytes. -/
structure Shows (z : Zip) (view : List UInt8) : Prop where
  size : z.size = view.length
  room : z.origin + z.size ≤ z.file.length
  bytes : (z.file.drop z.origin).take z.size = view

section
variable {z z' : Zip} {view : List UInt8} {off n cdEnd count pos : Nat}

theorem fread_view (h : Shows z view) (hin : off + n ≤ view.length) :
    z.fread off n = if 2 ^ 63 ≤ z.origin + off then none else some ((view.drop off).take n) := by
  have hroom := h.room
  have hsize := h.size
  unfold Zip.fread
  by_cases hbig : 2 ^ 63 ≤ z.origin + off
  · rw [if_pos hbig, if_pos (.inr (.inr hbig))]
  · have hlimit : ¬ (z.size < off ∨ uint64Max < z.origin + off ∨ 2 ^ 63 ≤ z.origin + off) := by
      unfold uint64Max
      omega
    rw [if_neg hbig, if_neg hlimit, if_pos (by omega), ← h.bytes, drop_take, take_take, drop_drop,
      Nat.min_eq_left (by omega)]

/-- Two archives in two files, with the same bytes in places that can be reached. -/
structure SameView (z z' : Zip) (view : List UInt8) : Prop where
  reach : ∀ off ≤ view.length, 2 ^ 63 ≤ z.origin + off ↔ 2 ^ 63 ≤ z'.origin + off
  left : Shows z view
  right : Shows z' view

theorem SameView.of_origin (h : z'.origin = z.origin) (hleft : Shows z view) (hright : Shows z' view) :
    SameView z z' view :=
  ⟨fun _ _ => by rw [h], hleft, hright⟩

theorem SameView.fread (h : SameView z z' view) (hin : off + n ≤ view.length) : z.fread off n = z'.fread off n := by
  rw [fread_view h.left hin, fread_view h.right hin]
  exact if_congr (h.reach off (by omega)) rfl rfl

theorem SameView.size (h : SameView z z' view) : z'.size = z.size := h.right.size.trans h.left.size.symm

/-! ### The directory -/

theorem entryAt_view (h : SameView z z' view) (hcd : cdEnd ≤ view.length) : entryAt z cdEnd pos = entryAt z' cdEnd pos := by
  unfold entryAt
  simp only [bind_eq_bind, bind_none, h.size]
  by_cases hpos : cdEnd < pos ∨ cdEnd - pos < 46
  · rw [if_pos hpos, if_pos hpos]
  rw [if_neg hpos, if_neg hpos, h.fread (by omega)]
  refine Option.bind_congr fun header _ => ?_
  by_cases hsign : le32 header 0 ≠ 0x02014b50
  · rw [if_pos hsign, if_pos hsign]
  rw [if_neg hsign, if_neg hsign]
  by_cases hlen : le16 header 28 = 0 ∨ apkPath ≤ le16 header 28 ∨
      cdEnd - pos < 46 + le16 header 28 + le16 header 30 + le16 header 32
  · rw [if_pos hlen, if_pos hlen]
  rw [if_neg hlen, if_neg hlen, h.fread (by omega), h.fread (by omega)]

theorem entriesLoop_view (h : SameView z z' view) (hcd : cdEnd ≤ view.length) :
    ∀ count pos, entriesLoop z cdEnd count pos = entriesLoop z' cdEnd count pos
  | 0, _ => rfl
  | count + 1, pos => by
    rw [entriesLoop, entriesLoop, entryAt_view h hcd]
    refine Option.bind_congr fun p _ => ?_
    obtain ⟨e, pos⟩ := p
    dsimp only
    rw [entriesLoop_view h hcd count pos]

/-- What `zip_index` makes of the numbers of the directory. -/
def directory (z : Zip) (n : Nat × Nat × Nat) : Option (List Entry) :=
  if 1000000 < n.1 ∨ z.size < n.2.1 ∨ z.size - n.2.1 < n.2.2 then none else entriesLoop z (n.2.1 + n.2.2) n.1 n.2.1

theorem directory_view (h : SameView z z' view) (n : Nat × Nat × Nat) : directory z n = directory z' n := by
  unfold directory
  rw [h.size]
  by_cases hbad : 1000000 < n.1 ∨ z.size < n.2.1 ∨ z.size - n.2.1 < n.2.2
  · rw [if_pos hbad, if_pos hbad]
  · have hsize := h.left.size
    rw [if_neg hbad, if_neg hbad, entriesLoop_view h (by omega)]

/-! ### The end records -/

/-- The last bytes of the view, and where the end record is in them. -/
def endOf (z : Zip) : Option (List UInt8 × Nat) := do
  if z.size < 22 then none
  let buf ← z.fread (z.size - min z.size 65557) (min z.size 65557)
  let endAt ← findEnd buf (min z.size 65557 - 22)
  if le16 buf (endAt + 4) ≠ 0 ∨ le16 buf (endAt + 6) ≠ 0 then none
  return (buf, endAt)

theorem endOf_view (h : SameView z z' view) : endOf z = endOf z' := by
  unfold endOf
  simp only [bind_eq_bind, bind_none, h.size]
  by_cases hsmall : z.size < 22
  · rw [if_pos hsmall, if_pos hsmall]
  · have hsize := h.left.size
    rw [if_neg hsmall, if_neg hsmall, h.fread (by omega)]

/-- The numbers of the end record, unless it asks for those of a ZIP64 record. -/
def plain (buf : List UInt8) (endAt : Nat) : Option (Nat × Nat × Nat) :=
  if le16 buf (endAt + 10) = 65535 ∨ le32 buf (endAt + 16) = uint32Max ∨ le32 buf (endAt + 12) = uint32Max then none
  else some (le16 buf (endAt + 10), le32 buf (endAt + 16), le32 buf (endAt + 12))

/-- Where the locator before the end record says that the ZIP64 record is. -/
def locator (z : Zip) (eocd : Nat) : Option Nat := do
  if eocd < 20 then none
  let loc ← z.fread (eocd - 20) 20
  if le32 loc 0 ≠ 0x07064b50 ∨ le32 loc 4 ≠ 0 ∨ le32 loc 16 ≠ 1 then none
  return le64 loc 8

/-- The numbers of a ZIP64 record. -/
def zip64Record (record : List UInt8) : Option (Nat × Nat × Nat) :=
  if le32 record 0 ≠ 0x06064b50 ∨ le32 record 16 ≠ 0 ∨ le32 record 20 ≠ 0 then none
  else some (le64 record 32, le64 record 48, le64 record 40)

theorem zip64End_eq (z : Zip) (eocd : Nat) :
    zip64End z eocd = (locator z eocd).bind fun r => (z.fread r 56).bind zip64Record := by
  unfold zip64End locator
  simp only [bind_eq_bind, bind_none]
  by_cases hnear : eocd < 20
  · rw [if_pos hnear, if_pos hnear, bind_none]
  rw [if_neg hnear, if_neg hnear, bind_assoc]
  refine Option.bind_congr fun loc _ => ?_
  by_cases hbad : le32 loc 0 ≠ 0x07064b50 ∨ le32 loc 4 ≠ 0 ∨ le32 loc 16 ≠ 1
  · rw [if_pos hbad, if_pos hbad, bind_none]
  · rw [if_neg hbad, if_neg hbad, Option.pure_def, Option.pure_def, bind_some]
    refine Option.bind_congr fun record _ => ?_
    rw [zip64Record]

/-- The numbers that the index goes by. -/
def numbers (z : Zip) (p : List UInt8 × Nat) : Option (Nat × Nat × Nat) :=
  match plain p.1 p.2 with
  | some n => some n
  | none => zip64End z (z.size - min z.size 65557 + p.2)

theorem directory_entries (n : Nat × Nat × Nat) :
    (if 1000000 < n.1 ∨ z.size < n.2.1 ∨ z.size - n.2.1 < n.2.2 then none
      else (entriesLoop z (n.2.1 + n.2.2) n.1 n.2.1).bind fun entries => some { z with entries := entries }) =
    (directory z n).map fun entries => { z with entries := entries } := by
  unfold directory
  by_cases hbad : 1000000 < n.1 ∨ z.size < n.2.1 ∨ z.size - n.2.1 < n.2.2
  · rw [if_pos hbad, if_pos hbad, map_none]
  · rw [if_neg hbad, if_neg hbad]
    cases entriesLoop z (n.2.1 + n.2.2) n.1 n.2.1 <;> rfl

theorem zipIndex_eq (z : Zip) :
    zipIndex z = (((endOf z).bind (numbers z)).bind (directory z)).map fun entries => { z with entries := entries } := by
  unfold zipIndex endOf numbers plain
  simp only [bind_eq_bind, bind_none]
  by_cases hsmall : z.size < 22
  · rw [if_pos hsmall, if_pos hsmall]
    rfl
  rw [if_neg hsmall, if_neg hsmall]
  cases z.fread (z.size - min z.size 65557) (min z.size 65557) with
  | none => rfl
  | some buf =>
    simp only [bind_some]
    cases findEnd buf (min z.size 65557 - 22) with
    | none => rfl
    | some endAt =>
      simp only [bind_some]
      by_cases hdisk : le16 buf (endAt + 4) ≠ 0 ∨ le16 buf (endAt + 6) ≠ 0
      · rw [if_pos hdisk, if_pos hdisk, bind_none, bind_none, map_none]
      rw [if_neg hdisk, if_neg hdisk, Option.pure_def, Option.pure_def, bind_some]
      dsimp only
      by_cases h64 : le16 buf (endAt + 10) = 65535 ∨ le32 buf (endAt + 16) = uint32Max ∨ le32 buf (endAt + 12) = uint32Max
      · rw [if_pos h64, if_pos h64, Option.map_bind]
        exact Option.bind_congr fun n _ => directory_entries n
      · rw [if_neg h64, if_neg h64, bind_some]
        exact directory_entries (_, _, _)

theorem zipIndex_entries (z : Zip) : (zipIndex z).map Zip.entries = ((endOf z).bind (numbers z)).bind (directory z) := by
  rw [zipIndex_eq, Option.map_map]
  exact Option.map_id_fun' ▸ rfl

theorem zipIndex_kept {z₁ : Zip} (h : zipIndex z = some z₁) : z₁ = { z with entries := z₁.entries } := by
  rw [zipIndex_eq] at h
  obtain ⟨entries, -, rfl⟩ := map_eq_some_iff.1 h
  rfl

/-- The offset of the ZIP64 record, if the index asks for one. -/
def recordAt (z : Zip) : Option Nat :=
  (endOf z).bind fun p => if (plain p.1 p.2).isSome then none else locator z (z.size - min z.size 65557 + p.2)

theorem findEnd_le {buf : List UInt8} : ∀ {i j : Nat}, findEnd buf i = some j → j ≤ i
  | 0, j, h => by
    rw [findEnd, ite_none_right_eq_some] at h
    exact (some.inj h.2) ▸ le_rfl
  | i + 1, j, h => by
    rw [findEnd] at h
    split at h
    · exact (some.inj h) ▸ le_rfl
    · exact Nat.le_succ_of_le (findEnd_le h)

theorem endOf_le {p : List UInt8 × Nat} (h : endOf z = some p) : z.size - min z.size 65557 + p.2 + 22 ≤ z.size := by
  unfold endOf at h
  simp only [bind_eq_bind, bind_none, Option.pure_def] at h
  split at h
  · cases h
  obtain ⟨buf, -, h⟩ := bind_eq_some_iff.1 h
  obtain ⟨endAt, hend, h⟩ := bind_eq_some_iff.1 h
  split at h
  · cases h
  have hle := findEnd_le hend
  rw [← some.inj h]
  dsimp only
  omega

theorem locator_view (h : SameView z z' view) {eocd : Nat} (hin : eocd ≤ view.length) :
    locator z eocd = locator z' eocd := by
  unfold locator
  simp only [bind_eq_bind, bind_none]
  by_cases hnear : eocd < 20
  · rw [if_pos hnear, if_pos hnear]
  · rw [if_neg hnear, if_neg hnear, h.fread (by omega)]

theorem recordAt_view (h : SameView z z' view) : recordAt z = recordAt z' := by
  unfold recordAt
  rw [← endOf_view h, h.size]
  refine Option.bind_congr fun p hp => ?_
  have hin := endOf_le hp
  have hsize := h.left.size
  rw [locator_view h (by omega)]

theorem index_plain (h : recordAt z = none) :
    (zipIndex z).map Zip.entries = (endOf z).bind fun p => (plain p.1 p.2).bind (directory z) := by
  rw [zipIndex_entries, bind_assoc]
  refine Option.bind_congr fun p hp => ?_
  unfold numbers
  cases hplain : plain p.1 p.2 with
  | some n => rfl
  | none =>
    rw [recordAt, hp, bind_some, hplain, isSome_none, if_neg Bool.false_ne_true] at h
    dsimp only
    rw [zip64End_eq, h, bind_none, bind_none]

variable {r : Nat} {file : List UInt8} {origin : Nat}

theorem index_zip64 (h : recordAt z = some r) :
    (zipIndex z).map Zip.entries = ((z.fread r 56).bind zip64Record).bind (directory z) := by
  obtain ⟨p, hp, hloc⟩ := bind_eq_some_iff.1 h
  split at hloc
  · cases hloc
  rename_i hplain
  have hplain : plain p.1 p.2 = none := by simpa using hplain
  rw [zipIndex_entries, hp, bind_some, numbers, hplain]
  dsimp only
  rw [zip64End_eq, hloc, bind_some]

theorem index_plain_view (h : SameView z z' view) (hrec : recordAt z = none) :
    (zipIndex z).map Zip.entries = (zipIndex z').map Zip.entries := by
  rw [index_plain hrec, index_plain ((recordAt_view h).symm.trans hrec), endOf_view h]
  exact Option.bind_congr fun p _ => Option.bind_congr fun n _ => directory_view h n

/-! ### The data of an entry -/

theorem dataAt_view (h : SameView z z' view) (e : Entry) : dataAt e z = dataAt e z' := by
  unfold dataAt
  simp only [bind_eq_bind, bind_none, h.size]
  by_cases hin : e.offset + 30 ≤ view.length
  · rw [h.fread hin]
  · -- the data of an entry whose header leaves the view would begin outside
    have hout : ∀ x : Option (List UInt8), (x.bind fun header =>
        if le32 header 0 ≠ 0x04034b50 then none
        else if z.size < e.offset + 30 + le16 header 26 + le16 header 28 ∨
            z.size - (e.offset + 30 + le16 header 26 + le16 header 28) < e.compressed then none
          else pure (e.offset + 30 + le16 header 26 + le16 header 28)) = none := by
      intro x
      refine bind_eq_none_iff.2 fun header _ => ?_
      have hsize := h.left.size
      split
      · rfl
      · rw [if_pos (.inl (by omega))]
    rw [hout, hout]

theorem dataAt_le {e : Entry} {at' : Nat} (h : dataAt e z = some at') : at' + e.compressed ≤ z.size := by
  unfold dataAt at h
  simp only [bind_eq_bind, bind_none, Option.pure_def] at h
  obtain ⟨header, -, h⟩ := bind_eq_some_iff.1 h
  split at h
  · cases h
  split at h
  · cases h
  · rename_i hin
    rw [← some.inj h]
    omega

theorem zipRead_view (h : SameView z z' view) (zlib : Inflate) (e : Entry) (fuel : Nat) (cancelled : Nat → Bool)
    (capacity : Option Nat) (polls : Nat) :
    zipRead zlib e fuel cancelled z capacity polls = zipRead zlib e fuel cancelled z' capacity polls := by
  unfold zipRead
  rw [← dataAt_view h]
  split
  · rfl
  · split
    · rfl
    · rename_i at' hat
      have hle := dataAt_le hat
      have hsize := h.left.size
      rw [h.fread (by omega)]

/-! ### Isolation -/

/-- A file has these bytes at this place. -/
def HasView (file : List UInt8) (origin : Nat) (view : List UInt8) : Prop :=
  origin + view.length ≤ file.length ∧ (file.drop origin).take view.length = view

/-- Two archives with the same entries, whose data is the same. -/
def SameArchive : Option Zip → Option Zip → Prop
  | some z, some z' => z.entries = z'.entries ∧ ∀ e ∈ z.entries, ∀ zlib fuel cancelled capacity polls,
      zipRead zlib e fuel cancelled z capacity polls = zipRead zlib e fuel cancelled z' capacity polls
  | none, none => True
  | _, _ => False

/-- Nothing outside the view makes a difference. -/
def Isolated (origin : Nat) (view : List UInt8) : Prop :=
  ∀ file file', HasView file origin view → HasView file' origin view →
    SameArchive (zipOpenRange file origin view.length) (zipOpenRange file' origin view.length)

/-- The archive of a file that ends with the view. -/
def bare (origin : Nat) (view : List UInt8) : Zip := ⟨replicate origin 0 ++ view, origin, view.length, []⟩

/-- The ZIP64 record begins inside the view, or right behind it, and ends outside; there are bytes for its rest with which
    it is a record of a directory in the view. -/
def Strays (origin : Nat) (view : List UInt8) : Prop :=
  ∃ r rest n, recordAt (bare origin view) = some r ∧ r ≤ view.length ∧ view.length + rest.length = r + 56 ∧ rest ≠ [] ∧
    origin + r < 2 ^ 63 ∧ zip64Record (view.drop r ++ rest) = some n ∧ (directory (bare origin view) n).isSome

theorem HasView.shows (h : HasView file origin view) :
    Shows ⟨file, origin, view.length, []⟩ view := ⟨rfl, h.1, h.2⟩

theorem hasView_append (origin : Nat) (view rest : List UInt8) :
    HasView (replicate origin 0 ++ view ++ rest) origin view := by
  refine ⟨by simp, ?_⟩
  rw [append_assoc, drop_left' (length_replicate), take_left]

theorem hasView_bare (origin : Nat) (view : List UInt8) : HasView (replicate origin 0 ++ view) origin view := by
  have h := hasView_append origin view []
  rwa [append_nil] at h

theorem open_view (hview : view ≠ []) (h : HasView file origin view) :
    zipOpenRange file origin view.length = zipIndex ⟨file, origin, view.length, []⟩ := by
  have hpos := length_pos_of_ne_nil hview
  have hroom := h.1
  unfold zipOpenRange
  rw [if_pos (Nat.pos_iff_ne_zero.1 hpos)]
  split
  · -- a file that is too short holds no view that is long enough
    rename_i hshort
    unfold zipIndex
    rw [if_pos (by dsimp only; omega)]
    rfl
  · rfl

theorem sameArchive (h : SameView z z' view) (hentries : (zipIndex z).map Zip.entries = (zipIndex z').map Zip.entries) :
    SameArchive (zipIndex z) (zipIndex z') := by
  cases hz : zipIndex z with
  | none =>
    rw [hz, map_none, eq_comm, map_eq_none_iff] at hentries
    rw [hentries]
    trivial
  | some z₁ =>
    rw [hz, map_some, eq_comm, map_eq_some_iff] at hentries
    obtain ⟨z₂, hz', heq⟩ := hentries
    rw [hz']
    refine ⟨heq.symm, fun e _ zlib fuel cancelled capacity polls => ?_⟩
    rw [zipIndex_kept hz, zipIndex_kept hz']
    exact zipRead_view ⟨h.reach, ⟨h.left.size, h.left.room, h.left.bytes⟩, ⟨h.right.size, h.right.room, h.right.bytes⟩⟩ ..

theorem fread_behind (h : Shows z view) {record : List UInt8} (hr : r ≤ view.length) (hout : view.length ≤ r + n)
    (hread : z.fread r n = some record) :
    z.origin + r < 2 ^ 63 ∧ ∃ rest, record = view.drop r ++ rest ∧ view.length + rest.length = r + n := by
  have hsize := h.size
  have hroom := h.room
  unfold Zip.fread at hread
  split at hread
  · cases hread
  rename_i hlimit
  split at hread
  · rename_i hfile
    refine ⟨by omega, (record.drop (view.length - r)), ?_, ?_⟩
    · have hdrop : view.drop r = record.take (view.length - r) := by
        rw [← some.inj hread, take_take, Nat.min_eq_left (by omega), ← h.bytes, drop_take, drop_drop,
          h.size, length_take, length_drop, Nat.min_eq_left (by omega)]
      rw [hdrop, take_append_drop]
    · rw [← some.inj hread, length_drop, length_take, length_drop]
      omega
  · cases hread

theorem index_strays (h : SameView z (bare origin view) view) (hrec : recordAt z = some r)
    (hr : r ≤ view.length) (hout : view.length < r + 56) (hno : ¬ Strays origin view) :
    (zipIndex z).map Zip.entries = none := by
  rw [index_zip64 hrec]
  cases hread : z.fread r 56 with
  | none => rfl
  | some record =>
    obtain ⟨horigin, rest, rfl, hlen⟩ := fread_behind h.left hr hout.le hread
    rw [bind_some]
    cases hrecord : zip64Record (view.drop r ++ rest) with
    | none => rfl
    | some n =>
      rw [bind_some, directory_view h, eq_none_iff_forall_ne_some]
      intro entries hentries
      refine hno ⟨r, rest, n, recordAt_view h ▸ hrec, hr, hlen, ?_, ?_, hrecord, hentries ▸ rfl⟩
      · intro hnil
        rw [hnil, length_nil] at hlen
        omega
      · have hreach := h.reach r hr
        change 2 ^ 63 ≤ z.origin + r ↔ 2 ^ 63 ≤ origin + r at hreach
        omega

theorem bare_index {origin r : Nat} (hrec : recordAt (bare origin view) = some r) (hout : view.length < r + 56) :
    zipIndex (bare origin view) = none := by
  rw [← map_eq_none_iff (f := Zip.entries), index_zip64 hrec]
  have hread : (bare origin view).fread r 56 = none := by
    unfold Zip.fread bare
    split
    · rfl
    · rw [if_neg]
      rw [length_append, length_replicate]
      dsimp only
      omega
  rw [hread, bind_none, bind_none]

/-- The record that the view and the bytes behind it make up is read. -/
theorem fread_completed {origin r : Nat} {rest : List UInt8} (hr : r ≤ view.length) (horigin : origin + r < 2 ^ 63)
    (hlen : view.length + rest.length = r + n) :
    Zip.fread ⟨replicate origin 0 ++ view ++ rest, origin, view.length, []⟩ r n = some (view.drop r ++ rest) := by
  have hlimit : ¬ (view.length < r ∨ uint64Max < origin + r ∨ 2 ^ 63 ≤ origin + r) := by
    unfold uint64Max
    omega
  unfold Zip.fread
  rw [if_neg hlimit, if_pos (by simp only [length_append, length_replicate]; omega), append_assoc,
    drop_append, drop_eq_nil_of_le (by simp), nil_append, length_replicate, Nat.add_sub_cancel_left,
    drop_append_of_le_length hr, take_of_length_le]
  rw [length_append, length_drop]
  omega

theorem not_isolated_of_strays (hview : view ≠ []) (h : Strays origin view) : ¬ Isolated origin view := by
  obtain ⟨r, rest, n, hrec, hr, hlen, hne, horigin, hrecord, hentries⟩ := h
  have hpos := length_pos_of_ne_nil hne
  have hbare := hasView_bare origin view
  have hfull := hasView_append origin view rest
  have hv : SameView (bare origin view) ⟨replicate origin 0 ++ view ++ rest, origin, view.length, []⟩ view :=
    .of_origin rfl hbare.shows hfull.shows
  have hright : (zipIndex ⟨replicate origin 0 ++ view ++ rest, origin, view.length, []⟩).map Zip.entries =
      directory (bare origin view) n := by
    rw [index_zip64 ((recordAt_view hv).symm.trans hrec), fread_completed hr horigin hlen, bind_some, hrecord,
      bind_some, directory_view hv]
  intro hiso
  have hsame := hiso _ _ hbare hfull
  rw [open_view hview hbare, open_view hview hfull] at hsame
  change SameArchive (zipIndex (bare origin view)) _ at hsame
  rw [bare_index hrec (by omega)] at hsame
  obtain ⟨entries, hentries⟩ := isSome_iff_exists.1 hentries
  rw [hentries, map_eq_some_iff] at hright
  obtain ⟨z', hz', -⟩ := hright
  rw [hz'] at hsame
  exact hsame

/-- A view of a file is isolated exactly when its ZIP64 record does not stray. -/
theorem isolated_iff (origin : Nat) (hview : view ≠ []) : Isolated origin view ↔ ¬ Strays origin view := by
  refine ⟨fun hiso hstrays => not_isolated_of_strays hview hstrays hiso, ?_⟩
  intro hno file file' hfile hfile'
  rw [open_view hview hfile, open_view hview hfile']
  have hv : SameView ⟨file, origin, view.length, []⟩ ⟨file', origin, view.length, []⟩ view :=
    .of_origin rfl hfile.shows hfile'.shows
  refine sameArchive hv ?_
  cases hrec : recordAt ⟨file, origin, view.length, []⟩ with
  | none => exact index_plain_view hv hrec
  | some r =>
    have hrec' := (recordAt_view hv).symm.trans hrec
    by_cases hin : r + 56 ≤ view.length
    · rw [index_zip64 hrec, index_zip64 hrec', hv.fread hin]
      exact Option.bind_congr fun n _ => directory_view hv n
    · by_cases hr : r ≤ view.length
      · have hbare : Shows (bare origin view) view := (hasView_bare origin view).shows
        have hleft : SameView ⟨file, origin, view.length, []⟩ (bare origin view) view := .of_origin rfl hfile.shows hbare
        have hright : SameView ⟨file', origin, view.length, []⟩ (bare origin view) view := .of_origin rfl hfile'.shows hbare
        rw [index_strays hleft hrec hr (by omega) hno, index_strays hright hrec' hr (by omega) hno]
      · -- beyond the view nothing is read
        have hread : ∀ f : List UInt8, Zip.fread ⟨f, origin, view.length, []⟩ r 56 = none := by
          intro f
          unfold Zip.fread
          exact if_pos (.inl (by dsimp only; omega))
        rw [index_zip64 hrec, index_zip64 hrec', hread, hread, bind_none, bind_none, bind_none]

end

/-! ### An archive whose record strays -/

/-- A locator of a ZIP64 record at 42, and an end record that asks for it. -/
def strayed : List UInt8 :=
  number 4 0x07064b50 ++ number 4 0 ++ number 8 42 ++ number 4 1 ++ endRecord 65535 0 0

/-- A ZIP64 record of an empty directory. -/
def emptyRecord : List UInt8 := number 4 0x06064b50 ++ number 12 0 ++ number 4 0 ++ number 4 0 ++ number 32 0

/-- The file with the record behind the view is accepted, and the one without it is not. -/
theorem strayed_not_isolated : ¬ Isolated 0 strayed := by
  intro h
  have hleft : zipOpenRange strayed 0 42 = none := by decide +kernel
  have hright : (zipOpenRange (strayed ++ emptyRecord) 0 42).isSome = true := by decide +kernel
  have hlen : strayed.length = 42 := by decide
  have hsame := h strayed (strayed ++ emptyRecord) ⟨by decide, by decide⟩ ⟨by decide, by decide⟩
  rw [hlen, hleft] at hsame
  obtain ⟨z, hz⟩ := isSome_iff_exists.1 hright
  rw [hz] at hsame
  exact hsame

/-- Two entries, and a ZIP64 record between the directory and the locator. -/
def contained : List UInt8 :=
  localEntry 1 ++ localEntry 2 ++ centralEntry 1 0 ++ centralEntry 2 32 ++ number 4 0x06064b50 ++ number 28 44 ++
    number 8 2 ++ number 8 94 ++ number 8 64 ++ number 4 0x07064b50 ++ number 4 0 ++ number 8 158 ++ number 4 1 ++
    endRecord 65535 0 0

theorem contained_isolated : (zipOpenRange contained 0 256).isSome ∧ Isolated 3 contained := by
  refine ⟨by decide +kernel, (isolated_iff 3 (by decide)).2 ?_⟩
  rintro ⟨r, rest, n, hrec, hr⟩
  have hcontained : recordAt (bare 3 contained) = some 158 := by decide +kernel
  have hlen : contained.length = 256 := by decide +kernel
  cases hrec.symm.trans hcontained
  omega

end Lunaria.Apk
