import Lunaria.Lib.Probing
import Lunaria.Dvm.Dex

/-! The classes of a dex image by their descriptors: a table that is filled when a class is first looked for, or all of the
    definitions one after the other if there is no memory for it. -/

namespace Lunaria.Dvm.Dex

open Nat UInt32 Option
open List hiding lookup

open Probing (probe find vacant entryAt lookup Reached)

/-- `dex_desc_hash`. -/
def dexDescHash (s : List UInt8) : UInt32 := s.foldl (fun h b => (h ^^^ b.toUInt32) * 16777619) 2166136261

/-- The loop that doubles the number of slots, for at most so many rounds. -/
def capLoop (need : UInt32) : Nat → UInt32 → Option UInt32
  | 0, _ => none
  | rounds + 1, cap => if cap < need then capLoop need rounds (cap <<< 1) else some cap

/-- The first slot around the table where to stop. A table in which there is none is gone around for ever. -/
def slotFrom (h : List UInt32) (stop : UInt32 → Bool) (hash : UInt32) : Option Nat :=
  let m := h.length - 1
  probe (fun k => stop (h.getD k 0)) (fun k => (k + 1) &&& m) h.length (hash.toNat &&& m)

section
variable (d : DexFile)

/-- A slot holds the number of a definition plus one, or zero. -/
def fillSlot (h : List UInt32) (i : Nat) : Option (List UInt32) :=
  match dexClassDesc d i with
  | none => some h
  | some t => (slotFrom h (fun x => x = 0) (dexDescHash t)).map fun k => h.set k (UInt32.ofNat i + 1)

def fillIndex (cap : UInt32) : Option (List UInt32) :=
  (List.range d.classDefsSize.toNat).foldlM (fillSlot d) (replicate cap.toNat 0)

/-- The table after a call was given the memory for it, or was not. -/
def buildIndex (alloc : Bool) : Option (List UInt32) → Option (Option (List UInt32))
  | some h => some (some h)
  | none =>
    if d.classDefsSize = 0 then some none
    else do
      let cap ← capLoop (d.classDefsSize * 2) 32 64
      if alloc then
        let h ← fillIndex d cap
        some (some h)
      else some none

/-- The answer of the table. -/
def lookIndex (h : List UInt32) (descriptor : List UInt8) : Option Int :=
  (slotFrom h (fun x => x = 0 || dexClassDesc d (x - 1).toNat = some descriptor) (dexDescHash descriptor)).map fun k =>
    let x := h.getD k 0
    if x = 0 then -1 else ((x - 1).toNat : Int)

def scanClasses (descriptor : List UInt8) : Int :=
  match (List.range d.classDefsSize.toNat).find? fun i => dexClassDesc d i = some descriptor with
  | some i => i
  | none => -1

/-- `dex_find_class` and the table that it leaves; nothing if it does not end. -/
def dexFindClass (index : Option (List UInt32)) (alloc : Bool) : Option (List UInt8) → Option (Int × Option (List UInt32))
  | none => some (-1, index)
  | some descriptor => do
    let index ← buildIndex d alloc index
    match index with
    | some h => do
      let i ← lookIndex d h descriptor
      some (i, index)
    | none => some (scanClasses d descriptor, none)

/-- The answers to calls one after the other, each of them with the memory for the table or without. -/
def findClasses : Option (List UInt32) → List (Bool × Option (List UInt8)) → Option (List Int)
  | _, [] => some []
  | index, (alloc, descriptor) :: calls => do
    let (i, index) ← dexFindClass d index alloc descriptor
    let answers ← findClasses index calls
    some (i :: answers)

/-- The first definition of a class with this descriptor, or -1 for none. -/
def FirstOf (descriptor : List UInt8) (answer : Int) : Prop :=
  (answer = -1 ∧ ∀ i < d.classDefsSize.toNat, dexClassDesc d i ≠ some descriptor) ∨
    ∃ i : Nat, answer = i ∧ i < d.classDefsSize.toNat ∧ dexClassDesc d i = some descriptor ∧
      ∀ j < i, dexClassDesc d j ≠ some descriptor

end

/-! ### The number of slots -/

/-- The doubling ends at a power of two that is large enough. -/
theorem capLoop_spec {need : UInt32} (hneed : need.toNat ≤ 2 ^ 28) : ∀ {rounds k : Nat}, k ≤ 28 → 28 < k + rounds →
    ∃ k' ≤ 28, k ≤ k' ∧ need.toNat ≤ 2 ^ k' ∧ capLoop need rounds (UInt32.ofNat (2 ^ k)) = some (UInt32.ofNat (2 ^ k'))
  | 0, k, hk, hlt => absurd hlt (by omega)
  | rounds + 1, k, hk, hlt => by
    have hpow : 2 ^ k < UInt32.size := Nat.lt_of_le_of_lt (Nat.pow_le_pow_right (succ_pos 1) hk) (by decide)
    rw [capLoop]
    split
    · rename_i hsmall
      rw [lt_iff_toNat_lt, toNat_ofNat_of_lt' hpow] at hsmall
      have hk' : k ≠ 28 := by
        rintro rfl
        omega
      have hdouble : UInt32.ofNat (2 ^ k) <<< 1 = UInt32.ofNat (2 ^ (k + 1)) := by
        have hpow' : 2 ^ (k + 1) < UInt32.size :=
          Nat.lt_of_le_of_lt (Nat.pow_le_pow_right (succ_pos 1) (by omega : k + 1 ≤ 28)) (by decide)
        rw [← UInt32.toNat_inj, UInt32.toNat_shiftLeft, toNat_ofNat_of_lt' hpow, toNat_ofNat_of_lt' hpow',
          show (1 : UInt32).toNat % 32 = 1 from rfl, shiftLeft_eq, pow_one, ← pow_succ]
        exact mod_eq_of_lt hpow'
      rw [hdouble]
      obtain ⟨k', hle, hge, hfits, hcap⟩ := @capLoop_spec need hneed rounds (k + 1) (by omega) (by omega)
      exact ⟨k', hle, le_of_succ_le hge, hfits, hcap⟩
    · rename_i hlarge
      rw [lt_iff_toNat_lt, toNat_ofNat_of_lt' hpow, Nat.not_lt] at hlarge
      exact ⟨k, hk, Nat.le_refl k, hlarge, rfl⟩

/-! ### The slots as a table of definitions -/

/-- The definition that a slot names. -/
def entry (x : UInt32) : Option Nat := if x = 0 then none else some (x - 1).toNat

def table (h : List UInt32) : List (Option Nat) := h.map entry

theorem table_length (h : List UInt32) : (table h).length = h.length := length_map entry

theorem entryAt_table (h : List UInt32) (k : Nat) : entryAt (table h) k = entry (h.getD k 0) := by
  rw [entryAt, table, getElem?_map, getD_eq_getElem?_getD]
  cases h[k]? with
  | none => rfl
  | some x => rfl

theorem entry_filled {i : Nat} (hi : i + 1 < UInt32.size) : entry (UInt32.ofNat i + 1) = some i := by
  have hsum : (UInt32.ofNat i + 1).toNat = i + 1 := by
    rw [UInt32.toNat_add, toNat_ofNat_of_lt' (lt_of_succ_lt hi)]
    exact mod_eq_of_lt hi
  have hne : UInt32.ofNat i + 1 ≠ 0 := by
    intro h
    rw [h] at hsum
    cases hsum
  rw [entry, if_neg hne, UInt32.add_sub_cancel, toNat_ofNat_of_lt' (lt_of_succ_lt hi)]

/-- Where the number of slots is a power of two, the mask goes around the table. -/
theorem slotFrom_table {h : List UInt32} {n : Nat} (hn : h.length = 2 ^ n) (stop : UInt32 → Bool) (hash : UInt32) :
    slotFrom h stop hash =
      probe (fun k => stop (h.getD k 0)) (fun k => (k + 1) % (table h).length)
        (table h).length (hash.toNat % (table h).length) := by
  simp only [slotFrom, table_length, hn, and_two_pow_sub_one_eq_mod]

section
variable {d : DexFile}

/-- The hash of the definition's descriptor. -/
def home (d : DexFile) (i : Nat) : Nat := (dexDescHash ((dexClassDesc d i).getD [])).toNat

def readable (d : DexFile) (i : Nat) : Bool := (dexClassDesc d i).isSome

theorem fillSlot_table {h : List UInt32} {n i : Nat} {t : List UInt8} (hn : h.length = 2 ^ n) (hi : i + 1 < UInt32.size)
    (hdesc : dexClassDesc d i = some t) : (fillSlot d h i).map table = Probing.insert (home d) (table h) i := by
  have hvacant : (fun k => decide (h.getD k 0 = 0)) = vacant (table h) := by
    funext k
    rw [vacant, entryAt_table, entry]
    by_cases hzero : h.getD k 0 = 0
    · rw [if_pos hzero, decide_eq_true hzero]
      rfl
    · rw [if_neg hzero, decide_eq_false hzero]
      rfl
  have hhome : home d i = (dexDescHash t).toNat := by
    rw [home, hdesc]
    rfl
  rw [fillSlot, hdesc]
  dsimp only
  rw [slotFrom_table hn, Probing.insert, hhome, hvacant, Option.map_map]
  congr 1
  funext k
  rw [Function.comp_apply, table, map_set, entry_filled hi]
  rfl

theorem fillSlot_length {h h' : List UInt32} {i : Nat} (hfill : fillSlot d h i = some h') : h'.length = h.length := by
  rw [fillSlot] at hfill
  split at hfill
  · rw [some.inj hfill]
  · obtain ⟨k, -, rfl⟩ := Option.map_eq_some_iff.1 hfill
    exact length_set

theorem fillAll_table {n : Nat} : ∀ {l : List Nat} {h : List UInt32}, h.length = 2 ^ n → (∀ i ∈ l, i + 1 < UInt32.size) →
    (l.foldlM (fillSlot d) h).map table = (l.filter (readable d)).foldlM (Probing.insert (home d)) (table h)
  | [], _, _, _ => rfl
  | i :: l, h, hn, hl => by
    have hrest : ∀ j ∈ l, j + 1 < UInt32.size := fun j hj => hl j (mem_cons_of_mem i hj)
    rw [foldlM_cons]
    cases hdesc : dexClassDesc d i with
    | none =>
      rw [filter_cons_of_neg (by simp [readable, hdesc]), fillSlot, hdesc]
      exact fillAll_table hn hrest
    | some t =>
      rw [filter_cons_of_pos (by simp [readable, hdesc]), foldlM_cons, ← fillSlot_table hn (hl i mem_cons_self) hdesc]
      cases hfill : fillSlot d h i with
      | none => rfl
      | some h' => exact fillAll_table ((fillSlot_length hfill).trans hn) hrest

theorem fillAll_length : ∀ {l : List Nat} {h h' : List UInt32}, l.foldlM (fillSlot d) h = some h' → h'.length = h.length
  | [], _, _, hall => by rw [some.inj hall]
  | i :: l, h, h', hall => by
    rw [foldlM_cons] at hall
    obtain ⟨h₁, hfill, hrest⟩ := Option.bind_eq_some_iff.1 hall
    exact (fillAll_length hrest).trans (fillSlot_length hfill)

theorem lookIndex_table {h : List UInt32} {n : Nat} (hn : h.length = 2 ^ n) (descriptor : List UInt8) :
    lookIndex d h descriptor = (find (fun i => dexClassDesc d i = some descriptor)
      (dexDescHash descriptor).toNat (table h)).map fun k => match entryAt (table h) k with
        | some i => (i : Int)
        | none => -1 := by
  have hstop : (fun k => decide (h.getD k 0 = 0) || decide (dexClassDesc d (h.getD k 0 - 1).toNat = some descriptor)) =
      fun k => (entryAt (table h) k).all fun i => dexClassDesc d i = some descriptor := by
    funext k
    rw [entryAt_table, entry]
    by_cases hzero : h.getD k 0 = 0
    · rw [if_pos hzero, decide_eq_true hzero]
      rfl
    · rw [if_neg hzero, decide_eq_false hzero]
      rfl
  rw [lookIndex, slotFrom_table hn, find, hstop]
  congr 1
  funext k
  rw [entryAt_table, entry]
  dsimp only
  split <;> rfl

/-! ### The first of the definitions -/

theorem scanClasses_first (d : DexFile) (descriptor : List UInt8) : FirstOf d descriptor (scanClasses d descriptor) := by
  rw [scanClasses]
  split
  · rename_i i hfind
    obtain ⟨hpass, hlt, hbefore⟩ := List.find?_range_eq_some.1 hfind
    refine .inr ⟨i, rfl, List.mem_range.1 hlt, of_decide_eq_true hpass, fun j hj => ?_⟩
    have := hbefore j hj
    simpa using this
  · rename_i hfind
    rw [find?_eq_none] at hfind
    exact .inl ⟨rfl, fun i hi => by simpa using hfind i (List.mem_range.2 hi)⟩

theorem reduceOption_table_zeros (n : Nat) : (table (replicate n 0)).reduceOption = [] := by
  rw [table, map_replicate]
  exact reduceOption_replicate_none

/-- A definition that cannot be read is not looked for. -/
theorem find_readable (descriptor : List UInt8) (l : List Nat) :
    (l.filter (readable d)).find? (fun i => dexClassDesc d i = some descriptor) =
      l.find? fun i => dexClassDesc d i = some descriptor := by
  rw [find?_filter]
  congr 1
  funext i
  by_cases hi : dexClassDesc d i = some descriptor
  · simp [readable, hi]
  · simp [hi]

/-- A filled table answers as the scan does. -/
theorem fillIndex_scan {n : Nat} (hn : n < 32) (hsize : d.classDefsSize.toNat < 2 ^ n) :
    ∃ h, fillIndex d (UInt32.ofNat (2 ^ n)) = some h ∧
    ∀ descriptor, lookIndex d h descriptor = some (scanClasses d descriptor) := by
  have hpow : (UInt32.ofNat (2 ^ n)).toNat = 2 ^ n :=
    toNat_ofNat_of_lt' (Nat.pow_lt_pow_right (lt_succ_self 1) hn)
  have hlen : (replicate (UInt32.ofNat (2 ^ n)).toNat (0 : UInt32)).length = 2 ^ n := by rw [length_replicate, hpow]
  have hsmall : ∀ i ∈ List.range d.classDefsSize.toNat, i + 1 < UInt32.size := fun i hi =>
    Nat.lt_of_le_of_lt (List.mem_range.1 hi) d.classDefsSize.toNat_lt
  have hfold := @fillAll_table d n (List.range d.classDefsSize.toNat) _ hlen hsmall
  -- the table has room for all definitions
  have hcount : ((List.range d.classDefsSize.toNat).filter (readable d)).length ≤ d.classDefsSize.toNat :=
    (length_filter_le _ _).trans_eq length_range
  have hempty : Reached (home d) (table (replicate (UInt32.ofNat (2 ^ n)).toNat 0)) := by
    rw [table, map_replicate]
    exact Probing.reached_replicate _
  have hroom : (table (replicate (UInt32.ofNat (2 ^ n)).toNat 0)).reduceOption.length +
      ((List.range d.classDefsSize.toNat).filter (readable d)).length <
      (table (replicate (UInt32.ofNat (2 ^ n)).toNat 0)).length := by
    rw [reduceOption_table_zeros, table_length, hlen, length_nil, Nat.zero_add]
    exact Nat.lt_of_le_of_lt hcount hsize
  obtain ⟨t, hall, htlen, hperm, hreached⟩ := Probing.insertAll_spec _ hempty hroom
  rw [hall] at hfold
  obtain ⟨h, hfill, rfl⟩ := Option.map_eq_some_iff.1 hfold
  have hhlen : h.length = 2 ^ n := (fillAll_length hfill).trans hlen
  refine ⟨h, hfill, fun descriptor => ?_⟩
  have hhome : ∀ i, decide (dexClassDesc d i = some descriptor) = true → home d i = (dexDescHash descriptor).toNat :=
      fun i hi => by
    rw [home, of_decide_eq_true hi]
    rfl
  have hlookup := Probing.lookup_insertAll _ hhome hempty hroom hall
  have hbefore : lookup (fun i => decide (dexClassDesc d i = some descriptor)) (dexDescHash descriptor).toNat
      (table (replicate (UInt32.ofNat (2 ^ n)).toNat 0)) = none := by
    refine Probing.lookup_none (Nat.lt_of_le_of_lt (Nat.le_add_right _ _) hroom) fun i hi => ?_
    rw [reduceOption_table_zeros] at hi
    cases hi
  rw [hbefore, none_or, find_readable] at hlookup
  have hfull : (table h).reduceOption.length < (table h).length := by
    rw [hperm.length_eq, length_append, Nat.add_comm, htlen]
    exact hroom
  obtain ⟨k, hfind, -⟩ := @Probing.find_ends _ (table h) (fun i => dexClassDesc d i = some descriptor) hfull
    (dexDescHash descriptor).toNat
  rw [lookup, hfind, bind_some] at hlookup
  rw [lookIndex_table hhlen, hfind, map_some, hlookup, scanClasses]

/-! ### Images that were accepted -/

/-- There is room for the definitions in the image. -/
theorem dexOpenMemory_classDefs {p : List UInt8} (h : dexOpenMemory p = some d) :
    d.classDefsSize.toNat * 32 ≤ p.length := by
  rw [dexOpenMemory] at h
  split at h
  · cases h
  · dsimp only at h
    split at h
    · rename_i hpools
      cases h
      have hclass := List.all_eq_true.1 hpools _
        (mem_cons_of_mem _ (mem_cons_of_mem _ (mem_cons_of_mem _ (mem_cons_of_mem _
          (mem_cons_of_mem _ mem_cons_self)))))
      rcases of_decide_eq_true hclass with hzero | hroom
      · have hsize : u32At p 96 = 0 := hzero
        dsimp only
        rw [hsize]
        exact Nat.zero_le _
      · exact (Nat.le_add_left _ _).trans hroom
    · cases h

/-- The table of a call answers as the scan does, if there is one. -/
def Answers (d : DexFile) (index : Option (List UInt32)) : Prop :=
  ∀ h, index = some h → ∀ descriptor, lookIndex d h descriptor = some (scanClasses d descriptor)

theorem buildIndex_answers (hsize : d.classDefsSize.toNat ≤ 2 ^ 27) (alloc : Bool) {index : Option (List UInt32)}
    (hindex : Answers d index) : ∃ index', buildIndex d alloc index = some index' ∧ Answers d index' := by
  cases index with
  | some h => exact ⟨some h, rfl, hindex⟩
  | none =>
    rw [buildIndex]
    split
    · exact ⟨none, rfl, hindex⟩
    · have htwice : (d.classDefsSize * 2).toNat = d.classDefsSize.toNat * 2 := by
        rw [UInt32.toNat_mul, show (2 : UInt32).toNat = 2 from rfl]
        exact mod_eq_of_lt (by omega)
      obtain ⟨k, hk, hsix, hfits, hcap⟩ := @capLoop_spec (d.classDefsSize * 2) (by omega) 32 6 (by omega) (by omega)
      have h64 : (64 : UInt32) = UInt32.ofNat (2 ^ 6) := rfl
      rw [h64, hcap]
      cases alloc with
      | false => exact ⟨none, rfl, hindex⟩
      | true =>
        have hpow : 2 ^ 6 ≤ 2 ^ k := Nat.pow_le_pow_right (succ_pos 1) hsix
        obtain ⟨h, hfill, hscan⟩ := @fillIndex_scan d k (by omega) (by omega)
        refine ⟨some h, ?_, fun h' heq => by rwa [← some.inj heq]⟩
        rw [bind_eq_bind, bind_some, if_pos rfl, hfill]
        rfl

theorem dexFindClass_answers (hsize : d.classDefsSize.toNat ≤ 2 ^ 27) (alloc : Bool) (descriptor : Option (List UInt8))
    {index : Option (List UInt32)} (hindex : Answers d index) : ∃ index', Answers d index' ∧
      dexFindClass d index alloc descriptor = some (descriptor.elim (-1) (scanClasses d), index') := by
  cases descriptor with
  | none => exact ⟨index, hindex, rfl⟩
  | some descriptor =>
    obtain ⟨index', hbuild, hanswers⟩ := buildIndex_answers hsize alloc hindex
    refine ⟨index', hanswers, ?_⟩
    rw [dexFindClass, hbuild]
    cases index' with
    | none => rfl
    | some h =>
      rw [bind_eq_bind, bind_some]
      dsimp only
      rw [hanswers h rfl descriptor]
      rfl

theorem findClasses_answers (hsize : d.classDefsSize.toNat ≤ 2 ^ 27) : ∀ {index : Option (List UInt32)}, Answers d index →
    ∀ calls, findClasses d index calls = some (calls.map fun call => call.2.elim (-1) (scanClasses d))
  | _, _, [] => rfl
  | index, hindex, (alloc, descriptor) :: calls => by
    obtain ⟨index', hanswers, hcall⟩ := dexFindClass_answers hsize alloc descriptor hindex
    rw [findClasses, hcall, bind_eq_bind, bind_some]
    dsimp only
    rw [findClasses_answers hsize hanswers calls]
    rfl

end

/-- Every call on an accepted image ends with the scan's answer, the first definition of the class, with a table or without. -/
theorem find_class_scan {p : List UInt8} {d : DexFile} (hlen : p.length ≤ 2 ^ 32) (hopen : dexOpenMemory p = some d)
    (calls : List (Bool × Option (List UInt8))) :
    findClasses d none calls = some (calls.map fun call => call.2.elim (-1) (scanClasses d)) ∧
      ∀ descriptor, FirstOf d descriptor (scanClasses d descriptor) := by
  have hroom := dexOpenMemory_classDefs hopen
  exact ⟨findClasses_answers (by omega) (fun _ heq => by cases heq) calls, scanClasses_first d⟩

/-- An image with two definitions of the class `L;`, after one of a type that it does not have. -/
def twice : List UInt8 :=
  [0x64, 0x65, 0x78, 0x0a, 0x30, 0x33, 0x35, 0] ++ replicate 32 0 ++ [0x78, 0x56, 0x34, 0x12] ++ replicate 12 0 ++
    [1, 0, 0, 0, 112, 0, 0, 0, 1, 0, 0, 0, 116, 0, 0, 0] ++ replicate 24 0 ++ [3, 0, 0, 0, 120, 0, 0, 0] ++
    replicate 8 0 ++ [216, 0, 0, 0] ++ [0, 0, 0, 0] ++ [9, 0, 0, 0] ++ replicate 28 0 ++ replicate 64 0 ++
    [2, 0x4c, 0x3b, 0]

theorem find_class_scan_twice : ∃ d, dexOpenMemory twice = some d ∧
    findClasses d none [(true, some [0x4c, 0x3b]), (true, some [0x58]), (false, none)] = some [1, -1, -1] := by
  have hscan : ((dexOpenMemory twice).map fun d => (scanClasses d [0x4c, 0x3b], scanClasses d [0x58])) = some (1, -1) := by
    decide +kernel
  obtain ⟨d, hopen, hanswers⟩ := Option.map_eq_some_iff.1 hscan
  obtain ⟨hlong, hother⟩ := Prod.mk.inj hanswers
  refine ⟨d, hopen, ?_⟩
  rw [(find_class_scan (by decide +kernel) hopen _).1, map_cons, map_cons, map_cons, map_nil, elim_some,
    elim_some, hlong, hother]
  rfl

end Lunaria.Dvm.Dex
