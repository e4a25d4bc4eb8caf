import Mathlib
import Lunaria.Dvm.Dex

/-! The data of a class in a dex image: four counts, and for every field two numbers, for every method three. The reader
    makes sure of two bytes for each entry and takes a number that the image does not hold whole for zero. -/

namespace Lunaria.Dvm.Dex
open List Nat Option

structure EncodedField where
  fieldIdx : UInt32
  accessFlags : UInt32
  deriving DecidableEq

structure EncodedMethod where
  methodIdx : UInt32
  accessFlags : UInt32
  codeOff : UInt32
  deriving DecidableEq

/-- `struct dex_class_data`, with arrays that are not there where they were not allocated. -/
structure DexClassData where
  staticFieldsSize : UInt32 := 0
  instanceFieldsSize : UInt32 := 0
  directMethodsSize : UInt32 := 0
  virtualMethodsSize : UInt32 := 0
  staticFields : Option (List EncodedField) := none
  instanceFields : Option (List EncodedField) := none
  directMethods : Option (List EncodedMethod) := none
  virtualMethods : Option (List EncodedMethod) := none
  deriving DecidableEq

/-! ### Reading -/

def numbers (d : DexFile) : Nat → Nat → List UInt32 × Nat
  | 0, p => ([], p)
  | n + 1, p =>
    let (v, p) := dexUleb d p
    let (vs, p) := numbers d n p
    (v :: vs, p)

section
variable {α : Type} (d : DexFile) (make : UInt32 → List UInt32 → α) (more : Nat)

/-- The loop of `read_fields` and `read_methods`: a difference of indices, and so many other numbers. -/
def readLoop : Nat → UInt32 → Nat → List α × Nat
  | 0, _, p => ([], p)
  | n + 1, idx, p =>
    let (diff, p) := dexUleb d p
    let (others, p) := numbers d more p
    let idx := idx + diff
    let (entries, p) := readLoop n idx p
    (make idx others :: entries, p)

def readEntries (alloc : Bool) (n : UInt32) (p : Nat) : Option (Option (List α) × Nat) :=
  if n = 0 then some (none, p)
  else if !alloc then none
  else
    let (entries, p) := readLoop d make more n.toNat 0 p
    some (some entries, p)

end

def mkField (idx : UInt32) (others : List UInt32) : EncodedField := ⟨idx, others.getD 0 0⟩

def mkMethod (idx : UInt32) (others : List UInt32) : EncodedMethod := ⟨idx, others.getD 0 0, others.getD 1 0⟩

def readFields (d : DexFile) (alloc : Bool) (n : UInt32) (p : Nat) := readEntries d mkField 1 alloc n p

def readMethods (d : DexFile) (alloc : Bool) (n : UInt32) (p : Nat) := readEntries d mkMethod 2 alloc n p

/-- Whether it was read, and what is left in the structure. All four arrays are freed when one of them cannot be
    allocated. -/
def dexClassData (d : DexFile) (alloc : Fin 4 → Bool) (off : UInt32) : Bool × DexClassData :=
  if off = 0 ∨ d.p.length ≤ off.toNat then (false, {})
  else
    let (statics, p) := dexUleb d off.toNat
    let (instances, p) := dexUleb d p
    let (directs, p) := dexUleb d p
    let (virtuals, p) := dexUleb d p
    let total := statics.toNat + instances.toNat + directs.toNat + virtuals.toNat
    if d.p.length - p < total * 2 then (false, {})
    else
      let read := do
        let (staticFields, p) ← readFields d (alloc 0) statics p
        let (instanceFields, p) ← readFields d (alloc 1) instances p
        let (directMethods, p) ← readMethods d (alloc 2) directs p
        let (virtualMethods, _) ← readMethods d (alloc 3) virtuals p
        some
          { staticFieldsSize := statics, instanceFieldsSize := instances, directMethodsSize := directs
            virtualMethodsSize := virtuals, staticFields := staticFields, instanceFields := instanceFields
            directMethods := directMethods, virtualMethods := virtualMethods : DexClassData }
      match read with
      | none => (false, {})
      | some cd => (true, cd)

/-! ### Numbers that are whole -/

/-- A number, if all of its bytes are in the image. -/
def wholeLoop (p : List UInt8) : Nat → Nat → UInt32 → Nat → Option (UInt32 × Nat)
  | 0, _, v, off => some (v, off)
  | i + 1, shift, v, off =>
    match p[off]? with
    | none => none
    | some b =>
      let v := v ||| (b &&& 0x7f).toUInt32 <<< UInt32.ofNat shift
      if b &&& 0x80 = 0 then some (v, off + 1) else wholeLoop p i (shift + 7) v (off + 1)

def wholeUleb (d : DexFile) (off : Nat) : Option (UInt32 × Nat) := wholeLoop d.p 5 0 0 off

/-- Numbers one after the other, all of them in the image. -/
def wholeNumbers (d : DexFile) : Nat → Nat → Option (List UInt32 × Nat)
  | 0, p => some ([], p)
  | n + 1, p => do
    let (v, p) ← wholeUleb d p
    let (vs, p) ← wholeNumbers d n p
    some (v :: vs, p)

/-- The entries that numbers stand for: every index is the sum of the differences up to its own. -/
def EntriesFrom {α : Type} (make : UInt32 → List UInt32 → α) (more : Nat) (vs : List UInt32) (entries : List α) : Prop :=
  vs.length = entries.length * (more + 1) ∧ ∀ i (h : i < entries.length), entries[i] =
    make ((List.range (i + 1)).map fun j => vs.getD (j * (more + 1)) 0).sum ((vs.drop (i * (more + 1) + 1)).take more)

def entryNumbers (counts : List UInt32) : Nat :=
  ((counts.getD 0 0).toNat + (counts.getD 1 0).toNat) * 2 + ((counts.getD 2 0).toNat + (counts.getD 3 0).toNat) * 3

def entryCount (counts : List UInt32) : Nat := (counts.map UInt32.toNat).sum

/-- The item at an offset, which is not that of the header, is in the image. -/
def Whole (d : DexFile) (off : UInt32) : Prop :=
  off ≠ 0 ∧ ∃ counts p vs q, wholeNumbers d 4 off.toNat = some (counts, p) ∧
    wholeNumbers d (entryNumbers counts) p = some (vs, q)

/-- The image ends within the counts, after zeros, or within the entries, with two bytes or more for each. -/
def CutOff (d : DexFile) (off : Nat) : Prop :=
  (∃ k < 4, ∃ p, wholeNumbers d k off = some (replicate k 0, p) ∧ wholeUleb d p = none) ∨
  ∃ counts p, wholeNumbers d 4 off = some (counts, p) ∧ wholeNumbers d (entryNumbers counts) p = none ∧
    entryCount counts * 2 ≤ d.p.length - p

/-- The entries that were read are those of the item. -/
def HoldsItem (d : DexFile) (off : UInt32) (cd : DexClassData) : Prop :=
  ∃ p a b e f q, wholeNumbers d 4 off.toNat =
      some ([cd.staticFieldsSize, cd.instanceFieldsSize, cd.directMethodsSize, cd.virtualMethodsSize], p) ∧
    wholeNumbers d (a ++ b ++ e ++ f).length p = some (a ++ b ++ e ++ f, q) ∧
    EntriesFrom mkField 1 a (cd.staticFields.getD []) ∧ EntriesFrom mkField 1 b (cd.instanceFields.getD []) ∧
    EntriesFrom mkMethod 2 e (cd.directMethods.getD []) ∧ EntriesFrom mkMethod 2 f (cd.virtualMethods.getD []) ∧
    (cd.staticFields.getD []).length = cd.staticFieldsSize.toNat ∧
    (cd.instanceFields.getD []).length = cd.instanceFieldsSize.toNat ∧
    (cd.directMethods.getD []).length = cd.directMethodsSize.toNat ∧
    (cd.virtualMethods.getD []).length = cd.virtualMethodsSize.toNat

/-- Complete items are read and nothing else, and nothing is left of what is not read. -/
def ReadsWhole (d : DexFile) (off : UInt32) : Prop :=
  ((dexClassData d (fun _ => true) off).1 = true ↔ Whole d off) ∧
  ((dexClassData d (fun _ => true) off).1 = true → HoldsItem d off (dexClassData d (fun _ => true) off).2) ∧
  ∀ alloc, (dexClassData d alloc off).1 = false → (dexClassData d alloc off).2 = {}

attribute [local simp] numbers wholeNumbers readLoop entryCount

/-! ### Whole numbers and the reader's -/

theorem wholeLoop_some {p : List UInt8} : ∀ {i shift : Nat} {v : UInt32} {off : Nat} {r : UInt32 × Nat},
    wholeLoop p i shift v off = some r → ulebLoop p i shift v off = r
  | 0, _, _, _, _, h => some.inj h
  | i + 1, shift, v, off, r, h => by
    rw [wholeLoop] at h
    rw [ulebLoop]
    cases hb : p[off]? with
    | none =>
      rw [hb] at h
      cases h
    | some b =>
      rw [hb] at h
      dsimp only at h ⊢
      split at h
      · rename_i hlast
        rw [if_pos hlast]
        exact some.inj h
      · rename_i hlast
        rw [if_neg hlast]
        exact wholeLoop_some h

theorem wholeLoop_none {p : List UInt8} : ∀ {i shift : Nat} {v : UInt32} {off : Nat}, off ≤ p.length →
    wholeLoop p i shift v off = none → ulebLoop p i shift v off = (0, p.length)
  | 0, _, _, _, _, h => by cases h
  | i + 1, shift, v, off, hoff, h => by
    rw [wholeLoop] at h
    rw [ulebLoop]
    cases hb : p[off]? with
    | none =>
      have hend := List.getElem?_eq_none_iff.1 hb
      exact congrArg _ (Nat.le_antisymm hoff hend)
    | some b =>
      have hlt := (List.getElem?_eq_some_iff.1 hb).1
      rw [hb] at h
      dsimp only at h ⊢
      split at h
      · cases h
      · rename_i hlast
        rw [if_neg hlast]
        exact wholeLoop_none hlt h

theorem wholeLoop_bounds {p : List UInt8} : ∀ {i shift : Nat} {v : UInt32} {off : Nat} {r : UInt32 × Nat},
    wholeLoop p (i + 1) shift v off = some r → off < r.2 ∧ r.2 ≤ p.length
  | i, shift, v, off, r, h => by
    rw [wholeLoop] at h
    cases hb : p[off]? with
    | none =>
      rw [hb] at h
      cases h
    | some b =>
      have hlt := (List.getElem?_eq_some_iff.1 hb).1
      rw [hb] at h
      dsimp only at h
      split at h
      · cases h
        exact ⟨lt_succ_self off, hlt⟩
      · cases i with
        | zero =>
          cases h
          exact ⟨lt_succ_self off, hlt⟩
        | succ i =>
          obtain ⟨hlow, hhigh⟩ := wholeLoop_bounds h
          exact ⟨lt_of_succ_lt hlow, hhigh⟩

section
variable {d : DexFile} {p : Nat} {vs : List UInt32} {off : UInt32} {α : Type}

theorem wholeUleb_some {r : UInt32 × Nat} (h : wholeUleb d p = some r) : dexUleb d p = r := wholeLoop_some h

theorem wholeUleb_none (hp : p ≤ d.p.length) (h : wholeUleb d p = none) : dexUleb d p = (0, d.p.length) :=
  wholeLoop_none hp h

theorem wholeNumbers_succ {n p q : Nat} (h : wholeNumbers d (n + 1) p = some (vs, q)) :
    ∃ v r rest, wholeUleb d p = some (v, r) ∧ wholeNumbers d n r = some (rest, q) ∧ vs = v :: rest := by
  rw [wholeNumbers] at h
  cases hv : wholeUleb d p with
  | none =>
    rw [hv] at h
    cases h
  | some vr =>
    obtain ⟨v, r⟩ := vr
    rw [hv] at h
    change (wholeNumbers d n r).bind _ = _ at h
    cases hrest : wholeNumbers d n r with
    | none =>
      rw [hrest] at h
      cases h
    | some restq =>
      obtain ⟨rest, q'⟩ := restq
      rw [hrest] at h
      cases h
      exact ⟨v, r, rest, rfl, hrest, rfl⟩

theorem wholeNumbers_cons {n p q r : Nat} {v : UInt32} {rest : List UInt32} (hv : wholeUleb d p = some (v, r))
    (hrest : wholeNumbers d n r = some (rest, q)) : wholeNumbers d (n + 1) p = some (v :: rest, q) := by
  rw [wholeNumbers, hv]
  change (wholeNumbers d n r).bind _ = _
  rw [hrest]
  rfl

theorem wholeNumbers_some : ∀ {n p : Nat} {r : List UInt32 × Nat}, wholeNumbers d n p = some r → numbers d n p = r
  | 0, _, _, h => some.inj h
  | n + 1, p, (vs, q), h => by
    obtain ⟨v, r, rest, hv, hrest, rfl⟩ := wholeNumbers_succ h
    rw [numbers, wholeUleb_some hv]
    dsimp only
    rw [wholeNumbers_some hrest]

theorem wholeNumbers_length : ∀ {n p q : Nat} {vs : List UInt32}, wholeNumbers d n p = some (vs, q) → vs.length = n
  | 0, _, _, _, h => by
    cases h
    rfl
  | n + 1, p, q, vs, h => by
    obtain ⟨v, r, rest, -, hrest, rfl⟩ := wholeNumbers_succ h
    exact congrArg (· + 1) (wholeNumbers_length hrest)

theorem wholeNumbers_bounds : ∀ {n p q : Nat} {vs : List UInt32}, p ≤ d.p.length → wholeNumbers d n p = some (vs, q) →
    p + n ≤ q ∧ q ≤ d.p.length
  | 0, p, q, vs, hp, h => by
    cases h
    exact ⟨Nat.le_refl p, hp⟩
  | n + 1, p, q, vs, hp, h => by
    obtain ⟨v, r, rest, hv, hrest, rfl⟩ := wholeNumbers_succ h
    obtain ⟨hlow, hhigh⟩ := wholeLoop_bounds hv
    obtain ⟨hsum, hend⟩ := wholeNumbers_bounds hhigh hrest
    dsimp only at hlow
    exact ⟨by omega, hend⟩

theorem wholeNumbers_add : ∀ {m n p q : Nat} {vs : List UInt32}, wholeNumbers d (m + n) p = some (vs, q) →
    ∃ a r b, wholeNumbers d m p = some (a, r) ∧ wholeNumbers d n r = some (b, q) ∧ vs = a ++ b
  | 0, n, p, q, vs, h => ⟨[], p, vs, rfl, by rwa [Nat.zero_add] at h, rfl⟩
  | m + 1, n, p, q, vs, h => by
    rw [Nat.add_right_comm] at h
    obtain ⟨v, r, rest, hv, hrest, rfl⟩ := wholeNumbers_succ h
    obtain ⟨a, r', b, ha, hb, rfl⟩ := wholeNumbers_add hrest
    exact ⟨v :: a, r', b, wholeNumbers_cons hv ha, hb, rfl⟩

theorem numbers_end : ∀ n, numbers d n d.p.length = (replicate n 0, d.p.length)
  | 0 => rfl
  | n + 1 => by
    have hnone : wholeUleb d d.p.length = none := by
      rw [wholeUleb, wholeLoop, getElem?_eq_none le_rfl]
    rw [numbers, wholeUleb_none le_rfl hnone]
    dsimp only
    rw [numbers_end n]
    rfl

theorem numbers_cut {n q : Nat} (hq : q ≤ d.p.length) (hnone : wholeUleb d q = none) : ∀ {k p : Nat} {vs : List UInt32},
    wholeNumbers d k p = some (vs, q) → wholeNumbers d (k + (n + 1)) p = none ∧
      numbers d (k + (n + 1)) p = (vs ++ replicate (n + 1) 0, d.p.length)
  | 0, p, vs, h => by
    cases h
    rw [Nat.zero_add, wholeNumbers, hnone, numbers, wholeUleb_none hq hnone]
    dsimp only
    rw [numbers_end]
    exact ⟨rfl, rfl⟩
  | k + 1, p, vs, h => by
    obtain ⟨v, r, rest, hv, hrest, rfl⟩ := wholeNumbers_succ h
    obtain ⟨hwhole, hnumbers⟩ := numbers_cut hq hnone hrest
    rw [Nat.add_right_comm, wholeNumbers, hv, numbers, wholeUleb_some hv]
    dsimp only
    rw [hnumbers]
    refine ⟨?_, rfl⟩
    change (wholeNumbers d (k + (n + 1)) r).bind _ = none
    rw [hwhole]
    rfl

theorem wholeNumbers_none : ∀ {n p : Nat}, wholeNumbers d n p = none → ∃ k < n, ∃ vs q,
    wholeNumbers d k p = some (vs, q) ∧ wholeUleb d q = none
  | 0, _, h => by cases h
  | n + 1, p, h => by
    cases hv : wholeUleb d p with
    | none => exact ⟨0, succ_pos n, [], p, rfl, hv⟩
    | some vr =>
      obtain ⟨v, r⟩ := vr
      have hrest : wholeNumbers d n r = none := by
        cases hrest : wholeNumbers d n r with
        | none => rfl
        | some restq =>
          rw [wholeNumbers_cons hv hrest] at h
          cases h
      obtain ⟨k, hk, vs, q, hvs, hq⟩ := wholeNumbers_none hrest
      exact ⟨k + 1, succ_lt_succ hk, v :: vs, q, wholeNumbers_cons hv hvs, hq⟩

/-! ### Entries -/

/-- Entries whose numbers are whole are read from these. -/
theorem readLoop_whole (make : UInt32 → List UInt32 → α) (more : Nat) : ∀ {n p q : Nat} {vs : List UInt32} (idx : UInt32),
    wholeNumbers d (n * (more + 1)) p = some (vs, q) → ∃ entries, readLoop d make more n idx p = (entries, q) ∧
      entries.length = n ∧ ∀ i (h : i < entries.length), entries[i] =
        make (idx + ((List.range (i + 1)).map fun j => vs.getD (j * (more + 1)) 0).sum)
          ((vs.drop (i * (more + 1) + 1)).take more)
  | 0, p, q, vs, idx, h => by
    rw [Nat.zero_mul] at h
    cases h
    exact ⟨[], rfl, rfl, fun i hi => (nomatch hi)⟩
  | n + 1, p, q, vs, idx, h => by
    rw [succ_mul, Nat.add_comm, Nat.add_right_comm] at h
    obtain ⟨diff, r, tail, hdiff, htail, rfl⟩ := wholeNumbers_succ h
    obtain ⟨others, r', rest, hothers, hrest, rfl⟩ := wholeNumbers_add htail
    obtain ⟨entries, hread, hlen, hentries⟩ := readLoop_whole make more (idx + diff) hrest
    have hmore := wholeNumbers_length hothers
    refine ⟨make (idx + diff) others :: entries, ?_, congrArg (· + 1) hlen, fun i hi => ?_⟩
    · rw [readLoop, wholeUleb_some hdiff]
      dsimp only
      rw [wholeNumbers_some hothers]
      dsimp only
      rw [hread]
    · -- the numbers of the other entries come after the first entry's
      have hdrop : ∀ j, (diff :: (others ++ rest)).drop (j + (more + 1)) = rest.drop j := fun j => by
        rw [← Nat.add_assoc, drop_succ_cons, drop_append, drop_eq_nil_of_le (by omega), nil_append, hmore,
          Nat.add_sub_cancel]
      have hgetD : ∀ j, (diff :: (others ++ rest)).getD ((j + 1) * (more + 1)) 0 = rest.getD (j * (more + 1)) 0 := fun j => by
        rw [succ_mul, getD_eq_getElem?_getD, getD_eq_getElem?_getD, ← head?_drop, ← head?_drop, hdrop]
      have hfirst : (diff :: (others ++ rest)).getD (0 * (more + 1)) 0 = diff := by
        rw [Nat.zero_mul]
        rfl
      have htake : ((diff :: (others ++ rest)).drop (0 * (more + 1) + 1)).take more = others := by
        rw [Nat.zero_mul, Nat.zero_add, drop_succ_cons, drop_zero, ← hmore, take_left]
      cases i with
      | zero =>
        rw [htake, range_one, map_cons, map_nil, hfirst, sum_cons, sum_nil, UInt32.add_zero]
        rfl
      | succ i =>
        have hentry := hentries i (lt_of_succ_lt_succ hi)
        have hsum : ((List.range (i + 1 + 1)).map fun j => (diff :: (others ++ rest)).getD (j * (more + 1)) 0).sum =
            diff + ((List.range (i + 1)).map fun j => rest.getD (j * (more + 1)) 0).sum := by
          rw [@range_succ_eq_map (i + 1), map_cons, List.map_map, sum_cons, hfirst]
          exact congrArg (fun l => diff + List.sum l) (map_congr_left fun j _ => hgetD j)
        rw [getElem_cons_succ, hentry, hsum, succ_mul, Nat.add_right_comm, hdrop, UInt32.add_assoc]

theorem readEntries_some (make : UInt32 → List UInt32 → α) (more : Nat) (n : UInt32) (p : Nat) :
    ∃ r, readEntries d make more true n p = some r := by
  rw [readEntries]
  split <;> exact ⟨_, rfl⟩

theorem readEntries_whole (make : UInt32 → List UInt32 → α) (more : Nat) {n : UInt32} {p q : Nat}
    (h : wholeNumbers d (n.toNat * (more + 1)) p = some (vs, q)) :
      ∃ entries, readEntries d make more true n p = some (entries, q) ∧
      EntriesFrom make more vs (entries.getD []) ∧ (entries.getD []).length = n.toNat := by
  by_cases hzero : n = 0
  · subst hzero
    rw [show (0 : UInt32).toNat * (more + 1) = 0 from Nat.zero_mul _] at h
    cases h
    exact ⟨none, rfl, ⟨(Nat.zero_mul _).symm, fun i hi => (nomatch hi)⟩, rfl⟩
  · obtain ⟨entries, hread, hlen, hentries⟩ := readLoop_whole make more 0 h
    refine ⟨some entries, ?_, ⟨?_, fun i hi => ?_⟩, hlen⟩
    · rw [readEntries, if_neg hzero, Bool.not_true, if_neg Bool.false_ne_true, hread]
    · rw [getD_some, hlen]
      exact wholeNumbers_length h
    · rw [← UInt32.zero_add (List.sum _)]
      exact hentries i hi

theorem numbers_four (p : Nat) : numbers d 4 p =
    let a := dexUleb d p
    let b := dexUleb d a.2
    let e := dexUleb d b.2
    let f := dexUleb d e.2
    ([a.1, b.1, e.1, f.1], f.2) := rfl

theorem dexClassData_read {off a b e f : UInt32} {p p₁ p₂ p₃ p₄ : Nat} {alloc : Fin 4 → Bool}
    {l₁ l₂ : Option (List EncodedField)}
    {l₃ l₄ : Option (List EncodedMethod)} (h0 : off ≠ 0) (hlt : off.toNat < d.p.length)
    (hn : numbers d 4 off.toNat = ([a, b, e, f], p)) (hroom : entryCount [a, b, e, f] * 2 ≤ d.p.length - p)
    (h₁ : readFields d (alloc 0) a p = some (l₁, p₁)) (h₂ : readFields d (alloc 1) b p₁ = some (l₂, p₂))
    (h₃ : readMethods d (alloc 2) e p₂ = some (l₃, p₃)) (h₄ : readMethods d (alloc 3) f p₃ = some (l₄, p₄)) :
    dexClassData d alloc off = (true, ⟨a, b, e, f, l₁, l₂, l₃, l₄⟩) := by
  rw [numbers_four] at hn
  simp only [Prod.mk.injEq, List.cons.injEq, and_true] at hn
  obtain ⟨⟨rfl, rfl, rfl, rfl⟩, rfl⟩ := hn
  simp only [entryCount, map_cons, map_nil, sum_cons, sum_nil] at hroom
  rw [dexClassData, if_neg (not_or.2 ⟨h0, Nat.not_le.2 hlt⟩)]
  dsimp only
  rw [if_neg (by omega)]
  simp only [h₁, h₂, h₃, h₄, bind, Option.bind]

theorem dexClassData_accepts {off a b e f : UInt32} (hn : numbers d 4 off.toNat = ([a, b, e, f], p)) :
    (dexClassData d (fun _ => true) off).1 = true ↔
      off ≠ 0 ∧ off.toNat < d.p.length ∧ entryCount [a, b, e, f] * 2 ≤ d.p.length - p := by
  by_cases hin : off ≠ 0 ∧ off.toNat < d.p.length
  · by_cases hroom : entryCount [a, b, e, f] * 2 ≤ d.p.length - p
    · obtain ⟨⟨l₁, p₁⟩, h₁⟩ := @readEntries_some d _ mkField 1 a p
      obtain ⟨⟨l₂, p₂⟩, h₂⟩ := @readEntries_some d _ mkField 1 b p₁
      obtain ⟨⟨l₃, p₃⟩, h₃⟩ := @readEntries_some d _ mkMethod 2 e p₂
      obtain ⟨⟨l₄, p₄⟩, h₄⟩ := @readEntries_some d _ mkMethod 2 f p₃
      rw [@dexClassData_read d off a b e f p p₁ p₂ p₃ p₄ (fun _ => true) l₁ l₂ l₃ l₄ hin.1 hin.2 hn hroom h₁ h₂ h₃ h₄]
      exact iff_of_true rfl ⟨hin.1, hin.2, hroom⟩
    · refine iff_of_false ?_ fun hand => hroom hand.2.2
      rw [numbers_four] at hn
      simp only [Prod.mk.injEq, List.cons.injEq, and_true] at hn
      obtain ⟨⟨rfl, rfl, rfl, rfl⟩, rfl⟩ := hn
      simp only [entryCount, map_cons, map_nil, sum_cons, sum_nil] at hroom
      rw [dexClassData, if_neg (not_or.2 ⟨hin.1, Nat.not_le.2 hin.2⟩)]
      dsimp only
      rw [if_pos (by omega)]
      exact Bool.false_ne_true
  · refine iff_of_false ?_ fun hand => hin ⟨hand.1, hand.2.1⟩
    have hout : off = 0 ∨ d.p.length ≤ off.toNat := by
      by_contra hno
      rw [not_or, Nat.not_le] at hno
      exact hin hno
    rw [dexClassData, if_pos hout]
    exact Bool.false_ne_true

/-- What is not read leaves nothing, whichever array could not be allocated. -/
theorem dexClassData_false {alloc : Fin 4 → Bool} (h : (dexClassData d alloc off).1 = false) :
    (dexClassData d alloc off).2 = {} := by
  rw [dexClassData] at h ⊢
  split
  · rfl
  · rename_i hin
    rw [if_neg hin] at h
    dsimp only at h ⊢
    split
    · rfl
    · rename_i hroom
      rw [if_neg hroom] at h
      split
      · rfl
      · rename_i hread
        rw [hread] at h
        cases h

theorem four_counts {p q : Nat} {counts : List UInt32} (h : wholeNumbers d 4 p = some (counts, q)) :
    ∃ a b e f, counts = [a, b, e, f] := by
  obtain ⟨a, _, l₁, -, h₁, rfl⟩ := wholeNumbers_succ h
  obtain ⟨b, _, l₂, -, h₂, rfl⟩ := wholeNumbers_succ h₁
  obtain ⟨e, _, l₃, -, h₃, rfl⟩ := wholeNumbers_succ h₂
  obtain ⟨f, _, l₄, -, h₄, rfl⟩ := wholeNumbers_succ h₃
  cases h₄
  exact ⟨a, b, e, f, rfl⟩

theorem Whole.read (h : Whole d off) :
    (dexClassData d (fun _ => true) off).1 = true ∧ HoldsItem d off (dexClassData d (fun _ => true) off).2 := by
  obtain ⟨h0, counts, p, vs, q, hcounts, hentries⟩ := h
  obtain ⟨a, b, e, f, rfl⟩ := four_counts hcounts
  have hlt : off.toNat < d.p.length := by
    obtain ⟨_, r, _, hfirst, -, -⟩ := wholeNumbers_succ hcounts
    obtain ⟨hlow, hhigh⟩ := wholeLoop_bounds hfirst
    exact Nat.lt_of_lt_of_le hlow hhigh
  obtain ⟨-, hp⟩ := wholeNumbers_bounds (Nat.le_of_lt hlt) hcounts
  obtain ⟨hsum, hq⟩ := wholeNumbers_bounds hp hentries
  have hnumbers : entryNumbers [a, b, e, f] = a.toNat * 2 + b.toNat * 2 + e.toNat * 3 + f.toNat * 3 := by
    simp only [entryNumbers, getD_cons_zero, getD_cons_succ]
    omega
  have hroom : entryCount [a, b, e, f] * 2 ≤ d.p.length - p := by
    simp only [entryCount, map_cons, map_nil, sum_cons, sum_nil]
    omega
  rw [hnumbers] at hentries
  have hall := hentries
  obtain ⟨vs₃, p₃, v₄, hsplit₃, h₄, rfl⟩ := wholeNumbers_add hentries
  obtain ⟨vs₂, p₂, v₃, hsplit₂, h₃, rfl⟩ := wholeNumbers_add hsplit₃
  obtain ⟨v₁, p₁, v₂, h₁, h₂, rfl⟩ := wholeNumbers_add hsplit₂
  obtain ⟨l₁, hl₁, hfrom₁, hlen₁⟩ := readEntries_whole mkField 1 h₁
  obtain ⟨l₂, hl₂, hfrom₂, hlen₂⟩ := readEntries_whole mkField 1 h₂
  obtain ⟨l₃, hl₃, hfrom₃, hlen₃⟩ := readEntries_whole mkMethod 2 h₃
  obtain ⟨l₄, hl₄, hfrom₄, hlen₄⟩ := readEntries_whole mkMethod 2 h₄
  rw [@dexClassData_read d off a b e f p p₁ p₂ p₃ q (fun _ => true) l₁ l₂ l₃ l₄ h0 hlt (wholeNumbers_some hcounts)
    hroom hl₁ hl₂ hl₃ hl₄]
  refine ⟨rfl, p, v₁, v₂, v₃, v₄, q, hcounts, ?_, hfrom₁, hfrom₂, hfrom₃, hfrom₄, hlen₁, hlen₂, hlen₃, hlen₄⟩
  rw [wholeNumbers_length hall]
  exact hall

theorem entryCount_zeros : ∀ k, entryCount (replicate k 0) = 0
  | 0 => rfl
  | k + 1 => by
    rw [replicate_succ]
    exact (Nat.zero_add _).trans (entryCount_zeros k)

theorem zeros_of_entryCount : ∀ {vs : List UInt32}, entryCount vs = 0 → vs = replicate vs.length 0
  | [], _ => rfl
  | v :: vs, h => by
    obtain ⟨hv, hvs⟩ := Nat.add_eq_zero_iff.1 (show v.toNat + entryCount vs = 0 from h)
    obtain rfl := UInt32.toNat_inj.1 (show v.toNat = (0 : UInt32).toNat from hv)
    rw [length_cons, replicate_succ, ← zeros_of_entryCount hvs]

theorem entryCount_append (a b : List UInt32) : entryCount (a ++ b) = entryCount a + entryCount b := by
  rw [entryCount, map_append, sum_append_nat]
  rfl

theorem counts_cut {k p : Nat} (hk : k < 4) (h0 : off ≠ 0) (hlt : off.toNat < d.p.length)
    (hwhole : wholeNumbers d k off.toNat = some (vs, p)) (hnone : wholeUleb d p = none) :
    wholeNumbers d 4 off.toNat = none ∧ ((dexClassData d (fun _ => true) off).1 = true ↔ entryCount vs = 0) := by
  obtain ⟨n, hn⟩ : ∃ n, 4 = k + (n + 1) := ⟨3 - k, by omega⟩
  obtain ⟨-, hp⟩ := wholeNumbers_bounds (Nat.le_of_lt hlt) hwhole
  obtain ⟨hnot, hread⟩ := @numbers_cut d n p hp hnone k off.toNat vs hwhole
  rw [← hn] at hnot hread
  refine ⟨hnot, ?_⟩
  have hcount : entryCount (vs ++ replicate (n + 1) 0) = entryCount vs := by
    rw [entryCount_append, entryCount_zeros, Nat.add_zero]
  have hfour := hread
  rw [numbers_four] at hfour
  obtain ⟨hlist, -⟩ := Prod.mk.inj hfour
  rw [← hlist] at hread hcount
  rw [dexClassData_accepts hread, hcount, Nat.sub_self, le_zero, Nat.mul_eq_zero]
  constructor
  · rintro ⟨-, -, hzero | htwo⟩
    · exact hzero
    · cases htwo
  · exact fun hzero => ⟨h0, hlt, .inl hzero⟩

/-- Where the counts are whole, room for two bytes each is all that is asked for. -/
theorem counts_whole {counts : List UInt32} (hcounts : wholeNumbers d 4 off.toNat = some (counts, p)) :
    (dexClassData d (fun _ => true) off).1 = true ↔
      off ≠ 0 ∧ off.toNat < d.p.length ∧ entryCount counts * 2 ≤ d.p.length - p := by
  obtain ⟨a, b, e, f, rfl⟩ := four_counts hcounts
  exact dexClassData_accepts (wholeNumbers_some hcounts)

theorem accepted_inside (h : (dexClassData d (fun _ => true) off).1 = true) : off ≠ 0 ∧ off.toNat < d.p.length := by
  obtain ⟨h0, hlt, -⟩ := (dexClassData_accepts (numbers_four off.toNat)).1 h
  exact ⟨h0, hlt⟩

theorem accepted_whole (haccept : (dexClassData d (fun _ => true) off).1 = true) (hno : ¬CutOff d off.toNat) :
    Whole d off := by
  obtain ⟨h0, hlt⟩ := accepted_inside haccept
  cases hcounts : wholeNumbers d 4 off.toNat with
  | none =>
    obtain ⟨k, hk, vs, p, hwhole, hnone⟩ := wholeNumbers_none hcounts
    have hzeros := zeros_of_entryCount (((counts_cut hk h0 hlt hwhole hnone).2).1 haccept)
    rw [wholeNumbers_length hwhole] at hzeros
    rw [hzeros] at hwhole
    exact absurd (Or.inl ⟨k, hk, p, hwhole, hnone⟩) hno
  | some countsp =>
    obtain ⟨counts, p⟩ := countsp
    obtain ⟨-, -, hroom⟩ := (counts_whole hcounts).1 haccept
    cases hentries : wholeNumbers d (entryNumbers counts) p with
    | none => exact absurd (Or.inr ⟨counts, p, hcounts, hentries, hroom⟩) hno
    | some vsq => exact ⟨h0, counts, p, vsq.1, vsq.2, hcounts, hentries⟩

theorem CutOff.accepted (h0 : off ≠ 0) (hlt : off.toNat < d.p.length) (hcut : CutOff d off.toNat) :
    (dexClassData d (fun _ => true) off).1 = true ∧ ¬Whole d off := by
  rcases hcut with ⟨k, hk, p, hwhole, hnone⟩ | ⟨counts, p, hcounts, hentries, hroom⟩
  · obtain ⟨hnot, haccept⟩ := counts_cut hk h0 hlt hwhole hnone
    refine ⟨haccept.2 (entryCount_zeros k), ?_⟩
    rintro ⟨-, counts, p', vs, q, hcounts, -⟩
    rw [hnot] at hcounts
    cases hcounts
  · refine ⟨(counts_whole hcounts).2 ⟨h0, hlt, hroom⟩, ?_⟩
    rintro ⟨-, counts', p', vs, q, hcounts', hentries'⟩
    rw [hcounts] at hcounts'
    cases hcounts'
    rw [hentries] at hentries'
    cases hentries'

end

/-- Class data is read if and only if it is complete, with all that it holds, unless the image ends within the counts
    after zeros or within the entries with two bytes for each. -/
theorem class_data_whole (d : DexFile) (off : UInt32) :
    ReadsWhole d off ↔ ¬(off ≠ 0 ∧ off.toNat < d.p.length ∧ CutOff d off.toNat) := by
  constructor
  · rintro ⟨hiff, -, -⟩ ⟨h0, hlt, hcut⟩
    obtain ⟨haccept, hnot⟩ := hcut.accepted h0 hlt
    exact hnot (hiff.1 haccept)
  · intro hno
    have hwhole : (dexClassData d (fun _ => true) off).1 = true → Whole d off := fun haccept =>
      have ⟨h0, hlt⟩ := accepted_inside haccept
      accepted_whole haccept fun hcut => hno ⟨h0, hlt, hcut⟩
    exact ⟨⟨hwhole, fun h => h.read.1⟩, fun haccept => (hwhole haccept).read.2, fun alloc => dexClassData_false⟩

/-- An image of nothing but what is read. -/
def bytesOf (p : List UInt8) : DexFile := ⟨p, 0, 0, 0, 0, 0, 0, 0, 0, 0, 0, 0, 0⟩

/-- One static field whose flags are missing: it is read, with no flags. -/
theorem class_data_cut_off :
    dexClassData (bytesOf [0, 1, 0, 0, 0, 0x85, 0x80]) (fun _ => true) 1 =
      (true, { staticFieldsSize := 1, staticFields := some [⟨0, 0⟩] }) ∧
    ¬ReadsWhole (bytesOf [0, 1, 0, 0, 0, 0x85, 0x80]) 1 := by
  have hcounts : wholeNumbers (bytesOf [0, 1, 0, 0, 0, 0x85, 0x80]) 4 1 = some ([1, 0, 0, 0], 5) := by decide
  have hnone : wholeNumbers (bytesOf [0, 1, 0, 0, 0, 0x85, 0x80]) 2 5 = none := by decide
  refine ⟨by decide, fun h => ?_⟩
  obtain ⟨haccept, hnot⟩ := @CutOff.accepted (bytesOf [0, 1, 0, 0, 0, 0x85, 0x80]) 1 (by decide) (by decide)
    (.inr ⟨_, _, hcounts, hnone, by decide⟩)
  exact hnot (h.1.1 haccept)

end Lunaria.Dvm.Dex
