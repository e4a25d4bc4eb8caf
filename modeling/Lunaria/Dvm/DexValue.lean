import Lunaria.Dvm.Dex

/-! Encoded values of a dex image, which are skipped by one walker and read by another. Both go down one level for an
    array or an annotation; the first gives up at the end of the image, the second stops there. -/

namespace Lunaria.Dvm.Dex

/-- `struct dex_value`: its type, which need not be one that is known, and its bits. -/
structure DexValue where
  type : UInt8
  bits : UInt64
  deriving DecidableEq

def valueShort : UInt8 := 0x02

def valueInt : UInt8 := 0x04

def valueLong : UInt8 := 0x06

def valueFloat : UInt8 := 0x10

def valueDouble : UInt8 := 0x11

def valueArray : UInt8 := 0x1c

def valueAnnotation : UInt8 := 0x1d

def valueNull : UInt8 := 0x1e

def valueBoolean : UInt8 := 0x1f

/-! ### Skipping -/

/-- The elements of an array, or those of an annotation with the index of a name before each. -/
def skipElements (d : DexFile) (named : Bool) (skip : Nat → Option (Option Nat)) : Nat → Nat → Option (Option Nat)
  | 0, p => some (some p)
  | n + 1, p =>
    let q := if named then (dexUleb d p).2 else p
    if named ∧ (q ≤ p ∨ d.p.length < q) then some none
    else
      match skip q with
      | some (some p) => skipElements d named skip n p
      | r => r

/-- `dex_skip_value`, down to a depth: nothing where it is not enough, no offset where the value is refused. -/
def dexSkipValue (d : DexFile) : Nat → Nat → Option (Option Nat)
  | 0, _ => none
  | depth + 1, p =>
    match d.p[p]? with
    | none => some none
    | some hdr =>
      let p := p + 1
      let type := hdr &&& 0x1f
      if type = valueNull ∨ type = valueBoolean then some (some p)
      else if type = valueArray then
        let (n, q) := dexUleb d p
        if q ≤ p ∨ d.p.length < q then some none else skipElements d false (dexSkipValue d depth) n.toNat q
      else if type = valueAnnotation then
        let (n, q) := dexUleb d (dexUleb d p).2
        if q ≤ p ∨ d.p.length < q then some none else skipElements d true (dexSkipValue d depth) n.toNat q
      else
        let n := (hdr >>> 5).toNat + 1
        if d.p.length < p ∨ d.p.length - p < n then some none else some (some (p + n))

/-! ### Reading -/

def readElements (d : DexFile) (named : Bool) (read : Nat → Option (Nat × DexValue)) : Nat → Nat → Option Nat
  | 0, q => some q
  | n + 1, q =>
    if d.p.length ≤ q then some q
    else
      match read (if named then (dexUleb d q).2 else q) with
      | some (q, _) => readElements d named read n q
      | none => none

/-- The bits of a value of so many bytes. -/
def valueBits (type : UInt8) (size : Nat) (raw : UInt64) : UInt64 :=
  if type = 0 ∨ type = valueShort ∨ type = valueInt ∨ type = valueLong then
    let bits := size * 8
    if bits < 64 ∧ raw >>> UInt64.ofNat (bits - 1) &&& 1 ≠ 0 then raw ||| ~~~0 <<< UInt64.ofNat bits else raw
  else if type = valueFloat then raw <<< (32 - UInt32.ofNat (size * 8)).toUInt64
  else if type = valueDouble then raw <<< UInt64.ofNat (64 - size * 8)
  else raw

/-- `dex_read_value`, down to a depth: the offset after the value, and the value. -/
def dexReadValue (d : DexFile) : Nat → Nat → Option (Nat × DexValue)
  | 0, _ => none
  | depth + 1, p =>
    match d.p[p]? with
    | none => some (p, ⟨valueNull, 0⟩)
    | some hdr =>
      let p := p + 1
      let type := hdr &&& 0x1f
      let size := (hdr >>> 5).toNat + 1
      if type = valueNull then some (p, ⟨type, 0⟩)
      else if type = valueBoolean then some (p, ⟨type, (hdr >>> 5 &&& 1).toUInt64⟩)
      else if type = valueArray then
        let (n, q) := dexUleb d p
        (readElements d false (dexReadValue d depth) n.toNat q).map fun q => (q, ⟨type, UInt64.ofNat p⟩)
      else if type = valueAnnotation then
        let (n, q) := dexUleb d (dexUleb d p).2
        (readElements d true (dexReadValue d depth) n.toNat q).map fun q => (q, ⟨type, UInt64.ofNat p⟩)
      else if 8 < size ∨ d.p.length < p + size then some (d.p.length, ⟨valueNull, 0⟩)
      else
        let raw : UInt64 :=
          List.foldr (fun (b : UInt8) (raw : UInt64) => b.toUInt64 ||| raw <<< 8) 0 ((d.p.drop p).take size)
        some (p + size, ⟨type, valueBits type size raw⟩)

/-! ### The same offsets -/

section
variable {d : DexFile} {skip : Nat → Option (Option Nat)} {read : Nat → Option (Nat × DexValue)}

/-- Where all elements are skipped they are read, up to the same offset. -/
theorem skipElements_read (named : Bool)
    (h : ∀ p p', skip p = some (some p') → (∃ v, read p = some (p', v)) ∧ p < p' ∧ p' ≤ d.p.length) :
    ∀ n p p', p ≤ d.p.length → skipElements d named skip n p = some (some p') →
      readElements d named read n p = some p' ∧ p ≤ p' ∧ p' ≤ d.p.length
  | 0, p, p', hp, hskip => by
    cases hskip
    exact ⟨rfl, Nat.le_refl p, hp⟩
  | n + 1, p, p', hp, hskip => by
    rw [skipElements] at hskip
    rw [readElements]
    generalize hq : (if named = true then (dexUleb d p).2 else p) = q at hskip ⊢
    split at hskip
    · cases hskip
    · rename_i hnext
      have hpq : p ≤ q := by
        cases named with
        | true => exact Nat.le_of_not_le fun hle => hnext ⟨rfl, .inl hle⟩
        | false => exact Nat.le_of_eq hq
      cases hs : skip q with
      | none =>
        rw [hs] at hskip
        cases hskip
      | some r =>
        cases r with
        | none =>
          rw [hs] at hskip
          cases hskip
        | some p₁ =>
          rw [hs] at hskip
          obtain ⟨⟨v, hread⟩, hlt, hle⟩ := h _ _ hs
          obtain ⟨hrest, hlow, hhigh⟩ := skipElements_read named h n p₁ p' hle hskip
          refine ⟨?_, by omega, hhigh⟩
          rw [if_neg (by omega), hread]
          exact hrest

end

theorem dexSkipValue_read (d : DexFile) : ∀ depth p p', dexSkipValue d depth p = some (some p') →
    (∃ v, dexReadValue d depth p = some (p', v)) ∧ p < p' ∧ p' ≤ d.p.length
  | 0, _, _, h => by cases h
  | depth + 1, p, p', h => by
    have ih := dexSkipValue_read d depth
    rw [dexSkipValue] at h
    rw [dexReadValue]
    cases hb : d.p[p]? with
    | none =>
      rw [hb] at h
      cases h
    | some hdr =>
      rw [hb] at h
      have hp : p < d.p.length := (List.getElem?_eq_some_iff.1 hb).1
      dsimp only at h ⊢
      have hbits : (hdr >>> 5).toNat < 8 := by
        rw [UInt8.toNat_shiftRight]
        have := hdr.toNat_lt
        simp only [UInt8.reduceToNat, Nat.reduceMod, Nat.shiftRight_eq_div_pow]
        omega
      by_cases htype : hdr &&& 31 = valueNull ∨ hdr &&& 31 = valueBoolean
      · rw [if_pos htype] at h
        cases h
        refine ⟨?_, Nat.lt_succ_self p, hp⟩
        rcases htype with htype | htype
        · rw [if_pos htype]
          exact ⟨_, rfl⟩
        · rw [if_neg (by rw [htype]; decide), if_pos htype]
          exact ⟨_, rfl⟩
      rw [if_neg htype] at h
      rw [not_or] at htype
      rw [if_neg htype.1, if_neg htype.2]
      split_ifs at h with harray hq hannotation hq hsize
      · cases h
      · obtain ⟨hread, hlow, hhigh⟩ := skipElements_read false ih _ _ _ (by omega) h
        rw [if_pos harray, hread]
        exact ⟨⟨_, rfl⟩, by omega, hhigh⟩
      · cases h
      · obtain ⟨hread, hlow, hhigh⟩ := skipElements_read true ih _ _ _ (by omega) h
        rw [if_neg harray, if_pos hannotation, hread]
        exact ⟨⟨_, rfl⟩, by omega, hhigh⟩
      · cases h
      · cases h
        rw [if_neg harray, if_neg hannotation, if_neg (by omega)]
        exact ⟨⟨_, rfl⟩, by omega, by omega⟩

/-! ### Both end -/

section
variable {d : DexFile} {named : Bool}

theorem skipElements_ends {skip : Nat → Option (Option Nat)} {start : Nat}
    (h : ∀ q, start ≤ q → ∃ r, skip q = some r ∧ ∀ p ∈ r, q < p) :
    ∀ n p, start ≤ p → ∃ r, skipElements d named skip n p = some r
  | 0, p, _ => ⟨some p, rfl⟩
  | n + 1, p, hp => by
    rw [skipElements]
    generalize hq : (if named = true then (dexUleb d p).2 else p) = q
    have hoff := dexUleb_off d p
    have hpq : start ≤ q := by
      rw [← hq]
      split <;> omega
    split
    · exact ⟨none, rfl⟩
    · obtain ⟨r, hr, hlt⟩ := h q hpq
      rw [hr]
      cases r with
      | none => exact ⟨none, rfl⟩
      | some p₁ => exact skipElements_ends h n p₁ (Nat.le_of_lt (Nat.lt_of_le_of_lt hpq (hlt p₁ rfl)))

theorem readElements_ends {read : Nat → Option (Nat × DexValue)} {start : Nat}
    (h : ∀ q, start ≤ q → ∃ p v, read q = some (p, v) ∧ q ≤ p) :
    ∀ n q, start ≤ q → ∃ p, readElements d named read n q = some p ∧ q ≤ p
  | 0, q, _ => ⟨q, rfl, Nat.le_refl q⟩
  | n + 1, q, hstart => by
    rw [readElements]
    generalize hq : (if named = true then (dexUleb d q).2 else q) = q'
    have hoff := dexUleb_off d q
    have hle : q ≤ q' := by
      rw [← hq]
      split <;> omega
    split
    · exact ⟨q, rfl, Nat.le_refl q⟩
    · obtain ⟨p₁, v, hread, hnext⟩ := h q' (Nat.le_trans hstart hle)
      obtain ⟨p, hrest, hlast⟩ := readElements_ends h n p₁ (by omega)
      rw [hread]
      exact ⟨p, hrest, by omega⟩

/-- As many levels as there are bytes left are enough. -/
theorem dexSkipValue_ends (d : DexFile) : ∀ depth p, d.p.length - p < depth → ∃ r, dexSkipValue d depth p = some r
  | 0, _, h => absurd h (Nat.not_lt_zero _)
  | depth + 1, p, h => by
    rw [dexSkipValue]
    cases hb : d.p[p]? with
    | none => exact ⟨none, rfl⟩
    | some hdr =>
      have hp : p < d.p.length := (List.getElem?_eq_some_iff.1 hb).1
      have hinner : ∀ q, p + 1 ≤ q → ∃ r, dexSkipValue d depth q = some r ∧ ∀ p' ∈ r, q < p' := by
        intro q hq
        obtain ⟨r, hr⟩ := dexSkipValue_ends d depth q (by omega)
        refine ⟨r, hr, fun p' hp' => ?_⟩
        obtain rfl := Option.mem_def.1 hp'
        exact (dexSkipValue_read d depth q p' hr).2.1
      have hoff := dexUleb_off d (p + 1)
      have hoff' := dexUleb_off d (dexUleb d (p + 1)).2
      dsimp only
      split_ifs with htype harray hcount hannotation hcount hlast
      · exact ⟨_, rfl⟩
      · exact ⟨_, rfl⟩
      · exact skipElements_ends hinner _ _ hoff
      · exact ⟨_, rfl⟩
      · exact skipElements_ends hinner _ _ (Nat.le_trans hoff hoff')
      · exact ⟨_, rfl⟩
      · exact ⟨_, rfl⟩

theorem dexReadValue_ends (d : DexFile) : ∀ depth p, d.p.length - p < depth →
    ∃ q v, dexReadValue d depth p = some (q, v) ∧ p ≤ q
  | 0, _, h => absurd h (Nat.not_lt_zero _)
  | depth + 1, p, h => by
    rw [dexReadValue]
    cases hb : d.p[p]? with
    | none => exact ⟨p, _, rfl, Nat.le_refl p⟩
    | some hdr =>
      have hp : p < d.p.length := (List.getElem?_eq_some_iff.1 hb).1
      have hinner : ∀ q, p + 1 ≤ q → ∃ q' v, dexReadValue d depth q = some (q', v) ∧ q ≤ q' := fun q hq =>
        dexReadValue_ends d depth q (by omega)
      have hoff := dexUleb_off d (p + 1)
      have hoff' := dexUleb_off d (dexUleb d (p + 1)).2
      dsimp only
      split_ifs with hnull hboolean harray hannotation hlast
      · exact ⟨p + 1, _, rfl, Nat.le_succ p⟩
      · exact ⟨p + 1, _, rfl, Nat.le_succ p⟩
      · obtain ⟨q, hq, hle⟩ := @readElements_ends d false _ _ hinner (dexUleb d (p + 1)).1.toNat _ hoff
        rw [hq]
        exact ⟨q, _, rfl, by omega⟩
      · obtain ⟨q, hq, hle⟩ := @readElements_ends d true _ _ hinner (dexUleb d (dexUleb d (p + 1)).2).1.toNat _
          (Nat.le_trans hoff hoff')
        rw [hq]
        exact ⟨q, _, rfl, by omega⟩
      · exact ⟨d.p.length, _, rfl, Nat.le_of_lt hp⟩
      · exact ⟨_, _, rfl, by omega⟩

/-! ### More depth changes nothing -/

theorem skipElements_deeper {skip skip' : Nat → Option (Option Nat)} (h : ∀ q r, skip q = some r → skip' q = some r) :
    ∀ n p r, skipElements d named skip n p = some r → skipElements d named skip' n p = some r
  | 0, _, _, hskip => hskip
  | n + 1, p, r, hskip => by
    rw [skipElements] at hskip ⊢
    generalize (if named = true then (dexUleb d p).2 else p) = q at hskip ⊢
    split_ifs at hskip ⊢ with hno
    · exact hskip
    · cases hs : skip q with
      | none =>
        rw [hs] at hskip
        cases hskip
      | some r₁ =>
        rw [hs] at hskip
        rw [h q r₁ hs]
        cases r₁ with
        | none => exact hskip
        | some p₁ => exact skipElements_deeper h n p₁ r hskip

theorem readElements_deeper {read read' : Nat → Option (Nat × DexValue)} (h : ∀ q r, read q = some r → read' q = some r) :
    ∀ n q p, readElements d named read n q = some p → readElements d named read' n q = some p
  | 0, _, _, hread => hread
  | n + 1, q, p, hread => by
    rw [readElements] at hread ⊢
    generalize (if named = true then (dexUleb d q).2 else q) = q' at hread ⊢
    split_ifs at hread ⊢ with hend
    · exact hread
    · cases hr : read q' with
      | none =>
        rw [hr] at hread
        cases hread
      | some r =>
        rw [hr] at hread
        rw [h q' r hr]
        exact readElements_deeper h n r.1 p hread

theorem dexSkipValue_succ (d : DexFile) : ∀ depth p r, dexSkipValue d depth p = some r →
    dexSkipValue d (depth + 1) p = some r
  | 0, _, _, h => by cases h
  | depth + 1, p, r, h => by
    have ih := dexSkipValue_succ d depth
    rw [dexSkipValue] at h ⊢
    cases hb : d.p[p]? with
    | none =>
      rw [hb] at h
      exact h
    | some hdr =>
      rw [hb] at h
      dsimp only at h ⊢
      split_ifs at h ⊢ with htype harray hcount hannotation hcount hlast
      · exact h
      · exact h
      · exact skipElements_deeper ih _ _ _ h
      · exact h
      · exact skipElements_deeper ih _ _ _ h
      · exact h
      · exact h

theorem dexReadValue_succ (d : DexFile) : ∀ depth p r, dexReadValue d depth p = some r →
    dexReadValue d (depth + 1) p = some r
  | 0, _, _, h => by cases h
  | depth + 1, p, r, h => by
    have ih := dexReadValue_succ d depth
    rw [dexReadValue] at h ⊢
    cases hb : d.p[p]? with
    | none =>
      rw [hb] at h
      exact h
    | some hdr =>
      rw [hb] at h
      dsimp only at h ⊢
      split_ifs at h ⊢ with hnull hboolean harray hannotation hlast
      · exact h
      · exact h
      · obtain ⟨q, hq, hr⟩ := Option.map_eq_some_iff.1 h
        rw [readElements_deeper ih _ _ _ hq, ← hr]
        rfl
      · obtain ⟨q, hq, hr⟩ := Option.map_eq_some_iff.1 h
        rw [readElements_deeper ih _ _ _ hq, ← hr]
        rfl
      · exact h
      · exact h

theorem dexSkipValue_deeper {p : Nat} {r : Option Nat} {depth : Nat} (h : dexSkipValue d depth p = some r) {depth' : Nat}
    (hle : depth ≤ depth') : dexSkipValue d depth' p = some r := by
  induction hle with
  | refl => exact h
  | step _ ih => exact dexSkipValue_succ d _ p r ih

theorem dexReadValue_deeper {p : Nat} {r : Nat × DexValue} {depth : Nat} (h : dexReadValue d depth p = some r)
    {depth' : Nat} (hle : depth ≤ depth') : dexReadValue d depth' p = some r := by
  induction hle with
  | refl => exact h
  | step _ ih => exact dexReadValue_succ d _ p r ih

end

/-- Both walkers end, with one result from some depth on. Where a value is skipped, reading it leads to the same offset,
    which is after its start and in the image. -/
theorem skip_agrees_read (d : DexFile) (p : Nat) : ∃ r q v,
    (∀ depth, d.p.length - p < depth → dexSkipValue d depth p = some r ∧ dexReadValue d depth p = some (q, v)) ∧
    ∀ p' ∈ r, q = p' ∧ p < p' ∧ p' ≤ d.p.length := by
  obtain ⟨r, hr⟩ := dexSkipValue_ends d (d.p.length - p + 1) p (Nat.lt_succ_self _)
  obtain ⟨q, v, hq, -⟩ := dexReadValue_ends d (d.p.length - p + 1) p (Nat.lt_succ_self _)
  refine ⟨r, q, v, fun depth hdepth => ⟨dexSkipValue_deeper hr hdepth, dexReadValue_deeper hq hdepth⟩, fun p' hp' => ?_⟩
  obtain rfl := Option.mem_def.1 hp'
  obtain ⟨⟨v', hread⟩, hlt, hle⟩ := dexSkipValue_read d _ p p' hr
  rw [hq] at hread
  exact ⟨(Prod.mk.inj (Option.some.inj hread)).1, hlt, hle⟩

/-- An array of a null and of an array of a byte. -/
example : (dexSkipValue ⟨[0x1c, 2, 0x1e, 0x1c, 1, 0x00, 7], 0, 0, 0, 0, 0, 0, 0, 0, 0, 0, 0, 0⟩ 3 0,
    (dexReadValue ⟨[0x1c, 2, 0x1e, 0x1c, 1, 0x00, 7], 0, 0, 0, 0, 0, 0, 0, 0, 0, 0, 0, 0⟩ 3 0).map Prod.fst) =
    (some (some 7), some 7) := by
  decide

end Lunaria.Dvm.Dex
