import Mathlib.Data.List.TakeWhile
import Lunaria.Vm.PageTable

/-! The A32 guest's mapping table `luna_vma_table` as a partial function of pages: what mapping, unmapping and protecting a
    range do to it. -/

namespace Lunaria.Vm
open Spans
open List hiding set insert

/-! ### The table -/

/-- `struct luna_vma_table`: the entries, and how many there is room for. -/
structure VmaTable where
  v : List Mapping
  cap : Nat
deriving DecidableEq

/-- The loop of `luna_vma_splice` that doubles the room. -/
def growCap (need : Nat) : Nat → Nat → Nat
  | 0, cap => cap
  | fuel + 1, cap => if cap < need then growCap need fuel (cap * 2) else cap

/-- `alloc` says whether the entries can be moved to more room; where they cannot, the table is as it was. -/
def lunaVmaSplice (alloc : Nat → Bool) (t : VmaTable) (place del : Nat) (new : List Mapping) : Option VmaTable :=
  let need := t.v.length - del + new.length
  let v := t.v.take place ++ new ++ t.v.drop (place + del)
  if t.cap < need then
    let cap := growCap need need (if t.cap = 0 then 64 else t.cap * 2)
    if alloc cap then some ⟨v, cap⟩ else none
  else some ⟨v, t.cap⟩

/-- What an entry that starts before the range leaves in front of it. -/
def leftPiece (lo : Nat) (m : Mapping) : List Mapping := if m.lo < lo then [{ m with hi := lo }] else []

/-- What an entry that ends after the range leaves behind it. -/
def rightPiece (hi : Nat) (m : Mapping) : List Mapping := if hi < m.hi then [{ m with lo := hi }] else []

def lunaVmaMap (alloc : Nat → Bool) (t : VmaTable) (lo hi : Nat) (set : Bool) (prot : BitVec 32) (fileBacked : Bool) :
    VmaTable × Int :=
  if hi ≤ lo then (t, 0)
  else
    let first := (t.v.takeWhile fun m => decide (m.hi ≤ lo)).length
    let cut := (t.v.drop first).takeWhile fun m => decide (m.lo < hi)
    let left := (cut.head?.map (leftPiece lo)).getD []
    let mid := if set then [⟨lo, hi, prot, true, fileBacked⟩] else []
    let right := (cut.getLast?.map (rightPiece hi)).getD []
    match lunaVmaSplice alloc t first cut.length (left ++ mid ++ right) with
    | some t => (t, 0)
    | none => (t, -1)

/-- The walk of `luna_vma_covered` over the entries. -/
def coveredLoop (hi : Nat) : List Mapping → Nat → Bool
  | [], lo => hi ≤ lo
  | m :: maps, lo => if lo < hi then (if lo < m.lo then false else coveredLoop hi maps m.hi) else true

def lunaVmaCovered (t : VmaTable) (lo hi : Nat) : Bool := coveredLoop hi (t.v.dropWhile fun m => decide (m.hi ≤ lo)) lo

/-- The loop of `luna_vma_protect`, from the entry below `i` down. -/
def protectLoop (alloc : Nat → Bool) (lo hi : Nat) (prot : BitVec 32) : Nat → VmaTable → VmaTable × Int
  | 0, t => (t, 0)
  | i + 1, t =>
    match t.v[i]? with
    | none => (t, 0)
    | some m =>
      if m.hi ≤ lo ∨ hi ≤ m.lo ∨ m.prot = prot then protectLoop alloc lo hi prot i t
      else
        let clo := if lo < m.lo then m.lo else lo
        let chi := if m.hi < hi then m.hi else hi
        match lunaVmaSplice alloc t i 1 ((if m.lo < clo then [{ m with hi := clo }] else []) ++
            [{ m with lo := clo, hi := chi, prot }] ++ if chi < m.hi then [{ m with lo := chi }] else []) with
        | some t => protectLoop alloc lo hi prot i t
        | none => (t, -1)

def lunaVmaProtect (alloc : Nat → Bool) (t : VmaTable) (lo hi : Nat) (prot : BitVec 32) : VmaTable × Int :=
  protectLoop alloc lo hi prot t.v.length t

/-! ### What the calls mean -/

/-- A call that changes the table. -/
inductive VmaCall
  | map (lo hi : Nat) (set : Bool) (prot : BitVec 32) (fileBacked : Bool)
  | protect (lo hi : Nat) (prot : BitVec 32)
deriving DecidableEq

/-- A call that is given all the room it asks for. -/
def VmaCall.run (t : VmaTable) : VmaCall → VmaTable
  | .map lo hi set prot fileBacked => (lunaVmaMap (fun _ => true) t lo hi set prot fileBacked).1
  | .protect lo hi prot => (lunaVmaProtect (fun _ => true) t lo hi prot).1

/-- What a call makes of a partial function of addresses. -/
def VmaCall.meaning (f : Nat → Option (BitVec 32 × Bool)) : VmaCall → Nat → Option (BitVec 32 × Bool)
  | .map lo hi set prot fileBacked, x => if lo ≤ x ∧ x < hi then (if set then some (prot, fileBacked) else none) else f x
  | .protect lo hi prot, x => if lo ≤ x ∧ x < hi then (f x).map fun r => (prot, r.2) else f x

/-- A range to protect is not empty. -/
def VmaCall.Proper : VmaCall → Prop
  | .map .. => True
  | .protect lo hi _ => lo < hi

/-- The ends of the range are ends of pages. -/
def VmaCall.Paged : VmaCall → Prop
  | .map lo hi .. => 4096 ∣ lo ∧ 4096 ∣ hi
  | .protect lo hi _ => 4096 ∣ lo ∧ 4096 ∣ hi

/-- The rights at an address and whether there is a file behind it. -/
def VmaTable.entryAt (t : VmaTable) (x : Nat) : Option (BitVec 32 × Bool) :=
  (attrAt t.v x).map fun r => (r.prot, r.fileBacked)

/-! ### Mapping -/

section Map
variable {alloc : Nat → Bool} {t t' : VmaTable} {place del lo hi : Nat} {new : List Mapping} {prot : BitVec 32}
    {set fileBacked : Bool}

theorem lunaVmaSplice_v (h : lunaVmaSplice alloc t place del new = some t') :
    t'.v = t.v.take place ++ new ++ t.v.drop (place + del) := by
  unfold lunaVmaSplice at h
  dsimp only at h
  split_ifs at h <;> exact (Option.some.inj h) ▸ rfl

theorem exists_splice (t : VmaTable) (place del : Nat) (new : List Mapping) :
    ∃ t', lunaVmaSplice (fun _ => true) t place del new = some t' := by
  unfold lunaVmaSplice
  dsimp only
  by_cases h : t.cap < t.v.length - del + new.length
  · rw [if_pos h, if_pos rfl]
    exact ⟨_, rfl⟩
  · rw [if_neg h]
    exact ⟨_, rfl⟩

/-- The entries before the range, those it meets and those after it. -/
structure Cut (lo hi : Nat) (before cut after : List Mapping) : Prop where
  before : ∀ m ∈ before, m.hi ≤ lo
  met : ∀ m ∈ cut, lo < m.hi ∧ m.lo < hi
  after : ∀ m ∈ after, hi ≤ m.lo

/-- From the first entry that ends after an address on, all do. -/
theorem lt_of_mem_dropWhile {maps : List Mapping} (h : Ordered maps) : ∀ m ∈ maps.dropWhile (fun m => decide (m.hi ≤ lo)),
    lo < m.hi := by
  intro m hm
  have hd := h.sublist (dropWhile_sublist fun m => decide (m.hi ≤ lo))
  cases hcases : maps.dropWhile fun m => decide (m.hi ≤ lo) with
  | nil =>
    rw [hcases] at hm
    cases hm
  | cons a l =>
    have ha : lo < a.hi := by
      have := head_dropWhile_not (fun m : Mapping => decide (m.hi ≤ lo)) (l := maps) (by rw [hcases]; simp)
      simpa [hcases] using this
    rw [hcases] at hm hd
    rcases List.mem_cons.1 hm with rfl | hm
    · exact ha
    · have := hd.head_le m hm
      have := hd.tail.nonempty m hm
      omega

theorem exists_cut (h : Ordered t.v) :
    ∃ before cut after, t.v = before ++ (cut ++ after) ∧ Cut lo hi before cut after ∧
      (t.v.takeWhile fun m => decide (m.hi ≤ lo)).length = before.length ∧
      ((t.v.drop before.length).takeWhile fun m => decide (m.lo < hi)) = cut := by
  have hsplit := takeWhile_append_dropWhile (p := fun m : Mapping => decide (m.hi ≤ lo)) (l := t.v)
  have hsplit' := takeWhile_append_dropWhile (p := fun m : Mapping => decide (m.lo < hi))
    (l := t.v.dropWhile fun m => decide (m.hi ≤ lo))
  have hord := hsplit ▸ h
  refine ⟨t.v.takeWhile fun m => decide (m.hi ≤ lo), _, _, by rw [hsplit', hsplit], ⟨fun m hm => ?_, fun m hm => ?_, ?_⟩,
    rfl, ?_⟩
  · simpa using mem_takeWhile_imp hm
  · exact ⟨lt_of_mem_dropWhile h m (( takeWhile_prefix _).subset hm), by simpa using mem_takeWhile_imp hm⟩
  · exact (hord.sublist (sublist_append_right _ _)).le_of_mem_dropWhile
  · have hdrop : t.v.drop (t.v.takeWhile fun m => decide (m.hi ≤ lo)).length = t.v.dropWhile fun m =>
        decide (m.hi ≤ lo) := by
      conv_lhs => arg 2; rw [← hsplit]
      exact drop_left
    rw [hdrop]

theorem removeEntry_eq {m : Mapping} (h : lo < m.hi ∧ m.lo < hi) : removeEntry lo hi m = leftPiece lo m ++
    rightPiece hi m := by
  unfold removeEntry leftPiece rightPiece
  dsimp only
  have hlo : m.lo < max m.lo lo ↔ m.lo < lo := by omega
  have hhi : min m.hi hi < m.hi ↔ hi < m.hi := by omega
  rw [if_neg (by omega)]
  simp only [hlo, hhi]
  by_cases hl : m.lo < lo <;> by_cases hr : hi < m.hi
  · rw [if_pos ⟨hl, hr⟩, if_pos hl, if_pos hr, Nat.max_eq_right hl.le, Nat.min_eq_right hr.le]
    rfl
  · rw [if_neg (fun h => hr h.2), if_pos hl, if_pos hl, if_neg hr, Nat.max_eq_right hl.le]
    rfl
  · rw [if_neg (fun h => hl h.1), if_neg hl, if_pos hr, if_neg hl, if_pos hr, Nat.min_eq_right hr.le]
    rfl
  · rw [if_neg (fun h => hl h.1), if_neg hl, if_neg hr, if_neg hl, if_neg hr]
    rfl

theorem flatMap_removeEntry : ∀ {cut : List Mapping}, Ordered cut → (∀ m ∈ cut, lo < m.hi ∧ m.lo < hi) →
    cut.flatMap (removeEntry lo hi) =
      (cut.head?.map (leftPiece lo)).getD [] ++ (cut.getLast?.map (rightPiece hi)).getD []
  | [], _, _ => rfl
  | [m], _, hmet => by
    rw [flatMap_singleton, removeEntry_eq (hmet m mem_cons_self)]
    rfl
  | m :: m' :: cut, h, hmet => by
    have hm := hmet m mem_cons_self
    have hm' := hmet m' (by simp)
    have hle := h.head_le m' mem_cons_self
    -- the first entry ends in the range, and the second starts in it
    have hright : rightPiece hi m = [] := if_neg (by omega)
    have hleft : leftPiece lo m' = [] := if_neg (by omega)
    rw [flatMap_cons, flatMap_removeEntry h.tail fun b hb => hmet b (mem_cons_of_mem _ hb), removeEntry_eq hm, hright,
      append_nil, getLast?_cons_cons, head?_cons, head?_cons, Option.map_some, Option.map_some,
      Option.getD_some, Option.getD_some, hleft, nil_append]

theorem flatMap_removeEntry_apart {l : List Mapping} (h : ∀ m ∈ l, m.hi ≤ lo ∨ hi ≤ m.lo) :
    l.flatMap (removeEntry lo hi) = l := by
  induction l with
  | nil => rfl
  | cons m l ih =>
    rw [flatMap_cons, ih fun b hb => h b (mem_cons_of_mem _ hb), removeEntry, if_pos (h m mem_cons_self)]
    rfl

/-- Mapping and unmapping remove the range first; a mapping is put where the range was. -/
theorem lunaVmaMap_v (h : Ordered t.v) (hlt : lo < hi) :
    ∃ pre post, a64MapRemove t.v lo hi = pre ++ post ∧ (∀ m ∈ pre, m.hi ≤ lo) ∧ (∀ m ∈ post, hi ≤ m.lo) ∧
      (lunaVmaMap (fun _ => true) t lo hi set prot fileBacked).1.v =
        pre ++ ((if set then [⟨lo, hi, prot, true, fileBacked⟩] else []) ++ post) := by
  obtain ⟨before, cut, after, hv, hcut, hfirst, hmid⟩ := @exists_cut t lo hi h
  have hordcut : Ordered cut := by
    rw [hv] at h
    exact (h.sublist (sublist_append_right before _)).sublist (sublist_append_left cut after)
  refine ⟨before ++ (cut.head?.map (leftPiece lo)).getD [], (cut.getLast?.map (rightPiece hi)).getD [] ++ after, ?_, ?_, ?_, ?_⟩
  · rw [a64MapRemove, hv, flatMap_append, flatMap_append, flatMap_removeEntry hordcut hcut.met,
      flatMap_removeEntry_apart fun m hm => .inl (hcut.before m hm), flatMap_removeEntry_apart fun m hm =>
        .inr (hcut.after m hm)]
    simp only [append_assoc]
  · intro m hm
    rcases List.mem_append.1 hm with hm | hm
    · exact hcut.before m hm
    · cases hhead : cut.head? with
      | none => simp [hhead] at hm
      | some a =>
        simp only [hhead, Option.map_some, Option.getD_some, leftPiece] at hm
        split at hm
        · rw [List.mem_singleton.1 hm]
        · cases hm
  · intro m hm
    rcases List.mem_append.1 hm with hm | hm
    · cases hlast : cut.getLast? with
      | none => simp [hlast] at hm
      | some a =>
        simp only [hlast, Option.map_some, Option.getD_some, rightPiece] at hm
        split at hm
        · rw [List.mem_singleton.1 hm]
        · cases hm
    · exact hcut.after m hm
  · unfold lunaVmaMap
    rw [if_neg (Nat.not_le.2 hlt)]
    dsimp only
    rw [hfirst, hmid]
    obtain ⟨t', ht'⟩ := exists_splice t before.length cut.length ((cut.head?.map (leftPiece lo)).getD [] ++
      (if set then [⟨lo, hi, prot, true, fileBacked⟩] else []) ++ (cut.getLast?.map (rightPiece hi)).getD [])
    rw [ht']
    dsimp only
    rw [lunaVmaSplice_v ht', hv, take_left, ← drop_drop, drop_left, drop_left]
    simp only [append_assoc]

/-- Mapping sets the entries of the range, unmapping removes them. -/
theorem lunaVmaMap_spec (h : Ordered t.v) (hlt : lo < hi) :
    Ordered (lunaVmaMap (fun _ => true) t lo hi set prot fileBacked).1.v ∧
      ∀ x, attrAt (lunaVmaMap (fun _ => true) t lo hi set prot fileBacked).1.v x =
        if lo ≤ x ∧ x < hi then (if set then some ⟨prot, true, fileBacked⟩ else none) else attrAt t.v x := by
  obtain ⟨pre, post, hremove, hpre, hpost, hv⟩ := @lunaVmaMap_v t lo hi prot set fileBacked h hlt
  obtain ⟨hord, hattr⟩ := a64MapRemove_spec hlt.le h
  rw [hv]
  rw [hremove] at hord hattr
  cases set with
  | false => exact ⟨hord, fun x => (hattr x).trans (by split <;> simp)⟩
  | true =>
    have hord' : Ordered (pre ++ ⟨lo, hi, prot, true, fileBacked⟩ :: post) := hord.insert hlt hpre hpost
    refine ⟨hord', fun x => (lookup_insert hord hord').trans ?_⟩
    change (if lo ≤ x ∧ x < hi then _ else attrAt (pre ++ post) x) = _
    rw [hattr]
    split <;> rfl

theorem lunaVmaMap_failed (h : (lunaVmaMap alloc t lo hi set prot fileBacked).2 = -1) :
    (lunaVmaMap alloc t lo hi set prot fileBacked).1 = t := by
  unfold lunaVmaMap at h ⊢
  split at h
  · rename_i hle
    rw [if_pos hle]
  · rename_i hle
    rw [if_neg hle]
    dsimp only at h ⊢
    split at h
    · simp at h
    · rfl

end Map

/-! ### Protecting -/

section Protect
variable {t : VmaTable} {lo hi : Nat} {prot : BitVec 32}

theorem setProtEntry_pieces {m : Mapping} (hmeet : ¬(m.hi ≤ lo ∨ hi ≤ m.lo ∨ m.prot = prot)) :
    (if m.lo < (if lo < m.lo then m.lo else lo) then [{ m with hi := if lo < m.lo then m.lo else lo }] else []) ++
      [{ m with lo := if lo < m.lo then m.lo else lo, hi := if m.hi < hi then m.hi else hi, prot }] ++
      (if (if m.hi < hi then m.hi else hi) < m.hi then [{ m with lo := if m.hi < hi then m.hi else hi }] else []) =
    setProtEntry lo hi prot m := by
  have hclo : (if lo < m.lo then m.lo else lo) = max m.lo lo := by split <;> omega
  have hchi : (if m.hi < hi then m.hi else hi) = min m.hi hi := by split <;> omega
  have hlo : m.lo < max m.lo lo ↔ m.lo < lo := by omega
  have hhi : min m.hi hi < m.hi ↔ hi < m.hi := by omega
  rw [setProtEntry_eq hmeet, append_assoc, hclo, hchi]
  simp only [hlo, hhi]
  congr 1
  · split
    · rw [Nat.max_eq_right (by omega)]
    · rfl
  · rw [singleton_append]
    congr 1
    split
    · rw [Nat.min_eq_right (by omega)]
    · rfl

theorem protectLoop_v : ∀ {i : Nat} {t : VmaTable}, i ≤ t.v.length →
    (protectLoop (fun _ => true) lo hi prot i t).1.v = (t.v.take i).flatMap (setProtEntry lo hi prot) ++ t.v.drop i
  | 0, t, _ => rfl
  | i + 1, t, h => by
    have htake : t.v.take (i + 1) = t.v.take i ++ [t.v[i]] := (take_append_getElem h).symm
    have hdrop : t.v.drop i = t.v[i] :: t.v.drop (i + 1) := drop_eq_getElem_cons h
    rw [protectLoop, getElem?_eq_getElem h]
    dsimp only
    rw [htake, flatMap_append, flatMap_singleton]
    generalize t.v[i] = m at hdrop ⊢
    by_cases hmeet : m.hi ≤ lo ∨ hi ≤ m.lo ∨ m.prot = prot
    · rw [if_pos hmeet, protectLoop_v (Nat.le_of_succ_le h), setProtEntry, if_pos hmeet, hdrop, append_assoc]
      rfl
    · rw [if_neg hmeet, setProtEntry_pieces hmeet]
      obtain ⟨t', ht'⟩ := exists_splice t i 1 (setProtEntry lo hi prot m)
      have hv := lunaVmaSplice_v ht'
      have hlen : (t.v.take i).length = i := length_take_of_le (Nat.le_of_succ_le h)
      rw [ht']
      dsimp only
      rw [append_assoc] at hv
      rw [protectLoop_v (t := t') (by rw [hv, length_append, hlen]; omega), hv, take_left' hlen,
        drop_left' hlen, append_assoc]

theorem lunaVmaProtect_spec (h : Ordered t.v) (hlt : lo < hi) :
    Ordered (lunaVmaProtect (fun _ => true) t lo hi prot).1.v ∧
      ∀ x, attrAt (lunaVmaProtect (fun _ => true) t lo hi prot).1.v x =
        (attrAt t.v x).map fun r => if lo ≤ x ∧ x < hi then { r with prot } else r := by
  have hv : (lunaVmaProtect (fun _ => true) t lo hi prot).1.v = t.v.flatMap (setProtEntry lo hi prot) := by
    rw [lunaVmaProtect, protectLoop_v le_rfl, take_length, drop_length, append_nil]
  have hord : Ordered (t.v.flatMap (setProtEntry lo hi prot)) :=
    h.flatMap fun m hm => setProtEntry_ordered hlt (h.nonempty m hm)
  rw [hv]
  refine ⟨hord, fun x => ?_⟩
  have hlookup := lookup_flatMap (k := fun r : Attr => some (if lo ≤ x ∧ x < hi then { r with prot } else r)) h hord
    fun m _ r => setProtEntry_has (x := x) (t := r)
  refine hlookup.trans ?_
  change (attrAt t.v x).bind _ = _
  cases attrAt t.v x <;> rfl

end Protect

/-! ### Covering -/

theorem coveredLoop_iff {hi : Nat} : ∀ {maps : List Mapping} {lo : Nat}, Ordered maps → (∀ m ∈ maps, lo < m.hi) →
    (coveredLoop hi maps lo = true ↔ ∀ x, lo ≤ x → x < hi → ∃ m ∈ maps, m.Has x)
  | [], lo, _, _ => by
    rw [coveredLoop, decide_eq_true_iff]
    refine ⟨fun h x h₁ h₂ => absurd h₂ (by omega), fun h => Nat.le_of_not_lt fun hlt => ?_⟩
    obtain ⟨m, hm, -⟩ := h lo le_rfl hlt
    cases hm
  | m :: maps, lo, h, hlater => by
    rw [coveredLoop]
    by_cases hlt : lo < hi
    swap
    · rw [if_neg hlt]
      exact ⟨fun _ x h₁ h₂ => absurd h₂ (by omega), fun _ => rfl⟩
    rw [if_pos hlt]
    by_cases hgap : lo < m.lo
    · rw [if_pos hgap]
      refine iff_of_false Bool.false_ne_true fun hall => ?_
      obtain ⟨b, hb, hbx⟩ := hall lo le_rfl hlt
      have hbx : b.lo ≤ lo := hbx.1
      rcases List.mem_cons.1 hb with rfl | hb
      · omega
      · have := h.head_le b hb
        have := h.head_lt
        omega
    · have hm := hlater m mem_cons_self
      have hnext : ∀ b ∈ maps, m.hi < b.hi := fun b hb => (h.head_le b hb).trans_lt (h.tail.nonempty b hb)
      rw [if_neg hgap, coveredLoop_iff h.tail hnext]
      constructor
      · intro hall x h₁ h₂
        by_cases hx : x < m.hi
        · exact ⟨m, mem_cons_self, ⟨by omega, hx⟩⟩
        · obtain ⟨b, hb, hbx⟩ := hall x (by omega) h₂
          exact ⟨b, mem_cons_of_mem _ hb, hbx⟩
      · intro hall x h₁ h₂
        obtain ⟨b, hb, hbx⟩ := hall x (by omega) h₂
        rcases List.mem_cons.1 hb with rfl | hb
        · exact absurd hbx.2 (by omega)
        · exact ⟨b, hb, hbx⟩

/-! ### Runs -/

section Run
variable {t : VmaTable} {c : VmaCall}

theorem VmaCall.run_spec (h : Ordered t.v) (hc : c.Proper) :
    Ordered (c.run t).v ∧ ∀ x, (c.run t).entryAt x = c.meaning t.entryAt x := by
  cases c with
  | map lo hi set prot fileBacked =>
    by_cases hlt : lo < hi
    · obtain ⟨hord, hattr⟩ := @lunaVmaMap_spec t lo hi prot set fileBacked h hlt
      refine ⟨hord, fun x => ?_⟩
      rw [VmaCall.run, VmaTable.entryAt, hattr, VmaCall.meaning]
      by_cases hx : lo ≤ x ∧ x < hi
      · rw [if_pos hx, if_pos hx]
        cases set <;> rfl
      · rw [if_neg hx, if_neg hx]
        rfl
    · have hsame : (lunaVmaMap (fun _ => true) t lo hi set prot fileBacked).1 = t := by
        rw [lunaVmaMap, if_pos (Nat.le_of_not_lt hlt)]
      rw [VmaCall.run, hsame]
      exact ⟨h, fun x => (if_neg (by omega)).symm⟩
  | protect lo hi prot =>
    obtain ⟨hord, hattr⟩ := @lunaVmaProtect_spec t lo hi prot h hc
    refine ⟨hord, fun x => ?_⟩
    rw [VmaCall.run, VmaTable.entryAt, hattr, VmaCall.meaning, VmaTable.entryAt]
    by_cases hx : lo ≤ x ∧ x < hi
    · rw [if_pos hx, Option.map_map, Option.map_map]
      congr 1
      funext r
      rw [Function.comp, if_pos hx]
      rfl
    · rw [if_neg hx, Option.map_map]
      congr 1
      funext r
      rw [Function.comp, if_neg hx]

theorem VmaCall.meaning_congr {f g : Nat → Option (BitVec 32 × Bool)} {x : Nat} (h : f x = g x) :
    c.meaning f x = c.meaning g x := by
  cases c with
  | map lo hi set prot fileBacked => rw [VmaCall.meaning, VmaCall.meaning, h]
  | protect lo hi prot => rw [VmaCall.meaning, VmaCall.meaning, h]

theorem run_spec : ∀ {cs : List VmaCall} {t : VmaTable} {f : Nat → Option (BitVec 32 × Bool)}, Ordered t.v →
    (∀ c ∈ cs, c.Proper) → (∀ x, t.entryAt x = f x) →
    Ordered (cs.foldl VmaCall.run t).v ∧ ∀ x, (cs.foldl VmaCall.run t).entryAt x = cs.foldl VmaCall.meaning f x
  | [], _, _, h, _, hf => ⟨h, hf⟩
  | c :: cs, t, f, h, hcs, hf => by
    obtain ⟨hord, hsame⟩ := VmaCall.run_spec h (hcs c mem_cons_self)
    rw [foldl_cons, foldl_cons]
    exact run_spec hord (fun c' hc' => hcs c' (mem_cons_of_mem _ hc')) fun x =>
      (hsame x).trans (VmaCall.meaning_congr (hf x))

/-- A range whose ends are ends of pages holds an address if it holds the start of its page. -/
theorem range_page {lo hi x : Nat} (hlo : 4096 ∣ lo) (hhi : 4096 ∣ hi) :
    lo ≤ x / 4096 * 4096 ∧ x / 4096 * 4096 < hi ↔ lo ≤ x ∧ x < hi := by
  omega

theorem meaning_paged : ∀ {cs : List VmaCall} {f : Nat → Option (BitVec 32 × Bool)}, (∀ c ∈ cs, c.Paged) →
    (∀ x, f x = f (x / 4096 * 4096)) → ∀ x, cs.foldl VmaCall.meaning f x = cs.foldl VmaCall.meaning f (x / 4096 * 4096)
  | [], _, _, hf => hf
  | c :: cs, f, hcs, hf => by
    rw [foldl_cons]
    refine meaning_paged (fun c' hc' => hcs c' (mem_cons_of_mem _ hc')) fun x => ?_
    have hc := hcs c mem_cons_self
    cases c with
    | map lo hi set prot fileBacked =>
      rw [VmaCall.meaning, VmaCall.meaning, hf x]
      simp only [range_page hc.1 hc.2]
    | protect lo hi prot =>
      rw [VmaCall.meaning, VmaCall.meaning, hf x]
      simp only [range_page hc.1 hc.2]

end Run

/-- Whatever is mapped, unmapped and protected in ranges that are not empty, the table is in order and says of each
    address, and so of each page if the ranges are made of pages, what the calls mean; it covers a range if it has an
    entry everywhere in it; and mapping that fails changes nothing. -/
theorem vma_table_pages (cs : List VmaCall) (hcs : ∀ c ∈ cs, c.Proper) :
    Ordered (cs.foldl VmaCall.run ⟨[], 0⟩).v ∧
      (∀ x, (cs.foldl VmaCall.run ⟨[], 0⟩).entryAt x = cs.foldl VmaCall.meaning (fun _ => none) x) ∧
      ((∀ c ∈ cs, c.Paged) → ∀ x, (cs.foldl VmaCall.run ⟨[], 0⟩).entryAt x =
        (cs.foldl VmaCall.run ⟨[], 0⟩).entryAt (x / 4096 * 4096)) ∧
      (∀ lo hi, lunaVmaCovered (cs.foldl VmaCall.run ⟨[], 0⟩) lo hi = true ↔
        ∀ x, lo ≤ x → x < hi → ((cs.foldl VmaCall.run ⟨[], 0⟩).entryAt x).isSome = true) ∧
      ∀ alloc t lo hi set prot fileBacked, (lunaVmaMap alloc t lo hi set prot fileBacked).2 = -1 →
        (lunaVmaMap alloc t lo hi set prot fileBacked).1 = t := by
  obtain ⟨hord, hsame⟩ := run_spec (t := ⟨[], 0⟩) (f := fun _ => none) Ordered.nil hcs fun _ => rfl
  generalize cs.foldl VmaCall.run ⟨[], 0⟩ = t at *
  refine ⟨hord, hsame, fun hpaged x => ?_, fun lo hi => ?_, fun _ _ _ _ _ _ _ => lunaVmaMap_failed⟩
  · rw [hsame, hsame]
    exact meaning_paged hpaged (fun _ => rfl) x
  · have hsplit := takeWhile_append_dropWhile (p := fun m : Mapping => decide (m.hi ≤ lo)) (l := t.v)
    have hbelow : ∀ m ∈ t.v.takeWhile (fun m => decide (m.hi ≤ lo)), m.hi ≤ lo := fun m hm => by
      simpa using mem_takeWhile_imp hm
    rw [lunaVmaCovered, coveredLoop_iff (hord.sublist (dropWhile_sublist _)) (lt_of_mem_dropWhile hord)]
    refine forall_congr' fun x => forall_congr' fun hx => forall_congr' fun _ => ?_
    rw [VmaTable.entryAt, Option.isSome_map, Option.isSome_iff_ne_none, Ne, attrAt_eq_none, not_forall]
    constructor
    · rintro ⟨m, hm, hmx⟩
      exact ⟨m, fun h => h ((dropWhile_sublist _).subset hm) hmx⟩
    · rintro ⟨m, hm⟩
      obtain ⟨hm, hmx⟩ := Classical.not_imp.1 hm
      refine ⟨m, ?_, not_not.1 hmx⟩
      rw [← hsplit] at hm
      refine (List.mem_append.1 hm).resolve_left fun hm => ?_
      have := hbelow m hm
      have := (not_not.1 hmx).2
      omega

/-- Pages are mapped, a hole is cut, and a range over the hole is protected. -/
theorem vma_table_hole :
    ((([.map 0x1000 0x5000 true 3 false, .map 0x2000 0x3000 false 0 false, .protect 0x1000 0x4000 1] : List VmaCall).foldl
      VmaCall.run ⟨[], 0⟩).entryAt 0x3fff = some (1, false)) :=
  ((vma_table_pages [.map 0x1000 0x5000 true 3 false, .map 0x2000 0x3000 false 0 false, .protect 0x1000 0x4000 1] (by
    simp only [forall_mem_cons, VmaCall.Proper]
    exact ⟨trivial, trivial, by decide, by simp⟩)).2.1 0x3fff).trans (by decide)

/-- An empty range is protected inside an entry, which leaves an empty entry. -/
theorem protect_empty : ¬ Ordered (([.map 0x1000 0x3000 true 3 false, .protect 0x2000 0x2000 1] : List VmaCall).foldl
    VmaCall.run ⟨[], 0⟩).v := fun h =>
  absurd (h.nonempty ⟨0x2000, 0x2000, 1, true, false⟩ (by decide)) (by decide)

end Lunaria.Vm
