import Lunaria.Vm.MapTable

/-! What each operation on the mapping table does to the table read as a function of addresses. The function
    gives the attributes of the entry that holds an address; an operation is described by the addresses whose
    attributes it changes and by the new ones. -/

namespace Lunaria.Vm
open Word Spans List

/-- The attributes of a mapped page. -/
structure Attr where
  prot : BitVec 32
  owned : Bool
  fileBacked : Bool
deriving DecidableEq

def Mapping.attr (m : Mapping) : Attr := ⟨m.prot, m.owned, m.fileBacked⟩

/-- The attributes of the byte at `x`, if it is mapped. -/
def attrAt (maps : List Mapping) (x : Nat) : Option Attr := lookup Mapping.lo Mapping.hi Mapping.attr maps x

/-- Entries start and end at guest page boundaries. -/
def Paged (maps : List Mapping) : Prop := ∀ m ∈ maps, 4096 ∣ m.lo ∧ 4096 ∣ m.hi

variable {maps : List Mapping} {x : Nat}

theorem attrAt_eq_some {t : Attr} (h : Ordered maps) :
    attrAt maps x = some t ↔ ∃ m ∈ maps, m.Has x ∧ m.attr = t := lookup_eq_some h

theorem attrAt_eq_none : attrAt maps x = none ↔ ∀ m ∈ maps, ¬m.Has x :=
  lookup_eq_none

theorem attrAt_of_mem {m : Mapping} (h : Ordered maps) (hm : m ∈ maps)
    (hx : m.Has x) : attrAt maps x = some m.attr := (attrAt_eq_some h).mpr ⟨m, hm, hx, rfl⟩

/-! ### Insertion -/

section Insert
variable {maps : List Mapping} {lo hi : Nat}

variable {prot : BitVec 32} {owned fileBacked : Bool}

/-- A new entry over an unmapped range keeps the order and answers for exactly its own addresses. -/
theorem a64MapInsert_spec (hord : Ordered maps) (hlt : lo < hi)
    (hfree : ∀ x, lo ≤ x → x < hi → attrAt maps x = none) :
    Ordered (a64MapInsert maps lo hi prot owned fileBacked) ∧
    ∀ x, attrAt (a64MapInsert maps lo hi prot owned fileBacked) x =
      if lo ≤ x ∧ x < hi then some ⟨prot, owned, fileBacked⟩ else attrAt maps x := by
  obtain ⟨hbefore, hafter⟩ := hord.between hlt fun z h1 h2 => attrAt_eq_none.mp (hfree z h1 h2)
  have hsplit := takeWhile_append_dropWhile (p := fun m : Mapping => decide (m.lo < lo)) (l := maps)
  have hord' : Ordered (a64MapInsert maps lo hi prot owned fileBacked) :=
    Ordered.insert (by rw [hsplit]; exact hord) hlt hbefore hafter
  refine ⟨hord', fun x => ?_⟩
  have := lookup_insert (x := x) (f := Mapping.attr) (by rw [hsplit]; exact hord) hord'
  rw [hsplit] at this
  exact this

theorem a64MapInsert_paged (hpaged : Paged maps) (hlo : 4096 ∣ lo)
    (hhi : 4096 ∣ hi) : Paged (a64MapInsert maps lo hi prot owned fileBacked) := by
  intro m hm
  rcases mem_append.mp hm with hm | hm
  · exact hpaged m (( takeWhile_prefix _).subset hm)
  · rcases mem_cons.mp hm with rfl | hm
    · exact ⟨hlo, hhi⟩
    · exact hpaged m ((dropWhile_suffix _).subset hm)

end Insert

/-! ### Filling the holes of a range -/

section Fill
variable {maps : List Mapping} {lo hi : Nat} {prot : BitVec 32}

/-- The table as a function, with `prot` alone for the unmapped addresses of `[lo, hi)`. -/
def overlay (maps : List Mapping) (lo hi : Nat) (prot : BitVec 32) (x : Nat) : Option Attr :=
  match attrAt maps x with
  | some t => some t
  | none => if lo ≤ x ∧ x < hi then some ⟨prot, false, false⟩ else none

theorem overlay_empty (h : hi ≤ lo) : overlay maps lo hi prot = attrAt maps := by
  funext x
  unfold overlay
  cases attrAt maps x with
  | some t => rfl
  | none => exact if_neg (by omega)

/-- The part of the range that an entry holds needs no filling. -/
theorem overlay_skip {m : Mapping} (hm : m ∈ maps) (hlo : m.Has lo) :
    overlay maps lo hi prot = overlay maps (min m.hi hi) hi prot := by
  funext x
  unfold overlay
  cases hx : attrAt maps x with
  | some t => rfl
  | none =>
    have hout := attrAt_eq_none.mp hx m hm
    have : (lo ≤ x ∧ x < hi) ↔ (min m.hi hi ≤ x ∧ x < hi) := by
      unfold Mapping.Has Spans.Has at hlo hout
      omega
    simp only [this]

/-- Filling a hole at the start of the range leaves the rest of the range to fill. -/
theorem overlay_insert {mid : Nat} (hord : Ordered maps) (hlt : lo < mid) (hle : mid ≤ hi)
    (hfree : ∀ x, lo ≤ x → x < mid → attrAt maps x = none) :
    overlay (a64MapInsert maps lo mid prot false false) mid hi prot = overlay maps lo hi prot := by
  funext x
  unfold overlay
  rw [(a64MapInsert_spec hord hlt hfree).2 x]
  by_cases hx : lo ≤ x ∧ x < mid
  · rw [if_pos hx, hfree x hx.1 hx.2]
    exact (if_pos ⟨hx.1, by omega⟩).symm
  · rw [if_neg hx]
    have : (mid ≤ x ∧ x < hi) ↔ (lo ≤ x ∧ x < hi) := by omega
    simp only [this]

theorem hole_unmapped {mid : Nat} (hord : Ordered maps)
    (hbefore : (maps.takeWhile fun m => decide (m.lo < lo)).getLast?.filter (fun prev => lo < prev.hi) = none)
    (hafter : ∀ m ∈ maps.dropWhile fun m => decide (m.lo < lo), mid ≤ m.lo) :
    ∀ x, lo ≤ x → x < mid → attrAt maps x = none := by
  intro x hlox hxmid
  refine attrAt_eq_none.mpr fun m hm hx => ?_
  rw [← takeWhile_append_dropWhile (p := fun m : Mapping => decide (m.lo < lo)) (l := maps)] at hm
  rcases mem_append.mp hm with hm | hm
  · cases hlast : (maps.takeWhile fun m => decide (m.lo < lo)).getLast? with
    | none => simp [getLast?_eq_none_iff.mp hlast] at hm
    | some prev =>
      have hle := (hord.sublist ( takeWhile_prefix _).sublist).le_getLast hlast m hm
      rw [hlast] at hbefore
      have : prev.hi ≤ lo := by simpa [Option.filter_some] using hbefore
      have := hx.2
      omega
  · have := hafter m hm
    have := hx.1
    omega

/-- The loop ends, and then every address of the range is mapped while what was mapped is as before. -/
theorem declareFill_spec : ∀ {fuel lo : Nat} {maps : List Mapping}, hi - lo ≤ fuel → Ordered maps →
    ∃ maps', declareFill hi prot fuel lo maps = some maps' ∧ Ordered maps' ∧ attrAt maps' = overlay maps lo hi prot ∧
      (Paged maps → 4096 ∣ lo → 4096 ∣ hi → Paged maps')
  | 0, lo, maps, hfuel, hord => by
    refine ⟨maps, ?_, hord, (overlay_empty (by omega)).symm, fun h _ _ => h⟩
    simp [declareFill, show ¬lo < hi by omega]
  | fuel + 1, lo, maps, hfuel, hord => by
    unfold declareFill
    by_cases hlt : lo < hi
    · rw [if_pos hlt]
      -- An entry that holds `lo` moves the cursor to its end.
      have hskip : ∀ m ∈ maps, m.Has lo → ∃ maps', declareFill hi prot fuel (min m.hi hi) maps = some maps' ∧
          Ordered maps' ∧ attrAt maps' = overlay maps lo hi prot ∧
          (Paged maps → 4096 ∣ lo → 4096 ∣ hi → Paged maps') := by
        intro m hm hmlo
        have hmin : hi - min m.hi hi ≤ fuel := by
          have := hmlo.2
          omega
        obtain ⟨maps', heq, hord', hattr, hpaged⟩ := declareFill_spec hmin hord
        refine ⟨maps', heq, hord', hattr.trans (overlay_skip hm hmlo).symm, fun hp _ hhi => hpaged hp ?_ hhi⟩
        rcases Nat.le_total m.hi hi with h | h
        · rw [Nat.min_eq_left h]
          exact (hp m hm).2
        · rw [Nat.min_eq_right h]
          exact hhi
      -- A hole at `lo` becomes an entry of its own.
      have hfill : ∀ mid, lo < mid → mid ≤ hi → (∀ x, lo ≤ x → x < mid → attrAt maps x = none) →
          ∃ maps', declareFill hi prot fuel mid (a64MapInsert maps lo mid prot false false) = some maps' ∧
          Ordered maps' ∧ attrAt maps' = overlay maps lo hi prot ∧
          (Paged maps → 4096 ∣ lo → 4096 ∣ hi → 4096 ∣ mid → Paged maps') := by
        intro mid hlo hle hfree
        have hmid : hi - mid ≤ fuel := by omega
        obtain ⟨maps', heq, hord', hattr, hpaged⟩ := declareFill_spec hmid (a64MapInsert_spec hord hlo hfree).1
        exact ⟨maps', heq, hord', hattr.trans (overlay_insert hord hlo hle hfree), fun hp hl hh hm =>
          hpaged (a64MapInsert_paged hp hl hm) hm hh⟩
      have hins : ∀ mid, a64MapInsert maps lo mid prot false false =
          (maps.takeWhile fun m => decide (m.lo < lo)) ++ ⟨lo, mid, prot, false, false⟩ ::
            maps.dropWhile fun m => decide (m.lo < lo) := fun _ => rfl
      dsimp only
      split
      · rename_i prev hprev
        obtain ⟨hlast, hgt⟩ := Option.filter_eq_some_iff.mp hprev
        have hmem := mem_of_getLast? hlast
        exact hskip prev (( takeWhile_prefix _).subset hmem)
          ⟨Nat.le_of_lt (Ordered.lt_of_mem_takeWhile hmem), by simpa using hgt⟩
      · rename_i hnone hnil
        obtain ⟨maps', heq, hord', hattr, hpaged⟩ :=
          hfill hi hlt le_rfl (hole_unmapped hord hnone (by simp [hnil]))
        rw [hins, hnil] at heq
        exact ⟨maps', heq, hord', hattr, fun hp hl hh => hpaged hp hl hh hh⟩
      · rename_i it rest hnone hcons
        have hit : it ∈ maps.dropWhile fun m => decide (m.lo < lo) := by simp [hcons]
        have hitmem := (dropWhile_suffix _).subset hit
        have hne := hord.nonempty it hitmem
        have hle := hord.le_of_mem_dropWhile it hit
        split
        · exact hskip it hitmem ⟨by assumption, by omega⟩
        · have hrest : ∀ m ∈ maps.dropWhile fun m => decide (m.lo < lo), min hi it.lo ≤ m.lo := by
            intro m hm
            have hsorted := hord.sublist (dropWhile_suffix fun m => decide (m.lo < lo)).sublist
            rw [hcons] at hm hsorted
            rcases mem_cons.mp hm with rfl | hm
            · omega
            · have := hsorted.head_le m hm
              omega
          obtain ⟨maps', heq, hord', hattr, hpaged⟩ :=
            hfill (min hi it.lo) (by omega) (by omega) (hole_unmapped hord hnone hrest)
          rw [hins, hcons] at heq
          refine ⟨maps', heq, hord', hattr, fun hp hl hh => hpaged hp hl hh ?_⟩
          rcases Nat.le_total hi it.lo with h | h
          · rw [Nat.min_eq_left h]
            exact hh
          · rw [Nat.min_eq_right h]
            exact (hp it hitmem).1
    · rw [if_neg hlt]
      exact ⟨maps, rfl, hord, (overlay_empty (by omega)).symm, fun h _ _ => h⟩

end Fill

/-! ### Coalescing -/

section Coalesce

/-- The test of the coalescing loop. -/
def Mergeable (a b : Mapping) : Prop := a.hi = b.lo ∧ a.prot = b.prot ∧ a.owned = b.owned

theorem declareCoalesce_ends (maps : List Mapping) :
    ∀ c ∈ declareCoalesce maps, (∃ m ∈ maps, c.lo = m.lo) ∧ ∃ m ∈ maps, c.hi = m.hi := by
  fun_induction declareCoalesce maps with
  | case1 a b maps hmerge ih =>
    intro c hc
    obtain ⟨⟨m, hm, hlo⟩, ⟨m', hm', hhi⟩⟩ := ih c hc
    constructor
    · rcases mem_cons.mp hm with rfl | hm
      · exact ⟨a, by simp, hlo⟩
      · exact ⟨m, by simp [hm], hlo⟩
    · rcases mem_cons.mp hm' with rfl | hm'
      · exact ⟨b, by simp, hhi⟩
      · exact ⟨m', by simp [hm'], hhi⟩
  | case2 a b maps hmerge ih =>
    intro c hc
    rcases mem_cons.mp hc with rfl | hc
    · exact ⟨⟨c, by simp, rfl⟩, ⟨c, by simp, rfl⟩⟩
    · obtain ⟨⟨m, hm, hlo⟩, ⟨m', hm', hhi⟩⟩ := ih c hc
      exact ⟨⟨m, mem_cons_of_mem _ hm, hlo⟩, ⟨m', mem_cons_of_mem _ hm', hhi⟩⟩
  | case3 maps hno => exact fun c hc => ⟨⟨c, hc, rfl⟩, ⟨c, hc, rfl⟩⟩

variable {maps : List Mapping}

theorem declareCoalesce_paged (h : Paged maps) : Paged (declareCoalesce maps) := by
  intro c hc
  obtain ⟨⟨m, hm, hlo⟩, ⟨m', hm', hhi⟩⟩ := declareCoalesce_ends maps c hc
  exact ⟨hlo ▸ (h m hm).1, hhi ▸ (h m' hm').2⟩

theorem declareCoalesce_ordered (maps : List Mapping) (h : Ordered maps) : Ordered (declareCoalesce maps) := by
  fun_induction declareCoalesce maps with
  | case1 a b maps hmerge ih => exact ih (Ordered.merge (l := []) h rfl rfl)
  | case2 a b maps hmerge ih =>
    refine (ih h.tail).cons h.head_lt fun c hc => ?_
    obtain ⟨⟨m, hm, hlo⟩, -⟩ := declareCoalesce_ends _ c hc
    exact hlo ▸ h.head_le m hm
  | case3 maps hno => exact h

/-- The first entry keeps its start, its rights and its ownership. -/
theorem declareCoalesce_head (a : Mapping) (maps : List Mapping) :
    ∃ c rest, declareCoalesce (a :: maps) = c :: rest ∧ c.lo = a.lo ∧ c.prot = a.prot ∧ c.owned = a.owned := by
  induction maps generalizing a with
  | nil => exact ⟨a, [], by simp [declareCoalesce], rfl, rfl, rfl⟩
  | cons b maps ih =>
    unfold declareCoalesce
    split
    · exact ih { a with hi := b.hi }
    · exact ⟨a, _, rfl, rfl, rfl, rfl⟩

theorem declareCoalesce_normal (maps : List Mapping) (h : Ordered maps) :
    (declareCoalesce maps).Pairwise fun a b => ¬Mergeable a b := by
  fun_induction declareCoalesce maps with
  | case1 a b maps hmerge ih => exact ih (Ordered.merge (l := []) h rfl rfl)
  | case2 a b maps hmerge ih =>
    refine pairwise_cons.mpr ⟨fun c hc hac => ?_, ih h.tail⟩
    have hord := declareCoalesce_ordered _ h.tail
    obtain ⟨d, rest, heq, hlo, hprot, howned⟩ := declareCoalesce_head b maps
    rw [heq] at hc hord
    -- Only the first of the coalesced entries can touch `a`, and it is like `b`.
    rcases mem_cons.mp hc with rfl | hc
    · exact hmerge ⟨hac.1.trans hlo, hac.2.1.trans hprot, hac.2.2.trans howned⟩
    · have h1 := h.head_le b (by simp)
      have h2 := hord.head_lt
      have h3 := hord.head_le c hc
      have h4 := hac.1
      omega
  | case3 maps hno =>
    match maps, hno with
    | [], _ => exact List.Pairwise.nil
    | [a], _ => exact pairwise_singleton _ a
    | a :: b :: maps, hno => exact absurd rfl (hno a b maps)

/-- Neighbouring pages of equal rights and ownership come from the same kind of backing. -/
def NoClash (f : Nat → Option Attr) : Prop :=
  ∀ p t u, f (4096 * p) = some t → f (4096 * (p + 1)) = some u → t.prot = u.prot → t.owned = u.owned → t = u

/-- Two entries that the loop would merge have the same attributes. -/
theorem NoClash.attr_eq (hclash : NoClash (attrAt maps)) (hord : Ordered maps)
    (hpaged : Paged maps) {a b : Mapping} (ha : a ∈ maps) (hb : b ∈ maps) (hmerge : Mergeable a b) :
    a.attr = b.attr := by
  obtain ⟨htouch, hprot, howned⟩ := hmerge
  obtain ⟨p, hp⟩ := (hpaged a ha).1
  obtain ⟨q, hq⟩ := (hpaged a ha).2
  have hna := hord.nonempty a ha
  have hnb := hord.nonempty b hb
  refine hclash (q - 1) _ _ (attrAt_of_mem hord ha ⟨by omega, by omega⟩)
    (attrAt_of_mem hord hb ⟨by omega, by omega⟩) hprot howned

theorem attrAt_cons {a : Mapping} {x : Nat} :
    attrAt (a :: maps) x = if a.Has x then some a.attr else attrAt maps x := lookup_cons

theorem declareCoalesce_attrAt (maps : List Mapping) (hord : Ordered maps) (hpaged : Paged maps)
    (hclash : NoClash (attrAt maps)) : attrAt (declareCoalesce maps) = attrAt maps := by
  fun_induction declareCoalesce maps with
  | case1 a b maps hmerge ih =>
    have hattr := hclash.attr_eq hord hpaged (a := a) (b := b) (by simp) (by simp) hmerge
    have hsame : attrAt ({ a with hi := b.hi } :: maps) = attrAt (a :: b :: maps) := by
      have h1 := hord.head_lt
      have h2 := hord.tail.head_lt
      have htouch := hmerge.1
      funext x
      have hhas : Mapping.Has { a with hi := b.hi } x ↔ a.Has x ∨ b.Has x := by
        show (a.lo ≤ x ∧ x < b.hi) ↔ (a.lo ≤ x ∧ x < a.hi) ∨ (b.lo ≤ x ∧ x < b.hi)
        omega
      have hattr' : Mapping.attr { a with hi := b.hi } = b.attr := hattr
      rw [attrAt_cons, attrAt_cons, attrAt_cons, hattr, hattr']
      by_cases hax : a.Has x
      · rw [if_pos hax, if_pos (hhas.mpr (.inl hax))]
      · by_cases hbx : b.Has x
        · rw [if_neg hax, if_pos hbx, if_pos (hhas.mpr (.inr hbx))]
        · rw [if_neg hax, if_neg hbx, if_neg fun h => (hhas.mp h).elim hax hbx]
    have hpaged' : Paged ({ a with hi := b.hi } :: maps) := by
      intro c hc
      rcases mem_cons.mp hc with rfl | hc
      · exact ⟨(hpaged a (by simp)).1, (hpaged b (by simp)).2⟩
      · exact hpaged c (by simp [hc])
    exact (ih (Ordered.merge (l := []) hord rfl rfl) hpaged' (hsame ▸ hclash)).trans hsame
  | case2 a b maps hmerge ih =>
    have htail : ∀ x t, attrAt (b :: maps) x = some t → attrAt (a :: b :: maps) x = some t := by
      intro x t hx
      obtain ⟨m, hm, hmx, rfl⟩ := (attrAt_eq_some hord.tail).mp hx
      exact attrAt_of_mem hord (mem_cons_of_mem _ hm) hmx
    funext x
    rw [attrAt_cons, attrAt_cons, ih hord.tail (fun m hm => hpaged m (mem_cons_of_mem _ hm))
      fun p t u ht hu => hclash p t u (htail _ t ht) (htail _ u hu)]
  | case3 maps hno => rfl

theorem declareCoalesce_noClash (hord : Ordered maps) (hpaged : Paged maps) :
    NoClash (attrAt (declareCoalesce maps)) := by
  intro p t u ht hu hprot howned
  have hord' := declareCoalesce_ordered maps hord
  obtain ⟨a, ha, hap, rfl⟩ := (attrAt_eq_some hord').mp ht
  obtain ⟨b, hb, hbp, rfl⟩ := (attrAt_eq_some hord').mp hu
  obtain ⟨⟨i, hi⟩, ⟨j, hj⟩⟩ := declareCoalesce_paged hpaged a ha
  obtain ⟨⟨k, hk⟩, ⟨l, hl⟩⟩ := declareCoalesce_paged hpaged b hb
  unfold Mapping.Has Has at hap hbp
  by_cases heq : a = b
  · rw [heq]
  · -- Two entries meet at the page boundary, so they would have been merged.
    exfalso
    have hpair := (declareCoalesce_normal maps hord).and hord'.sorted
    have hne : ¬a.Has (4096 * (p + 1)) := fun h => heq (hord'.unique ha hb h hbp)
    unfold Mapping.Has Has at hne
    have htouch : a.hi = b.lo := by
      by_contra hcon
      have hbn : ¬b.Has (4096 * p) := fun h => heq (hord'.unique ha hb hap h)
      unfold Mapping.Has Has at hbn
      omega
    obtain ⟨pre, post, hsplit⟩ := append_of_mem ha
    rw [hsplit] at hb hpair
    obtain ⟨-, hpost, hpre⟩ := pairwise_append.mp hpair
    rcases mem_append.mp hb with hb | hb
    · have := (hpre b hb a (by simp)).2
      have := hord'.nonempty b (by rw [hsplit]; simp [hb])
      omega
    · rcases mem_cons.mp hb with rfl | hb
      · exact heq rfl
      · exact ((pairwise_cons.mp hpost).1 b hb).1 ⟨htouch, hprot, howned⟩

end Coalesce

/-! ### Removal and protection -/

section Cut
variable {maps : List Mapping} {lo hi : Nat} {prot : BitVec 32}

variable {m : Mapping}

theorem removeEntry_ordered (hle : lo ≤ hi) (hm : m.lo < m.hi) :
    Ordered (removeEntry lo hi m) ∧ ∀ b ∈ removeEntry lo hi m, m.lo ≤ b.lo ∧ b.hi ≤ m.hi := by
  unfold removeEntry
  dsimp only
  split
  · exact ⟨Ordered.nil.cons hm (by simp), by simp⟩
  · split_ifs with h1 h2 h3
    · refine ⟨(Ordered.nil.cons (a := { m with lo := min m.hi hi }) (by simpa using by omega) (by simp)).cons
        (by simpa using by omega) (by simpa using by omega), by simpa using by omega⟩
    · exact ⟨Ordered.nil.cons (by simpa using by omega) (by simp), by simpa using by omega⟩
    · exact ⟨Ordered.nil.cons (by simpa using by omega) (by simp), by simpa using by omega⟩
    · exact ⟨Ordered.nil, by simp⟩

/-- The pieces hold what the entry held outside the range, with its attributes. -/
theorem removeEntry_has {x : Nat} {t : Attr} :
    (∃ b ∈ removeEntry lo hi m, b.Has x ∧ b.attr = t) ↔
      m.Has x ∧ (if lo ≤ x ∧ x < hi then none else some m.attr) = some t := by
  have hcut : (∃ b ∈ removeEntry lo hi m, b.Has x ∧ b.attr = t) ↔ (m.Has x ∧ ¬(lo ≤ x ∧ x < hi)) ∧ m.attr = t := by
    have hattr : ∀ lo hi, Mapping.attr { m with lo, hi } = m.attr := fun _ _ => rfl
    unfold removeEntry
    dsimp only
    split_ifs <;> simp [hattr, Spans.Has, ← or_and_right] <;> omega
  rw [hcut]
  by_cases hx : lo ≤ x ∧ x < hi <;> simp [hx]

theorem a64MapRemove_spec (hle : lo ≤ hi) (hord : Ordered maps) :
    Ordered (a64MapRemove maps lo hi) ∧
    ∀ x, attrAt (a64MapRemove maps lo hi) x = if lo ≤ x ∧ x < hi then none else attrAt maps x := by
  have hord' : Ordered (a64MapRemove maps lo hi) :=
    hord.flatMap fun m hm => removeEntry_ordered hle (hord.nonempty m hm)
  refine ⟨hord', fun x => ?_⟩
  have h := lookup_flatMap (k := fun t => if lo ≤ x ∧ x < hi then none else some t) hord hord'
    fun m _ t => removeEntry_has (x := x) (t := t)
  refine h.trans ?_
  split
  · exact Option.bind_fun_none _
  · exact Option.bind_fun_some _

theorem removeEntry_paged (hlo : 4096 ∣ lo) (hhi : 4096 ∣ hi) (hm : 4096 ∣ m.lo ∧ 4096 ∣ m.hi) :
    Paged (removeEntry lo hi m) := by
  have hmax : 4096 ∣ max m.lo lo := by omega
  have hmin : 4096 ∣ min m.hi hi := by omega
  unfold removeEntry Paged
  dsimp only
  split_ifs <;> simp [hm, hmax, hmin]

theorem a64MapRemove_paged (hpaged : Paged maps) (hlo : 4096 ∣ lo) (hhi : 4096 ∣ hi) :
    Paged (a64MapRemove maps lo hi) := by
  intro b hb
  obtain ⟨m, hm, hbm⟩ := mem_flatMap.mp hb
  exact removeEntry_paged hlo hhi (hpaged m hm) b hbm

/-- An entry that meets the range gives the part inside it and what is left on either side. -/
theorem setProtEntry_eq (hmeet : ¬(m.hi ≤ lo ∨ hi ≤ m.lo ∨ m.prot = prot)) :
    setProtEntry lo hi prot m =
      (if m.lo < lo then [{ m with hi := lo }] else []) ++ { m with lo := max m.lo lo, hi := min m.hi hi, prot } ::
        (if hi < m.hi then [{ m with lo := hi }] else []) := by
  unfold setProtEntry
  rw [if_neg hmeet]
  dsimp only
  have hlo : m.lo < max m.lo lo ↔ m.lo < lo := by omega
  have hhi : min m.hi hi < m.hi ↔ hi < m.hi := by omega
  simp only [hlo, hhi]
  split
  · rename_i hwhole
    rw [if_neg (by omega), if_neg (by omega), ← hwhole.1, ← hwhole.2]
    rfl
  · congr 1
    · split
      · rw [Nat.max_eq_right (by omega)]
      · rfl
    · congr 1
      split
      · rw [Nat.min_eq_right (by omega)]
      · rfl

theorem setProtEntry_ordered (hlt : lo < hi) (hm : m.lo < m.hi) :
    Ordered (setProtEntry lo hi prot m) ∧ ∀ b ∈ setProtEntry lo hi prot m, m.lo ≤ b.lo ∧ b.hi ≤ m.hi := by
  by_cases hmeet : m.hi ≤ lo ∨ hi ≤ m.lo ∨ m.prot = prot
  · unfold setProtEntry
    rw [if_pos hmeet]
    exact ⟨Ordered.nil.cons hm (by simp), by simp⟩
  · rw [setProtEntry_eq hmeet]
    push Not at hmeet
    have htail : Ordered (if hi < m.hi then [{ m with lo := hi }] else []) := by
      split
      · exact Ordered.nil.cons (by assumption) (by simp)
      · exact Ordered.nil
    have hhead : Ordered (if m.lo < lo then [{ m with hi := lo }] else []) := by
      split
      · exact Ordered.nil.cons (by assumption) (by simp)
      · exact Ordered.nil
    constructor
    · refine hhead.append (htail.cons ?_ ?_) ?_
      · show max m.lo lo < min m.hi hi
        omega
      · intro b hb
        split at hb
        · rw [mem_singleton.mp hb]
          exact Nat.min_le_right ..
        · simp at hb
      · intro a ha b hb
        split at ha
        · rw [mem_singleton.mp ha]
          rcases mem_cons.mp hb with rfl | hb
          · exact Nat.le_max_right ..
          · split at hb
            · rw [mem_singleton.mp hb]
              exact Nat.le_of_lt hlt
            · simp at hb
        · simp at ha
    · intro b hb
      rcases mem_append.mp hb with hb | hb
      · split at hb
        · rw [mem_singleton.mp hb]
          exact ⟨le_rfl, Nat.le_of_lt hmeet.1⟩
        · simp at hb
      · rcases mem_cons.mp hb with rfl | hb
        · exact ⟨Nat.le_max_left .., Nat.min_le_left ..⟩
        · split at hb
          · rw [mem_singleton.mp hb]
            exact ⟨Nat.le_of_lt hmeet.2.1, le_rfl⟩
          · simp at hb

theorem setProtEntry_has {x : Nat} {t : Attr} :
    (∃ b ∈ setProtEntry lo hi prot m, b.Has x ∧ b.attr = t) ↔
      m.Has x ∧ some (if lo ≤ x ∧ x < hi then { m.attr with prot } else m.attr) = some t := by
  have hin : ∀ lo hi, Mapping.attr { m with lo, hi, prot } = { m.attr with prot } := fun _ _ => rfl
  have hattr : ∀ lo hi, Mapping.attr { m with lo, hi } = m.attr := fun _ _ => rfl
  by_cases hmeet : m.hi ≤ lo ∨ hi ≤ m.lo ∨ m.prot = prot
  · unfold setProtEntry
    rw [if_pos hmeet]
    have hsame : m.Has x → (if lo ≤ x ∧ x < hi then { m.attr with prot } else m.attr) = m.attr := by
      intro hx
      split
      · have : m.prot = prot := by
          rcases hmeet with h | h | h
          · exact absurd hx.2 (by omega)
          · exact absurd hx.1 (by omega)
          · exact h
        rw [← this]
        rfl
      · rfl
    constructor
    · rintro ⟨b, hb, hbx, rfl⟩
      rw [mem_singleton.mp hb] at hbx ⊢
      exact ⟨hbx, congrArg some (hsame hbx)⟩
    · rintro ⟨hx, ht⟩
      rw [hsame hx] at ht
      exact ⟨m, by simp, hx, Option.some.inj ht⟩
  · rw [setProtEntry_eq hmeet]
    have hsplit : ∀ (c : Prop) [Decidable c] (a : Mapping) (p : Mapping → Prop),
        (∃ b ∈ (if c then [a] else []), p b) ↔ c ∧ p a := by
      intro c _ a p
      by_cases hc : c <;> simp [hc]
    simp only [mem_append, mem_cons, or_and_right, exists_or, exists_eq_left, hsplit, hin, hattr]
    unfold Mapping.Has Spans.Has
    simp only [Option.some.injEq]
    by_cases hx : lo ≤ x ∧ x < hi
    · rw [if_pos hx]
      constructor
      · rintro (⟨h1, h2, rfl⟩ | ⟨h1, rfl⟩ | ⟨h1, h2, rfl⟩)
        · omega
        · exact ⟨by omega, rfl⟩
        · omega
      · rintro ⟨h1, rfl⟩
        exact .inr (.inl ⟨by omega, rfl⟩)
    · rw [if_neg hx]
      constructor
      · rintro (⟨h1, h2, rfl⟩ | ⟨h1, rfl⟩ | ⟨h1, h2, rfl⟩)
        · exact ⟨by omega, rfl⟩
        · omega
        · exact ⟨by omega, rfl⟩
      · rintro ⟨h1, rfl⟩
        by_cases hlo : x < lo
        · exact .inl ⟨by omega, by omega, rfl⟩
        · exact .inr (.inr ⟨by omega, by omega, rfl⟩)

theorem setProtEntry_paged (hlo : 4096 ∣ lo) (hhi : 4096 ∣ hi) (hm : 4096 ∣ m.lo ∧ 4096 ∣ m.hi) :
    Paged (setProtEntry lo hi prot m) := by
  have hmax : 4096 ∣ max m.lo lo := by omega
  have hmin : 4096 ∣ min m.hi hi := by omega
  unfold setProtEntry Paged
  dsimp only
  split_ifs <;> simp [hm, hmax, hmin]

end Cut

/-! ### The range walk -/

section Walk
variable {maps : List Mapping} {hi : Nat}

theorem a64FindLocked_some {va : Nat} {m : Mapping} (h : a64FindLocked maps va = some m) : m ∈ maps ∧ m.Has va := by
  unfold a64FindLocked at h
  split at h
  · simp at h
  · rename_i m' hlast
    split at h
    · rename_i hin
      cases h
      exact ⟨( takeWhile_prefix _).subset (mem_of_getLast? hlast), hin⟩
    · simp at h

theorem a64FindLocked_none {va : Nat} (hord : Ordered maps) (h : a64FindLocked maps va = none) :
    attrAt maps va = none := by
  refine attrAt_eq_none.mpr fun m hm hx => ?_
  have hbelow : m ∈ maps.takeWhile fun m => decide (m.lo < va + 1) := by
    rw [← takeWhile_append_dropWhile (p := fun m : Mapping => decide (m.lo < va + 1)) (l := maps)] at hm
    rcases mem_append.mp hm with hm | hm
    · exact hm
    · have := hord.le_of_mem_dropWhile m hm
      have := hx.1
      omega
  unfold a64FindLocked at h
  split at h
  · rename_i hlast
    rw [getLast?_eq_none_iff.mp hlast] at hbelow
    exact absurd hbelow not_mem_nil
  · rename_i m' hlast
    have hle := (hord.sublist ( takeWhile_prefix _).sublist).le_getLast hlast m hbelow
    have hlt := Ordered.lt_of_mem_takeWhile (mem_of_getLast? hlast)
    have := hx.2
    simp [show m'.lo ≤ va ∧ va < m'.hi by omega] at h

theorem rangeMapped_iff (hord : Ordered maps) : ∀ {fuel cursor : Nat}, hi - cursor ≤ fuel →
    (rangeMapped maps hi fuel cursor = true ↔ ∀ x, cursor ≤ x → x < hi → attrAt maps x ≠ none)
  | 0, cursor, hfuel => by
    simp only [rangeMapped, decide_eq_true_eq]
    exact ⟨fun h x h1 h2 => by omega, fun _ => by omega⟩
  | fuel + 1, cursor, hfuel => by
    unfold rangeMapped
    split
    · rename_i hlt
      cases hfind : a64FindLocked maps cursor with
      | none => exact ⟨fun h => absurd h (by simp), fun h => absurd (a64FindLocked_none hord hfind) (h _ le_rfl hlt)⟩
      | some m =>
        obtain ⟨hm, hmc⟩ := a64FindLocked_some hfind
        have hstep : hi - min hi m.hi ≤ fuel := by have := hmc.2; omega
        refine (rangeMapped_iff hord hstep).trans ⟨fun h x h1 h2 => ?_, fun h x h1 h2 => h x (by have := hmc.2; omega) h2⟩
        by_cases hx : m.Has x
        · simp [attrAt_of_mem hord hm hx]
        · have := hmc.1
          exact h x (by unfold Mapping.Has Spans.Has at hx; omega) h2
    · exact ⟨fun _ x h1 h2 => by omega, fun _ => rfl⟩

end Walk

end Lunaria.Vm
