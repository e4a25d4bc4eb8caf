import Lunaria.Vm.MapSpec

/-! The guest page table as a state machine: any sequence of insertions, declarations, removals and protection
    changes. Each operation is to change the attributes of its own pages only and to leave the table in order.
    That is missed in three cases, which `MapOp.Sound` describes: a declaration coalesces entries without looking
    at their backing; a removal that starts below the image window does not reach the loaded regions; and a
    protection change whose range crosses 4 GiB translates one end of it only. -/

namespace Lunaria.Vm
open Word Spans List

structure PageTable where
  maps : List Mapping
  regions : List LoadedRegion

/-- The calls that change the table. -/
inductive MapOp where
  | insert (lo hi : Nat) (prot : BitVec 32) (owned fileBacked : Bool)
  | declare (base len : Nat) (prot : BitVec 32)
  | remove (lo hi : Nat)
  | setProt (host : Host) (lo hi : Nat) (prot : BitVec 32)

namespace PageTable

/-- One call, with the result of `a64_map_set_prot` (0 for the others, which return nothing). -/
def apply (s : PageTable) : MapOp → Option (PageTable × Int)
  | .insert lo hi prot owned fileBacked => some ({ s with maps := a64MapInsert s.maps lo hi prot owned fileBacked }, 0)
  | .declare base len prot => (a64MapDeclareBacking s.maps base len prot).map fun maps => ({ s with maps }, 0)
  | .remove lo hi => some (⟨a64MapRemove s.maps lo hi, a64LoadedRegionsUnmap s.regions lo hi⟩, 0)
  | .setProt host lo hi prot =>
    let r := a64MapSetProt host s.maps lo hi prot
    some ({ s with maps := r.1 }, r.2)

/-- The attributes of the 4 KiB page `p`. -/
def page (s : PageTable) (p : Nat) : Option Attr := attrAt s.maps (4096 * p)

/-- What a loaded region says of the window offset `x`: its flags and the file offset there. -/
def regionAt (x : Nat) (r : LoadedRegion) : Option (Nat × Nat) :=
  if r.lo ≤ x ∧ x < r.hi then some (r.flags, r.fileOff + (x - r.lo)) else none

/-- What the regions that hold the window offset `x` say of it. -/
def image (s : PageTable) (x : Nat) : List (Nat × Nat) := s.regions.filterMap (regionAt x)

/-- The table is in order and made of whole pages. -/
structure WellFormed (s : PageTable) : Prop where
  ordered : Ordered s.maps
  paged : Paged s.maps

end PageTable

/-- The guest addresses `[lo, hi)` with those below 4 GiB read as backing offsets. -/
def InRange (lo hi x : Nat) : Prop := ∃ y, lo ≤ y ∧ y < hi ∧ x = a64MappingVa y

/-- What the callers promise: page-aligned ranges, and insertion of unmapped ranges only. -/
def MapOp.Valid (s : PageTable) : MapOp → Prop
  | .insert lo hi _ _ _ => 4096 ∣ lo ∧ 4096 ∣ hi ∧ lo < hi ∧ ∀ p, lo ≤ 4096 * p → 4096 * p < hi → s.page p = none
  | .declare base len _ => 4096 ∣ base ∧ 4096 ∣ len ∧ base < 2 ^ 32 ∧ len < 2 ^ 64
  | .remove lo hi => 4096 ∣ lo ∧ 4096 ∣ hi ∧ lo ≤ hi
  | .setProt _ lo hi _ => 4096 ∣ lo ∧ 4096 ∣ hi

/-- The call changes exactly its own pages. A declaration that leaves the window declares nothing. -/
def MapOp.Exact (s s' : PageTable) (rc : Int) : MapOp → Prop
  | .insert lo hi prot owned fileBacked => s'.regions = s.regions ∧ ∀ p, s'.page p =
      if lo ≤ 4096 * p ∧ 4096 * p < hi then some ⟨prot, owned, fileBacked⟩ else s.page p
  | .declare base len prot => s'.regions = s.regions ∧ ∀ p, s'.page p =
      if s.page p = none ∧ base + len ≤ guestSize ∧ guestBase + base ≤ 4096 * p ∧ 4096 * p < guestBase + (base + len)
      then some ⟨prot, false, false⟩ else s.page p
  | .remove lo hi =>
      (∀ p, s'.page p = if lo ≤ 4096 * p ∧ 4096 * p < hi then none else s.page p) ∧
      ∀ x < guestSize, s'.image x = if lo ≤ guestBase + x ∧ guestBase + x < hi then [] else s.image x
  | .setProt _ lo hi prot => s'.regions = s.regions ∧ (rc = -1 → s' = s) ∧
      (∀ p, s'.page p = s.page p ∨
        InRange lo hi (4096 * p) ∧ s'.page p = (s.page p).map fun t => { t with prot }) ∧
      (rc = 0 → hi ≤ guestSize ∨ guestSize ≤ lo → ∀ p, InRange lo hi (4096 * p) →
        ∃ t, s.page p = some t ∧ s'.page p = some { t with prot })

/-- The condition under which a call changes exactly its own pages and leaves the table in order. -/
def MapOp.Sound (s : PageTable) : MapOp → Prop
  | .insert .. => True
  | .declare base len prot => len ≠ 0 → base + len ≤ guestSize →
      NoClash (overlay s.maps (guestBase + base) (guestBase + (base + len)) prot)
  | .remove lo hi => lo < guestBase → ∀ r ∈ s.regions, r.lo < r.hi → r.lo < guestSize → hi ≤ guestBase + r.lo
  | .setProt _ lo hi prot => lo < guestSize → guestSize < hi → hi ≤ guestBase + lo →
      ∀ m ∈ s.maps, m.lo < hi → guestBase + lo < m.hi → m.prot = prot

/-- The states that calls under the condition lead to from an empty table. -/
inductive PageTable.Reach (regions : List LoadedRegion) : PageTable → Prop
  | init : Reach regions ⟨[], regions⟩
  | step {s s' : PageTable} {op : MapOp} {rc : Int} : Reach regions s → op.Valid s → op.Sound s →
      s.apply op = some (s', rc) → Reach regions s'

/-! ### One call -/

namespace PageTable
variable {s : PageTable} {lo hi base len lo' hi' : Nat} {prot : BitVec 32}

theorem WellFormed.unmapped (h : s.WellFormed) (hlo : 4096 ∣ lo) (hhi : 4096 ∣ hi)
    (hfree : ∀ p, lo ≤ 4096 * p → 4096 * p < hi → s.page p = none) :
    ∀ x, lo ≤ x → x < hi → attrAt s.maps x = none := by
  intro x h1 h2
  refine attrAt_eq_none.mpr fun m hm hx => ?_
  have hp := attrAt_eq_none.mp (hfree (x / 4096) (by omega) (by omega)) m hm
  have hmlo := (h.paged m hm).1
  have hmhi := (h.paged m hm).2
  unfold Mapping.Has Spans.Has at hx hp
  omega

theorem insert_exact {owned fileBacked : Bool} (h : s.WellFormed)
    (hvalid : (MapOp.insert lo hi prot owned fileBacked).Valid s) :
    ∃ s' rc, s.apply (.insert lo hi prot owned fileBacked) = some (s', rc) ∧ s'.WellFormed ∧
      (MapOp.insert lo hi prot owned fileBacked).Exact s s' rc := by
  obtain ⟨hlo, hhi, hlt, hfree⟩ := hvalid
  obtain ⟨hord, hattr⟩ := a64MapInsert_spec h.ordered hlt
    (h.unmapped hlo hhi hfree)
  exact ⟨_, _, rfl, ⟨hord, a64MapInsert_paged h.paged hlo hhi⟩, rfl, fun p => hattr (4096 * p)⟩

/-- The window offsets of a declared range: they are refused when the range is empty or leaves the window. -/
theorem declare_offsets (hbase : 4096 ∣ base) (hlen : 4096 ∣ len) (hb : base < 2 ^ 32)
    (hl : len < 2 ^ 64) :
    maskDown 64 4096 base = base ∧
    (base + len ≤ guestSize → maskDown 64 4096 (add 64 (add 64 base len) 4095) = base + len) ∧
    (guestSize < base + len → maskDown 64 4096 (add 64 (add 64 base len) 4095) ≤ base ∨
      guestSize < maskDown 64 4096 (add 64 (add 64 base len) 4095)) := by
  have hdown : ∀ x < 2 ^ 64, maskDown 64 4096 x = x / 4096 * 4096 := fun x hx =>
    maskDown_two_pow (w := 64) (k := 12) (by omega) hx
  have hadd : add 64 (add 64 base len) 4095 < 2 ^ 64 := Nat.mod_lt _ (by omega)
  rw [hdown base (by omega), hdown _ hadd]
  unfold Word.add guestSize at *
  refine ⟨by omega, fun h => by omega, fun h => by omega⟩

theorem declare_spec (prot : BitVec 32) (h : s.WellFormed) (hbase : 4096 ∣ base) (hlen : 4096 ∣ len)
    (hb : base < 2 ^ 32) (hl : len < 2 ^ 64) (h0 : len ≠ 0) (hin : base + len ≤ guestSize) :
    ∃ filled, a64MapDeclareBacking s.maps base len prot = some (declareCoalesce filled) ∧ Ordered filled ∧
      Paged filled ∧ attrAt filled = overlay s.maps (guestBase + base) (guestBase + (base + len)) prot := by
  obtain ⟨hdown, hup, -⟩ := declare_offsets hbase hlen hb hl
  obtain ⟨filled, heq, hord, hattr, hpaged⟩ := declareFill_spec
    le_rfl h.ordered
  refine ⟨filled, ?_, hord, hpaged h.paged ?_ ?_, hattr⟩
  · unfold a64MapDeclareBacking
    simp only [h0, if_false, hdown, hup hin]
    rw [if_neg (by omega)]
    exact congrArg (Option.map declareCoalesce) heq
  · unfold guestBase
    omega
  · unfold guestBase
    omega

theorem declare_exact_iff (h : s.WellFormed)
    (hvalid : (MapOp.declare base len prot).Valid s) :
    ∃ s' rc, s.apply (.declare base len prot) = some (s', rc) ∧ s'.WellFormed ∧
      ((MapOp.declare base len prot).Exact s s' rc ↔ (MapOp.declare base len prot).Sound s) := by
  obtain ⟨hbase, hlen, hb, hl⟩ := hvalid
  by_cases hrange : len ≠ 0 ∧ base + len ≤ guestSize
  · obtain ⟨filled, heq, hord, hpaged, hattr⟩ := declare_spec prot h hbase hlen hb hl hrange.1 hrange.2
    refine ⟨{ s with maps := declareCoalesce filled }, 0, by simp [apply, heq],
      ⟨declareCoalesce_ordered _ hord, declareCoalesce_paged hpaged⟩, ?_⟩
    have hspec : ∀ x, overlay s.maps (guestBase + base) (guestBase + (base + len)) prot x =
        if attrAt s.maps x = none ∧ base + len ≤ guestSize ∧ guestBase + base ≤ x ∧ x < guestBase + (base + len)
        then some ⟨prot, false, false⟩ else attrAt s.maps x := by
      intro x
      unfold overlay
      cases attrAt s.maps x <;> simp [hrange.2]
    constructor
    · rintro ⟨-, hpages⟩ - -
      -- The coalesced table has no clash, so a function that clashes is not its function.
      have hno := declareCoalesce_noClash hord hpaged
      intro p t u ht hu
      exact hno p t u ((hpages p).trans ((hspec (4096 * p)).symm.trans ht))
        ((hpages (p + 1)).trans ((hspec (4096 * (p + 1))).symm.trans hu))
    · intro hsound
      have hclash := hsound hrange.1 hrange.2
      rw [← hattr] at hclash
      refine ⟨rfl, fun p => ?_⟩
      have := congrFun ((declareCoalesce_attrAt filled hord hpaged hclash).trans hattr) (4096 * p)
      exact this.trans (hspec (4096 * p))
  · -- The range is empty or refused.
    have heq : a64MapDeclareBacking s.maps base len prot = some s.maps := by
      unfold a64MapDeclareBacking
      by_cases h0 : len = 0
      · simp [h0]
      · obtain ⟨hdown, -, hout⟩ := declare_offsets hbase hlen hb hl
        rw [if_neg h0]
        dsimp only
        rw [hdown, if_pos (hout (by omega))]
    refine ⟨s, 0, by simp [apply, heq], h, ⟨fun _ h0 hin => absurd ⟨h0, hin⟩ hrange, fun _ => ⟨rfl, fun p => ?_⟩⟩⟩
    rw [if_neg (by omega)]

theorem unmapRegion_at {cutLo cutHi x : Nat} (hlt : cutLo < cutHi) (r : LoadedRegion) :
    (unmapRegion cutLo cutHi r).filterMap (regionAt x) =
      if cutLo ≤ x ∧ x < cutHi then [] else [r].filterMap (regionAt x) := by
  have hsplit : ∀ (rs : List LoadedRegion) (r' : LoadedRegion), (r' :: rs).filterMap (regionAt x) =
      (regionAt x r').toList ++ rs.filterMap (regionAt x) := by
    intro rs r'
    cases hr : regionAt x r' <;> simp [hr]
  have hcut : ∀ hi', hi' ≤ r.hi → regionAt x { r with hi := hi' } = if x < hi' then regionAt x r else none := by
    intro hi' hle
    unfold regionAt
    dsimp only
    split_ifs <;> first | rfl | omega
  have hshift : ∀ lo', r.lo ≤ lo' → regionAt x { r with lo := lo', fileOff := r.fileOff + (lo' - r.lo) } =
      if lo' ≤ x then regionAt x r else none := by
    intro lo' hle
    unfold regionAt
    dsimp only
    split_ifs <;> first | rfl | omega | (congr 2; omega)
  have hout : ¬(r.lo ≤ x ∧ x < r.hi) → regionAt x r = none := fun h => if_neg h
  by_cases hin : r.lo ≤ x ∧ x < r.hi
  · unfold unmapRegion
    split_ifs <;> simp only [hsplit, filterMap_nil, append_nil]
    all_goals (try rw [hcut _ (by omega)]); (try rw [hshift _ (by omega)])
    all_goals split_ifs <;> first | rfl | omega | simp
  · unfold unmapRegion
    split_ifs <;> simp only [hsplit, filterMap_nil, append_nil]
    all_goals (try rw [hcut _ (by omega)]); (try rw [hshift _ (by omega)])
    all_goals simp [hout hin]

/-- The loaded regions lose exactly the offsets of a range that starts in the window or ends before it. -/
theorem unmap_image {lo hi x : Nat} {regions : List LoadedRegion} (hx : x < guestSize)
    (hlo : lo < guestBase → hi ≤ guestBase + x ∨ regions.filterMap (regionAt x) = []) :
    (a64LoadedRegionsUnmap regions lo hi).filterMap (regionAt x) =
      if lo ≤ guestBase + x ∧ guestBase + x < hi then [] else regions.filterMap (regionAt x) := by
  unfold a64LoadedRegionsUnmap
  split
  · rename_i hskip
    split
    · rename_i hcut
      rcases hlo (by omega) with h | h
      · omega
      · exact h
    · rfl
  · rename_i hcut
    have hlt : lo - guestBase < min (hi - guestBase) guestSize := by omega
    have hin : (lo - guestBase ≤ x ∧ x < min (hi - guestBase) guestSize) ↔
        (lo ≤ guestBase + x ∧ guestBase + x < hi) := by omega
    induction regions with
    | nil => simp
    | cons r rs ih =>
      rw [flatMap_cons, filterMap_append, ih fun h => absurd h (by omega), unmapRegion_at hlt]
      simp only [hin]
      split
      · rfl
      · rw [← filterMap_append]
        rfl

theorem remove_exact_iff (h : s.WellFormed) (hvalid : (MapOp.remove lo hi).Valid s) :
    ∃ s' rc, s.apply (.remove lo hi) = some (s', rc) ∧ s'.WellFormed ∧
      ((MapOp.remove lo hi).Exact s s' rc ↔ (MapOp.remove lo hi).Sound s) := by
  obtain ⟨hlo, hhi, hle⟩ := hvalid
  obtain ⟨hord, hattr⟩ := a64MapRemove_spec hle h.ordered
  refine ⟨_, _, rfl, ⟨hord, a64MapRemove_paged h.paged hlo hhi⟩, ?_⟩
  constructor
  · rintro ⟨-, himage⟩ hbelow r hr hne hwin
    by_contra hgt
    have hx := himage r.lo hwin
    rw [if_pos (by omega)] at hx
    -- The early return leaves the region that starts in the range.
    have hkept : a64LoadedRegionsUnmap s.regions lo hi = s.regions := if_pos (.inl hbelow)
    have hnone := filterMap_eq_nil_iff.mp hx r (by rw [hkept]; exact hr)
    simp [regionAt, hne] at hnone
  · intro hsound
    refine ⟨fun p => hattr (4096 * p), fun x hx => unmap_image hx fun hbelow => ?_⟩
    by_cases hin : hi ≤ guestBase + x
    · exact .inl hin
    · refine .inr (filterMap_eq_nil_iff.mpr fun r hr => ?_)
      by_cases hne : r.lo < r.hi ∧ r.lo < guestSize
      · have := hsound hbelow r hr hne.1 hne.2
        exact if_neg (by omega)
      · exact if_neg (by omega)

theorem inRange_of_ends {lo hi x : Nat} (hlt : lo < hi) (h1 : a64MappingVa lo ≤ x) (h2 : x < a64MappingVa (hi - 1) + 1) :
    InRange lo hi x := by
  unfold a64MappingVa a64GuestVa at h1 h2
  by_cases hhi : hi ≤ guestSize
  · rw [if_pos (by omega)] at h1 h2
    refine ⟨x - guestBase, by omega, by omega, ?_⟩
    unfold a64MappingVa a64GuestVa
    rw [if_pos (by omega)]
    omega
  · rw [if_neg (show ¬hi - 1 < guestSize by omega)] at h2
    have hbase : guestSize ≤ guestBase := by decide
    have hx : guestSize ≤ x ∧ lo ≤ x := by
      split at h1 <;> omega
    exact ⟨x, hx.2, by omega, (if_neg (by omega)).symm⟩

theorem ends_of_inRange {lo hi x : Nat} (hside : hi ≤ guestSize ∨ guestSize ≤ lo) (h : InRange lo hi x) :
    a64MappingVa lo ≤ x ∧ x < a64MappingVa (hi - 1) + 1 := by
  obtain ⟨y, h1, h2, rfl⟩ := h
  unfold a64MappingVa a64GuestVa
  split_ifs <;> omega

theorem setProt_pages (h : Ordered s.maps) (hends : lo' < hi') :
    Ordered (s.maps.flatMap (setProtEntry lo' hi' prot)) ∧
    ∀ x, attrAt (s.maps.flatMap (setProtEntry lo' hi' prot)) x =
      (attrAt s.maps x).map fun t => if lo' ≤ x ∧ x < hi' then { t with prot } else t := by
  have hord : Ordered (s.maps.flatMap (setProtEntry lo' hi' prot)) :=
    h.flatMap fun m hm => setProtEntry_ordered hends (h.nonempty m hm)
  refine ⟨hord, fun x => ?_⟩
  have hlookup := lookup_flatMap (k := fun t : Attr => some (if lo' ≤ x ∧ x < hi' then { t with prot } else t)) h
    hord fun m _ t => setProtEntry_has (x := x) (t := t)
  refine hlookup.trans ?_
  show (attrAt s.maps x).bind _ = _
  cases attrAt s.maps x <;> rfl

/-- An entry that reaches over both translated ends when they are in the wrong order leaves an empty one. -/
theorem setProt_crossed (hends : hi' ≤ lo') :
    Ordered (s.maps.flatMap (setProtEntry lo' hi' prot)) → ∀ m ∈ s.maps, m.lo < hi' → lo' < m.hi → m.prot = prot := by
  intro hord m hm h1 h2
  by_contra hprot
  have hpiece : { m with lo := max m.lo lo', hi := min m.hi hi', prot } ∈ setProtEntry lo' hi' prot m := by
    have hmeet : ¬(m.hi ≤ lo' ∨ hi' ≤ m.lo ∨ m.prot = prot) := by
      rintro (h | h | h)
      · omega
      · omega
      · exact hprot h
    rw [setProtEntry_eq hmeet]
    simp
  have hne := hord.nonempty _ (mem_flatMap.mpr ⟨m, hm, hpiece⟩)
  simp only at hne
  omega

theorem setProt_paged (h : s.WellFormed) (hlo : 4096 ∣ lo') (hhi : 4096 ∣ hi') :
    Paged (s.maps.flatMap (setProtEntry lo' hi' prot)) := by
  intro b hb
  obtain ⟨m, hm, hbm⟩ := mem_flatMap.mp hb
  exact setProtEntry_paged hlo hhi (h.paged m hm) b hbm

/-- The ends of a page-aligned range are page-aligned after translation. -/
theorem ends_paged (hlo : 4096 ∣ lo) (hhi : 4096 ∣ hi) (hlt : lo < hi) :
    4096 ∣ a64MappingVa lo ∧ 4096 ∣ a64MappingVa (hi - 1) + 1 := by
  unfold a64MappingVa a64GuestVa guestBase
  constructor <;> split <;> omega

/-- Entries that do not reach over crossed ends stay as they are. -/
theorem setProt_vacuous
    (hkeep : ∀ m ∈ s.maps, m.lo < hi' → lo' < m.hi → m.prot = prot) :
    s.maps.flatMap (setProtEntry lo' hi' prot) = s.maps := by
  have hone : ∀ m ∈ s.maps, setProtEntry lo' hi' prot m = [m] := by
    intro m hm
    refine if_pos ?_
    by_cases h1 : m.lo < hi'
    · by_cases h2 : lo' < m.hi
      · exact .inr (.inr (hkeep m hm h1 h2))
      · exact .inl (by omega)
    · exact .inr (.inl (by omega))
  rw [flatMap_congr hone]
  exact flatMap_singleton' ..

theorem setProt_exact_iff {host : Host} (h : s.WellFormed)
    (hvalid : (MapOp.setProt host lo hi prot).Valid s) :
    ∃ s' rc, s.apply (.setProt host lo hi prot) = some (s', rc) ∧
      (s'.WellFormed ∧ (MapOp.setProt host lo hi prot).Exact s s' rc ↔ (MapOp.setProt host lo hi prot).Sound s) := by
  obtain ⟨hlo, hhi⟩ := hvalid
  refine ⟨_, _, rfl, ?_⟩
  by_cases hcross : lo < guestSize ∧ guestSize < hi ∧ hi ≤ guestBase + lo
  · -- The walk over the crossed ends is empty, and the window is not protected on the host.
    have hlo' : a64MappingVa lo = guestBase + lo := if_pos hcross.1
    have hhi' : a64MappingVa (hi - 1) + 1 = hi := by
      unfold a64MappingVa
      rw [if_neg (by omega)]
      omega
    have heq : a64MapSetProt host s.maps lo hi prot = (s.maps.flatMap (setProtEntry (guestBase + lo) hi prot), 0) := by
      have hwalk : rangeMapped s.maps hi (hi - (guestBase + lo)) (guestBase + lo) = true :=
        (rangeMapped_iff h.ordered le_rfl).mpr fun x h1 h2 => by omega
      have hwin : a64IsGuestVa (guestBase + lo) = true := by simp [a64IsGuestVa, hcross.1]
      unfold a64MapSetProt
      rw [if_neg (by omega)]
      simp [hlo', hhi', hwalk, hwin]
    rw [heq]
    constructor
    · rintro ⟨hwf, -⟩ - - -
      exact setProt_crossed hcross.2.2 hwf.ordered
    · intro hsound
      rw [setProt_vacuous (hsound hcross.1 hcross.2.1 hcross.2.2)]
      exact ⟨h, rfl, fun hrc => absurd (show (0 : Int) = -1 from hrc) (by decide), fun p => .inl rfl,
        fun _ hside => by omega⟩
  · refine iff_of_true ?_ fun h1 h2 h3 => absurd ⟨h1, h2, h3⟩ hcross
    have hfail : WellFormed { s with maps := s.maps } ∧
        (MapOp.setProt host lo hi prot).Exact s { s with maps := s.maps } (-1) :=
      ⟨h, rfl, fun _ => rfl, fun _ => .inl rfl, fun hrc => absurd hrc (by decide)⟩
    unfold a64MapSetProt
    dsimp only
    split
    · exact hfail
    · rename_i hargs
      split
      · exact hfail
      · rename_i hwalk
        split
        · exact hfail
        · have hlt : lo < hi := by omega
          have hends : a64MappingVa lo < a64MappingVa (hi - 1) + 1 := by
            unfold a64MappingVa a64GuestVa
            split_ifs <;> omega
          have hmapped := (rangeMapped_iff h.ordered le_rfl).mp (by simpa using hwalk)
          obtain ⟨hord, hattr⟩ := setProt_pages h.ordered hends
          obtain ⟨hplo, hphi⟩ := ends_paged hlo hhi hlt
          refine ⟨⟨hord, setProt_paged h hplo hphi⟩, rfl, fun hrc => absurd (show (0 : Int) = -1 from hrc) (by decide),
            fun p => ?_, ?_⟩
          · have hp := hattr (4096 * p)
            by_cases hin : a64MappingVa lo ≤ 4096 * p ∧ 4096 * p < a64MappingVa (hi - 1) + 1
            · simp only [hin, and_self, if_true] at hp
              exact .inr ⟨inRange_of_ends hlt hin.1 hin.2, hp⟩
            · simp only [hin, if_false, Option.map_id'] at hp
              exact .inl hp
          · intro _ hside p hin
            have hin' := ends_of_inRange hside hin
            have hp := hattr (4096 * p)
            simp only [hin', and_self, if_true] at hp
            obtain ⟨t, ht⟩ := Option.ne_none_iff_exists'.mp (hmapped _ hin'.1 hin'.2)
            exact ⟨t, ht, hp.trans (by rw [ht]; rfl)⟩

end PageTable

/-! ### Whole runs -/

/-- From a well-formed table every valid call ends, and it keeps the table in order and changes exactly its own
    pages precisely when its condition holds. -/
theorem PageTable.WellFormed.apply_iff {s : PageTable} {op : MapOp} (h : s.WellFormed) (hvalid : op.Valid s) :
    ∃ s' rc, s.apply op = some (s', rc) ∧ (s'.WellFormed ∧ op.Exact s s' rc ↔ op.Sound s) := by
  cases op with
  | insert lo hi prot owned fileBacked =>
    obtain ⟨s', rc, heq, hwf, hexact⟩ := PageTable.insert_exact h hvalid
    exact ⟨s', rc, heq, iff_of_true ⟨hwf, hexact⟩ trivial⟩
  | declare base len prot =>
    obtain ⟨s', rc, heq, hwf, hiff⟩ := PageTable.declare_exact_iff h hvalid
    exact ⟨s', rc, heq, (and_iff_right hwf).trans hiff⟩
  | remove lo hi =>
    obtain ⟨s', rc, heq, hwf, hiff⟩ := PageTable.remove_exact_iff h hvalid
    exact ⟨s', rc, heq, (and_iff_right hwf).trans hiff⟩
  | setProt host lo hi prot => exact PageTable.setProt_exact_iff h hvalid

theorem PageTable.Reach.wellFormed {regions : List LoadedRegion} {s : PageTable} (h : Reach regions s) :
    s.WellFormed := by
  induction h with
  | init => exact ⟨Ordered.nil, by simp [Paged]⟩
  | step _ hvalid hsound happly ih =>
    obtain ⟨s', rc, heq, hiff⟩ := ih.apply_iff hvalid
    cases heq.symm.trans happly
    exact (hiff.mpr hsound).1

/-- In every run whose calls meet the condition the table stays sorted, disjoint and without empty entries, and
    the next call changes exactly its own pages precisely when it meets the condition too. -/
theorem pageTable_run_exact {regions : List LoadedRegion} {s : PageTable} (hreach : s.Reach regions) :
    s.WellFormed ∧ ∀ op : MapOp, op.Valid s →
      ∃ s' rc, s.apply op = some (s', rc) ∧ (s'.WellFormed ∧ op.Exact s s' rc ↔ op.Sound s) :=
  ⟨hreach.wellFormed, fun _ hvalid => hreach.wellFormed.apply_iff hvalid⟩

/-- A file page and an anonymous page side by side, as two calls of `mmap` leave them. -/
def neighbours : PageTable where
  maps := [⟨0x7e0000000000, 0x7e0000001000, 3, true, true⟩, ⟨0x7e0000001000, 0x7e0000002000, 3, true, false⟩]
  regions := []

theorem neighbours_reach : neighbours.Reach [] := by
  have h1 : PageTable.Reach [] ⟨[⟨0x7e0000001000, 0x7e0000002000, 3, true, false⟩], []⟩ :=
    .step .init (show (MapOp.insert 0x7e0000001000 0x7e0000002000 3 true false).Valid _ from
      ⟨by decide, by decide, by decide, fun _ _ _ => rfl⟩) trivial rfl
  refine .step h1 (show (MapOp.insert 0x7e0000000000 0x7e0000001000 3 true true).Valid _ from
    ⟨by decide, by decide, by decide, ?_⟩) trivial rfl
  intro p h1 h2
  refine attrAt_eq_none.mpr fun m hm hx => ?_
  rw [mem_singleton.mp hm] at hx
  exact absurd hx.1 (by show ¬(0x7e0000001000 ≤ 4096 * p); omega)

theorem pageTable_run_exact_neighbours : neighbours.WellFormed ∧ ∀ op : MapOp, op.Valid neighbours →
    ∃ s' rc, neighbours.apply op = some (s', rc) ∧ (s'.WellFormed ∧ op.Exact neighbours s' rc ↔ op.Sound neighbours) :=
  pageTable_run_exact neighbours_reach

/-- Declaring a page of the image window makes the anonymous page a file page. -/
theorem declare_changes_foreign_page : neighbours.Reach [] ∧ (MapOp.declare 0x1000 0x1000 3).Valid neighbours ∧
    ∃ s', neighbours.apply (.declare 0x1000 0x1000 3) = some (s', 0) ∧
      neighbours.page 0x7e0000001 = some ⟨3, true, false⟩ ∧ s'.page 0x7e0000001 = some ⟨3, true, true⟩ ∧
      ¬(MapOp.declare 0x1000 0x1000 3).Exact neighbours s' 0 := by
  refine ⟨neighbours_reach, ⟨by decide, by decide, by decide, by decide⟩,
    ⟨[⟨0x700000001000, 0x700000002000, 3, false, false⟩, ⟨0x7e0000000000, 0x7e0000002000, 3, true, true⟩], []⟩,
    ?_, by decide, by decide, fun hexact => ?_⟩
  · have hfill : declareFill 0x700000002000 3 4096 0x700000001000 neighbours.maps =
        some (⟨0x700000001000, 0x700000002000, 3, false, false⟩ :: neighbours.maps) := by decide
    have hdeclare : a64MapDeclareBacking neighbours.maps 0x1000 0x1000 3 =
        (declareFill 0x700000002000 3 4096 0x700000001000 neighbours.maps).map declareCoalesce := rfl
    simp only [PageTable.apply, hdeclare, hfill]
    simp [neighbours, declareCoalesce]
  · cases hexact.2 0x7e0000001

end Lunaria.Vm
