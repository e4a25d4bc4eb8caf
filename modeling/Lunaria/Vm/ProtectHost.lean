import Lunaria.Vm.Mapping

/-! Host protection of a guest range (`luna_vm_protect_host`). A host page may be larger than a guest page,
    so the rights requested for it have to be the union of the rights of its guest bytes. At most three
    native calls cover the two edge pages and the interior. -/

namespace Lunaria.Vm
open Word List Nat

/-- One call of the native protection function, with the guest rights it was made for. -/
structure HostCall where
  addr : Nat
  size : Nat
  hostProt : BitVec 32
  rights : BitVec 32
deriving DecidableEq

/-- The rights for the edge page `page`: `prot`, joined with what the loop collects from the table. -/
def lunaVmEdgeProt (page pageSize lo hi : Nat) : List Mapping → BitVec 32 → BitVec 32
  | [], prot => prot
  | m :: maps, prot =>
    if m.hi ≤ page then lunaVmEdgeProt page pageSize lo hi maps prot
    else if add 64 page pageSize ≤ m.lo then prot
    else if (m.lo < lo ∧ page < m.hi) ∨ (hi < m.hi ∧ m.lo < add 64 page pageSize) then
      lunaVmEdgeProt page pageSize lo hi maps (prot ||| m.prot)
    else lunaVmEdgeProt page pageSize lo hi maps prot

/-- The scan of `luna_vm_protect_span` for an anonymous mapping in `[start, stop)`. -/
def spanAnonymous (start stop : Nat) : List Mapping → Bool
  | [] => false
  | m :: maps =>
    if m.hi ≤ start then spanAnonymous start stop maps
    else if stop ≤ m.lo then false
    else if !m.fileBacked then true
    else spanAnonymous start stop maps

/-- The native rights for guest rights `prot`: execution needs host read, and anonymous backing stays
    readable and writable when the host page is larger than a guest page. -/
def hostProt (prot : BitVec 32) (anonymous : Bool) : BitVec 32 :=
  (if prot &&& 5 ≠ 0 then 1 else 0) ||| (if prot &&& 2 ≠ 0 then 2 else 0) ||| (if anonymous then 3 else 0)

def lunaVmProtectSpan (maps : List Mapping) (start stop : Nat) (prot : BitVec 32) (pageSize : Nat) : HostCall where
  addr := start
  size := sub 64 stop start
  hostProt := hostProt prot (decide (4096 < pageSize) && spanAnonymous start stop maps)
  rights := prot

/-- The calls `luna_vm_protect_host` makes, in order, and its result. -/
def lunaVmProtectHost (maps : List Mapping) (lo hi : Nat) (prot : BitVec 32) (pageSize : Nat)
    (protect : HostCall → Int) : List HostCall × Int :=
  let first := maskDown 64 pageSize lo
  let stop := maskUp 64 pageSize hi
  let edge := lunaVmEdgeProt first pageSize lo hi maps prot
  if sub 64 stop first = pageSize then
    let c := lunaVmProtectSpan maps first stop edge pageSize
    ([c], protect c)
  else
    let a := lunaVmProtectSpan maps first (add 64 first pageSize) edge pageSize
    if protect a ≠ 0 then ([a], -1)
    else
      let z := lunaVmProtectSpan maps (sub 64 stop pageSize) stop
        (lunaVmEdgeProt (sub 64 stop pageSize) pageSize lo hi maps prot) pageSize
      -- `2 * page_size` is a word too, and is zero for a page of half the address space.
      if add 64 pageSize pageSize < sub 64 stop first then
        let b := lunaVmProtectSpan maps (add 64 first pageSize) (sub 64 stop pageSize) prot pageSize
        if protect b ≠ 0 then ([a, b], -1) else ([a, b, z], protect z)
      else ([a, z], protect z)

/-! ### What the edge loop collects -/

theorem lunaVmEdgeProt_bit {page pageSize lo hi : Nat} {b : Nat} :
    ∀ {maps : List Mapping} {prot : BitVec 32}, Ordered maps →
      ((lunaVmEdgeProt page pageSize lo hi maps prot).getLsbD b = true ↔ prot.getLsbD b = true ∨
        ∃ m ∈ maps, page < m.hi ∧ m.lo < add 64 page pageSize ∧ (m.lo < lo ∨ hi < m.hi) ∧ m.prot.getLsbD b = true)
  | [], prot, _ => by simp [lunaVmEdgeProt]
  | m :: maps, prot, h => by
    have ih : ∀ prot : BitVec 32, (lunaVmEdgeProt page pageSize lo hi maps prot).getLsbD b = true ↔ _ := fun _ =>
      lunaVmEdgeProt_bit h.tail
    have hsplit : ∀ p : Mapping → Prop, (∃ x ∈ m :: maps, p x) ↔ p m ∨ ∃ x ∈ maps, p x := fun p => by simp
    rw [hsplit]
    unfold lunaVmEdgeProt
    split
    · rename_i hskip
      rw [ih, or_iff_right (a := page < m.hi ∧ _) (by omega)]
    · rename_i hpage
      split
      · -- The break: every later entry starts above the page as well.
        rename_i hbreak
        have hrest : ¬∃ x ∈ maps, page < x.hi ∧ x.lo < add 64 page pageSize ∧ (x.lo < lo ∨ hi < x.hi) ∧
            x.prot.getLsbD b = true := by
          rintro ⟨x, hx, -, hlo, -⟩
          have := h.head_le x hx
          have := h.head_lt
          omega
        simp only [hrest, or_false]
        exact ⟨Or.inl, fun hor => hor.resolve_right fun hm => by omega⟩
      · rename_i hin
        split
        · rename_i hout
          rw [ih, BitVec.getLsbD_or, Bool.or_eq_true]
          constructor
          · rintro ((hp | hm) | hx)
            · exact Or.inl hp
            · exact Or.inr (Or.inl ⟨by omega, by omega, by omega, hm⟩)
            · exact Or.inr (Or.inr hx)
          · rintro (hp | ⟨-, -, -, hm⟩ | hx)
            · exact Or.inl (Or.inl hp)
            · exact Or.inl (Or.inr hm)
            · exact Or.inr hx
        · rename_i hout
          rw [ih, or_iff_right (a := page < m.hi ∧ _) (by omega)]

theorem spanAnonymous_iff {start stop : Nat} : ∀ {maps : List Mapping}, Ordered maps →
    (spanAnonymous start stop maps = true ↔
      ∃ m ∈ maps, start < m.hi ∧ m.lo < stop ∧ m.fileBacked = false)
  | [], _ => by simp [spanAnonymous]
  | m :: maps, h => by
    have ih : spanAnonymous start stop maps = true ↔ _ := spanAnonymous_iff h.tail
    have hsplit : ∀ p : Mapping → Prop, (∃ x ∈ m :: maps, p x) ↔ p m ∨ ∃ x ∈ maps, p x := fun p => by simp
    rw [hsplit]
    unfold spanAnonymous
    split
    · rw [ih, or_iff_right (a := start < m.hi ∧ _) (by omega)]
    · split
      · rename_i hbreak
        have hrest : ¬∃ x ∈ maps, start < x.hi ∧ x.lo < stop ∧ x.fileBacked = false := by
          rintro ⟨x, hx, -, hlo, -⟩
          have := h.head_le x hx
          have := h.head_lt
          omega
        simp only [hrest, or_false, Bool.false_eq_true, false_iff]
        omega
      · split
        · rename_i hfile
          simp only [Bool.not_eq_true'] at hfile
          simp only [true_iff]
          exact Or.inl ⟨by omega, by omega, hfile⟩
        · rename_i hfile
          simp only [Bool.not_eq_true'] at hfile
          rw [ih, or_iff_right (fun hm => hfile hm.2.2)]

/-! ### The calls that are made -/

/-- A host page size: a power of two of at least one guest page. -/
def HostPageSize (pageSize : Nat) : Prop := ∃ k, 12 ≤ k ∧ k < 64 ∧ pageSize = 2 ^ k

def hostFirst (pageSize lo : Nat) : Nat := lo / pageSize * pageSize

def hostLast (pageSize hi : Nat) : Nat := (hi - 1) / pageSize * pageSize

section Pages
variable {pageSize lo hi : Nat}

theorem HostPageSize.pos (h : HostPageSize pageSize) : 0 < pageSize := by
  obtain ⟨k, -, -, rfl⟩ := h
  exact Nat.two_pow_pos k

theorem HostPageSize.dvd (h : HostPageSize pageSize) : pageSize ∣ 2 ^ 64 := by
  obtain ⟨k, -, hk, rfl⟩ := h
  exact pow_dvd_pow 2 hk.le

theorem HostPageSize.lt (h : HostPageSize pageSize) : pageSize < 2 ^ 64 := by
  obtain ⟨k, -, hk, rfl⟩ := h
  exact Nat.pow_lt_pow_right (by norm_num) hk

section
variable (hp : HostPageSize pageSize)
include hp

theorem maskDown_first (hlo : lo < 2 ^ 64) :
    maskDown 64 pageSize lo = hostFirst pageSize lo := by
  obtain ⟨k, -, hk, rfl⟩ := hp
  exact maskDown_two_pow hk.le hlo

/-- Where the pages of the range lie: the end of the last one may be the end of the address space. -/
theorem host_pages (hlt : lo < hi) (hhi : hi < 2 ^ 64) :
    hostFirst pageSize lo ≤ lo ∧ lo < hostFirst pageSize lo + pageSize ∧
    hostLast pageSize hi < hi ∧ hi ≤ hostLast pageSize hi + pageSize ∧
    hostFirst pageSize lo ≤ hostLast pageSize hi ∧ hostLast pageSize hi + pageSize ≤ 2 ^ 64 := by
  have h1 := div_mul_le_lt (x := lo) hp.pos
  have h2 := div_mul_le_lt (x := hi - 1) hp.pos
  have h3 : hostFirst pageSize lo ≤ hostLast pageSize hi :=
    Nat.mul_le_mul_right _ (Nat.div_le_div_right (by omega))
  have h4 : hostLast pageSize hi + pageSize ≤ 2 ^ 64 :=
    add_le_of_dvd (Nat.dvd_mul_left ..) hp.dvd (by unfold hostLast; omega)
  unfold hostFirst hostLast at *
  omega

theorem maskUp_last (h0 : 0 < hi) (hhi : hi < 2 ^ 64) :
    maskUp 64 pageSize hi = add 64 (hostLast pageSize hi) pageSize := by
  have hpos := hp.pos
  have hdiv : (hi + (pageSize - 1)) / pageSize * pageSize = hostLast pageSize hi + pageSize := by
    rw [show hi + (pageSize - 1) = hi - 1 + pageSize by omega, add_div_right _ hpos, succ_mul]
    rfl
  have hle := div_mul_le_lt (x := hi + (pageSize - 1)) hpos
  obtain ⟨k, -, hk, hpk⟩ := id hp
  by_cases hwrap : hi + (pageSize - 1) < 2 ^ 64
  · rw [hpk, maskUp_two_pow hk.le (hpk ▸ hwrap), ← hpk, hdiv, add_of_lt (by omega)]
  · -- The sum wraps: what is left of it is below one page, and the last page ends the address space.
    have hend : hostLast pageSize hi + pageSize = 2 ^ 64 := by
      have h1 := (host_pages hp h0 hhi).2.2.2.2.2
      have h2 : pageSize ∣ hostLast pageSize hi + pageSize :=
        Nat.dvd_add (Nat.dvd_mul_left ..) (Nat.dvd_refl _)
      by_contra hne
      have := add_le_of_dvd h2 hp.dvd (by omega)
      omega
    have hsum : add 64 hi (pageSize - 1) < pageSize := by
      unfold add
      rw [mod_eq_sub_mod (by omega), mod_eq_of_lt (by omega)]
      omega
    have hzero : add 64 (hostLast pageSize hi) pageSize = 0 := by
      unfold add
      rw [hend, mod_self]
    unfold maskUp
    rw [hzero, hpk, maskDown_two_pow hk.le (by rw [← hpk]; omega), ← hpk, div_eq_of_lt hsum, Nat.zero_mul]

theorem sub_last (hlt : lo < hi) (hhi : hi < 2 ^ 64) :
    sub 64 (add 64 (hostLast pageSize hi) pageSize) pageSize = hostLast pageSize hi := by
  obtain ⟨-, -, -, -, -, hend⟩ := host_pages hp hlt hhi
  have := hp.pos
  unfold sub add
  omega

end

end Pages

section Calls
variable {maps : List Mapping} {pageSize lo hi : Nat} {prot : BitVec 32} {protect : HostCall → Int}

/-- The request for the edge page `page`. -/
def edgeCall (maps : List Mapping) (pageSize lo hi : Nat) (prot : BitVec 32) (page : Nat) : HostCall :=
  lunaVmProtectSpan maps page (add 64 page pageSize) (lunaVmEdgeProt page pageSize lo hi maps prot) pageSize

theorem protectHost_single (hp : HostPageSize pageSize) (hlt : lo < hi) (hhi : hi < 2 ^ 64)
    (hone : hostFirst pageSize lo = hostLast pageSize hi) :
    (lunaVmProtectHost maps lo hi prot pageSize protect).1 =
      [edgeCall maps pageSize lo hi prot (hostLast pageSize hi)] := by
  obtain ⟨-, -, -, -, -, hend⟩ := host_pages hp hlt hhi
  have hpos := hp.pos
  have hps := hp.lt
  have hsub : sub 64 (add 64 (hostLast pageSize hi) pageSize) (hostLast pageSize hi) = pageSize := by
    unfold sub add
    omega
  unfold lunaVmProtectHost
  simp only [maskDown_first hp (by omega : lo < 2 ^ 64), maskUp_last hp (by omega : 0 < hi) hhi, hone, hsub,
    if_true]
  rfl

/-- A larger range is a request for each edge page and, unless the size of the range wraps to zero, one for
    the pages between them. -/
theorem protectHost_edges (hp : HostPageSize pageSize) (hlt : lo < hi) (hhi : hi < 2 ^ 64)
    (hok : ∀ c, protect c = 0) (hne : hostFirst pageSize lo ≠ hostLast pageSize hi) :
    (lunaVmProtectHost maps lo hi prot pageSize protect).1 =
      edgeCall maps pageSize lo hi prot (hostFirst pageSize lo) ::
        ((if hostFirst pageSize lo + pageSize < hostLast pageSize hi ∧
              ¬(hostFirst pageSize lo = 0 ∧ hostLast pageSize hi + pageSize = 2 ^ 64) then
            [lunaVmProtectSpan maps (hostFirst pageSize lo + pageSize) (hostLast pageSize hi) prot pageSize]
          else []) ++
        [edgeCall maps pageSize lo hi prot (hostLast pageSize hi)]) := by
  obtain ⟨-, -, -, -, hle, hend⟩ := host_pages hp hlt hhi
  have hpos := hp.pos
  have hps := hp.lt
  have hstep : hostFirst pageSize lo + pageSize ≤ hostLast pageSize hi :=
    add_le_of_dvd (Nat.dvd_mul_left ..) (Nat.dvd_mul_left ..) (by omega)
  have hsub : sub 64 (add 64 (hostLast pageSize hi) pageSize) (hostFirst pageSize lo) ≠ pageSize := by
    unfold sub add
    omega
  have hmid : add 64 pageSize pageSize < sub 64 (add 64 (hostLast pageSize hi) pageSize) (hostFirst pageSize lo) ↔
      hostFirst pageSize lo + pageSize < hostLast pageSize hi ∧
        ¬(hostFirst pageSize lo = 0 ∧ hostLast pageSize hi + pageSize = 2 ^ 64) := by
    unfold sub add
    omega
  have hadd : add 64 (hostFirst pageSize lo) pageSize = hostFirst pageSize lo + pageSize := add_of_lt (by omega)
  unfold lunaVmProtectHost
  simp only [maskDown_first hp (by omega : lo < 2 ^ 64), maskUp_last hp (by omega : 0 < hi) hhi, hsub, if_false,
    hok, sub_last hp hlt hhi, hmid, ne_eq, not_true, hadd]
  unfold edgeCall
  rw [hadd]
  split <;> rfl

end Calls

/-! ### Exact requests -/

/-- Right `b` belongs to `page` after the change: `prot` grants it, or a mapped byte of the page outside
    `[lo, hi)` has it. -/
def RightAt (maps : List Mapping) (lo hi : Nat) (prot : BitVec 32) (pageSize page b : Nat) : Prop :=
  prot.getLsbD b = true ∨
    ∃ m ∈ maps, m.prot.getLsbD b = true ∧ ∃ x, page ≤ x ∧ x < page + pageSize ∧ m.Has x ∧ ¬(lo ≤ x ∧ x < hi)

/-- The requests cover every host page that meets `[lo, hi)` once and reach into no other, each for exactly the rights of
    the page, and ask the host for these rights, with read and write where a larger page has anonymous backing. -/
structure ExactCalls (maps : List Mapping) (lo hi : Nat) (prot : BitVec 32) (pageSize : Nat)
    (calls : List HostCall) : Prop where
  cover : ∀ page, pageSize ∣ page → lo < page + pageSize → page < hi →
    calls.countP (fun c => c.addr ≤ page ∧ page + pageSize ≤ c.addr + c.size) = 1
  inside : ∀ c ∈ calls, hostFirst pageSize lo ≤ c.addr ∧ c.addr + c.size ≤ hostLast pageSize hi + pageSize
  rights : ∀ page, pageSize ∣ page → lo < page + pageSize → page < hi →
    ∀ c ∈ calls, c.addr ≤ page → page + pageSize ≤ c.addr + c.size →
      ∀ b, c.rights.getLsbD b = true ↔ RightAt maps lo hi prot pageSize page b
  host : ∀ c ∈ calls, c.hostProt = hostProt c.rights (decide (4096 < pageSize ∧
    ∃ m ∈ maps, c.addr < m.hi ∧ m.lo < c.addr + c.size ∧ m.fileBacked = false))

/-- A mapping that sticks out of `[lo, hi)` and reaches into an edge page brings no right the page should not
    have. When the last page ends the address space, its end wraps to zero and nothing of the table is seen
    from it, so there it must have no right but `prot`'s and no anonymous backing that `prot` does not
    cover, and the range may not hold a whole page between edges that together wrap to nothing. -/
structure RightsFit (maps : List Mapping) (lo hi : Nat) (prot : BitVec 32) (pageSize : Nat) : Prop where
  edge : ∀ page, page = hostFirst pageSize lo ∨ page = hostLast pageSize hi → ∀ m ∈ maps,
    page < m.hi → m.lo < add 64 page pageSize → m.lo < lo ∨ hi < m.hi →
      ∀ b, m.prot.getLsbD b = true → RightAt maps lo hi prot pageSize page b
  top : 2 ^ 64 ≤ hi + (pageSize - 1) →
    (∀ b, RightAt maps lo hi prot pageSize (hostLast pageSize hi) b → prot.getLsbD b = true) ∧
    (hostFirst pageSize lo = 0 → hostLast pageSize hi ≤ pageSize) ∧
    ((∃ m ∈ maps, hostLast pageSize hi < m.hi ∧ m.fileBacked = false) → prot &&& 2 ≠ 0 ∧ prot &&& 5 ≠ 0)

theorem hostProt_anonymous {prot : BitVec 32} :
    hostProt prot false = hostProt prot true ↔ prot &&& 2 ≠ 0 ∧ prot &&& 5 ≠ 0 := by
  unfold hostProt
  by_cases h1 : prot &&& 5#32 = 0#32 <;> by_cases h2 : prot &&& 2#32 = 0#32 <;> simp [h1, h2]

section Exact
variable {maps : List Mapping} {pageSize lo hi : Nat} {prot : BitVec 32}

/-- The edge loop sees every mapping that has a byte of the page outside the range, unless the end of the
    page wraps. -/
theorem edge_of_rightAt (ho : Ordered maps) {page b : Nat} (hend : page + pageSize < 2 ^ 64)
    (h : RightAt maps lo hi prot pageSize page b) :
    (lunaVmEdgeProt page pageSize lo hi maps prot).getLsbD b = true := by
  rw [lunaVmEdgeProt_bit ho, add_of_lt hend]
  rcases h with h | ⟨m, hm, hb, x, hx1, hx2, ⟨hx3, hx4⟩, hout⟩
  · exact Or.inl h
  · exact Or.inr ⟨m, hm, by omega, by omega, by omega, hb⟩

theorem rightAt_of_edge (ho : Ordered maps) (hfit : RightsFit maps lo hi prot pageSize) {page b : Nat}
    (hpage : page = hostFirst pageSize lo ∨ page = hostLast pageSize hi)
    (h : (lunaVmEdgeProt page pageSize lo hi maps prot).getLsbD b = true) :
    RightAt maps lo hi prot pageSize page b := by
  rcases (lunaVmEdgeProt_bit ho).mp h with h | ⟨m, hm, h1, h2, h3, h4⟩
  · exact Or.inl h
  · exact hfit.edge page hpage m hm h1 h2 h3 b h4

/-- A request below the top of the address space asks the host for its rights and for the anonymous backing
    in it. -/
theorem span_host (ho : Ordered maps) {start stop : Nat} {rights : BitVec 32} (hle : start ≤ stop)
    (hstop : stop < 2 ^ 64) :
    (lunaVmProtectSpan maps start stop rights pageSize).hostProt = hostProt rights (decide (4096 < pageSize ∧
      ∃ m ∈ maps, start < m.hi ∧ m.lo < start + sub 64 stop start ∧ m.fileBacked = false)) := by
  have hanon : decide (∃ m ∈ maps, start < m.hi ∧ m.lo < stop ∧ m.fileBacked = false) =
      spanAnonymous start stop maps := by
    rw [Bool.eq_iff_iff, decide_eq_true_eq, spanAnonymous_iff ho]
  rw [sub_of_le hstop hle, Nat.add_sub_cancel' hle, Bool.decide_and, hanon]
  rfl

variable {page : Nat}

/-- From a page whose end wraps to zero the edge loop sees nothing of the table. -/
theorem edge_of_wrap (ho : Ordered maps) (hend : page + pageSize = 2 ^ 64) :
    lunaVmEdgeProt page pageSize lo hi maps prot = prot := by
  have hzero : add 64 page pageSize = 0 := by
    unfold add
    rw [hend, mod_self]
  apply BitVec.eq_of_getLsbD_eq
  intro b _
  rw [Bool.eq_iff_iff, lunaVmEdgeProt_bit ho, hzero]
  simp

theorem edgeCall_size (hpos : 0 < pageSize) (hps : pageSize < 2 ^ 64) (hend : page + pageSize ≤ 2 ^ 64) :
    (edgeCall maps pageSize lo hi prot page).size = pageSize := by
  show sub 64 (add 64 page pageSize) page = pageSize
  unfold sub add
  omega

theorem page_between (hp : HostPageSize pageSize) (hlt : lo < hi) (hhi : hi < 2 ^ 64)
    (hpage : pageSize ∣ page) (h1 : lo < page + pageSize) (h2 : page < hi) :
    hostFirst pageSize lo ≤ page ∧ page ≤ hostLast pageSize hi := by
  obtain ⟨hf1, -, -, hl2, -, -⟩ := host_pages hp hlt hhi
  constructor
  · by_contra hc
    have := add_le_of_dvd hpage (Nat.dvd_mul_left pageSize (lo / pageSize)) (by unfold hostFirst at hc; omega)
    unfold hostFirst at hf1
    omega
  · by_contra hc
    have := add_le_of_dvd (Nat.dvd_mul_left pageSize ((hi - 1) / pageSize)) hpage (by unfold hostLast at hc; omega)
    unfold hostLast at hl2
    omega

theorem edgeCall_rights (hp : HostPageSize pageSize) (ho : Ordered maps) (hlt : lo < hi) (hhi : hi < 2 ^ 64)
    (hfit : RightsFit maps lo hi prot pageSize)
    (hpage : page = hostFirst pageSize lo ∨ page = hostLast pageSize hi) (b : Nat) :
    (edgeCall maps pageSize lo hi prot page).rights.getLsbD b = true ↔ RightAt maps lo hi prot pageSize page b := by
  obtain ⟨-, -, hl1, hl2, hle, hend⟩ := host_pages hp hlt hhi
  refine ⟨rightAt_of_edge ho hfit hpage, fun h => ?_⟩
  by_cases hlast : page + pageSize < 2 ^ 64
  · exact edge_of_rightAt ho hlast h
  · have heq : page = hostLast pageSize hi := by omega
    subst heq
    show (lunaVmEdgeProt _ pageSize lo hi maps prot).getLsbD b = true
    rw [edge_of_wrap ho (by omega)]
    exact (hfit.top (by omega)).1 b h

theorem edgeCall_host (hp : HostPageSize pageSize) (ho : Ordered maps) (hlt : lo < hi) (hhi : hi < 2 ^ 64)
    (hfit : RightsFit maps lo hi prot pageSize)
    (hpage : page = hostFirst pageSize lo ∨ page = hostLast pageSize hi) :
    (edgeCall maps pageSize lo hi prot page).hostProt =
      hostProt (edgeCall maps pageSize lo hi prot page).rights (decide (4096 < pageSize ∧
        ∃ m ∈ maps, page < m.hi ∧ m.lo < page + (edgeCall maps pageSize lo hi prot page).size ∧
          m.fileBacked = false)) := by
  obtain ⟨-, -, hl1, hl2, hle, hend⟩ := host_pages hp hlt hhi
  by_cases hlast : page + pageSize < 2 ^ 64
  · exact span_host ho (by rw [add_of_lt hlast]; omega) (by rw [add_of_lt hlast]; omega)
  · have heq : page = hostLast pageSize hi := by omega
    subst heq
    have hstop : add 64 (hostLast pageSize hi) pageSize = 0 := by unfold add; omega
    have hno : spanAnonymous (hostLast pageSize hi) 0 maps = false := by
      rw [Bool.eq_false_iff, ne_eq, spanAnonymous_iff ho]
      rintro ⟨m, -, -, h0, -⟩
      omega
    rw [edgeCall_size hp.pos hp.lt hend]
    show hostProt (lunaVmEdgeProt _ pageSize lo hi maps prot) (_ && spanAnonymous _ (add 64 _ pageSize) maps) =
      hostProt (lunaVmEdgeProt _ pageSize lo hi maps prot) _
    rw [hstop, hno, Bool.and_false, edge_of_wrap ho (by omega)]
    by_cases hanon : ∃ m ∈ maps, hostLast pageSize hi < m.hi ∧ m.fileBacked = false
    · have hsame := hostProt_anonymous.mpr ((hfit.top (by omega)).2.2 hanon)
      have hany : ∀ d, hostProt prot false = hostProt prot d := fun d => by
        cases d
        · rfl
        · exact hsame
      exact hany _
    · rw [decide_eq_false]
      rintro ⟨-, m, hm, h1, -, h3⟩
      exact hanon ⟨m, hm, h1, h3⟩

section
variable {protect : HostCall → Int} (hp : HostPageSize pageSize) (hlt : lo < hi) (hhi : hi < 2 ^ 64)
    (hok : ∀ c, protect c = 0)
include hp hlt hhi hok

theorem edgeCall_mem (hpage : page = hostFirst pageSize lo ∨ page = hostLast pageSize hi) :
    edgeCall maps pageSize lo hi prot page ∈ (lunaVmProtectHost maps lo hi prot pageSize protect).1 := by
  by_cases hone : hostFirst pageSize lo = hostLast pageSize hi
  · rw [protectHost_single hp hlt hhi hone]
    rcases hpage with rfl | rfl <;> simp [hone]
  · rw [protectHost_edges hp hlt hhi hok hone]
    rcases hpage with rfl | rfl <;> simp

theorem mem_calls {c : HostCall} (hc : c ∈ (lunaVmProtectHost maps lo hi prot pageSize protect).1) :
    (∃ page, (page = hostFirst pageSize lo ∨ page = hostLast pageSize hi) ∧
      c = edgeCall maps pageSize lo hi prot page) ∨
    (hostFirst pageSize lo + pageSize < hostLast pageSize hi ∧
      c = lunaVmProtectSpan maps (hostFirst pageSize lo + pageSize) (hostLast pageSize hi) prot pageSize) := by
  by_cases hone : hostFirst pageSize lo = hostLast pageSize hi
  · rw [protectHost_single hp hlt hhi hone] at hc
    exact Or.inl ⟨_, Or.inr rfl, mem_singleton.mp hc⟩
  · rw [protectHost_edges hp hlt hhi hok hone] at hc
    rcases mem_cons.mp hc with rfl | hc
    · exact Or.inl ⟨_, Or.inl rfl, rfl⟩
    · rcases mem_append.mp hc with hc | hc
      · split at hc
        · rename_i hin
          exact Or.inr ⟨hin.1, mem_singleton.mp hc⟩
        · cases hc
      · exact Or.inl ⟨_, Or.inr rfl, mem_singleton.mp hc⟩

/-- Every page of the range is in one request, unless the request for the pages between the edges is lost
    because the size of the range wraps to zero. -/
theorem calls_cover (hmid : hostFirst pageSize lo + pageSize < hostLast pageSize hi →
      ¬(hostFirst pageSize lo = 0 ∧ hostLast pageSize hi + pageSize = 2 ^ 64))
    (hpage : pageSize ∣ page) (h1 : lo < page + pageSize) (h2 : page < hi) :
    (lunaVmProtectHost maps lo hi prot pageSize protect).1.countP
      (fun c => c.addr ≤ page ∧ page + pageSize ≤ c.addr + c.size) = 1 := by
  obtain ⟨-, -, -, -, hle, hend⟩ := host_pages hp hlt hhi
  have hpos := hp.pos
  have hfd : pageSize ∣ hostFirst pageSize lo := Nat.dvd_mul_left ..
  have hld : pageSize ∣ hostLast pageSize hi := Nat.dvd_mul_left ..
  have haddr : ∀ q, (edgeCall maps pageSize lo hi prot q).addr = q := fun _ => rfl
  have hsf : (edgeCall maps pageSize lo hi prot (hostFirst pageSize lo)).size = pageSize :=
    edgeCall_size hpos hp.lt (by omega)
  have hsl : (edgeCall maps pageSize lo hi prot (hostLast pageSize hi)).size = pageSize :=
    edgeCall_size hpos hp.lt hend
  have hb := page_between hp hlt hhi hpage h1 h2
  -- The page is the first one, the last one, or a whole page away from both.
  have hnext : page = hostFirst pageSize lo ∨ hostFirst pageSize lo + pageSize ≤ page :=
    (Nat.eq_or_lt_of_le hb.1).imp Eq.symm (add_le_of_dvd hfd hpage)
  have hprev : page = hostLast pageSize hi ∨ page + pageSize ≤ hostLast pageSize hi :=
    (Nat.eq_or_lt_of_le hb.2).imp id (add_le_of_dvd hpage hld)
  by_cases hone : hostFirst pageSize lo = hostLast pageSize hi
  · rw [protectHost_single hp hlt hhi hone, countP_singleton, haddr, hsl, if_pos]
    rw [decide_eq_true_eq]
    omega
  · rw [protectHost_edges hp hlt hhi hok hone]
    by_cases hin : hostFirst pageSize lo + pageSize < hostLast pageSize hi
    · have hms : sub 64 (hostLast pageSize hi) (hostFirst pageSize lo + pageSize) =
          hostLast pageSize hi - (hostFirst pageSize lo + pageSize) := sub_of_le (by omega) hin.le
      rw [if_pos ⟨hin, hmid hin⟩]
      simp only [singleton_append, countP_cons, countP_nil, haddr, hsf, hsl, lunaVmProtectSpan, hms,
        decide_eq_true_eq]
      split_ifs <;> omega
    · rw [if_neg (fun h => hin h.1)]
      simp only [nil_append, countP_cons, countP_nil, haddr, hsf, hsl, decide_eq_true_eq]
      split_ifs <;> omega

theorem exactCalls_of_rightsFit (ho : Ordered maps) (hfit : RightsFit maps lo hi prot pageSize) :
    ExactCalls maps lo hi prot pageSize (lunaVmProtectHost maps lo hi prot pageSize protect).1 := by
  obtain ⟨hf1, hf2, hl1, hl2, hle, hend⟩ := host_pages hp hlt hhi
  have hpos := hp.pos
  refine ⟨fun page => calls_cover hp hlt hhi hok fun hin hw => ?_, fun c hc => ?_, fun page hpage h1 h2 c hc h3 h4 b => ?_,
    fun c hc => ?_⟩
  · have := (hfit.top (by omega)).2.1 hw.1
    omega
  · rcases mem_calls hp hlt hhi hok hc with ⟨q, hq, rfl⟩ | ⟨hin, rfl⟩
    · rw [edgeCall_size hpos hp.lt (by rcases hq with rfl | rfl <;> omega)]
      have ha : (edgeCall maps pageSize lo hi prot q).addr = q := rfl
      rcases hq with rfl | rfl <;> omega
    · have hs : sub 64 (hostLast pageSize hi) (hostFirst pageSize lo + pageSize) = _ := sub_of_le (by omega) hin.le
      dsimp only [lunaVmProtectSpan]
      rw [hs]
      omega
  · rcases mem_calls hp hlt hhi hok hc with ⟨q, hq, rfl⟩ | ⟨hin, rfl⟩
    · rw [edgeCall_size hpos hp.lt (by rcases hq with rfl | rfl <;> omega)] at h4
      have heq : page = q := by
        have ha : (edgeCall maps pageSize lo hi prot q).addr = q := rfl
        omega
      subst heq
      exact edgeCall_rights hp ho hlt hhi hfit hq b
    · have ha : hostFirst pageSize lo + pageSize ≤ page := h3
      have hs : page + pageSize ≤ hostFirst pageSize lo + pageSize +
          sub 64 (hostLast pageSize hi) (hostFirst pageSize lo + pageSize) := h4
      rw [sub_of_le (by omega) hin.le] at hs
      -- A page between the edges lies inside the range.
      refine ⟨Or.inl, ?_⟩
      rintro (h | ⟨m, -, -, x, hx1, hx2, -, hout⟩)
      · exact h
      · omega
  · rcases mem_calls hp hlt hhi hok hc with ⟨q, hq, rfl⟩ | ⟨hin, rfl⟩
    · exact edgeCall_host hp ho hlt hhi hfit hq
    · exact span_host ho hin.le (by omega)

/-- Exact requests leave no mapping that brings a foreign right to an edge page. -/
theorem rightsFit_of_exactCalls (ho : Ordered maps) (hhd : 4096 ∣ hi) (hmax : ∀ m ∈ maps, m.hi < 2 ^ 64)
    (hex : ExactCalls maps lo hi prot pageSize (lunaVmProtectHost maps lo hi prot pageSize protect).1) :
    RightsFit maps lo hi prot pageSize := by
  obtain ⟨hf1, hf2, hl1, hl2, hle, hend⟩ := host_pages hp hlt hhi
  have hpos := hp.pos
  have hrights : ∀ page, page = hostFirst pageSize lo ∨ page = hostLast pageSize hi → ∀ b,
      (lunaVmEdgeProt page pageSize lo hi maps prot).getLsbD b = true ↔ RightAt maps lo hi prot pageSize page b := by
    intro page hpage b
    have hsize : (edgeCall maps pageSize lo hi prot page).size = pageSize :=
      edgeCall_size hpos hp.lt (by rcases hpage with rfl | rfl <;> omega)
    refine hex.rights page ?_ ?_ ?_ (edgeCall maps pageSize lo hi prot page) (edgeCall_mem hp hlt hhi hok hpage)
      (le_refl page) ?_ b
    · rcases hpage with rfl | rfl <;> exact Nat.dvd_mul_left ..
    · rcases hpage with rfl | rfl <;> omega
    · rcases hpage with rfl | rfl <;> omega
    · rw [hsize]
      exact le_refl _
  refine ⟨fun page hpage m hm h1 h2 h3 b hb => ?_, fun htop => ?_⟩
  · exact (hrights page hpage b).mp ((lunaVmEdgeProt_bit ho).mpr (Or.inr ⟨m, hm, h1, h2, h3, hb⟩))
  · have hwrap : hostLast pageSize hi + pageSize = 2 ^ 64 := by
      by_contra hne
      have := add_le_of_dvd (Nat.dvd_add (Nat.dvd_mul_left pageSize ((hi - 1) / pageSize)) (Nat.dvd_refl _)) hp.dvd
        (by unfold hostLast at *; omega)
      unfold hostLast at *
      omega
    have hedge : lunaVmEdgeProt (hostLast pageSize hi) pageSize lo hi maps prot = prot := edge_of_wrap ho hwrap
    refine ⟨fun b hb => ?_, fun h0 => ?_, fun hanon => ?_⟩
    · rw [← hedge]
      exact (hrights _ (Or.inr rfl) b).mpr hb
    · -- With the whole address space as range, no request covers its second page.
      by_contra hgt
      have hone : hostFirst pageSize lo ≠ hostLast pageSize hi := by omega
      have hcount := hex.cover pageSize (Nat.dvd_refl _) (by omega) (by omega)
      rw [protectHost_edges hp hlt hhi hok hone, if_neg (fun h => h.2 ⟨h0, hwrap⟩)] at hcount
      simp only [nil_append, countP_cons, countP_nil, edgeCall_size hpos hp.lt hend,
        edgeCall_size hpos hp.lt (by omega : hostFirst pageSize lo + pageSize ≤ 2 ^ 64), decide_eq_true_eq] at hcount
      rw [if_neg, if_neg] at hcount
      · omega
      · show ¬(hostFirst pageSize lo ≤ pageSize ∧ pageSize + pageSize ≤ hostFirst pageSize lo + pageSize)
        omega
      · show ¬(hostLast pageSize hi ≤ pageSize ∧ pageSize + pageSize ≤ hostLast pageSize hi + pageSize)
        omega
    · obtain ⟨m, hm, hlo, hfile⟩ := hanon
      have hhost := hex.host _ (edgeCall_mem hp hlt hhi hok (Or.inr rfl))
      have hno : spanAnonymous (hostLast pageSize hi) (add 64 (hostLast pageSize hi) pageSize) maps = false := by
        rw [Bool.eq_false_iff, ne_eq, spanAnonymous_iff ho]
        rintro ⟨x, -, -, h0, -⟩
        unfold add at h0
        omega
      have hyes : decide (4096 < pageSize ∧ ∃ m ∈ maps, hostLast pageSize hi < m.hi ∧
          m.lo < hostLast pageSize hi + (edgeCall maps pageSize lo hi prot (hostLast pageSize hi)).size ∧
          m.fileBacked = false) = true := by
        rw [decide_eq_true_eq, edgeCall_size hpos hp.lt hend]
        have := hmax m hm
        have := ho.nonempty m hm
        exact ⟨by omega, m, hm, hlo, by omega, hfile⟩
      have hleft : (edgeCall maps pageSize lo hi prot (hostLast pageSize hi)).hostProt = hostProt prot false := by
        show hostProt (lunaVmEdgeProt _ pageSize lo hi maps prot) (_ && spanAnonymous _ _ maps) = _
        rw [hno, Bool.and_false, hedge]
      rw [hleft] at hhost
      have hright : hostProt prot false = hostProt prot true := by
        rw [hhost]
        show hostProt (lunaVmEdgeProt _ pageSize lo hi maps prot) (decide _) = _
        rw [hedge]
        exact congrArg (hostProt prot) hyes
      exact hostProt_anonymous.mp hright

end

/-- The requests are exact if and only if no mapping that sticks out of the range brings a foreign right to
    an edge page (and the top of the address space is not in the way). -/
theorem protectHost_exact_iff {protect : HostCall → Int} (hp : HostPageSize pageSize) (ho : Ordered maps)
    (hmax : ∀ m ∈ maps, m.hi < 2 ^ 64) (hlt : lo < hi) (hhi : hi < 2 ^ 64) (hhd : 4096 ∣ hi) (hok : ∀ c, protect c = 0) :
    ExactCalls maps lo hi prot pageSize (lunaVmProtectHost maps lo hi prot pageSize protect).1 ↔
      RightsFit maps lo hi prot pageSize :=
  ⟨rightsFit_of_exactCalls hp hlt hhi hok ho hhd hmax, exactCalls_of_rightsFit hp hlt hhi hok ho⟩

end Exact

/-- A mapping of one megabyte, readable and writable. -/
def megabyte : Mapping := ⟨0x7f0000000000, 0x7f0000100000, 3, true, false⟩

/-- A mapping between two that share its first and its last page of 16 KiB. -/
def overhanging : List Mapping :=
  [⟨0x7f0000000000, 0x7f0000002000, 3, true, false⟩, ⟨0x7f0000002000, 0x7f000000a000, 3, true, false⟩,
    ⟨0x7f000000a000, 0x7f0000011000, 5, true, true⟩]

theorem overhanging_ordered : Ordered overhanging :=
  ((Spans.Ordered.nil.cons (by decide) (by simp)).cons (by decide) (by simp)).cons (by decide) (by simp)

/-- Making it read-only leaves the pages at its edges the rights of their other mappings. -/
theorem protectHost_exact_overhanging :
    ExactCalls overhanging 0x7f0000002000 0x7f000000a000 1 16384
      (lunaVmProtectHost overhanging 0x7f0000002000 0x7f000000a000 1 16384 fun _ => 0).1 := by
  refine (protectHost_exact_iff ⟨14, by omega, by omega, rfl⟩ overhanging_ordered (by decide) (by omega) (by omega)
    (by decide) fun _ => rfl).mpr ⟨?_, by omega⟩
  intro page hpage m hm hlo hhi hout b hb
  refine .inr ⟨m, hm, hb, ?_⟩
  simp only [overhanging, mem_cons, not_mem_nil, or_false] at hm
  rcases hm with rfl | rfl | rfl
  · refine ⟨0x7f0000000000, ?_, ?_, ⟨by decide, by decide⟩, by omega⟩
    all_goals rcases hpage with rfl | rfl <;> simp [hostFirst, hostLast] at hlo ⊢
  · simp at hout
  · refine ⟨0x7f000000a000, ?_, ?_, ⟨by decide, by decide⟩, by omega⟩
    all_goals rcases hpage with rfl | rfl <;> simp [hostFirst, hostLast, add] at hhi ⊢

/-- A guard page at the start of a larger mapping stays readable and writable: the mapping sticks out of the
    range, and its rights are joined although none of its bytes in the page lies outside the range. -/
theorem protectHost_guard_page_stays_open :
    Ordered [megabyte] ∧ (∀ x, 0x7f0000000000 ≤ x → x < 0x7f0000001000 → ∃ m ∈ [megabyte], m.Has x) ∧
    ¬ExactCalls [megabyte] 0x7f0000000000 0x7f0000001000 0 4096
      (lunaVmProtectHost [megabyte] 0x7f0000000000 0x7f0000001000 0 4096 fun _ => 0).1 := by
  have ho : Ordered [megabyte] := Spans.Ordered.nil.cons (by decide) (by simp)
  refine ⟨ho, fun x h1 h2 => ⟨megabyte, by simp, h1, by simp only [megabyte]; omega⟩, fun hex => ?_⟩
  have hfit := rightsFit_of_exactCalls ⟨12, by omega, by omega, rfl⟩ (by omega) (by omega) (fun _ => rfl) ho
    (by decide) (by simp [megabyte]) hex
  have hright := hfit.edge 0x7f0000000000 (Or.inl (by decide)) megabyte (by simp) (by decide)
    (by decide) (Or.inr (by decide)) 0 (by decide)
  rcases hright with h | ⟨m, -, -, x, hx1, hx2, -, hout⟩
  · simp at h
  · omega

end Lunaria.Vm
