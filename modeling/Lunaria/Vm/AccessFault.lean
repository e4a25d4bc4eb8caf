import Lunaria.Lib.Bisect
import Lunaria.Vm.VmaTable

/-! What the page table says of an access (`luna_vm_access_fault`), and the host pages that no guest mapping uses any more
    (`luna_vm_release_empty`). -/

namespace Lunaria.Vm
open Word Spans Bisect List

/-- The entries from the first one on that ends above an address. -/
def entriesFrom (maps : List Mapping) (x : Nat) : List Mapping := maps.drop (lowerBound (fun m => decide (m.hi ≤ x)) maps)

/-- The walk of `luna_vm_access_fault`: the code, and the address in `*fault`. -/
def accessWalk (stop : Nat) (required : BitVec 32) : List Mapping → Nat → Nat → Nat × Nat
  | [], lo, fault => if lo < stop then (1, lo) else (0, fault)
  | m :: maps, lo, fault =>
    if lo < stop then
      if lo < m.lo then (1, lo)
      else if m.prot &&& required ≠ required then (2, lo)
      else accessWalk stop required maps (if m.hi < stop then m.hi else stop) lo
    else (0, fault)

def lunaVmAccessFault (maps : List Mapping) (lo length : Nat) (required : BitVec 32) : Nat × Nat :=
  let stop := add 64 lo length
  if length = 0 ∨ stop < lo then (1, lo) else accessWalk stop required (entriesFrom maps lo) lo lo

/-- The calls of `luna_vm_release_empty`, each with its address and size; `none` if it is not through after `fuel` rounds. -/
def lunaVmReleaseEmpty (maps : List Mapping) (stop pageSize : Nat) : Nat → Nat → Option (List (Nat × Nat))
  | 0, start => if start < stop then none else some []
  | fuel + 1, start =>
    if start < stop then
      match (entriesFrom maps start).head? with
      | none => some [(start, sub 64 stop start)]
      | some m =>
        if stop ≤ m.lo then some [(start, sub 64 stop start)]
        else
          let till := maskDown 64 pageSize m.lo
          (lunaVmReleaseEmpty maps stop pageSize fuel (maskUp 64 pageSize m.hi)).map fun calls =>
            (if start < till then [(start, sub 64 till start)] else []) ++ calls
    else some []

/-- The byte is mapped with the rights. -/
def Allowed (maps : List Mapping) (required : BitVec 32) (x : Nat) : Prop :=
  ∃ m ∈ maps, m.Has x ∧ m.prot &&& required = required

section Access
variable {maps : List Mapping} {stop : Nat} {required : BitVec 32}

theorem entriesFrom_eq {x : Nat} (h : Ordered maps) : entriesFrom maps x = maps.dropWhile fun m => decide (m.hi ≤ x) := by
  refine drop_lowerBound ((pairwise_iff_forall_sublist.2 fun {a b} hs => ?_))
  have hab := h.sublist hs
  have h₁ := hab.head_le b (by simp)
  have h₂ := hab.tail.head_lt
  simp only [decide_eq_true_eq]
  omega

/-- What is found of the bytes from `lo` on: no fault, or the first one. -/
structure Found (maps : List Mapping) (required : BitVec 32) (lo stop : Nat) (r : Nat × Nat) : Prop where
  fine : r.1 = 0 → ∀ x, lo ≤ x → x < stop → Allowed maps required x
  fault : r.1 ≠ 0 → (lo ≤ r.2 ∧ r.2 < stop) ∧ (∀ x, lo ≤ x → x < r.2 → Allowed maps required x) ∧
    ¬ Allowed maps required r.2 ∧ (r.1 = 1 ∧ ¬ Holds Mapping.lo Mapping.hi maps r.2 ∨ r.1 = 2 ∧
      Holds Mapping.lo Mapping.hi maps r.2)

theorem Found.unmapped {lo : Nat} (hlt : lo < stop) (h : ¬ Holds Mapping.lo Mapping.hi maps lo) :
    Found maps required lo stop (1, lo) where
  fine h := absurd h Nat.one_ne_zero
  fault _ := ⟨⟨le_rfl, hlt⟩, fun _ h₁ h₂ => absurd h₂ (Nat.not_lt.2 h₁), fun ⟨m, hm, hx, _⟩ => h ⟨m, hm, hx⟩, .inl ⟨rfl, h⟩⟩

theorem Found.done {lo fault : Nat} (hle : stop ≤ lo) : Found maps required lo stop (0, fault) where
  fine _ _ h₁ h₂ := absurd h₂ (by omega)
  fault h := absurd rfl h

/-- An entry with the rights carries the walk to its end. -/
theorem Found.step {m : Mapping} {lo : Nat} {r : Nat × Nat} (hm : m ∈ maps) (hlo : m.Has lo)
    (hright : m.prot &&& required = required)
    (hlt : lo < stop) (h : Found maps required (if m.hi < stop then m.hi else stop) stop r) :
      Found maps required lo stop r := by
  have hnext : ∀ x, lo ≤ x → x < (if m.hi < stop then m.hi else stop) → Allowed maps required x := by
    intro x h₁ h₂
    refine ⟨m, hm, ⟨hlo.1.trans h₁, ?_⟩, hright⟩
    split at h₂ <;> omega
  constructor
  · intro hzero x h₁ h₂
    by_cases hx : x < (if m.hi < stop then m.hi else stop)
    · exact hnext x h₁ hx
    · exact h.fine hzero x (Nat.le_of_not_lt hx) h₂
  · intro hne
    obtain ⟨⟨h₁, h₂⟩, hbefore, hbad⟩ := h.fault hne
    have hle : lo ≤ (if m.hi < stop then m.hi else stop) := by
      have := hlo.2
      split <;> omega
    refine ⟨⟨hle.trans h₁, h₂⟩, fun x hx₁ hx₂ => ?_, hbad⟩
    by_cases hx : x < (if m.hi < stop then m.hi else stop)
    · exact hnext x hx₁ hx
    · exact hbefore x (Nat.le_of_not_lt hx) hx₂

theorem accessWalk_found (h : Ordered maps) : ∀ {post pre : List Mapping} {lo fault : Nat}, maps = pre ++ post →
    (lo < stop → ∀ m ∈ pre, m.hi ≤ lo) → (lo < stop → ∀ m ∈ post, lo < m.hi) →
    Found maps required lo stop (accessWalk stop required post lo fault)
  | [], pre, lo, fault, hsplit, hpre, _ => by
    rw [accessWalk]
    by_cases hlt : lo < stop
    · rw [if_pos hlt]
      refine .unmapped hlt fun ⟨m, hm, hx⟩ => ?_
      rw [hsplit, append_nil] at hm
      exact absurd hx.2 (Nat.not_lt.2 (hpre hlt m hm))
    · rw [if_neg hlt]
      exact .done (Nat.le_of_not_lt hlt)
  | m :: post, pre, lo, fault, hsplit, hpre, hpost => by
    rw [accessWalk]
    by_cases hlt : lo < stop
    swap
    · rw [if_neg hlt]
      exact .done (Nat.le_of_not_lt hlt)
    rw [if_pos hlt]
    have hord := hsplit ▸ h
    have htail := hord.sublist (sublist_append_right pre _)
    have hm : m ∈ maps := hsplit ▸ by simp
    by_cases hgap : lo < m.lo
    · rw [if_pos hgap]
      refine .unmapped hlt fun ⟨b, hb, hx⟩ => ?_
      rw [hsplit] at hb
      rcases mem_append.1 hb with hb | hb
      · exact absurd hx.2 (Nat.not_lt.2 (hpre hlt b hb))
      · rcases mem_cons.1 hb with rfl | hb
        · exact absurd hx.1 (Nat.not_le.2 hgap)
        · have h₁ : b.lo ≤ lo := hx.1
          have := htail.head_le b hb
          have := htail.head_lt
          omega
    rw [if_neg hgap]
    have hin : m.Has lo := ⟨Nat.le_of_not_lt hgap, hpost hlt m mem_cons_self⟩
    by_cases hright : m.prot &&& required = required
    · rw [if_neg (not_not.2 hright)]
      refine .step hm hin hright hlt (@accessWalk_found h post (pre ++ [m]) _ _ (by rw [hsplit]; simp) ?_ ?_)
      · intro hmore b hb
        split at hmore
        · rw [if_pos (by assumption)]
          rcases mem_append.1 hb with hb | hb
          · have := hpre hlt b hb
            have := hin.2
            omega
          · exact (mem_singleton.1 hb) ▸ le_rfl
        · omega
      · intro hmore b hb
        have h₁ := htail.head_le b hb
        have h₂ := htail.tail.nonempty b hb
        split at hmore
        · rw [if_pos (by assumption)]
          omega
        · omega
    · rw [if_pos hright]
      refine ⟨fun h => absurd h (Nat.succ_ne_zero 1), fun _ => ⟨⟨le_rfl, hlt⟩, fun _ h₁ h₂ => absurd h₂ (Nat.not_lt.2 h₁),
        ?_, .inr ⟨rfl, m, hm, hin⟩⟩⟩
      rintro ⟨b, hb, hx, hbright⟩
      exact hright (h.unique hb hm hx hin ▸ hbright)

/-- The first byte of an access that is not mapped or lacks rights is found, and which of the two it is. -/
theorem lunaVmAccessFault_found (h : Ordered maps) {lo length : Nat} (hpos : 0 < length) (hlt : lo + length < 2 ^ 64) :
    Found maps required lo (lo + length) (lunaVmAccessFault maps lo length required) := by
  have hsplit := takeWhile_append_dropWhile (p := fun m : Mapping => decide (m.hi ≤ lo)) (l := maps)
  unfold lunaVmAccessFault
  dsimp only
  rw [add_of_lt hlt, if_neg (by omega), entriesFrom_eq h]
  refine accessWalk_found h hsplit.symm (fun _ m hm => by simpa using mem_takeWhile_imp hm) fun _ m hm => ?_
  exact lt_of_mem_dropWhile h m hm

end Access

/-! ### Releasing host pages -/

section Release
variable {maps : List Mapping} {stop k x y : Nat}

/-- The start of the host page of an address. -/
def pageOf (pageSize x : Nat) : Nat := x / pageSize * pageSize

/-- A mapping meets the host page of an address. -/
def OnPage (pageSize x : Nat) (m : Mapping) : Prop := m.lo < pageOf pageSize x + pageSize ∧ pageOf pageSize x < m.hi

/-- What is to be released between two addresses: the host pages that no mapping meets. -/
def Empty (maps : List Mapping) (pageSize start stop x : Nat) : Prop :=
  start ≤ x ∧ x < stop ∧ ∀ m ∈ maps, ¬ OnPage pageSize x m

/-- The calls are made of host pages, in order and disjoint, and together they release what is to be released. -/
structure Released (maps : List Mapping) (pageSize start stop : Nat) (calls : List (Nat × Nat)) : Prop where
  apart : calls.Pairwise fun c d => c.1 + c.2 ≤ d.1
  inside : ∀ c ∈ calls, start ≤ c.1 ∧ c.1 + c.2 ≤ stop
  pages : ∀ c ∈ calls, pageSize ∣ c.1 ∧ pageSize ∣ c.2 ∧ 0 < c.2
  exact : ∀ x, (∃ c ∈ calls, c.1 ≤ x ∧ x < c.1 + c.2) ↔ Empty maps pageSize start stop x

theorem pageOf_le (pageSize x : Nat) : pageOf pageSize x ≤ x := Nat.div_mul_le_self x pageSize

theorem lt_pageOf (hpos : 0 < k) : x < pageOf k x + k := (div_mul_le_lt hpos).2

theorem le_pageOf (hd : k ∣ y) (h : y ≤ x) : y ≤ pageOf k x := by
  obtain ⟨q, rfl⟩ := hd
  rw [pageOf, Nat.mul_comm]
  rcases Nat.eq_zero_or_pos k with rfl | hpos
  · simp
  · exact Nat.mul_le_mul_right k ((Nat.le_div_iff_mul_le hpos).2 (Nat.mul_comm k q ▸ h))

theorem pageOf_add_le (hd : k ∣ y) (h : x < y) : pageOf k x + k ≤ y :=
  add_le_of_dvd (Dvd.intro_left _ rfl) hd ((pageOf_le k x).trans_lt h)

/-- Pages up to a mapping and up to the end, where nothing is mapped in between. -/
theorem Released.span {start till : Nat} (hstart : k ∣ start) (htill : k ∣ till) (hlt : start < till)
    (hfree : ∀ m ∈ maps, m.hi ≤ start ∨ till ≤ m.lo) : Released maps k start till [(start, till - start)] := by
  refine ⟨pairwise_singleton _ _, fun c hc => ?_, fun c hc => ?_, fun x => ?_⟩
  · rw [mem_singleton.1 hc]
    exact ⟨le_rfl, by simp only; omega⟩
  · rw [mem_singleton.1 hc]
    exact ⟨hstart, Nat.dvd_sub htill hstart, Nat.sub_pos_of_lt hlt⟩
  · constructor
    · rintro ⟨c, hc, h₁, h₂⟩
      rw [mem_singleton.1 hc] at h₁ h₂
      simp only at h₁ h₂
      refine ⟨h₁, by omega, fun m hm ⟨hm₁, hm₂⟩ => ?_⟩
      have := le_pageOf hstart h₁
      have := pageOf_add_le htill (show x < till by omega)
      rcases hfree m hm with h | h <;> omega
    · rintro ⟨h₁, h₂, -⟩
      exact ⟨_, mem_singleton_self _, h₁, by simp only; omega⟩

theorem Released.nil {start : Nat} (hle : stop ≤ start) : Released maps k start stop [] :=
  ⟨.nil, fun _ hc => absurd hc not_mem_nil, fun _ hc => absurd hc not_mem_nil,
    fun _ => iff_of_false (fun ⟨_, hc, _⟩ => not_mem_nil hc) fun h => absurd (h.1.trans_lt h.2.1) (Nat.not_lt.2 hle)⟩

/-- Released pages below an address, and those from another on, with a mapping on every page in between. -/
theorem Released.append {start till next : Nat} {l l' : List (Nat × Nat)} (h : Released maps k start till l)
    (h' : Released maps k next stop l') (hle : till ≤ next) (hstart : start ≤ till) (hstop : till ≤ stop)
    (hmet : ∀ x, till ≤ x → x < next → ∃ m ∈ maps, OnPage k x m) : Released maps k start stop (l ++ l') := by
  refine ⟨pairwise_append.2 ⟨h.apart, h'.apart, fun c hc d hd => ?_⟩, fun c hc => ?_, fun c hc => ?_, fun x => ?_⟩
  · exact ((h.inside c hc).2.trans hle).trans (h'.inside d hd).1
  · rcases mem_append.1 hc with hc | hc
    · exact ⟨(h.inside c hc).1, (h.inside c hc).2.trans hstop⟩
    · exact ⟨(hstart.trans hle).trans (h'.inside c hc).1, (h'.inside c hc).2⟩
  · exact (mem_append.1 hc).elim (h.pages c) (h'.pages c)
  · have hboth : (∃ c ∈ l ++ l', c.1 ≤ x ∧ x < c.1 + c.2) ↔
        (∃ c ∈ l, c.1 ≤ x ∧ x < c.1 + c.2) ∨ ∃ c ∈ l', c.1 ≤ x ∧ x < c.1 + c.2 := by
      simp only [mem_append, or_and_right, exists_or]
    rw [hboth, h.exact, h'.exact]
    constructor
    · rintro (⟨h₁, h₂, hnone⟩ | ⟨h₁, h₂, hnone⟩)
      · exact ⟨h₁, by omega, hnone⟩
      · exact ⟨by omega, h₂, hnone⟩
    · rintro ⟨h₁, h₂, hnone⟩
      by_cases hx : x < till
      · exact .inl ⟨h₁, hx, hnone⟩
      · refine .inr ⟨Nat.le_of_not_lt fun hlt => ?_, h₂, hnone⟩
        obtain ⟨m, hm, hon⟩ := hmet x (Nat.le_of_not_lt hx) hlt
        exact hnone m hm hon

/-- The least multiple of a page size from an address on. -/
theorem roundUp_le (hpos : 0 < k) (hd : k ∣ y) (h : x ≤ y) : (x + (k - 1)) / k * k ≤ y := by
  obtain ⟨q, rfl⟩ := hd
  rw [Nat.mul_comm k q]
  refine Nat.mul_le_mul_right k (Nat.lt_succ_iff.1 ((Nat.div_lt_iff_lt_mul hpos).2 ?_))
  rw [Nat.succ_mul, Nat.mul_comm q k]
  omega

theorem le_roundUp (hpos : 0 < k) : x ≤ (x + (k - 1)) / k * k := by
  have := (div_mul_le_lt (x := x + (k - 1)) hpos).2
  omega

/-- Where rounding the ends of the mappings up does not wrap, the host pages that no mapping meets are released. -/
theorem lunaVmReleaseEmpty_released {n : Nat} (h : Ordered maps) (hn : n ≤ 64)
    (hends : ∀ m ∈ maps, m.hi + (2 ^ n - 1) < 2 ^ 64)
    (hstop : stop < 2 ^ 64) (hdstop : 2 ^ n ∣ stop) : ∀ {fuel start : Nat}, 2 ^ n ∣ start →
    (maps.dropWhile fun m => decide (m.hi ≤ start)).length < fuel →
    ∃ calls, lunaVmReleaseEmpty maps stop (2 ^ n) fuel start = some calls ∧ Released maps (2 ^ n) start stop calls
  | 0, _, _, hfuel => absurd hfuel (Nat.not_lt_zero _)
  | fuel + 1, start, hdstart, hfuel => by
    have hpos : 0 < 2 ^ n := Nat.two_pow_pos n
    rw [lunaVmReleaseEmpty]
    by_cases hle : stop ≤ start
    · rw [if_neg (Nat.not_lt.2 hle)]
      exact ⟨[], rfl, .nil hle⟩
    have hlt := Nat.lt_of_not_le hle
    rw [if_pos hlt, entriesFrom_eq h]
    have hsplit := takeWhile_append_dropWhile (p := fun m : Mapping => decide (m.hi ≤ start)) (l := maps)
    have hbefore : ∀ m ∈ maps.takeWhile (fun m => decide (m.hi ≤ start)), m.hi ≤ start := fun m hm => by
      simpa using mem_takeWhile_imp hm
    have hlast := sub_of_le hstop hlt.le
    cases hdrop : maps.dropWhile fun m => decide (m.hi ≤ start) with
    | nil =>
      rw [hdrop, append_nil] at hsplit
      rw [hsplit] at hbefore
      refine ⟨[(start, stop - start)], congrArg (fun size => some [(start, size)]) hlast,
        .span hdstart hdstop hlt fun m hm => ?_⟩
      exact .inl (hbefore m hm)
    | cons m rest =>
      rw [hdrop] at hsplit hfuel
      have hord := hsplit ▸ h
      have htail := hord.sublist (sublist_append_right _ _)
      have hm : m ∈ maps := hsplit ▸ by simp
      have hmlt := h.nonempty m hm
      have hend := hends m hm
      have hstart : start < m.hi := lt_of_mem_dropWhile h m (by rw [hdrop]; exact mem_cons_self)
      -- every mapping ends below the start or starts above the next one's start
      have hside : ∀ b ∈ maps, b.hi ≤ start ∨ m.lo ≤ b.lo := by
        intro b hb
        rw [← hsplit] at hb
        rcases mem_append.1 hb with hb | hb
        · exact .inl (hbefore b hb)
        · rcases mem_cons.1 hb with rfl | hb
          · exact .inr le_rfl
          · exact .inr (hmlt.le.trans (htail.head_le b hb))
      rw [head?_cons]
      dsimp only
      by_cases hout : stop ≤ m.lo
      · rw [if_pos hout]
        exact ⟨[(start, stop - start)], congrArg (fun size => some [(start, size)]) hlast,
          .span hdstart hdstop hlt fun b hb => (hside b hb).imp_right hout.trans⟩
      rw [if_neg hout]
      have hdown : maskDown 64 (2 ^ n) m.lo = pageOf (2 ^ n) m.lo := maskDown_two_pow hn (by omega)
      have hup : maskUp 64 (2 ^ n) m.hi = (m.hi + (2 ^ n - 1)) / 2 ^ n * 2 ^ n := maskUp_two_pow hn hend
      rw [hdown, hup]
      have hnext := le_roundUp (x := m.hi) hpos
      have hround : ∀ y, 2 ^ n ∣ y → m.hi ≤ y → (m.hi + (2 ^ n - 1)) / 2 ^ n * 2 ^ n ≤ y := fun y => roundUp_le hpos
      have hdnext : 2 ^ n ∣ (m.hi + (2 ^ n - 1)) / 2 ^ n * 2 ^ n := Dvd.intro_left _ rfl
      have htill := pageOf_le (2 ^ n) m.lo
      have hfirst := lt_pageOf (x := m.lo) hpos
      have hdtill : 2 ^ n ∣ pageOf (2 ^ n) m.lo := Dvd.intro_left _ rfl
      generalize (m.hi + (2 ^ n - 1)) / 2 ^ n * 2 ^ n = next at *
      generalize pageOf (2 ^ n) m.lo = till at *
      have hmet : ∀ x, till ≤ x → x < next → ∃ b ∈ maps, OnPage (2 ^ n) x b := by
        intro x h₁ h₂
        have := le_pageOf hdtill h₁
        refine ⟨m, hm, by omega, Nat.lt_of_not_le fun hge => ?_⟩
        have hr : next ≤ pageOf (2 ^ n) x := hround _ (Dvd.intro_left _ rfl) hge
        have := pageOf_le (2 ^ n) x
        omega
      have hshort : (maps.dropWhile fun m => decide (m.hi ≤ next)).length < fuel := by
        have hall : ∀ b ∈ maps.takeWhile (fun m => decide (m.hi ≤ start)), decide (b.hi ≤ next) = true := fun b hb =>
          decide_eq_true (by have := hbefore b hb; omega)
        rw [← hsplit, dropWhile_append_of_pos hall, dropWhile_cons, if_pos (decide_eq_true hnext)]
        have := (dropWhile_sublist (fun m : Mapping => decide (m.hi ≤ next)) (l := rest)).length_le
        rw [length_cons] at hfuel
        omega
      obtain ⟨calls, hcalls, hreleased⟩ := lunaVmReleaseEmpty_released h hn hends hstop hdstop hdnext hshort
      rw [hcalls]
      refine ⟨_, rfl, ?_⟩
      by_cases hspan : start < till
      · rw [if_pos hspan, sub_of_le (by omega) hspan.le]
        exact (Released.span hdstart hdtill hspan fun b hb => (hside b hb).imp_right htill.trans).append
          hreleased (by omega) hspan.le (by omega) hmet
      · rw [if_neg hspan]
        exact (Released.nil le_rfl).append hreleased (by omega) le_rfl hlt.le fun x h₁ => hmet x (by omega)

end Release

/-- An access finds the first byte that is not mapped with the rights; and if the ends of the mappings can be rounded up
    to host pages, exactly the host pages without a mapping are released. -/
theorem access_and_release {maps : List Mapping} (h : Ordered maps) :
    (∀ lo length required, 0 < length → lo + length < 2 ^ 64 →
      Found maps required lo (lo + length) (lunaVmAccessFault maps lo length required)) ∧
    ∀ n start stop fuel, n ≤ 64 → (∀ m ∈ maps, m.hi + (2 ^ n - 1) < 2 ^ 64) → 2 ^ n ∣ start → 2 ^ n ∣ stop → start ≤ stop →
      stop < 2 ^ 64 → maps.length < fuel →
      ∃ calls, lunaVmReleaseEmpty maps stop (2 ^ n) fuel start = some calls ∧ Released maps (2 ^ n) start stop calls := by
  refine ⟨fun lo length required hpos hlt => lunaVmAccessFault_found h hpos hlt,
    fun n start stop fuel hn hends hd hd' _ hlt hfuel => ?_⟩
  exact lunaVmReleaseEmpty_released h hn hends hlt hd' hd
    ((dropWhile_sublist _).length_le.trans_lt hfuel)

/-- A mapping of a guest page leaves the host pages beside its own. -/
theorem access_and_release_page :
    ∃ calls, lunaVmReleaseEmpty [⟨0x15000, 0x16000, 3, true, false⟩] 0x20000 0x4000 2 0x10000 = some calls ∧
      Released [⟨0x15000, 0x16000, 3, true, false⟩] 0x4000 0x10000 0x20000 calls :=
  (access_and_release (Ordered.nil.cons (a := ⟨0x15000, 0x16000, 3, true, false⟩) (by decide) (by simp))).2 14
    0x10000 0x20000 2
    (by decide) (fun m hm => (mem_singleton.1 hm) ▸ by decide) (by decide) (by decide) (by decide) (by decide) (by decide)

/-- A mapping that ends in the last host page of the address space. -/
def lastMapping : Mapping := ⟨0xffffffffffffb000, 0xfffffffffffff000, 3, true, false⟩

theorem release_again (fuel : Nat) : ∀ start, start = 0 ∨ start = 0xffffffffffff8000 →
    lunaVmReleaseEmpty [lastMapping] 0xffffffffffffc000 0x4000 fuel start = none := by
  induction fuel with
  | zero => rintro start (rfl | rfl) <;> exact if_pos (by decide)
  | succ fuel ih =>
    have hround : maskUp 64 0x4000 lastMapping.hi = 0 := by decide
    have hout : ¬ 0xffffffffffffc000 ≤ lastMapping.lo := by decide
    rintro start (rfl | rfl)
    · have hhead : (entriesFrom [lastMapping] 0).head? = some lastMapping := by decide
      rw [lunaVmReleaseEmpty, if_pos (by decide), hhead]
      dsimp only
      rw [if_neg hout, hround, ih 0 (.inl rfl)]
      rfl
    · have hhead : (entriesFrom [lastMapping] 0xffffffffffff8000).head? = some lastMapping := by decide
      rw [lunaVmReleaseEmpty, if_pos (by decide), hhead]
      dsimp only
      rw [if_neg hout, hround, ih 0 (.inl rfl)]
      rfl

theorem release_wraps : Ordered [lastMapping] ∧ 2 ^ 14 ∣ 0xffffffffffff8000 ∧ 2 ^ 14 ∣ 0xffffffffffffc000 ∧
    ∀ fuel, lunaVmReleaseEmpty [lastMapping] 0xffffffffffffc000 (2 ^ 14) fuel 0xffffffffffff8000 = none :=
  ⟨Ordered.nil.cons (by decide) (by simp), by decide, by decide, fun fuel => release_again fuel _ (.inr rfl)⟩

end Lunaria.Vm
