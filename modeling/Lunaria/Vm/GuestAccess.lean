import Lunaria.Vm.AccessFault

/-! Accesses of the guest to the pages of its table. Addresses below 4 GiB are offsets of the image window, and a fault is
    reported at the address that was given. -/

namespace Lunaria.Vm
open Word Spans List

/-- `a64_access_fault_for_prot`: the code, and the address in `*fault`. -/
def a64AccessFaultForProt (maps : List Mapping) (va len : Nat) (prot : BitVec 32) : Nat × Nat :=
  let mapped := a64MappingVa va
  let r := lunaVmAccessFault maps mapped len prot
  (r.1, add 64 va (sub 64 r.2 mapped))

/-- The page of an address lets a byte be accessed. -/
def PageTable.Grants (s : PageTable) (required : BitVec 32) (x : Nat) : Prop :=
  ∃ t, s.page (x / 4096) = some t ∧ t.prot &&& required = required

namespace PageTable
variable {s : PageTable} {required : BitVec 32} {x : Nat}

theorem WellFormed.page (h : s.WellFormed) (x : Nat) : s.page (x / 4096) = attrAt s.maps x := by
  have hiff (t : Attr) : s.page (x / 4096) = some t ↔ attrAt s.maps x = some t := by
    rw [PageTable.page, attrAt_eq_some h.ordered, attrAt_eq_some h.ordered]
    refine exists_congr fun m => and_congr_right fun hm => and_congr_left fun _ => ?_
    have hpaged := h.paged m hm
    unfold Mapping.Has Spans.Has
    omega
  exact Option.ext fun t => hiff t

theorem WellFormed.allowed_iff (h : s.WellFormed) : Allowed s.maps required x ↔ s.Grants required x := by
  unfold Allowed Grants
  rw [h.page]
  constructor
  · rintro ⟨m, hm, hx, hright⟩
    exact ⟨m.attr, attrAt_of_mem h.ordered hm hx, hright⟩
  · rintro ⟨t, ht, hright⟩
    obtain ⟨m, hm, hx, rfl⟩ := (attrAt_eq_some h.ordered).1 ht
    exact ⟨m, hm, hx, hright⟩

theorem WellFormed.page_eq_none (h : s.WellFormed) : s.page (x / 4096) = none ↔ ¬Holds Mapping.lo Mapping.hi s.maps x := by
  rw [h.page, attrAt_eq_none]
  exact ⟨fun hall ⟨m, hm, hx⟩ => hall m hm hx, fun hnot m hm hx => hnot ⟨m, hm, hx⟩⟩

end PageTable

/-- In every state that the calls lead to, an access is let through if the pages of all its bytes grant it. If not, the
    fault is reported at the first byte whose page does not, and says if there is no such page. -/
theorem access_fault_pages {regions : List LoadedRegion} {s : PageTable} (hreach : s.Reach regions) {va len : Nat}
    (hpos : 0 < len) (hlt : a64MappingVa va + len < 2 ^ 64) (prot : BitVec 32) :
    ((a64AccessFaultForProt s.maps va len prot).1 = 0 ↔ ∀ i < len, s.Grants prot (a64MappingVa va + i)) ∧
    ((a64AccessFaultForProt s.maps va len prot).1 ≠ 0 → ∃ i < len, (a64AccessFaultForProt s.maps va len prot).2 = va + i ∧
      (∀ j < i, s.Grants prot (a64MappingVa va + j)) ∧ ¬s.Grants prot (a64MappingVa va + i) ∧
      (a64AccessFaultForProt s.maps va len prot).1 = if s.page ((a64MappingVa va + i) / 4096) = none then 1 else 2) := by
  have hwf := hreach.wellFormed
  have hfound := @lunaVmAccessFault_found _ prot hwf.ordered _ _ hpos hlt
  have hle : va ≤ a64MappingVa va := by
    unfold a64MappingVa a64GuestVa
    split <;> omega
  unfold a64AccessFaultForProt
  dsimp only
  generalize a64MappingVa va = mapped at *
  generalize lunaVmAccessFault s.maps mapped len prot = r at *
  have hfault : r.1 ≠ 0 → ∃ i < len, add 64 va (sub 64 r.2 mapped) = va + i ∧
      (∀ j < i, s.Grants prot (mapped + j)) ∧ ¬s.Grants prot (mapped + i) ∧
      r.1 = if s.page ((mapped + i) / 4096) = none then 1 else 2 := by
    intro hne
    obtain ⟨hin, hbefore, hnot, hcode⟩ := hfound.fault hne
    obtain ⟨i, hi⟩ := Nat.exists_eq_add_of_le hin.1
    have hsub : sub 64 r.2 mapped = i := by rw [sub_of_le (by omega) (by omega)]; omega
    refine ⟨i, by omega, ?_, fun j hj => hwf.allowed_iff.1 (hbefore _ (by omega) (by omega)), ?_, ?_⟩
    · rw [hsub, add_of_lt (by omega)]
    · rw [← hi]
      exact mt hwf.allowed_iff.2 hnot
    · rw [← hi]
      rcases hcode with ⟨hcode, hholds⟩ | ⟨hcode, hholds⟩
      · rw [hcode, if_pos (hwf.page_eq_none.2 hholds)]
      · rw [hcode, if_neg fun hnone => hwf.page_eq_none.1 hnone hholds]
  refine ⟨⟨fun hzero i hi => hwf.allowed_iff.1 (hfound.fine hzero _ (by omega) (by omega)), fun hall => ?_⟩, hfault⟩
  by_contra hne
  obtain ⟨i, hi, -, -, hnot, -⟩ := hfault hne
  exact hnot (hall i hi)

/-- The table ends in the middle of this access. -/
theorem access_fault_neighbours : (a64AccessFaultForProt neighbours.maps 0x7e0000001ff8 16 3).1 ≠ 0 ∧
    ∃ i < 16, (a64AccessFaultForProt neighbours.maps 0x7e0000001ff8 16 3).2 = 0x7e0000001ff8 + i ∧
      (∀ j < i, neighbours.Grants 3 (a64MappingVa 0x7e0000001ff8 + j)) ∧
      ¬neighbours.Grants 3 (a64MappingVa 0x7e0000001ff8 + i) ∧
      (a64AccessFaultForProt neighbours.maps 0x7e0000001ff8 16 3).1 =
        if neighbours.page ((a64MappingVa 0x7e0000001ff8 + i) / 4096) = none then 1 else 2 :=
  have hne : (a64AccessFaultForProt neighbours.maps 0x7e0000001ff8 16 3).1 ≠ 0 := by decide
  ⟨hne, (access_fault_pages neighbours_reach (by decide) (by decide) 3).2 hne⟩

end Lunaria.Vm
