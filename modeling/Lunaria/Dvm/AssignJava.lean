import Mathlib
import Lunaria.Dvm.Assign

/-! `class_assignable` is Java's subtyping, but for arrays as `Cloneable` and `Serializable`. -/

namespace Lunaria.Dvm.Assign
open List

namespace Graph
variable {Id : Type} {g : Graph Id} {a b c p : Id} {l : List String}

/-! ### Superclasses -/

theorem super_mem {s : Id} (h : (g.cls c).super = some s) : s ∈ (g.cls c).parents := mem_append_left _ (by simp [h])

theorem iface_mem {i : Id} (h : some i ∈ (g.cls c).ifaces) : i ∈ (g.cls c).parents :=
  mem_append_right _ (mem_filterMap.2 ⟨_, h, rfl⟩)

theorem mem_parents : p ∈ (g.cls c).parents ↔ (g.cls c).super = some p ∨ some p ∈ (g.cls c).ifaces := by
  simp [Class.parents]

theorem chain_eq : g.chain c = c :: ((g.cls c).super.map g.chain).getD [] :=
  Routes.chain_unfold fun c _ hs => g.parent_lt c _ (super_mem hs)

theorem self_mem_chain : c ∈ g.chain c := by
  rw [chain_eq]
  exact mem_cons_self

theorem mem_chain_of_super {s : Id} (hs : (g.cls a).super = some s) (h : c ∈ g.chain s) : c ∈ g.chain a := by
  rw [chain_eq, hs]
  exact mem_cons_of_mem _ h

theorem subtype_of_chain (hc : c ∈ g.chain a) (h : g.SubtypeBy l c b) : g.SubtypeBy l a b :=
  Routes.chain_induction (motive := fun a => g.SubtypeBy l a b) h (fun hs h => .parent (super_mem hs) h) hc

theorem level_of_chain (hc : c ∈ g.chain a) : g.level c ≤ g.level a :=
  Routes.chain_induction (motive := fun a => g.level c ≤ g.level a) le_rfl
    (fun hs h => h.trans (Nat.le_of_lt (g.parent_lt _ _ (super_mem hs)))) hc

/-! ### Kinds of types -/

theorem not_primitive_of_array (ha : (g.cls a).isArray = true) : (g.cls a).isPrimitive = false := by
  cases hp : (g.cls a).isPrimitive with
  | false => rfl
  | true =>
    have hdesc := (g.primitive a).1 hp
    have hhead := (g.array a).1 ha
    simp only [primitives, mem_cons, not_mem_nil, or_false] at hdesc
    rcases hdesc with h | h | h | h | h | h | h | h | h <;> simp [h] at hhead

theorem not_primitive_of_desc (h : (g.cls a).desc ∉ primitives) : (g.cls a).isPrimitive = false := by
  cases hp : (g.cls a).isPrimitive with
  | false => rfl
  | true => exact absurd ((g.primitive a).1 hp) h

theorem not_array_of_desc (h : (g.cls a).desc.toList.head? ≠ some '[') : (g.cls a).isArray = false := by
  cases ha : (g.cls a).isArray with
  | false => rfl
  | true => exact absurd ((g.array a).1 ha) h

theorem object_plain (h : (g.cls a).desc = object) : (g.cls a).isPrimitive = false ∧ (g.cls a).isArray = false :=
  ⟨not_primitive_of_desc (by rw [h]; decide), not_array_of_desc (by rw [h]; decide)⟩

theorem interface_plain (h : (g.cls a).desc ∈ arrayInterfaces) : (g.cls a).isPrimitive = false ∧ (g.cls a).isArray = false ∧
    (g.cls a).desc ≠ object := by
  simp only [arrayInterfaces, mem_cons, not_mem_nil, or_false] at h
  rcases h with h | h <;>
    exact ⟨not_primitive_of_desc (by rw [h]; decide), not_array_of_desc (by rw [h]; decide), by rw [h]; decide⟩

theorem not_primitive_of_parents (h : p ∈ (g.cls a).parents) : (g.cls a).isPrimitive = false := by
  cases hp : (g.cls a).isPrimitive with
  | false => rfl
  | true =>
    rw [g.primitive_parents a hp] at h
    cases h

theorem array_inj {x : Id} (ha : (g.cls a).isArray = true) (hb : (g.cls b).isArray = true) (hax : (g.cls a).elem = some x)
    (hbx : (g.cls b).elem = some x) : a = b := by
  obtain ⟨y, hy, hdesc⟩ := g.array_elem a ha
  obtain ⟨z, hz, hdesc'⟩ := g.array_elem b hb
  cases hax.symm.trans hy
  cases hbx.symm.trans hz
  exact g.desc_inj a b (String.toList_injective (hdesc.trans hdesc'.symm))

theorem subtype_of_primitive (ha : (g.cls a).isPrimitive = true) (h : g.SubtypeBy l a b) : a = b := by
  cases h with
  | refl => rfl
  | parent hp => simp [not_primitive_of_parents hp] at ha
  | object hno => simp [hno] at ha
  | component harray => simp [not_primitive_of_array harray] at ha
  | arrayInterface harray => simp [not_primitive_of_array harray] at ha

theorem subtype_primitive (hb : (g.cls b).isPrimitive = true) (h : g.SubtypeBy [] a b) : a = b := by
  induction h with
  | refl => rfl
  | parent hp _ ih =>
    obtain rfl := ih hb
    simp [(g.parents_plain _ _ hp).2] at hb
  | object _ hobj => simp [(object_plain hobj).1] at hb
  | component _ harray => simp [not_primitive_of_array harray] at hb
  | arrayInterface _ hmem => exact absurd hmem not_mem_nil

theorem eq_of_object (ha : (g.cls a).desc = object) (h : g.SubtypeBy l a b) : a = b := by
  cases h with
  | refl => rfl
  | parent hp =>
    rw [g.object_parents a ha] at hp
    cases hp
  | object _ hobj => exact g.desc_inj a b (ha.trans hobj.symm)
  | component harray => simp [(object_plain ha).2] at harray
  | arrayInterface harray => simp [(object_plain ha).2] at harray

theorem SubtypeBy.trans (hl : l ⊆ arrayInterfaces) (h : g.SubtypeBy l a b) : ∀ {c}, g.SubtypeBy l b c →
    g.SubtypeBy l a c := by
  induction h with
  | refl => exact id
  | parent hp _ ih => exact fun hbc => .parent hp (ih hbc)
  | object ha hb =>
    intro c hbc
    exact eq_of_object hb hbc ▸ .object ha hb
  | component ha hb hx hy hpx hpy hxy ih =>
    intro c hbc
    cases hbc with
    | refl => exact .component ha hb hx hy hpx hpy hxy
    | parent hp hpc =>
      have hobj := g.array_parents _ hb _ hp
      exact eq_of_object hobj hpc ▸ .object (not_primitive_of_array ha) hobj
    | object _ hc => exact .object (not_primitive_of_array ha) hc
    | component _ hc hy' hz _ hpz hyz =>
      cases hy.symm.trans hy'
      exact .component ha hc hx hz hpx hpz (ih hyz)
    | arrayInterface _ hc => exact .arrayInterface ha hc
  | arrayInterface ha hb =>
    intro c hbc
    have hplain := interface_plain (hl hb)
    cases hbc with
    | refl => exact .arrayInterface ha hb
    | parent hp hpc =>
      have hobj := g.interface_parents _ (hl hb) _ hp
      exact eq_of_object hobj hpc ▸ .object (not_primitive_of_array ha) hobj
    | object _ hc => exact .object (not_primitive_of_array ha) hc
    | component hb' => simp [hplain.2.1] at hb'
    | arrayInterface hb' => simp [hplain.2.1] at hb'

/-! ### Arrays as interfaces -/

theorem ArrayAsInterface.plain (h : g.ArrayAsInterface a b) : (g.cls a).isPrimitive = false ∧
    (g.cls b).isPrimitive = false := by
  cases h with
  | here ha hb => exact ⟨not_primitive_of_array ha, (interface_plain hb).1⟩
  | component ha hb => exact ⟨not_primitive_of_array ha, not_primitive_of_array hb⟩

theorem ArrayAsInterface.subtype (h : g.ArrayAsInterface a b) : g.Subtype a b := by
  induction h with
  | here ha hb => exact .arrayInterface ha hb
  | component ha hb hx hy h ih => exact .component ha hb hx hy h.plain.1 h.plain.2 ih

theorem ArrayAsInterface.not_subtype (h : g.ArrayAsInterface a b) : ¬ g.SubtypeBy [] a b := by
  induction h with
  | here ha hb =>
    obtain ⟨-, harray, hobj⟩ := interface_plain hb
    intro hab
    cases hab with
    | refl => simp [ha] at harray
    | parent hp hpb =>
      have hp' := g.array_parents _ ha _ hp
      exact hobj (eq_of_object hp' hpb ▸ hp')
    | object _ hb' => exact hobj hb'
    | component _ hb' => simp [harray] at hb'
    | arrayInterface _ hmem => exact absurd hmem not_mem_nil
  | component ha hb hx hy _ ih =>
    intro hab
    cases hab with
    | refl =>
      cases hx.symm.trans hy
      exact ih (.refl _)
    | parent hp hpb =>
      have hp' := g.array_parents _ ha _ hp
      simp [(object_plain (eq_of_object hp' hpb ▸ hp')).2] at hb
    | object _ hb' => simp [(object_plain hb').2] at hb
    | component _ _ hx' hy' _ _ hxy =>
      cases hx.symm.trans hx'
      cases hy.symm.trans hy'
      exact ih hxy
    | arrayInterface _ hmem => exact absurd hmem not_mem_nil

theorem SubtypeBy.java (h : g.SubtypeBy [] a b) : g.Subtype a b := by
  induction h with
  | refl => exact .refl _
  | parent hp _ ih => exact .parent hp ih
  | object ha hb => exact .object ha hb
  | component ha hb hx hy hpx hpy _ ih => exact .component ha hb hx hy hpx hpy ih
  | arrayInterface _ hmem => exact absurd hmem not_mem_nil

theorem subtype_of_java (h : g.Subtype a b) (hno : ¬ g.ArrayAsInterface a b) : g.SubtypeBy [] a b := by
  induction h with
  | refl => exact .refl _
  | parent hp _ ih =>
    refine .parent hp (ih fun hpb => ?_)
    have hplain := (g.parents_plain _ _ hp).1
    cases hpb with
    | here ha => simp [hplain] at ha
    | component ha => simp [hplain] at ha
  | object ha hb => exact .object ha hb
  | component ha hb hx hy hpx hpy _ ih => exact .component ha hb hx hy hpx hpy (ih fun h => hno (.component ha hb hx hy h))
  | arrayInterface ha hb => exact absurd (.here ha hb) hno

/-! ### The walk -/

/-- What a walk from one class to another, different one meets. -/
def Walked (g : Graph Id) (a b : Id) : Prop :=
  (g.cls a).isPrimitive = false ∧ (g.cls b).isPrimitive = false ∧
    ((g.cls b).desc = object ∨ b ∈ g.chain a ∨ (∃ c ∈ g.chain a, ∃ i, some i ∈ (g.cls c).ifaces ∧ g.SubtypeBy [] i b) ∨
      (g.cls a).isArray = true ∧ (g.cls b).isArray = true ∧
        ∃ x y, (g.cls a).elem = some x ∧ (g.cls b).elem = some y ∧ g.SubtypeBy [] x y)

theorem walked_of_subtype (h : g.SubtypeBy [] a b) : a = b ∨ g.Walked a b := by
  induction h with
  | refl => exact .inl rfl
  | object ha hb => exact .inr ⟨ha, (object_plain hb).1, .inl hb⟩
  | component ha hb hx hy _ _ h =>
    exact .inr ⟨not_primitive_of_array ha, not_primitive_of_array hb, .inr (.inr (.inr ⟨ha, hb, _, _, hx, hy, h⟩))⟩
  | arrayInterface _ hmem => exact absurd hmem not_mem_nil
  | @parent a p b hp h ih =>
    have hplain := g.parents_plain a p hp
    have hb : (g.cls b).isPrimitive = false := by
      rcases ih with rfl | hw
      · exact hplain.2
      · exact hw.2.1
    refine .inr ⟨not_primitive_of_parents hp, hb, ?_⟩
    rcases mem_parents.1 hp with hs | hi
    · -- a superclass: what it meets is met here
      rcases ih with rfl | ⟨-, -, hobj | hc | ⟨c, hc, hrest⟩ | ⟨harray, -⟩⟩
      · exact .inr (.inl (mem_chain_of_super hs self_mem_chain))
      · exact .inl hobj
      · exact .inr (.inl (mem_chain_of_super hs hc))
      · exact .inr (.inr (.inl ⟨c, mem_chain_of_super hs hc, hrest⟩))
      · simp [hplain.1] at harray
    · exact .inr (.inr (.inl ⟨a, self_mem_chain, p, hi, h⟩))

theorem subtype_of_walked (h : g.Walked a b) : g.SubtypeBy [] a b := by
  obtain ⟨ha, hb, hobj | hc | ⟨c, hc, i, hi, hsub⟩ | ⟨harray, harray', x, y, hx, hy, hsub⟩⟩ := h
  · exact .object ha hobj
  · exact subtype_of_chain hc (.refl b)
  · exact subtype_of_chain hc (.parent (iface_mem hi) hsub)
  · cases hpx : (g.cls x).isPrimitive with
    | true =>
      obtain rfl := subtype_of_primitive hpx hsub
      exact array_inj harray harray' hx hy ▸ .refl a
    | false =>
      cases hpy : (g.cls y).isPrimitive with
      | true =>
        obtain rfl := subtype_primitive hpy hsub
        exact array_inj harray harray' hx hy ▸ .refl a
      | false => exact .component harray harray' hx hy hpx hpy hsub

variable [DecidableEq Id]

/-- The walk of `class_assignable`. The cuts for classes that list themselves change nothing. -/
theorem assignableUpTo_iff : ∀ {n : Nat} {a b : Id}, g.level a < n →
    (g.assignableUpTo n (some a) (some b) = true ↔ g.SubtypeBy [] a b)
  | 0, _, _, hn => absurd hn (Nat.not_lt_zero _)
  | n + 1, a, b, hn => by
    have hsame : (a = b ∨ (g.cls a).desc = (g.cls b).desc) ↔ a = b := ⟨fun h => h.elim id (g.desc_inj a b), .inl⟩
    have hchain : (g.chain a).any (fun c => decide (c = b ∨ (g.cls c).desc = (g.cls b).desc)) = true ↔ b ∈ g.chain a := by
      simp only [any_eq_true, decide_eq_true_eq]
      constructor
      · rintro ⟨c, hc, rfl | hdesc⟩
        · exact hc
        · exact g.desc_inj c b hdesc ▸ hc
      · exact fun h => ⟨b, h, .inl rfl⟩
    have hiface : g.ifaceAssignable (fun i => g.assignableUpTo n (some i) (some b)) a = true ↔
        ∃ c ∈ g.chain a, ∃ i, some i ∈ (g.cls c).ifaces ∧ g.SubtypeBy [] i b := by
      simp only [ifaceAssignable, any_eq_true, Option.any_eq_true, Bool.and_eq_true, decide_eq_true_eq]
      constructor
      · rintro ⟨c, hc, _, hi, i, rfl, -, hask⟩
        have hlt := g.parent_lt c i (iface_mem hi)
        have hle := level_of_chain hc
        exact ⟨c, hc, i, hi, (assignableUpTo_iff (by omega)).1 hask⟩
      · rintro ⟨c, hc, i, hi, hsub⟩
        have hlt := g.parent_lt c i (iface_mem hi)
        have hle := level_of_chain hc
        refine ⟨c, hc, some i, hi, i, rfl, ⟨?_, ?_⟩, (assignableUpTo_iff (by omega)).2 hsub⟩
        · rintro rfl
          exact Nat.lt_irrefl _ hlt
        · rintro rfl
          exact Nat.lt_irrefl _ (hlt.trans_le hle)
    have helem : (g.cls a).isArray = true → (g.cls b).isArray = true →
        (g.assignableUpTo n (g.cls a).elem (g.cls b).elem = true ↔
          ∃ x y, (g.cls a).elem = some x ∧ (g.cls b).elem = some y ∧ g.SubtypeBy [] x y) := by
      intro ha hb
      obtain ⟨x, hx, -⟩ := g.array_elem a ha
      obtain ⟨y, hy, -⟩ := g.array_elem b hb
      have hlt := g.elem_lt a x hx
      rw [hx, hy, assignableUpTo_iff (by omega)]
      simp
    have hwalk : g.SubtypeBy [] a b ↔ a = b ∨ g.Walked a b :=
      ⟨walked_of_subtype, fun h => h.elim (fun h => h ▸ .refl a) subtype_of_walked⟩
    rw [hwalk, Walked, assignableUpTo]
    simp only [hsame, hchain, hiface]
    split_ifs with h1 h2 h3 h4 h5 h6
    · simp [h1]
    · simp only [h1, false_or, false_iff]
      rintro ⟨ha, hb, -⟩
      simp [ha, hb] at h2
    all_goals
      push Not at h2
      have ha : (g.cls a).isPrimitive = false := by simpa using h2.1
      have hb : (g.cls b).isPrimitive = false := by simpa using h2.2
    · simp [ha, hb, h3]
    · simp [ha, hb, h4]
    · simp only [ha, hb, hiface.1 h5, true_and, true_or, or_true]
    · rw [helem h6.1 h6.2]
      simp only [ha, hb, h1, h3, h4, mt hiface.2 h5, h6.1, h6.2, true_and, false_or]
    · simp only [ha, hb, h1, h3, h4, mt hiface.2 h5, true_and, false_or, false_iff]
      exact fun h => h6 ⟨h.1, h.2.1⟩

theorem classAssignable_iff : g.classAssignable (some a) (some b) = true ↔ g.SubtypeBy [] a b :=
  assignableUpTo_iff (Nat.lt_succ_self _)

/-- Assignability of two classes is subtyping just when no array stands against `Cloneable` or `Serializable`. It is
    transitive, and `instance-of`, `check-cast` and the choice of a clause agree on it. -/
theorem assignable_iff_java (g : Graph Id) :
    (∀ a b, (g.classAssignable (some a) (some b) = true ↔ g.Subtype a b) ↔ ¬ g.ArrayAsInterface a b) ∧
    (∀ a b c, g.classAssignable (some a) (some b) = true → g.classAssignable (some b) (some c) = true →
      g.classAssignable (some a) (some c) = true) ∧
    (∀ a b, g.instanceOf (some (some a)) (some b) = g.classAssignable (some a) (some b) ∧
      g.checkCastThrows (some (some a)) (some b) = !g.classAssignable (some a) (some b)) ∧
    ∀ a (tries : List (Try Id)) pc, g.findHandler (some a) tries pc = (tries.filter fun t => t.covers pc).findSome?
      fun t => ((t.clauses.find? fun c => g.instanceOf (some (some a)) c.1).map Prod.snd).or t.all := by
  refine ⟨fun a b => ?_, fun a b c hab hbc => ?_, fun a b => ⟨rfl, rfl⟩, fun a tries pc => ?_⟩
  · rw [classAssignable_iff]
    exact ⟨fun h hcase => hcase.not_subtype (h.2 hcase.subtype),
      fun hno => ⟨SubtypeBy.java, fun h => subtype_of_java h hno⟩⟩
  · rw [classAssignable_iff] at hab hbc ⊢
    exact hab.trans (nil_subset _) hbc
  · have hask :
        ∀ c : Option Id × Nat, (c.1.isSome && g.classAssignable (some a) c.1) = g.instanceOf (some (some a)) c.1 := by
      rintro ⟨_ | c, addr⟩ <;> rfl
    simp only [findHandler, hask]

end Graph

/-- `Object`, `Cloneable`, `int` and `int[]`. -/
def arrays : Graph (Bool × Bool) where
  cls
    | (false, false) => ⟨object, false, false, none, none, []⟩
    | (false, true) => ⟨"Ljava/lang/Cloneable;", false, false, none, some (false, false), []⟩
    | (true, false) => ⟨"I", false, true, none, none, []⟩
    | (true, true) => ⟨"[I", true, false, some (true, false), some (false, false), []⟩
  level
    | (_, b) => b.toNat
  parent_lt := by decide
  elem_lt := by decide
  desc_inj := by decide
  primitive := by decide
  primitive_parents := by decide
  array := by decide
  array_elem := by decide
  array_parents := by decide
  parents_plain := by decide
  object_parents := by decide
  interface_parents := by decide

/-- An array of integers is not an instance of `Cloneable`. -/
theorem array_not_cloneable : arrays.Subtype (true, true) (false, true) ∧
    arrays.classAssignable (some (true, true)) (some (false, true)) = false :=
  ⟨.arrayInterface rfl (by decide), by decide⟩

end Lunaria.Dvm.Assign
