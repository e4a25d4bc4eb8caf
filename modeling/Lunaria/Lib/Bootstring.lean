import Mathlib.Data.List.InsertIdx
import Mathlib.Data.List.Induction
import Mathlib.Algebra.Order.Ring.Nat

/-! The two ideas behind bootstring codes: integers of variable length whose last digit is the first one below the threshold
    of its place, and a list that is built by insertions in the order of (value, place), each of them given by how far it is
    from the one before. -/

namespace Lunaria.Bootstring
open List Nat

/-! ### Integers of variable length -/

/-- The digits of `q` from place `j` on, in a base and with a threshold for each place. -/
inductive Spells (base : Nat) (t : Nat → Nat) : Nat → Nat → List Nat → Prop
  | last {j q : Nat} : q < t j → Spells base t j q [q]
  | more {j q : Nat} {ds : List Nat} : t j ≤ q → Spells base t (j + 1) ((q - t j) / (base - t j)) ds →
      Spells base t j q ((t j + (q - t j) % (base - t j)) :: ds)

section
variable {base : Nat} {t : Nat → Nat} {j q : Nat} {ds ds' : List Nat}

theorem Spells.unique (h : Spells base t j q ds) (h' : Spells base t j q ds') : ds = ds' := by
  induction h generalizing ds' with
  | last hlt =>
    cases h' with
    | last _ => rfl
    | more hle _ => exact absurd hlt (Nat.not_lt.2 hle)
  | more hle _ ih =>
    cases h' with
    | last hlt => exact absurd hlt (Nat.not_lt.2 hle)
    | more _ h' => rw [ih h']

theorem Spells.ne_nil (h : Spells base t j q ds) : ds ≠ [] := by
  cases h <;> exact cons_ne_nil _ _

/-- A digit at or above its threshold and the digits after it. -/
theorem Spells.cons {d : Nat} (htd : t j ≤ d) (hd : d < base) (h : Spells base t (j + 1) q ds) :
    Spells base t j (d + (base - t j) * q) (d :: ds) := by
  have hpos : 0 < base - t j := by omega
  have hsub : d + (base - t j) * q - t j = (d - t j) + (base - t j) * q := by omega
  have hdiv : (d + (base - t j) * q - t j) / (base - t j) = q := by
    rw [hsub, add_mul_div_left _ _ hpos, div_eq_of_lt (by omega), Nat.zero_add]
  have hmod : t j + (d + (base - t j) * q - t j) % (base - t j) = d := by
    rw [hsub, add_mul_mod_self_left, mod_eq_of_lt (by omega)]
    omega
  have hmore : Spells base t j (d + (base - t j) * q)
      ((t j + (d + (base - t j) * q - t j) % (base - t j)) :: ds) :=
    .more (Nat.le_trans htd (Nat.le_add_right _ _)) (hdiv.symm ▸ h)
  rwa [hmod] at hmore

/-- The first digit is no more than the number, and the number is that digit and the rest. -/
theorem Spells.head_le (hle : t j ≤ q) :
    t j + (q - t j) % (base - t j) ≤ q ∧
      q = t j + (q - t j) % (base - t j) + (base - t j) * ((q - t j) / (base - t j)) := by
  have hmod := mod_le (q - t j) (base - t j)
  have hdiv := mod_add_div (q - t j) (base - t j)
  omega

end

/-! ### Insertions in order -/

/-- A list under construction: the value inserted last and the place after it. -/
structure Build where
  list : List Nat
  n : Nat
  i : Nat
  deriving DecidableEq

namespace Build

/-- Insert after going on by `delta` places; a value has one place more than the list has elements. -/
def insert (b : Build) (delta : Nat) : Build :=
  let at' := b.i + delta
  let n := b.n + at' / (b.list.length + 1)
  let i := at' % (b.list.length + 1)
  ⟨b.list.insertIdx i n, n, i + 1⟩

def run (b : Build) (deltas : List Nat) : Build := deltas.foldl insert b

@[simp] theorem run_nil (b : Build) : b.run [] = b := rfl

theorem run_append (b : Build) (ds ds' : List Nat) : b.run (ds ++ ds') = (b.run ds).run ds' := foldl_append ..

theorem run_concat (b : Build) (ds : List Nat) (d : Nat) : b.run (ds ++ [d]) = (b.run ds).insert d := run_append ..

theorem place_le (b : Build) (delta : Nat) : (b.i + delta) % (b.list.length + 1) ≤ b.list.length :=
  le_of_lt_succ (mod_lt _ (succ_pos _))

theorem length_insert (b : Build) (delta : Nat) : (b.insert delta).list.length = b.list.length + 1 :=
  length_insertIdx_of_le_length (b.place_le delta) _

theorem length_run (b : Build) (ds : List Nat) : (b.run ds).list.length = b.list.length + ds.length := by
  induction ds generalizing b with
  | nil => rfl
  | cons d ds ih =>
    show ((b.insert d).run ds).list.length = _
    rw [ih, length_insert, length_cons]
    omega

theorem insertIdx_append (l r : List Nat) (a : Nat) : (l ++ r).insertIdx l.length a = l ++ a :: r := by
  induction l with
  | nil => rfl
  | cons x l ih => rw [cons_append, length_cons, insertIdx_succ_cons, ih, cons_append]

theorem filter_insertIdx {test : Nat → Bool} {a : Nat} (ha : test a = false) (l : List Nat) (i : Nat) :
    (l.insertIdx i a).filter test = l.filter test := by
  induction l generalizing i with
  | nil =>
    cases i with
    | zero => rw [insertIdx_zero, filter_cons_of_neg (by rw [ha]; exact Bool.false_ne_true)]
    | succ i => rfl
  | cons x l ih =>
    cases i with
    | zero => rw [insertIdx_zero, filter_cons_of_neg (by rw [ha]; exact Bool.false_ne_true)]
    | succ i => rw [insertIdx_succ_cons, filter_cons, filter_cons, ih]

/-- Nor does one that all values from the first on fail see the run. -/
theorem filter_run {test : Nat → Bool} (b : Build) (ds : List Nat) (h : ∀ n, b.n ≤ n → test n = false) :
    (b.run ds).list.filter test = b.list.filter test := by
  induction ds generalizing b with
  | nil => rfl
  | cons d ds ih =>
    have hn : b.n ≤ (b.insert d).n := Nat.le_add_right _ _
    refine (ih (b.insert d) fun n hle => h n (Nat.le_trans hn hle)).trans ?_
    exact filter_insertIdx (h _ hn) _ _

theorem insert_eq {b : Build} {delta n c : Nat} (hn : b.n ≤ n) (hc : c ≤ b.list.length)
    (h : b.i + delta = (n - b.n) * (b.list.length + 1) + c) : b.insert delta = ⟨b.list.insertIdx c n, n, c + 1⟩ := by
  have hdiv : (b.i + delta) / (b.list.length + 1) = n - b.n := by
    rw [h, Nat.add_comm, add_mul_div_right _ _ (succ_pos _), div_eq_of_lt (lt_succ_of_le hc), Nat.zero_add]
  have hmod : (b.i + delta) % (b.list.length + 1) = c := by
    rw [h, Nat.add_comm, add_mul_mod_self_right, mod_eq_of_lt (lt_succ_of_le hc)]
  rw [insert, hdiv, hmod, Nat.add_sub_cancel' hn]

/-- Nothing in the list is above the last value, and it is nowhere behind the place. -/
structure Sorted (b : Build) : Prop where
  le : ∀ x ∈ b.list, x ≤ b.n
  place : b.i ≤ b.list.length
  behind : ∀ j x, b.i ≤ j → b.list[j]? = some x → x < b.n
  last : 0 < b.i → b.list[b.i - 1]? = some b.n

section
variable {b : Build}

theorem Sorted.insert (h : Sorted b) (delta : Nat) : Sorted (b.insert delta) := by
  have hplace := b.place_le delta
  set i := (b.i + delta) % (b.list.length + 1) with hi
  set n := b.n + (b.i + delta) / (b.list.length + 1) with hn
  have hins : b.insert delta = ⟨b.list.insertIdx i n, n, i + 1⟩ := rfl
  rw [hins]
  -- what stays behind the new place was behind the old one, or the value has grown
  have hbehind : ∀ j x, i ≤ j → b.list[j]? = some x → x < n := by
    intro j x hj hx
    rcases Nat.lt_or_ge (b.i + delta) (b.list.length + 1) with hsame | hmore
    · have hi' : i = b.i + delta := mod_eq_of_lt hsame
      exact Nat.lt_of_lt_of_le (h.behind j x (by omega) hx) (Nat.le_add_right _ _)
    · have hgrow : 0 < (b.i + delta) / (b.list.length + 1) := Nat.div_pos hmore (succ_pos _)
      have := h.le x (mem_of_getElem? hx)
      omega
  refine ⟨?_, ?_, ?_, ?_⟩
  · intro x hx
    rcases eq_or_mem_of_mem_insertIdx hx with rfl | hx
    · exact le_rfl
    · exact Nat.le_trans (h.le x hx) (Nat.le_add_right _ _)
  · show i + 1 ≤ (b.list.insertIdx i n).length
    rw [length_insertIdx_of_le_length hplace]
    omega
  · intro j x hj hx
    have hj' : i < j := hj
    have hget : (b.list.insertIdx i n)[j]? = b.list[j - 1]? := getElem?_insertIdx_of_gt hj'
    exact hbehind (j - 1) x (by omega) (hget ▸ hx)
  · intro _
    show (b.list.insertIdx i n)[i]? = some n
    rw [getElem?_insertIdx_self, if_pos hplace]

theorem Sorted.run (h : Sorted b) (ds : List Nat) : Sorted (b.run ds) := by
  induction ds generalizing b with
  | nil => exact h
  | cons d ds ih => exact ih (h.insert d)

theorem Sorted.unique {b' : Build} (h : Sorted b) (h' : Sorted b') (hlist : b.list = b'.list) (hi : 0 < b.i)
    (hi' : 0 < b'.i) : b = b' := by
  have hlast := h.last hi
  have hlast' := h'.last hi'
  have hn : b.n = b'.n := by
    apply Nat.le_antisymm
    · exact h'.le _ (hlist ▸ mem_of_getElem? hlast)
    · exact h.le _ (hlist ▸ mem_of_getElem? hlast')
  have hbi : b.i = b'.i := by
    apply Nat.le_antisymm
    · by_contra hlt
      have := h'.behind (b.i - 1) b.n (by omega) (hlist ▸ hlast)
      omega
    · by_contra hlt
      have := h.behind (b'.i - 1) b'.n (by omega) (hlist.symm ▸ hlast')
      omega
  cases b
  cases b'
  simp only at hlist hn hbi
  rw [hlist, hn, hbi]

theorem insert_i_pos (b : Build) (delta : Nat) : 0 < (b.insert delta).i := succ_pos _

theorem eraseIdx_insert (b : Build) (delta : Nat) : (b.insert delta).list.eraseIdx ((b.insert delta).i - 1) = b.list := by
  show (b.list.insertIdx _ _).eraseIdx _ = b.list
  exact eraseIdx_insertIdx_self ..

theorem run_injective (h : Sorted b) : ∀ ds ds' : List Nat, (b.run ds).list = (b.run ds').list →
    ds = ds' := by
  intro ds
  induction ds using List.reverseRecOn with
  | nil =>
    intro ds' hlist
    have hlen := congrArg List.length hlist
    rw [length_run, length_run, length_nil] at hlen
    exact (length_eq_zero_iff.1 (by omega)).symm
  | append_singleton ds d ih =>
    intro ds' hlist
    have hlen := congrArg List.length hlist
    rw [length_run, length_run, length_append, length_singleton] at hlen
    obtain ⟨ds₁, d₁, rfl⟩ : ∃ ds₁ d₁, ds' = ds₁ ++ [d₁] := by
      rcases eq_nil_or_concat ds' with rfl | ⟨ds₁, d₁, rfl⟩
      · rw [length_nil] at hlen
        omega
      · exact ⟨ds₁, d₁, concat_eq_append ..⟩
    rw [run_concat, run_concat] at hlist
    have heq : (b.run ds).insert d = (b.run ds₁).insert d₁ :=
      Sorted.unique ((h.run ds).insert d) ((h.run ds₁).insert d₁) hlist (insert_i_pos ..) (insert_i_pos ..)
    have hrest : (b.run ds).list = (b.run ds₁).list := by
      rw [← eraseIdx_insert (b.run ds) d, heq, eraseIdx_insert]
    obtain rfl := ih ds₁ hrest
    -- the same insertion after the same ones is the same distance
    have hdist : d = d₁ := by
      set s := b.run ds
      have hn : s.n + (s.i + d) / (s.list.length + 1) = s.n + (s.i + d₁) / (s.list.length + 1) := congrArg Build.n heq
      have hi : (s.i + d) % (s.list.length + 1) + 1 = (s.i + d₁) % (s.list.length + 1) + 1 := congrArg Build.i heq
      have h1 := div_add_mod (s.i + d) (s.list.length + 1)
      have h2 := div_add_mod (s.i + d₁) (s.list.length + 1)
      rw [Nat.add_left_cancel hn, Nat.add_right_cancel hi] at h1
      omega
    rw [hdist]

end

end Build

end Lunaria.Bootstring
