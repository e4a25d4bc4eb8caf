import Mathlib.Data.List.Basic
import Mathlib.Order.WellFounded

/-! Depth-first search in a directed graph whose nodes list their successors. Some nodes have a value; the search does not
    go on below these. It takes the first good value it meets, and the first value at all if there is no good one. A route
    is the list of the places at which the listings are followed, and the search goes through the routes in their
    lexicographic order. -/

namespace Lunaria.Routes
open List

variable {α β : Type} (next : α → List α) (value : α → Option β) (good : β → Bool)

/-- From one node to another along the listings. Nothing on the way has a value, except perhaps the end. -/
inductive Route : α → List Nat → α → Prop
  | here (a : α) : Route a [] a
  | step {a b c : α} {i : Nat} {p : List Nat} :
      value a = none → (next a)[i]? = some b → Route b p c → Route a (i :: p) c

/-- The first good value, or else the first one. -/
def choose (found : List (Option β)) : Option β :=
  (found.find? fun v => v.any good).getD (found.findSome? id)

/-- The search, `n` levels deep. -/
def search : Nat → α → Option β
  | 0, _ => none
  | n + 1, a =>
    match value a with
    | some v => some v
    | none => choose good ((next a).map (search n))

section
variable {next : α → List α} {value : α → Option β} {good : β → Bool} {a b c : α} {p q : List Nat} {v w : β}
    {found : List (Option β)}

theorem Route.unique (h : Route next value a p b) (h' : Route next value a p c) : b = c := by
  induction h with
  | here a =>
    cases h'
    rfl
  | step hnone hnext _ ih =>
    cases h' with
    | step _ hnext' hrest =>
      cases hnext.symm.trans hnext'
      exact ih hrest

theorem choose_good (h : choose good found = some v) (hv : good v = true) :
    ∃ i : Nat, found[i]? = some (some v) ∧ ∀ j w, j < i → found[j]? = some (some w) → good w = false := by
  rw [choose] at h
  cases hfind : found.find? fun v => v.any good with
  | some o =>
    rw [hfind] at h
    obtain rfl : o = some v := h
    obtain ⟨-, i, hi, hget, hbefore⟩ := find?_eq_some_iff_getElem.1 hfind
    refine ⟨i, by rw [getElem?_eq_getElem hi, hget], fun j w hj hw => ?_⟩
    obtain ⟨hjl, hjw⟩ := List.getElem?_eq_some_iff.1 hw
    simpa [hjw] using hbefore j hj
  | none =>
    rw [hfind] at h
    obtain ⟨o, hmem, rfl⟩ := exists_of_findSome?_eq_some h
    exact absurd hv (by simpa using find?_eq_none.1 hfind _ hmem)

theorem mem_of_choose (h : choose good found = some v) : some v ∈ found := by
  rw [choose] at h
  cases hfind : found.find? fun v => v.any good with
  | some o =>
    rw [hfind] at h
    exact h ▸ mem_of_find?_eq_some hfind
  | none =>
    rw [hfind] at h
    obtain ⟨o, hmem, rfl⟩ := exists_of_findSome?_eq_some h
    exact hmem

theorem choose_of_good (hmem : some v ∈ found) (hv : good v = true) :
    ∃ w, choose good found = some w ∧ good w = true := by
  rw [choose]
  cases hfind : found.find? fun v => v.any good with
  | some o =>
    obtain ⟨w, rfl, hw⟩ := (Option.any_eq_true _ _).1 (find?_some hfind)
    exact ⟨w, rfl, hw⟩
  | none => exact absurd hv (by simpa using find?_eq_none.1 hfind _ hmem)

end

section Levels
variable {next : α → List α} {value : α → Option β} {good : β → Bool} {level : α → Nat}

/-- How deep a deep enough search goes does not matter. -/
theorem search_depth (hlevel : ∀ a, ∀ b ∈ next a, level b < level a) : ∀ {n n' : Nat} {a : α}, level a < n → level a < n' →
    search next value good n a = search next value good n' a
  | 0, _, _, hn, _ => absurd hn (Nat.not_lt_zero _)
  | _, 0, _, _, hn' => absurd hn' (Nat.not_lt_zero _)
  | n + 1, n' + 1, a, hn, hn' => by
    have hmap : (next a).map (search next value good n) = (next a).map (search next value good n') := by
      refine map_congr_left fun b hb => ?_
      exact search_depth hlevel (lt_of_lt_of_le (hlevel a b hb) (Nat.le_of_lt_succ hn))
        (lt_of_lt_of_le (hlevel a b hb) (Nat.le_of_lt_succ hn'))
    rw [search, search, hmap]

theorem search_complete (hlevel : ∀ a, ∀ b ∈ next a, level b < level a) {a b : α} {p : List Nat} {v : β}
    (h : Route next value a p b) (hvalue : value b = some v) (hv : good v = true) :
    ∀ {n}, level a < n → ∃ w, search next value good n a = some w ∧ good w = true := by
  induction h with
  | here a =>
    intro n hn
    obtain ⟨n, rfl⟩ := Nat.exists_eq_succ_of_ne_zero (Nat.ne_zero_of_lt hn)
    exact ⟨v, by rw [search, hvalue], hv⟩
  | @step a c b i p hnone hnext _ ih =>
    intro n hn
    obtain ⟨n, rfl⟩ := Nat.exists_eq_succ_of_ne_zero (Nat.ne_zero_of_lt hn)
    have hmem : c ∈ next a := mem_of_getElem? hnext
    have hlow : level c < n := lt_of_lt_of_le (hlevel a c hmem) (Nat.le_of_lt_succ hn)
    obtain ⟨w, hw, hgood⟩ := ih hvalue hlow
    rw [search, hnone]
    exact choose_of_good (List.mem_map.2 ⟨c, hmem, hw⟩) hgood

theorem search_first (hlevel : ∀ a, ∀ b ∈ next a, level b < level a) : ∀ {n : Nat} {a : α} {v : β}, level a < n →
    search next value good n a = some v → good v = true →
    ∃ p b, Route next value a p b ∧ value b = some v ∧
      ∀ q c w, Route next value a q c → value c = some w → good w = true → ¬ q < p
  | 0, _, _, hn, _, _ => absurd hn (Nat.not_lt_zero _)
  | n + 1, a, v, hn, h, hv => by
    rw [search] at h
    cases hvalue : value a with
    | some u =>
      rw [hvalue] at h
      obtain rfl : u = v := Option.some.inj h
      exact ⟨[], a, .here a, hvalue, fun q c w _ _ _ => not_lt_nil q⟩
    | none =>
      rw [hvalue] at h
      obtain ⟨i, hi, hbefore⟩ := choose_good h hv
      rw [getElem?_map] at hi
      obtain ⟨b, hb, hfound⟩ := Option.map_eq_some_iff.1 hi
      have hlow : ∀ {j c}, (next a)[j]? = some c → level c < n := fun hc =>
        lt_of_lt_of_le (hlevel a _ (mem_of_getElem? hc)) (Nat.le_of_lt_succ hn)
      obtain ⟨p, e, hroute, he, hfirst⟩ := search_first hlevel (hlow hb) hfound hv
      refine ⟨i :: p, e, .step hvalue hb hroute, he, ?_⟩
      intro q c w hq hc hw hlt
      cases hq with
      | here => simp [hvalue] at hc
      | @step _ d _ j q _ hd hrest =>
        rcases cons_lt_cons_iff.1 hlt with hj | ⟨rfl, hqp⟩
        -- an earlier place: what the search found there was not good
        · obtain ⟨u, hu, hgood⟩ := search_complete hlevel hrest hc hw (hlow hd)
          have hget : ((next a).map (search next value good n))[j]? = some (some u) := by
            rw [getElem?_map, hd, Option.map_some, hu]
          exact absurd hgood (by simp [hbefore j u hj hget])
        -- the same place: the order of the rest decides
        · cases hd.symm.trans hb
          exact hfirst q c w hrest hc hw hqp

end Levels

/-! ### Chains -/

/-- A node and those above it, `n` of them at most. -/
def chain (up : α → Option α) : Nat → α → List α
  | 0, _ => []
  | n + 1, a =>
    a :: match up a with
      | some b => chain up n b
      | none => []

section
variable {up : α → Option α} {level : α → Nat} {a c : α}

theorem chain_depth (hup : ∀ a b, up a = some b → level b < level a) :
    ∀ {n n' : Nat} {a : α}, level a < n → level a < n' → chain up n a = chain up n' a
  | 0, _, _, hn, _ => absurd hn (Nat.not_lt_zero _)
  | _, 0, _, _, hn' => absurd hn' (Nat.not_lt_zero _)
  | n + 1, n' + 1, a, hn, hn' => by
    rw [chain, chain]
    cases hs : up a with
    | none => rfl
    | some b =>
      have hlt := hup a b hs
      exact congrArg _ (chain_depth hup (lt_of_lt_of_le hlt (Nat.le_of_lt_succ hn))
        (lt_of_lt_of_le hlt (Nat.le_of_lt_succ hn')))

theorem chain_unfold (hup : ∀ a b, up a = some b → level b < level a) :
    chain up (level a + 1) a = a :: ((up a).map fun b => chain up (level b + 1) b).getD [] := by
  rw [chain]
  cases hs : up a with
  | none => rfl
  | some b => exact congrArg _ (chain_depth hup (hup a b hs) (Nat.lt_succ_self _))

/-- What holds at a node and goes over to what is below it holds along the chain. -/
theorem chain_induction {motive : α → Prop} (hself : motive c) (hup : ∀ {a b}, up a = some b → motive b → motive a) :
    ∀ {n : Nat} {a : α}, c ∈ chain up n a → motive a
  | 0, _, h => absurd h not_mem_nil
  | n + 1, a, h => by
    rw [chain] at h
    rcases mem_cons.1 h with rfl | h
    · exact hself
    · cases hs : up a with
      | none => simp [hs] at h
      | some b =>
        rw [hs] at h
        exact hup hs (chain_induction hself hup h)

end

end Lunaria.Routes
