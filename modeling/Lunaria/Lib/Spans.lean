import Mathlib.Data.List.Basic

/-! Sorted lists of disjoint half-open spans `[lo a, hi a)`, as address-space tables keep them: the position a
    binary search finds, insertion there, replacing each span by pieces of it, and the list read as a partial
    function of addresses. -/

namespace Lunaria.Spans
open List

variable {α β : Type} {lo hi : α → Nat} {l l' : List α} {a b n : α} {x : Nat} {f : α → β}

/-- The address `x` lies in the span `a`. -/
def Has (lo hi : α → Nat) (a : α) (x : Nat) : Prop := lo a ≤ x ∧ x < hi a

instance : Decidable (Has lo hi a x) := inferInstanceAs (Decidable (_ ∧ _))

/-- The address `x` lies in one of the spans. -/
def Holds (lo hi : α → Nat) (l : List α) (x : Nat) : Prop := ∃ a ∈ l, Has lo hi a x

theorem holds_cons : Holds lo hi (a :: l) x ↔ Has lo hi a x ∨ Holds lo hi l x := by simp [Holds]

theorem holds_append : Holds lo hi (l ++ l') x ↔ Holds lo hi l x ∨ Holds lo hi l' x := by
  constructor
  · rintro ⟨a, ha, hx⟩
    exact (mem_append.mp ha).imp (fun h => ⟨a, h, hx⟩) fun h => ⟨a, h, hx⟩
  · rintro (⟨a, ha, hx⟩ | ⟨a, ha, hx⟩)
    · exact ⟨a, mem_append_left _ ha, hx⟩
    · exact ⟨a, mem_append_right _ ha, hx⟩

/-- The spans are in order, disjoint and not empty. -/
structure Ordered (lo hi : α → Nat) (l : List α) : Prop where
  sorted : l.Pairwise fun a b => hi a ≤ lo b
  nonempty : ∀ a ∈ l, lo a < hi a

namespace Ordered

theorem nil : Ordered lo hi [] := ⟨List.Pairwise.nil, by simp⟩

theorem cons (h : Ordered lo hi l) (ha : lo a < hi a) (hle : ∀ b ∈ l, hi a ≤ lo b) : Ordered lo hi (a :: l) :=
  ⟨pairwise_cons.mpr ⟨hle, h.sorted⟩, fun b hb => by
    rcases mem_cons.mp hb with rfl | hb
    · exact ha
    · exact h.nonempty b hb⟩

theorem tail (h : Ordered lo hi (a :: l)) : Ordered lo hi l :=
  ⟨(pairwise_cons.mp h.sorted).2, fun b hb => h.nonempty b (mem_cons_of_mem _ hb)⟩

theorem head_le (h : Ordered lo hi (a :: l)) : ∀ b ∈ l, hi a ≤ lo b := (pairwise_cons.mp h.sorted).1

theorem head_lt (h : Ordered lo hi (a :: l)) : lo a < hi a := h.nonempty a (mem_cons_self ..)

theorem append (h : Ordered lo hi l) (h' : Ordered lo hi l') (hle : ∀ a ∈ l, ∀ b ∈ l', hi a ≤ lo b) :
    Ordered lo hi (l ++ l') :=
  ⟨pairwise_append.mpr ⟨h.sorted, h'.sorted, hle⟩, fun b hb => (mem_append.mp hb).elim
    (h.nonempty b) (h'.nonempty b)⟩

theorem sublist (h : Ordered lo hi l) (hs : l'.Sublist l) : Ordered lo hi l' :=
  ⟨h.sorted.sublist hs, fun a ha => h.nonempty a (hs.subset ha)⟩

/-- Two spans that share an address are one. -/
theorem unique : ∀ {l : List α}, Ordered lo hi l → a ∈ l → b ∈ l → Has lo hi a x → Has lo hi b x → a = b
  | [], _, ha, _, _, _ => absurd ha (by simp)
  | c :: l, h, ha, hb, hax, hbx => by
    rcases mem_cons.mp ha with rfl | ha'
    · rcases mem_cons.mp hb with rfl | hb'
      · rfl
      · have := h.head_le b hb'
        unfold Has at hax hbx
        omega
    · rcases mem_cons.mp hb with rfl | hb'
      · have := h.head_le a ha'
        unfold Has at hax hbx
        omega
      · exact h.tail.unique ha' hb' hax hbx

/-! ### The position of an address -/

/-- Below the position every span starts before `x`. -/
theorem lt_of_mem_takeWhile (hb : b ∈ l.takeWhile fun c => decide (lo c < x)) : lo b < x := by
  have := List.all_eq_true.mp (all_takeWhile (p := fun c => decide (lo c < x)) (l := l)) b hb
  simpa using this

theorem le_of_mem_dropWhile : ∀ {l : List α}, Ordered lo hi l →
    ∀ b ∈ l.dropWhile fun c => decide (lo c < x), x ≤ lo b
  | [], _, b, hb => absurd hb (by simp)
  | c :: l, h, b, hb => by
    rw [dropWhile_cons] at hb
    split at hb
    · exact h.tail.le_of_mem_dropWhile b hb
    · rename_i hc
      rw [decide_eq_true_eq, Nat.not_lt] at hc
      rcases mem_cons.mp hb with rfl | hb
      · exact hc
      · have := h.head_le b hb
        have := h.head_lt
        omega

/-- The span before the position ends last among the spans below it. -/
theorem le_getLast (h : Ordered lo hi l) (hlast : l.getLast? = some a) : ∀ b ∈ l, hi b ≤ hi a := by
  obtain ⟨pre, rfl⟩ := getLast?_eq_some_iff.mp hlast
  intro b hb
  rcases mem_append.mp hb with hb | hb
  · have h1 := (pairwise_append.mp h.sorted).2.2 b hb a (by simp)
    have h2 := h.nonempty a (by simp)
    omega
  · exact Nat.le_of_eq (congrArg hi (mem_singleton.mp hb))

/-- A new span fits between the spans that end before it and those that start after it. -/
theorem insert (h : Ordered lo hi (l ++ l')) (hn : lo n < hi n) (hbefore : ∀ a ∈ l, hi a ≤ lo n)
    (hafter : ∀ a ∈ l', hi n ≤ lo a) : Ordered lo hi (l ++ n :: l') := by
  refine (h.sublist (sublist_append_left ..)).append ((h.sublist (sublist_append_right ..)).cons hn hafter) ?_
  intro a ha b hb
  rcases mem_cons.mp hb with rfl | hb
  · exact hbefore a ha
  · have := hbefore a ha
    have := hafter b hb
    omega

/-- A range that no span meets lies between the spans below its position and those from it on. -/
theorem between {y : Nat} (h : Ordered lo hi l) (hlt : x < y) (hfree : ∀ z, x ≤ z → z < y → ∀ a ∈ l, ¬Has lo hi a z) :
    (∀ a ∈ l.takeWhile fun c => decide (lo c < x), hi a ≤ x) ∧ ∀ a ∈ l.dropWhile fun c => decide (lo c < x), y ≤ lo a := by
  constructor
  · intro a ha
    by_contra hgt
    have hlo : lo a < x := lt_of_mem_takeWhile ha
    exact hfree x (Nat.le_refl _) hlt a (( takeWhile_prefix _).subset ha) ⟨by omega, by omega⟩
  · intro a ha
    by_contra hgt
    have hlo := h.le_of_mem_dropWhile a ha
    have hmem := (dropWhile_suffix _).subset ha
    exact hfree (lo a) hlo (by omega) a hmem ⟨Nat.le_refl _, h.nonempty a hmem⟩

/-- Two neighbouring spans become one that starts as the first and ends as the second. -/
theorem merge (h : Ordered lo hi (l ++ a :: b :: l')) (hlo : lo n = lo a) (hhi : hi n = hi b) :
    Ordered lo hi (l ++ n :: l') := by
  have htail := h.sublist (sublist_append_right l _)
  have hab := htail.head_le b (by simp)
  have ha := htail.head_lt
  have hb := htail.tail.head_lt
  have hrest : Ordered lo hi (l ++ l') := h.sublist ((sublist_cons_of_sublist a (sublist_cons_self b l')).append_left l)
  refine hrest.insert (by omega) (fun c hc => ?_) fun c hc => ?_
  · have := (pairwise_append.mp h.sorted).2.2 c hc a (by simp)
    omega
  · have := htail.tail.head_le c hc
    omega

/-- Each span is replaced by pieces inside it. -/
theorem flatMap {f : α → List α} : ∀ {l : List α}, Ordered lo hi l →
    (∀ a ∈ l, Ordered lo hi (f a) ∧ ∀ b ∈ f a, lo a ≤ lo b ∧ hi b ≤ hi a) → Ordered lo hi (l.flatMap f)
  | [], _, _ => nil
  | a :: l, h, hf => by
    rw [flatMap_cons]
    refine (hf a (mem_cons_self ..)).1.append (h.tail.flatMap fun b hb => hf b (mem_cons_of_mem _ hb)) ?_
    intro b hb c hc
    obtain ⟨d, hd, hcd⟩ := mem_flatMap.mp hc
    have h1 := ((hf a (mem_cons_self ..)).2 b hb).2
    have h2 := ((hf d (mem_cons_of_mem _ hd)).2 c hcd).1
    have h3 := h.head_le d hd
    omega

end Ordered

/-! ### The partial function -/

/-- What `f` says of the span that holds `x`. -/
def lookup (lo hi : α → Nat) (f : α → β) (l : List α) (x : Nat) : Option β :=
  (l.find? fun a => decide (Has lo hi a x)).map f

theorem lookup_eq_some (h : Ordered lo hi l) {t : β} :
    lookup lo hi f l x = some t ↔ ∃ a ∈ l, Has lo hi a x ∧ f a = t := by
  unfold lookup
  constructor
  · intro hsome
    obtain ⟨a, ha, rfl⟩ := Option.map_eq_some_iff.mp hsome
    exact ⟨a, mem_of_find?_eq_some ha, by simpa using find?_some ha, rfl⟩
  · rintro ⟨a, ha, hax, rfl⟩
    cases hfind : l.find? fun a => decide (Has lo hi a x) with
    | none => exact absurd hax (by simpa using find?_eq_none.mp hfind a ha)
    | some b =>
      have hbx : Has lo hi b x := by simpa using find?_some hfind
      rw [h.unique (mem_of_find?_eq_some hfind) ha hbx hax]
      rfl

theorem lookup_eq_none : lookup lo hi f l x = none ↔ ∀ a ∈ l, ¬Has lo hi a x := by
  simp [lookup]

theorem lookup_cons :
    lookup lo hi f (a :: l) x = if Has lo hi a x then some (f a) else lookup lo hi f l x := by
  unfold lookup
  rw [find?_cons]
  by_cases ha : Has lo hi a x <;> simp [ha]

/-- A span that is inserted answers for its own addresses and for no others. -/
theorem lookup_insert (h : Ordered lo hi (l ++ l')) (h' : Ordered lo hi (l ++ n :: l')) :
    lookup lo hi f (l ++ n :: l') x = if Has lo hi n x then some (f n) else lookup lo hi f (l ++ l') x := by
  split
  · rename_i hn
    exact (lookup_eq_some h').mpr ⟨n, by simp, hn, rfl⟩
  · rename_i hn
    apply Option.ext
    intro t
    rw [lookup_eq_some h', lookup_eq_some h]
    constructor
    · rintro ⟨a, ha, hax, rfl⟩
      have hne : a ≠ n := fun heq => hn (heq ▸ hax)
      exact ⟨a, by simpa [hne] using ha, hax, rfl⟩
    · rintro ⟨a, ha, hax, rfl⟩
      exact ⟨a, by rcases mem_append.mp ha with ha | ha <;> simp [ha], hax, rfl⟩

/-- Replacing each span `a` by pieces of it changes the answer at `x` as it does for `a` alone. -/
theorem lookup_flatMap {g : α → List α} (h : Ordered lo hi l) (hg : Ordered lo hi (l.flatMap g))
    {k : β → Option β} (hpiece : ∀ a ∈ l, ∀ t, (∃ b ∈ g a, Has lo hi b x ∧ f b = t) ↔ Has lo hi a x ∧ k (f a) = some t) :
    lookup lo hi f (l.flatMap g) x = (lookup lo hi f l x).bind k := by
  apply Option.ext
  intro t
  rw [lookup_eq_some hg, Option.bind_eq_some_iff]
  constructor
  · rintro ⟨b, hb, hbx, hft⟩
    obtain ⟨a, ha, hba⟩ := mem_flatMap.mp hb
    obtain ⟨hax, hk⟩ := (hpiece a ha t).mp ⟨b, hba, hbx, hft⟩
    exact ⟨f a, (lookup_eq_some h).mpr ⟨a, ha, hax, rfl⟩, hk⟩
  · rintro ⟨u, hu, hk⟩
    obtain ⟨a, ha, hax, rfl⟩ := (lookup_eq_some h).mp hu
    obtain ⟨b, hba, hbx, hft⟩ := (hpiece a ha t).mpr ⟨hax, hk⟩
    exact ⟨b, mem_flatMap.mpr ⟨a, ha, hba⟩, hbx, hft⟩

end Lunaria.Spans
