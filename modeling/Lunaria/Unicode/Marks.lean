import Lunaria.Unicode.Grapheme

/-! The boundaries of a text are those of the Unicode rules. -/

namespace Lunaria.Breaks
open List Option

open Lunaria.Unicode

/-! ### Code points -/

section CodePoints

/-- The place between two parts of a text is inside a surrogate pair. -/
def SplitsPair (x y : List UInt16) : Prop := ∃ h l, x.getLast? = some h ∧ y.head? = some l ∧ IsHigh h ∧ IsLow l

theorem codePoints_append (y : List UInt16) : ∀ (pos : Nat) (x : List UInt16), ¬ SplitsPair x y →
    codePoints pos (x ++ y) = codePoints pos x ++ codePoints (pos + x.length) y
  | pos, [], _ => rfl
  | pos, [u], h => by
    cases y with
    | nil => simp [codePoints]
    | cons l y =>
      have hno : ¬ (IsHigh u ∧ IsLow l) := fun hp => h ⟨u, l, rfl, rfl, hp.1, hp.2⟩
      rw [singleton_append, codePoints.eq_3, if_neg hno]
      rfl
  | pos, u :: l :: rest, h => by
    rw [cons_append, cons_append, codePoints, codePoints]
    split_ifs with hp
    · have hrest : ¬ SplitsPair rest y := by
        rintro ⟨a, b, ha, hb, hab⟩
        refine h ⟨a, b, ?_, hb, hab⟩
        cases rest with
        | nil => cases ha
        | cons c rest => simpa using ha
      rw [codePoints_append y (pos + 2) rest hrest, cons_append, length_cons, length_cons]
      congr 3
      omega
    · have hrest : ¬ SplitsPair (l :: rest) y := by
        rintro ⟨a, b, ha, hb, hab⟩
        exact h ⟨a, b, by simpa using ha, hb, hab⟩
      rw [← cons_append, codePoints_append y (pos + 1) (l :: rest) hrest, cons_append, length_cons, length_cons,
        length_cons]
      congr 3
      omega

theorem codePoints_pos : ∀ (pos : Nat) (x : List UInt16),
    (∀ z ∈ codePoints pos x, pos ≤ z.1 ∧ z.1 < pos + x.length) ∧ ((codePoints pos x).map Prod.fst).Pairwise (· < ·)
  | pos, [] => ⟨nofun, List.Pairwise.nil⟩
  | pos, [u] => by simp [codePoints]
  | pos, u :: l :: rest => by
    rw [codePoints]
    split_ifs with hp
    · obtain ⟨h1, h2⟩ := codePoints_pos (pos + 2) rest
      refine ⟨fun z hz => ?_, pairwise_cons.2 ⟨fun p hp => ?_, h2⟩⟩
      · rcases mem_cons.1 hz with rfl | hz
        · simp
        · have := h1 z hz
          simp only [length_cons]
          omega
      · obtain ⟨z, hz, rfl⟩ := List.mem_map.1 hp
        have := (h1 z hz).1
        omega
    · obtain ⟨h1, h2⟩ := codePoints_pos (pos + 1) (l :: rest)
      refine ⟨fun z hz => ?_, pairwise_cons.2 ⟨fun p hp => ?_, h2⟩⟩
      · rcases mem_cons.1 hz with rfl | hz
        · simp
        · have := h1 z hz
          simp only [length_cons] at this ⊢
          omega
      · obtain ⟨z, hz, rfl⟩ := List.mem_map.1 hp
        have := (h1 z hz).1
        omega

theorem codePoints_cons (pos : Nat) (l : UInt16) (y : List UInt16) :
    ∃ cp cps, codePoints pos (l :: y) = (pos, cp) :: cps := by
  cases y with
  | nil => exact ⟨_, _, rfl⟩
  | cons m y =>
    rw [codePoints]
    split_ifs <;> exact ⟨_, _, rfl⟩

theorem not_starts {x y : List UInt16} (h : SplitsPair x y) : x.length ∉ (codePoints 0 (x ++ y)).map Prod.fst := by
  obtain ⟨a, b, ha, hb, hab⟩ := h
  obtain ⟨x, rfl⟩ : ∃ x', x = x' ++ [a] := by
    obtain ⟨x', hx⟩ := getLast?_eq_some_iff.1 ha
    exact ⟨x', hx⟩
  obtain ⟨y, rfl⟩ : ∃ y', y = b :: y' := by
    cases y with
    | nil => cases hb
    | cons b' y =>
      cases hb
      exact ⟨y, rfl⟩
  have hfirst : ¬ SplitsPair x (a :: b :: y) := by
    rintro ⟨c, d, -, hd, -, hlow⟩
    cases hd
    have h1 : a.toNat ≤ 0xdbff := UInt16.le_iff_toNat_le.1 hab.1.2
    have h2 : 0xdc00 ≤ a.toNat := UInt16.le_iff_toNat_le.1 hlow.1
    omega
  rw [show x ++ [a] ++ b :: y = x ++ (a :: b :: y) by simp, codePoints_append _ _ _ hfirst, codePoints, if_pos hab]
  intro hmem
  rw [map_append, map_cons] at hmem
  obtain ⟨h1, -⟩ := codePoints_pos 0 x
  obtain ⟨h2, -⟩ := codePoints_pos (0 + x.length + 2) y
  rcases mem_append.1 hmem with hmem | hmem
  · obtain ⟨z, hz, heq⟩ := List.mem_map.1 hmem
    have := (h1 z hz).2
    simp only [length_append, length_singleton] at heq
    omega
  · rcases mem_cons.1 hmem with hmem | hmem
    · simp at hmem
    · obtain ⟨z, hz, heq⟩ := List.mem_map.1 hmem
      have := (h2 z hz).1
      simp only [length_append, length_singleton] at heq
      omega

end CodePoints

/-! ### The second loop -/

section Marks
variable {lunaUcType : Nat → Nat} {s : List Boundary}

/-- What the second loop stores for a boundary behind others. -/
theorem mark_spec : ∀ (left pre : List Boundary) (breaks : List Nat), s = pre ++ left ++ [sentinel (pre ++ left).length] →
    (∀ i, 0 < i → i < (pre ++ left).length → ∃ n, ucLine lunaUcType s i = some n) → (∀ b ∈ left, b.pos < breaks.length) →
    (left.map (·.pos)).Pairwise (· < ·) →
    ∃ breaks', mark lunaUcType s pre.length (epAfter pre) (riAfter pre) left breaks = some breaks' ∧
      breaks'.length = breaks.length ∧ (∀ p, p ∉ left.map (·.pos) → breaks'[p]? = breaks[p]?) ∧
      ∀ l₁ b l₂, left = l₁ ++ b :: l₂ →
        (pre ++ l₁ = [] → breaks'[b.pos]? = breaks[b.pos]?) ∧
        ∀ bs a n old, pre ++ l₁ = bs ++ [a] → ucLine lunaUcType s (pre ++ l₁).length = some n → breaks[b.pos]? = some old →
          breaks'[b.pos]? =
            some ((if ucGrapheme a b (epAfter (pre ++ l₁)) (riAfter (pre ++ l₁)) then old ||| 2 else old) ||| n) := by
  intro left
  induction left with
  | nil =>
    intro pre breaks _ _ _ _
    refine ⟨breaks, rfl, rfl, fun _ _ => rfl, fun l₁ b l₂ h => ?_⟩
    simp at h
  | cons b left ih =>
    intro pre breaks hs hline hpos hsorted
    obtain ⟨hlt, hsorted'⟩ := pairwise_cons.1 hsorted
    have hbpos := hpos b (mem_cons_self ..)
    have hs' : s = (pre ++ [b]) ++ left ++ [sentinel ((pre ++ [b]) ++ left).length] := by simpa using hs
    have hline' : ∀ i, 0 < i → i < ((pre ++ [b]) ++ left).length → ∃ n, ucLine lunaUcType s i = some n := by
      intro i hi hil
      exact hline i hi (by simpa using hil)
    have hnot : b.pos ∉ left.map (·.pos) := fun h => Nat.lt_irrefl _ (hlt _ h)
    rw [mark]
    rcases eq_nil_or_concat pre with rfl | ⟨bs, a, rfl⟩
    · obtain ⟨breaks', hmark, hlen, hother, hb⟩ :=
        ih [b] breaks hs' hline' (fun c hc => hpos c (mem_cons_of_mem _ hc)) hsorted'
      refine ⟨breaks', ?_, hlen, fun p hp => hother p fun h => hp (mem_cons_of_mem _ h), fun l₁ c l₂ h => ?_⟩
      · rw [if_neg (by simp), bind_eq_bind, bind_some]
        exact hmark
      · cases l₁ with
        | nil =>
          cases h
          exact ⟨fun _ => hother _ hnot, fun bs a n old h => by simp at h⟩
        | cons d l₁ =>
          cases h
          exact hb l₁ c l₂ rfl
    · rw [concat_eq_append] at hs hs' hline hline' ⊢
      obtain ⟨n, hn⟩ := hline (bs ++ [a]).length (by simp) (by simp)
      obtain ⟨old, hold⟩ : ∃ old, breaks[b.pos]? = some old := ⟨_, getElem?_eq_getElem hbpos⟩
      have ha : s[(bs ++ [a]).length - 1]? = some a := by
        rw [hs]
        simp
      generalize hnew :
        ((if ucGrapheme a b (epAfter (bs ++ [a])) (riAfter (bs ++ [a])) then old ||| 2 else old) ||| n) = new
      obtain ⟨breaks', hmark, hlen, hother, hb⟩ := ih (bs ++ [a] ++ [b]) (breaks.set b.pos new) hs' hline'
        (fun c hc => by simpa using hpos c (mem_cons_of_mem _ hc)) hsorted'
      have hset : ∀ p, p ≠ b.pos → (breaks.set b.pos new)[p]? = breaks[p]? := fun p hp => getElem?_set_ne (Ne.symm hp)
      refine ⟨breaks', ?_, by simpa using hlen, fun p hp => ?_, fun l₁ c l₂ h => ?_⟩
      · rw [if_pos (by simp), ha, hold, hn]
        simp only [bind_eq_bind, bind_some]
        rw [hnew, show (bs ++ [a]).length + 1 = (bs ++ [a] ++ [b]).length by simp, ← epAfter_concat, ← riAfter_concat]
        exact hmark
      · obtain ⟨hpb, hpl⟩ : p ≠ b.pos ∧ p ∉ left.map (·.pos) := by simpa using hp
        rw [hother p hpl, hset p hpb]
      · cases l₁ with
        | nil =>
          cases h
          refine ⟨fun h => by simp at h, fun bs' a' n' old' h hn' hold' => ?_⟩
          rw [append_nil] at h hn' ⊢
          obtain ⟨-, haa⟩ := append_inj' h rfl
          obtain rfl := singleton_inj.1 haa
          cases hn.symm.trans hn'
          cases hold.symm.trans hold'
          rw [hother _ hnot, hnew]
          simp [hbpos]
        | cons d l₁ =>
          cases h
          obtain ⟨-, hb2⟩ := hb l₁ c l₂ rfl
          refine ⟨fun h => by simp at h, fun bs' a' n' old' h hn' hold' => ?_⟩
          have hcb : c.pos ≠ b.pos := Nat.ne_of_gt (hlt c.pos (by simp))
          have happ : bs ++ [a] ++ b :: l₁ = bs ++ [a] ++ [b] ++ l₁ := by simp
          rw [happ] at h hn' ⊢
          exact hb2 bs' a' n' old' h hn' (by rw [hset _ hcb]; exact hold')

end Marks

/-! ### The boundaries of a text -/

section Text
variable (ucBreakProperty : Nat → Property) (lunaUcType : Nat → Nat)

section
variable (xs : List (Nat × Nat))
include xs

theorem boundaries_map : ∀ (q : Boundary) (k : Nat),
    (boundaries ucBreakProperty lunaUcType q k xs).map (fun b => (b.pos, b.gb, b.flags)) =
      xs.map fun x => (x.1, (ucBreakProperty x.2).gb, (ucBreakProperty x.2).flags) := by
  induction xs with
  | nil => exact fun _ _ => rfl
  | cons x xs ih =>
    intro q k
    obtain ⟨-, hpos, -, hgb, hflags⟩ := @following_fields ucBreakProperty lunaUcType q k x
    rw [boundaries, map_cons, map_cons, ih, hpos, hgb, hflags]

theorem allBoundaries_map :
    (allBoundaries ucBreakProperty lunaUcType xs).map (fun b => (b.pos, b.gb, b.flags)) =
      xs.map fun x => (x.1, (ucBreakProperty x.2).gb, (ucBreakProperty x.2).flags) := by
  cases xs with
  | nil => rfl
  | cons x xs =>
    rw [allBoundaries, map_cons, map_cons, boundaries_map]
    rfl

theorem allBoundaries_length : (allBoundaries ucBreakProperty lunaUcType xs).length = xs.length := by
  simpa using congrArg List.length (allBoundaries_map ucBreakProperty lunaUcType xs)

theorem allBoundaries_pos :
    (allBoundaries ucBreakProperty lunaUcType xs).map (·.pos) = xs.map Prod.fst := by
  have h := congrArg (List.map Prod.fst) (allBoundaries_map ucBreakProperty lunaUcType xs)
  rw [List.map_map, List.map_map] at h
  exact h

theorem allBoundaries_shows :
    Shows (allBoundaries ucBreakProperty lunaUcType xs) (xs.map fun x => chr ucBreakProperty lunaUcType x.2) := by
  have h := congrArg (List.map fun p : Nat × Gb × Nat => (p.2.1, decide (p.2.2 &&& 1 ≠ 0)))
    (allBoundaries_map ucBreakProperty lunaUcType xs)
  rw [List.map_map, List.map_map] at h
  rw [Shows, List.map_map]
  exact h

end

def characters (ucBreakProperty : Nat → Property) (lunaUcType : Nat → Nat) (x : List UInt16) : List Chr :=
  (codePoints 0 x).map fun z => chr ucBreakProperty lunaUcType z.2

theorem codePoints_snd : ∀ (p q : Nat) (x : List UInt16), (codePoints p x).map Prod.snd = (codePoints q x).map Prod.snd
  | _, _, [] => rfl
  | _, _, [_] => rfl
  | p, q, u :: l :: rest => by
    rw [codePoints, codePoints]
    split_ifs
    · rw [map_cons, map_cons, codePoints_snd (p + 2) (q + 2) rest]
    · rw [map_cons, map_cons, codePoints_snd (p + 1) (q + 1) (l :: rest)]

theorem characters_eq (p : Nat) (x : List UInt16) :
    (codePoints p x).map (fun z => chr ucBreakProperty lunaUcType z.2) = characters ucBreakProperty lunaUcType x := by
  have h := congrArg (List.map (chr ucBreakProperty lunaUcType)) (codePoints_snd p 0 x)
  rw [List.map_map, List.map_map] at h
  exact h

theorem LineBreak.unique {u v : List Chr} {d d' : Verdict} (h : LineBreak u v d) (h' : LineBreak u v d') : d = d' := by
  rcases h with h | ⟨hno, h⟩ <;> rcases h' with h' | ⟨hno', h'⟩
  · exact h.unique h'
  · exact absurd h.some hno'
  · exact absurd h'.some hno
  · exact h.unique h'

/-- The bits of a place: what `luna_uc_breaks_utf16` stores says exactly what the rules say. -/
theorem bits_spec (g : Bool) {u v : List Chr} {d : Verdict} (h : LineBreak u v d) :
    ((((if g then 0 ||| 2 else 0) ||| d.bits) &&& 2 ≠ 0) ↔ g = true) ∧
      ∀ d', LineBreak u v d' ↔ ((if g then 0 ||| 2 else 0) ||| d.bits) &&& 5 = d'.bits := by
  refine ⟨by cases g <;> cases d <;> decide, fun d' => ⟨fun h' => ?_, fun h' => ?_⟩⟩
  · rw [← h.unique h']
    cases g <;> cases d <;> rfl
  · obtain rfl : d = d' := by
      cases g <;> cases d <;> cases d' <;> first | rfl | (revert h'; decide)
    exact h

/-- The boundary at which a part of the text starts, between those before it and those behind. -/
theorem allBoundaries_split {u : List (Nat × Nat)} (hu : u ≠ []) (x : Nat × Nat) (xs : List (Nat × Nat)) : ∃ bs a b rest d,
    allBoundaries ucBreakProperty lunaUcType u = bs ++ [a] ∧
    allBoundaries ucBreakProperty lunaUcType (u ++ x :: xs) = (bs ++ [a]) ++ b :: rest ∧ b.pos = x.1 ∧
    b.gb = (chr ucBreakProperty lunaUcType x.2).gb ∧ b.pict = (chr ucBreakProperty lunaUcType x.2).pict ∧
    LineBreak (u.map fun x => chr ucBreakProperty lunaUcType x.2) ((x :: xs).map
      fun x => chr ucBreakProperty lunaUcType x.2) d ∧
    ucLine lunaUcType (allBoundaries ucBreakProperty lunaUcType (u ++ x :: xs) ++
      [sentinel (allBoundaries ucBreakProperty lunaUcType (u ++ x :: xs)).length]) u.length = some d.bits := by
  obtain ⟨s, a, hrow, hall⟩ := @exists_row ucBreakProperty lunaUcType _ hu
  obtain ⟨d, hd, hline⟩ := hrow.line x xs
  obtain ⟨-, hpos, -, hgb, hflags⟩ :=
    @following_fields ucBreakProperty lunaUcType a u.length x
  refine ⟨s, a, following ucBreakProperty lunaUcType a u.length x, _, d, by simpa [boundaries] using hall [],
    hall (x :: xs), hpos, hgb, ?_, hd, ?_⟩
  · rw [Boundary.pict, hflags]
    rfl
  · rw [allBoundaries_length, length_append, hall]
    exact hline

variable {ucBreakProperty lunaUcType}

theorem codePoints_ne_nil {x : List UInt16} (hx : x ≠ []) : codePoints 0 x ≠ [] := by
  obtain ⟨u, t, rfl⟩ := exists_cons_of_ne_nil hx
  obtain ⟨cp, cps, hcons⟩ := codePoints_cons 0 u t
  rw [hcons]
  exact cons_ne_nil _ _

theorem ucLine_some {xs : List (Nat × Nat)} {i : Nat} (hi : 0 < i) (hil : i < xs.length) : ∃ n,
    ucLine lunaUcType (allBoundaries ucBreakProperty lunaUcType xs ++
      [sentinel (allBoundaries ucBreakProperty lunaUcType xs).length]) i = some n := by
  have hsplit : xs = xs.take i ++ xs[i] :: xs.drop (i + 1) := by rw [← drop_eq_getElem_cons hil, take_append_drop]
  have htake : xs.take i ≠ [] := by
    intro h
    have := congrArg List.length h
    rw [length_take, length_nil] at this
    omega
  obtain ⟨_, _, _, _, d, -, -, -, -, -, -, hd⟩ := allBoundaries_split ucBreakProperty lunaUcType
    htake xs[i] (xs.drop (i + 1))
  rw [← hsplit, length_take, Nat.min_eq_left (Nat.le_of_lt hil)] at hd
  exact ⟨_, hd⟩

/-- The array for a text of which `bs` are the boundaries. -/
structure Stored (lunaUcType : Nat → Nat) (text : List UInt16) (bs : List Boundary) (breaks : List Nat) : Prop where
  length : breaks.length = text.length + 1
  start : breaks[0]? = some 2
  last : breaks[text.length]? = some 7
  inside : ∀ p, 0 < p → p < text.length → p ∉ bs.map (·.pos) → breaks[p]? = some 0
  between : ∀ left a b rest n, bs = (left ++ [a]) ++ b :: rest → 0 < b.pos → b.pos < text.length →
    ucLine lunaUcType (bs ++ [sentinel bs.length]) (left ++ [a]).length = some n →
    breaks[b.pos]? = some ((if ucGrapheme a b (epAfter (left ++ [a])) (riAfter (left ++ [a])) then 0 ||| 2 else 0) ||| n)

theorem breaks_stored {text : List UInt16} (hlen : text.length ≤ 0x7fffffff) (hne : text ≠ []) :
    ∃ breaks, lunaUcBreaksUtf16 ucBreakProperty lunaUcType text = some breaks ∧
      Stored lunaUcType text (allBoundaries ucBreakProperty lunaUcType (codePoints 0 text)) breaks := by
  set bs := allBoundaries ucBreakProperty lunaUcType (codePoints 0 text) with hbs
  have hpositions : bs.map (·.pos) = (codePoints 0 text).map Prod.fst := allBoundaries_pos ucBreakProperty lunaUcType _
  have hpos := length_pos_iff.2 hne
  obtain ⟨hbound, hsorted⟩ := codePoints_pos 0 text
  have hinit : ((replicate (text.length + 1) 0).set 0 2).length = text.length + 1 := by simp
  obtain ⟨breaks, hmark, hblen, hother, hplaces⟩ := @mark_spec lunaUcType (bs ++ [sentinel bs.length]) bs []
    ((replicate (text.length + 1) 0).set 0 2) rfl
    (fun i hi hil => ucLine_some hi (by rwa [nil_append, allBoundaries_length] at hil)) (fun b hb => by
      have hmem : b.pos ∈ bs.map Boundary.pos := List.mem_map_of_mem hb
      obtain ⟨z, hz, hzb⟩ := List.mem_map.1 (hpositions ▸ hmem)
      have := (hbound z hz).2
      rw [hinit, ← hzb]
      omega) (by rw [hpositions]; exact hsorted)
  rw [hinit] at hblen
  have hzero : ∀ p, 0 < p → p < text.length → ((replicate (text.length + 1) 0).set 0 2)[p]? = some 0 := by
    intro p hp hpl
    rw [getElem?_set_ne (by omega), getElem?_replicate, if_pos (by omega)]
  refine ⟨breaks.set text.length 7, ?_, ⟨by simpa using hblen, ?_, by simp [hblen], ?_, ?_⟩⟩
  · rw [lunaUcBreaksUtf16, if_neg (by omega), fill_eq, ← hbs, bind_eq_bind, bind_some]
    simp only [bind_eq_bind]
    rw [show mark lunaUcType (bs ++ [sentinel bs.length]) 0 0 0 bs _ = some breaks from hmark]
    rfl
  · obtain ⟨u, t, rfl⟩ := exists_cons_of_ne_nil hne
    obtain ⟨cp, cps, hcons⟩ := codePoints_cons 0 u t
    obtain ⟨b, rest, hb, hbpos⟩ : ∃ b rest, bs = b :: rest ∧ b.pos = 0 := by
      rw [hbs, hcons]
      exact ⟨_, _, rfl, rfl⟩
    have hkeep := (hplaces [] b rest hb).1 rfl
    rw [hbpos] at hkeep
    rw [getElem?_set_ne (by omega), hkeep]
    rfl
  · intro p hp hpl hnot
    rw [getElem?_set_ne (by omega), hother p hnot, hzero p hp hpl]
  · intro left a b rest n hsplit hb hbl hline
    rw [getElem?_set_ne (by omega)]
    exact (hplaces (left ++ [a]) b rest hsplit).2 left a n 0 rfl hline (hzero b.pos hb hbl)

/-- The test of the loop says what the rules say of the characters at both sides. -/
theorem ucGrapheme_iff (hzwj : ∀ cp, (ucBreakProperty cp).gb = .zwj → (ucBreakProperty cp).flags &&& 1 = 0)
    {x y : List UInt16} {p cp : Nat} {cps : List (Nat × Nat)} {left : List Boundary} {a b : Boundary} (hx : x ≠ [])
    (hleft : allBoundaries ucBreakProperty lunaUcType (codePoints 0 x) = left ++ [a])
    (hcons : codePoints p y = (p, cp) :: cps)
    (hgb : b.gb = (chr ucBreakProperty lunaUcType cp).gb) (hpict : b.pict = (chr ucBreakProperty lunaUcType cp).pict) :
    ucGrapheme a b (epAfter (left ++ [a])) (riAfter (left ++ [a])) = true ↔
      GraphemeBreak (characters ucBreakProperty lunaUcType x) (characters ucBreakProperty lunaUcType y) := by
  have hshows := allBoundaries_shows ucBreakProperty lunaUcType (codePoints 0 x)
  rw [hleft] at hshows
  rcases eq_nil_or_concat (characters ucBreakProperty lunaUcType x) with hnil | ⟨cs, c, hcs⟩
  · exact absurd (map_eq_nil_iff.1 hnil) (codePoints_ne_nil hx)
  have hjoiner : ∀ e ∈ cs ++ [c], e.gb = .zwj → e.pict = false := by
    intro e he hz
    rw [← concat_eq_append, ← hcs] at he
    obtain ⟨z, -, rfl⟩ := List.mem_map.1 he
    simp only [chr, decide_eq_false_iff_not, not_not]
    exact hzwj z.2 hz
  rw [← characters_eq ucBreakProperty lunaUcType p y, hcons, map_cons]
  rw [concat_eq_append] at hcs
  rw [hcs]
  refine grapheme_iff hjoiner ?_ ⟨hgb, hpict⟩
  rw [← hcs]
  exact hshows

/-- A text that is not empty has the grapheme bit at the boundaries of the Unicode rules, the line bits of these rules at
    each place inside it, and nothing inside a surrogate pair. Reading stays inside the array. -/
theorem breaks_follow_unicode (hzwj : ∀ cp, (ucBreakProperty cp).gb = .zwj → (ucBreakProperty cp).flags &&& 1 = 0)
    {text : List UInt16} (hlen : text.length ≤ 0x7fffffff) (hne : text ≠ []) :
    ∃ breaks, lunaUcBreaksUtf16 ucBreakProperty lunaUcType text = some breaks ∧ breaks.length = text.length + 1 ∧
      ∀ x y, text = x ++ y →
        (SplitsPair x y → breaks[x.length]? = some 0) ∧
        (¬ SplitsPair x y → ∃ n, breaks[x.length]? = some n ∧
          (n &&& 2 ≠ 0 ↔ GraphemeBreak (characters ucBreakProperty lunaUcType x)
            (characters ucBreakProperty lunaUcType y)) ∧
          (x ≠ [] → y ≠ [] → ∀ d, LineBreak (characters ucBreakProperty lunaUcType x)
            (characters ucBreakProperty lunaUcType y) d ↔ n &&& 5 = d.bits)) := by
  obtain ⟨breaks, hbreaks, hstored⟩ := @breaks_stored ucBreakProperty lunaUcType text hlen hne
  have hpositions := allBoundaries_pos ucBreakProperty lunaUcType (codePoints 0 text)
  have htext : characters ucBreakProperty lunaUcType text ≠ [] := fun h => codePoints_ne_nil hne (map_eq_nil_iff.1 h)
  refine ⟨breaks, hbreaks, hstored.length, fun x y hxy => ?_⟩
  have htl : text.length = x.length + y.length := by rw [hxy, length_append]
  refine ⟨fun hsplit => ?_, fun hno => ?_⟩
  · -- inside a pair
    have hnot := not_starts hsplit
    rw [← hxy, ← hpositions] at hnot
    obtain ⟨h, l, hh, hl, -⟩ := hsplit
    have hxl : 0 < x.length := length_pos_iff.2 (by rintro rfl; cases hh)
    have hyl : 0 < y.length := length_pos_iff.2 (by rintro rfl; cases hl)
    exact hstored.inside _ hxl (by omega) hnot
  rcases eq_nil_or_concat y with rfl | ⟨y', l, hy⟩
  · -- the end
    rw [append_nil] at hxy
    subst hxy
    refine ⟨7, hstored.last, ⟨fun _ => .inl ⟨.inr rfl, ?_⟩, fun _ => by decide⟩, fun _ h => absurd rfl h⟩
    rw [show characters ucBreakProperty lunaUcType [] = [] from rfl, append_nil]
    exact htext
  by_cases hx : x = []
  · -- the start
    subst hx
    refine ⟨2, hstored.start, ⟨fun _ => .inl ⟨.inl rfl, ?_⟩, fun _ => by decide⟩, fun h => absurd rfl h⟩
    rw [show characters ucBreakProperty lunaUcType [] = [] from rfl, nil_append]
    rwa [← show text = y from hxy]
  · -- between two characters
    have hyne : y ≠ [] := by simp [hy]
    have hxl := length_pos_iff.2 hx
    have hyl := length_pos_iff.2 hyne
    obtain ⟨m, y'', rfl⟩ := exists_cons_of_ne_nil hyne
    obtain ⟨cp, cps, hcons⟩ := codePoints_cons (0 + x.length) m y''
    have hall : codePoints 0 text = codePoints 0 x ++
      (0 + x.length, cp) :: cps := by rw [hxy, codePoints_append _ _ _ hno, hcons]
    obtain ⟨bs, a, b, rest, d, hleft, hsplit, hbpos, hgb, hpict, hline, hbits⟩ :=
      allBoundaries_split ucBreakProperty lunaUcType (codePoints_ne_nil hx) (0 + x.length, cp) cps
    rw [← hall] at hsplit hbits
    rw [← hcons, characters_eq, characters_eq] at hline
    rw [← allBoundaries_length ucBreakProperty lunaUcType, hleft] at hbits
    have hbpos : b.pos = x.length := hbpos.trans (Nat.zero_add _)
    have hplace := hstored.between bs a b rest d.bits hsplit (hbpos ▸ hxl) (by omega) hbits
    rw [hbpos] at hplace
    obtain ⟨hgrapheme, hlines⟩ := bits_spec (ucGrapheme a b (epAfter (bs ++ [a])) (riAfter (bs ++ [a]))) hline
    exact ⟨_, hplace, hgrapheme.trans (ucGrapheme_iff hzwj hx hleft hcons hgb hpict), fun _ _ => hlines⟩

/-- The properties of `a`, the space, the combining acute accent and the joiner; all else is unknown. -/
def latin (cp : Nat) : Property :=
  if cp = 0x61 then ⟨.al, .other, 0⟩
  else if cp = 0x20 then ⟨.sp, .other, 0⟩
  else if cp = 0x301 then ⟨.cm, .extend, 0⟩
  else if cp = 0x200d then ⟨.zwj, .zwj, 0⟩
  else ⟨.xx, .other, 0⟩

/-- The types of these. -/
def latinType (cp : Nat) : Nat := if cp = 0x61 then 2 else if cp = 0x20 then 12 else if cp = 0x301 then 6 else 0

theorem latin_zwj (cp : Nat) : (latin cp).gb = .zwj → (latin cp).flags &&& 1 = 0 := by
  unfold latin
  split_ifs <;> simp

/-- An accented letter stays whole, and a line may break after the space. -/
theorem breaks_follow_unicode_latin :
    lunaUcBreaksUtf16 latin latinType [0x61, 0x301, 0x20, 0x61] = some [2, 0, 2, 3, 7] ∧
      ¬ GraphemeBreak (characters latin latinType [0x61]) (characters latin latinType [0x301, 0x20, 0x61]) ∧
      LineBreak (characters latin latinType [0x61, 0x301, 0x20]) (characters latin latinType [0x61]) .allowed := by
  have hbreaks : lunaUcBreaksUtf16 latin latinType [0x61, 0x301, 0x20, 0x61] = some [2, 0, 2, 3, 7] := by decide +kernel
  obtain ⟨breaks, h, -, hplaces⟩ := @breaks_follow_unicode latin latinType latin_zwj [0x61, 0x301, 0x20, 0x61]
    (by decide) (by decide)
  cases hbreaks.symm.trans h
  have hpair : ∀ x y : List UInt16, x.all (fun u => !decide (IsHigh u)) = true → ¬ SplitsPair x y := by
    rintro x y hx ⟨u, l, hu, -, hhigh, -⟩
    simpa [hhigh] using List.all_eq_true.1 hx u (mem_of_getLast? hu)
  refine ⟨hbreaks, fun hbreak => ?_, ?_⟩
  · obtain ⟨n, hn, hgrapheme, -⟩ := (hplaces [0x61] [0x301, 0x20, 0x61] rfl).2 (hpair _ _ rfl)
    cases hn
    exact absurd (hgrapheme.2 hbreak) (by decide)
  · obtain ⟨n, hn, -, hlines⟩ := (hplaces [0x61, 0x301, 0x20] [0x61] rfl).2 (hpair _ _ rfl)
    cases hn
    exact (hlines (by decide) (by decide) .allowed).2 (by decide)

/-- The empty text has no boundary by the rules, but its end is marked. -/
theorem empty_text_marked : lunaUcBreaksUtf16 latin latinType [] = some [7] ∧ 7 &&& 2 ≠ 0 ∧
    ¬ GraphemeBreak (characters latin latinType []) (characters latin latinType []) := by
  refine ⟨rfl, by decide, ?_⟩
  rintro (⟨-, h⟩ | ⟨h, -, -⟩)
  · exact h rfl
  · exact h rfl

end Text

end Lunaria.Breaks
