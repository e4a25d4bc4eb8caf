import Mathlib.Data.List.Forall2
import Lunaria.Idn.Convert

/-! The ASCII form of a name under the rules of STD3: what its labels look like, and that it is its own ASCII form and
    that of its Unicode form. -/

namespace Lunaria.Idn
open Bootstring List Option
open CText (toLower)

/-! ### Labels of letters, digits and dashes -/

/-- A label under the rules of STD3. -/
structure Ldh (l : List UInt8) : Prop where
  chars : ∀ c ∈ l, isLdh c.toNat = true
  nonempty : l ≠ []
  short : l.length ≤ 63
  first : l.head? ≠ some dash
  last : l.getLast? ≠ some dash

theorem isLdh_bounds {c : Nat} (h : isLdh c = true) : 0 < c ∧ c < 0x80 ∧ c ≠ 0x2e := by
  simp only [isLdh, Bool.or_eq_true, Bool.and_eq_true, decide_eq_true_eq] at h
  omega

theorem Ldh.ascii {l : List UInt8} (h : Ldh l) : ∀ c ∈ l, c < 0x80 := fun c hc =>
  UInt8.lt_iff_toNat_lt.2 (isLdh_bounds (h.chars c hc)).2.1

theorem Ldh.nonul {l : List UInt8} (h : Ldh l) : 0 ∉ l := fun hc => Nat.lt_irrefl 0 (isLdh_bounds (h.chars 0 hc)).1

theorem Ldh.nodot {l : List UInt8} (h : Ldh l) : dot ∉ l := fun hc => (isLdh_bounds (h.chars dot hc)).2.2 rfl

section
variable {t : PrepTables} {flags : UInt32}

theorem labelAscii_fixed {l : List UInt8} (h : Ldh l) : labelAscii t flags l = some l := by
  have hwide : (l.map (·.toNat)).any isWide = false := by
    rw [List.any_eq_false]
    intro p hp
    obtain ⟨c, hc, rfl⟩ := List.mem_map.1 hp
    simpa [isWide] using (isLdh_bounds (h.chars c hc)).2.1
  have hchars : ¬(flags &&& 2 ≠ 0 ∧ (l.map (·.toNat)).any (fun c => !isWide c && !isLdh c) = true) := by
    rintro ⟨-, hany⟩
    obtain ⟨p, hp, hbad⟩ := List.any_eq_true.1 hany
    obtain ⟨c, hc, rfl⟩ := List.mem_map.1 hp
    rw [h.chars c hc, Bool.not_true, Bool.and_false] at hbad
    cases hbad
  have hends : ¬(flags &&& 2 ≠ 0 ∧ ((l.map (·.toNat)).head? = some 0x2d ∨ (l.map (·.toNat)).getLast? = some 0x2d)) := by
    rintro ⟨-, hfirst | hlast⟩
    · rw [head?_map] at hfirst
      obtain ⟨c, hc, heq⟩ := map_eq_some_iff.1 hfirst
      exact h.first (hc.trans (congrArg some (UInt8.toNat_inj.1 heq)))
    · rw [getLast?_map] at hlast
      obtain ⟨c, hc, heq⟩ := map_eq_some_iff.1 hlast
      exact h.last (hc.trans (congrArg some (UInt8.toNat_inj.1 heq)))
  have hbytes : (encode (l.map (·.toNat))).bytes = l := by
    rw [encode, encodeUtf8_ascii h.ascii, strdup_bytes h.nonul]
  have hpos := length_pos_iff.2 h.nonempty
  have hshort := h.short
  rw [labelAscii, decodeUtf8_ascii h.ascii, bind_eq_bind, bind_some, if_neg (by simpa using h.nonempty), hwide]
  simp only [Bool.false_eq_true, if_false, bind_eq_bind, bind_some]
  rw [if_neg hchars, if_neg hends, hwide]
  simp only [Bool.false_eq_true, if_false, bind_some]
  rw [hbytes, if_neg (by omega)]

theorem nameprep_some {v v' : List Nat} (h : nameprep t flags v = some v') : ∀ p ∈ v', p ≤ uint32Max := by
  rw [nameprep] at h
  dsimp only at h
  iterate 3 obtain ⟨-, h⟩ := ite_none_left_eq_some.1 h
  intro p hp
  rw [← some.inj h] at hp
  obtain ⟨x, -, rfl⟩ := List.mem_map.1 hp
  exact Nat.le_of_lt_succ x.toNat_lt

/-- What a label's ASCII form is made of: points that are letters, digits and dashes as far as they are ASCII. -/
theorem labelAscii_some {l r : List UInt8} (hstd : flags &&& 2 ≠ 0) (h : labelAscii t flags l = some r) : ∃ v e,
    (∀ c ∈ v, isWide c = false → isLdh c = true) ∧ v.head? ≠ some 0x2d ∧ v.getLast? ≠ some 0x2d ∧ r = e.bytes ∧
      1 ≤ r.length ∧ r.length ≤ 63 ∧
      (((∀ p ∈ v, p ≤ uint32Max) ∧ v.any isWide = true ∧ punyEncode v = some e) ∨
        (v.any isWide = false ∧ e = encode v)) := by
  rw [labelAscii] at h
  obtain ⟨v₀, -, h⟩ := bind_eq_some_iff.1 h
  obtain ⟨-, h⟩ := ite_none_left_eq_some.1 h
  obtain ⟨v, hprep, h⟩ := bind_eq_some_iff.1 h
  obtain ⟨hchars, h⟩ := ite_none_left_eq_some.1 h
  obtain ⟨hends, h⟩ := ite_none_left_eq_some.1 h
  obtain ⟨e, hform, h⟩ := bind_eq_some_iff.1 h
  obtain ⟨hlen, h⟩ := ite_none_left_eq_some.1 h
  cases h
  rw [not_or, Nat.not_lt, Nat.not_lt] at hlen
  have hnot : ¬(v.head? = some 0x2d ∨ v.getLast? = some 0x2d) := fun hor => hends ⟨hstd, hor⟩
  rw [not_or] at hnot
  refine ⟨v, e, fun c hc hnarrow => ?_, hnot.1, hnot.2, rfl, hlen.1, hlen.2, ?_⟩
  · by_contra hbad
    refine hchars ⟨hstd, List.any_eq_true.2 ⟨c, hc, ?_⟩⟩
    rw [hnarrow, Bool.eq_false_iff.2 hbad]
    rfl
  · cases hwide : v.any isWide with
    | false =>
      rw [hwide, if_neg Bool.false_ne_true] at hform
      exact .inr ⟨rfl, (some.inj hform).symm⟩
    | true =>
      rw [hwide, if_pos rfl] at hform
      obtain ⟨-, hform⟩ := ite_none_left_eq_some.1 hform
      refine .inl ⟨?_, rfl, hform⟩
      cases hwide₀ : v₀.any isWide with
      | true =>
        rw [hwide₀, if_pos rfl] at hprep
        exact nameprep_some hprep
      | false =>
        rw [hwide₀, if_neg Bool.false_ne_true] at hprep
        rw [← some.inj hprep, hwide₀] at hwide
        cases hwide

theorem isLdh_digit {d : Nat} (h : d < 36) : isLdh (digit d).toNat = true := by
  have hall : ∀ d : Fin 36, isLdh (digit d.1).toNat = true := by decide
  exact hall ⟨d, h⟩

/-- The form of ASCII points is a label if these are letters, digits and dashes. -/
theorem ldh_encode {v : List Nat} (hchars : ∀ c ∈ v, isWide c = false → isLdh c = true) (hfirst : v.head? ≠ some 0x2d)
    (hlast : v.getLast? ≠ some 0x2d) (hnarrow : v.any isWide = false) (hpos : 1 ≤ (encode v).bytes.length)
    (hshort : (encode v).bytes.length ≤ 63) : Ldh (encode v).bytes := by
  have hldh : ∀ c ∈ v, isLdh c = true := fun c hc => hchars c hc (Bool.eq_false_iff.2 (List.any_eq_false.1 hnarrow c hc))
  have htoNat : ∀ c ∈ v, (UInt8.ofNat c).toNat = c := fun c hc =>
    UInt8.toNat_ofNat_of_lt (Nat.lt_trans (isLdh_bounds (hldh c hc)).2.1 (by decide))
  have hbytes : (encode v).bytes = v.map UInt8.ofNat := by
    have hmap : (v.map UInt8.ofNat).map (·.toNat) = v := by
      rw [List.map_map]
      exact (map_congr_left htoNat).trans (List.map_id v)
    have hascii : ∀ b ∈ v.map UInt8.ofNat, b < 0x80 := fun b hb => by
      obtain ⟨c, hc, rfl⟩ := List.mem_map.1 hb
      rw [UInt8.lt_iff_toNat_lt, htoNat c hc]
      exact (isLdh_bounds (hldh c hc)).2.1
    conv_lhs => rw [← hmap, encode, encodeUtf8_ascii hascii]
    refine strdup_bytes fun hmem => ?_
    obtain ⟨c, hc, heq⟩ := List.mem_map.1 hmem
    have hzero := htoNat c hc
    rw [heq] at hzero
    exact absurd (isLdh_bounds (hldh c hc)).1 (by rw [← hzero]; decide)
  rw [hbytes] at hpos hshort ⊢
  refine ⟨fun b hb => ?_, ne_nil_of_length_pos hpos, hshort, fun hhead => ?_, fun hend => ?_⟩
  · obtain ⟨c, hc, rfl⟩ := List.mem_map.1 hb
    rw [htoNat c hc]
    exact hldh c hc
  · rw [head?_map] at hhead
    obtain ⟨c, hc, heq⟩ := map_eq_some_iff.1 hhead
    have hcp := htoNat c (mem_of_head? hc)
    rw [heq] at hcp
    exact hfirst (hc.trans (congrArg some hcp.symm))
  · rw [getLast?_map] at hend
    obtain ⟨c, hc, heq⟩ := map_eq_some_iff.1 hend
    have hcp := htoNat c (mem_of_getLast? hc)
    rw [heq] at hcp
    exact hlast (hc.trans (congrArg some hcp.symm))

/-- The code of points that are not all ASCII is a label, and ends with a digit of the last distance. -/
theorem ldh_punyEncode {v : List Nat} {e : CString} (hchars : ∀ c ∈ v, isWide c = false → isLdh c = true)
    (hbound : ∀ p ∈ v, p ≤ uint32Max) (hwide : v.any isWide = true) (henc : punyEncode v = some e) : Ldh e.bytes := by
  have hnul : 0 ∉ v := fun hmem => absurd (isLdh_bounds (hchars 0 hmem rfl)).1 (Nat.lt_irrefl 0)
  obtain ⟨ds, hbytes, hlen, hrun⟩ := punyEncode_some hbound hnul henc
  have hcodes : codes (start v).list.length 72 (start v).list.length ds ≠ [] := by
    have hds : ds ≠ [] := by
      rintro rfl
      obtain ⟨c, hc, hcw⟩ := List.any_eq_true.1 hwide
      rw [← hrun, Build.run_nil] at hc
      have hlt := of_decide_eq_true (mem_filter.1 hc).2
      simp only [isWide, decide_eq_true_eq] at hcw
      omega
    have hle := @length_le_codes (start v).list.length ds 72 (start v).list.length
    exact ne_nil_of_length_pos (Nat.lt_of_lt_of_le (length_pos_iff.2 hds) hle)
  rw [hbytes] at hlen ⊢
  refine ⟨fun c hc => ?_, by simp [xn], hlen, by simp [xn, dash], fun hend => ?_⟩
  · rcases mem_append.1 hc with hc | hc
    · rcases mem_append.1 hc with hc | hc
      · simp only [xn, dash, mem_cons, not_mem_nil, or_false] at hc
        rcases hc with rfl | rfl | rfl | rfl <;> decide
      · rcases mem_front hc with hc | rfl
        · obtain ⟨hlt, hmem⟩ := mem_ascii hc
          refine hchars _ hmem (Bool.eq_false_iff.2 fun hw => ?_)
          have hlt' := UInt8.lt_iff_toNat_lt.1 hlt
          simp only [isWide, decide_eq_true_eq] at hw
          exact Nat.not_le.2 hlt' hw
        · decide
    · obtain ⟨d, hd, rfl⟩ := mem_codes_digit hc
      exact isLdh_digit hd
  · rw [getLast?_append_of_ne_nil _ hcodes] at hend
    exact (mem_codes (mem_of_getLast? hend)).1 rfl

theorem labelAscii_ldh {l r : List UInt8} (hstd : flags &&& 2 ≠ 0) (h : labelAscii t flags l = some r) : Ldh r := by
  obtain ⟨v, e, hchars, hfirst, hlast, rfl, hpos, hshort, ⟨hbound, hwide, henc⟩ | ⟨hnarrow, rfl⟩⟩ := labelAscii_some hstd h
  · exact ldh_punyEncode hchars hbound hwide henc
  · exact ldh_encode hchars hfirst hlast hnarrow hpos hshort

end

/-! ### Labels between dots -/

/-- Labels with a separator between each two, and after the last one if told so. -/
def dotted {α : Type} (sep : α) (closed : Bool) : List (List α) → List α
  | [] => []
  | [l] => if closed then l ++ [sep] else l
  | l :: l' :: ls => l ++ sep :: dotted sep closed (l' :: ls)

attribute [local simp] dotted

section
variable {α β : Type} {sep : α} {closed : Bool}

theorem mem_dotted {c : α} : ∀ {ls : List (List α)}, c ∈ dotted sep closed ls → c = sep ∨ ∃ l ∈ ls, c ∈ l
  | [], h => by cases h
  | [l], h => by
    rw [dotted] at h
    split at h
    · rcases mem_append.1 h with h | h
      · exact .inr ⟨l, mem_cons_self, h⟩
      · exact .inl (mem_singleton.1 h)
    · exact .inr ⟨l, mem_cons_self, h⟩
  | l :: l' :: ls, h => by
    rw [dotted] at h
    rcases mem_append.1 h with h | h
    · exact .inr ⟨l, mem_cons_self, h⟩
    · rcases mem_cons.1 h with rfl | h
      · exact .inl rfl
      · rcases mem_dotted h with h | ⟨l₁, hl₁, hc⟩
        · exact .inl h
        · exact .inr ⟨l₁, mem_cons_of_mem l hl₁, hc⟩

theorem dotted_ne_nil : ∀ {ls : List (List α)}, ls ≠ [] → (closed = false → ls.getLast? ≠ some []) →
    dotted sep closed ls ≠ []
  | [], h, _ => absurd rfl h
  | [l], _, hlast => by
    rw [dotted]
    split
    · exact append_ne_nil_of_right_ne_nil l (cons_ne_nil sep [])
    · rename_i hopen
      rintro rfl
      exact hlast (Bool.eq_false_iff.2 hopen) rfl
  | l :: l' :: ls, _, _ => by
    rw [dotted]
    exact append_ne_nil_of_right_ne_nil l (cons_ne_nil _ _)

theorem dotted_head {l : List α} {ls : List (List α)} (hl : l ≠ []) : (dotted sep closed (l :: ls)).head? = l.head? := by
  obtain ⟨c, l, rfl⟩ := exists_cons_of_ne_nil hl
  cases ls with
  | nil =>
    rw [dotted]
    split <;> rfl
  | cons l' ls => rfl

theorem length_dotted : ∀ ls : List (List α), ls.length ≤ (dotted sep closed ls).length + 1
  | [] => Nat.zero_le 1
  | [l] => Nat.le_add_left 1 _
  | l :: l' :: ls => by
    have hrest := length_dotted (l' :: ls)
    rw [dotted, length_append, length_cons, @length_cons _ sep]
    omega

/-- A homomorphism goes through to the labels. -/
theorem flatMap_dotted (f : α → List β) {sep' : β} (hsep : f sep = [sep']) : ∀ ls : List (List α),
    (dotted sep closed ls).flatMap f = dotted sep' closed (ls.map fun l => l.flatMap f)
  | [] => rfl
  | [l] => by
    rw [dotted, map_cons, map_nil, dotted]
    split
    · rw [flatMap_append, flatMap_singleton, hsep]
    · rfl
  | l :: l' :: ls => by
    have hrest := flatMap_dotted f hsep (l' :: ls)
    rw [map_cons] at hrest
    rw [dotted, flatMap_append, flatMap_cons, hsep, hrest, map_cons, map_cons, dotted]
    rfl

theorem map_dotted (f : α → β) (ls : List (List α)) :
    (dotted sep closed ls).map f = dotted (f sep) closed (ls.map (List.map f)) := by
  have h := @flatMap_dotted _ _ sep closed (fun c => [f c]) (f sep) rfl ls
  simpa only [flatMap_singleton', ← map_eq_flatMap] using h

/-- Every text but the empty one is labels between separators, in which an empty last label is not written. -/
theorem exists_dotted [DecidableEq α] (sep : α) (s : List α) (hs : s ≠ []) :
    ∃ closed ls, ls ≠ [] ∧ s = dotted sep closed ls ∧ (∀ l ∈ ls, sep ∉ l) ∧ (closed = false → ls.getLast? ≠ some []) := by
  induction hn : s.length using Nat.strong_induction_on generalizing s with
  | _ n ih =>
    by_cases hmem : sep ∈ s
    · obtain ⟨l, rest, rfl, hl⟩ := eq_append_cons_of_mem hmem
      by_cases hrest : rest = []
      · subst hrest
        exact ⟨true, [l], cons_ne_nil _ _, rfl, fun l' hl' => by rwa [mem_singleton.1 hl'], fun h => by cases h⟩
      · obtain ⟨closed, ls, hne, rfl, hfree, hlast⟩ := ih rest.length (by
          rw [← hn, length_append, length_cons]
          omega) rest hrest rfl
        obtain ⟨l', ls, rfl⟩ := exists_cons_of_ne_nil hne
        refine ⟨closed, l :: l' :: ls, cons_ne_nil _ _, rfl, fun l₁ hl₁ => ?_, fun hopen => ?_⟩
        · rcases mem_cons.1 hl₁ with rfl | hl₁
          · exact hl
          · exact hfree l₁ hl₁
        · rw [getLast?_cons_cons]
          exact hlast hopen
    · exact ⟨false, [s], cons_ne_nil _ _, rfl, fun l hl => by rwa [mem_singleton.1 hl], fun _ h =>
        hs (some.inj h)⟩

end

theorem takeWhile_label {l : List UInt8} (h : dot ∉ l) (s : List UInt8) : (l ++ dot :: s).takeWhile (· ≠ dot) = l := by
  have hne : ∀ c ∈ l, decide (c ≠ dot) = true := fun c hc => decide_eq_true fun heq => h (heq ▸ hc)
  rw [takeWhile_append_of_pos hne, takeWhile_cons_of_neg (by decide), append_nil]

theorem dropWhile_label {l : List UInt8} (h : dot ∉ l) (s : List UInt8) :
    (l ++ dot :: s).dropWhile (· ≠ dot) = dot :: s := by
  have hne : ∀ c ∈ l, decide (c ≠ dot) = true := fun c hc => decide_eq_true fun heq => h (heq ▸ hc)
  rw [dropWhile_append_of_pos hne, dropWhile_cons_of_neg (by decide)]

/-- The loop converts the labels one by one. -/
theorem convertFrom_dotted {f : List UInt8 → Option (List UInt8)} {closed : Bool} :
    ∀ {fuel : Nat} {ls : List (List UInt8)} {r : List UInt8},
    ls ≠ [] → ls.length ≤ fuel → (∀ l ∈ ls, dot ∉ l) → (closed = false → ls.getLast? ≠ some []) →
    (convertFrom f fuel (dotted dot closed ls) = some r ↔
      ∃ ls', Forall₂ (fun l l' => f l = some l') ls ls' ∧ r = dotted dot closed ls')
  | _, [], _, h, _, _, _ => absurd rfl h
  | 0, _ :: _, _, _, h, _, _ => absurd h (Nat.not_succ_le_zero _)
  | fuel + 1, [l], r, _, _, hfree, hlast => by
    have hl := hfree l mem_cons_self
    have hone : ∀ ls', Forall₂ (fun l l' => f l = some l') [l] ls' ↔ ∃ l', f l = some l' ∧ ls' = [l'] := fun ls' => by
      constructor
      · rintro (_ | ⟨h, ⟨⟩⟩)
        exact ⟨_, h, rfl⟩
      · rintro ⟨l', h, rfl⟩
        exact .cons h .nil
    have hsome : convertFrom f (fuel + 1) (dotted dot closed [l]) = (f l).map fun l' => dotted dot closed [l'] := by
      cases closed with
      | true =>
        rw [dotted, if_pos rfl, convertFrom, takeWhile_label hl, dropWhile_label hl]
        cases f l <;> rfl
      | false =>
        have hne : ∀ c ∈ l, decide (c ≠ dot) = true := fun c hc => decide_eq_true fun heq => hl (heq ▸ hc)
        rw [dotted, if_neg Bool.false_ne_true, convertFrom, takeWhile_eq_self_iff.2 hne, dropWhile_eq_nil_iff.2 hne]
        cases f l <;> rfl
    rw [hsome, map_eq_some_iff]
    constructor
    · rintro ⟨l', h, rfl⟩
      exact ⟨[l'], (hone _).2 ⟨l', h, rfl⟩, rfl⟩
    · rintro ⟨ls', h, rfl⟩
      obtain ⟨l', hl', rfl⟩ := (hone _).1 h
      exact ⟨l', hl', rfl⟩
  | fuel + 1, l :: l' :: ls, r, _, hfuel, hfree, hlast => by
    have hl := hfree l mem_cons_self
    have hrest : dotted dot closed (l' :: ls) ≠ [] := dotted_ne_nil (cons_ne_nil _ _) fun hopen => by
      have := hlast hopen
      rwa [getLast?_cons_cons] at this
    have ih := fun r => @convertFrom_dotted f closed fuel (l' :: ls) r (cons_ne_nil _ _) (Nat.le_of_succ_le_succ hfuel)
      (fun l₁ hl₁ => hfree l₁ (mem_cons_of_mem l hl₁)) fun hopen => by
        have := hlast hopen
        rwa [getLast?_cons_cons] at this
    obtain ⟨b, s, hs⟩ := exists_cons_of_ne_nil hrest
    rw [dotted, convertFrom, takeWhile_label hl, dropWhile_label hl, hs]
    dsimp only
    rw [← hs]
    constructor
    · intro h
      obtain ⟨a, ha, h⟩ := bind_eq_some_iff.1 h
      obtain ⟨out, hout, h⟩ := bind_eq_some_iff.1 h
      obtain ⟨ls', hall, rfl⟩ := (ih out).1 hout
      cases h
      cases hall with
      | cons ha' htail => exact ⟨_, .cons ha (.cons ha' htail), rfl⟩
    · rintro ⟨ls', hall, rfl⟩
      cases hall with
      | cons ha hall =>
        cases hall with
        | cons ha' htail =>
          rw [ha, bind_eq_bind, bind_some, (ih _).2 ⟨_, .cons ha' htail, rfl⟩]
          rfl

/-! ### Names -/

/-- The empty name, the root, or labels under the rules of STD3 between dots, with or without a dot at the end. -/
def HostName (r : List UInt8) : Prop :=
  r = [] ∨ r = [dot] ∨ ∃ closed ls, ls ≠ [] ∧ (∀ l ∈ ls, Ldh l) ∧ r = dotted dot closed ls

section
variable {t : PrepTables} {flags : UInt32} {ls : List (List UInt8)} {closed : Bool}

theorem getLast_ldh (hls : ∀ l ∈ ls, Ldh l) : ls.getLast? ≠ some [] := fun h =>
  (hls [] (mem_of_getLast? h)).nonempty rfl

theorem dotted_nonul (hls : ∀ l ∈ ls, Ldh l) : 0 ∉ dotted dot closed ls := fun hmem => by
  rcases mem_dotted hmem with heq | ⟨l, hl, hc⟩
  · cases heq
  · exact (hls l hl).nonul hc

theorem HostName.ascii {r : List UInt8} (h : HostName r) : ∀ c ∈ r, c < 0x80 := by
  rcases h with rfl | rfl | ⟨closed, ls, -, hls, rfl⟩
  · exact nofun
  · exact fun c hc => by rw [mem_singleton.1 hc]; decide
  · intro c hc
    rcases mem_dotted hc with rfl | ⟨l, hl, hc⟩
    · decide
    · exact (hls l hl).ascii c hc

theorem forall₂_ldh (hstd : flags &&& 2 ≠ 0) : ∀ {ls ls' : List (List UInt8)},
    Forall₂ (fun l l' => labelAscii t flags l = some l') ls ls' → ∀ l' ∈ ls', Ldh l'
  | _, _, .nil => fun l' hl' => by cases hl'
  | _, _, .cons h hall => fun l' hl' => by
    rcases mem_cons.1 hl' with rfl | hl'
    · exact labelAscii_ldh hstd h
    · exact forall₂_ldh hstd hall l' hl'

theorem idnConvert_hostName {s r : CString} (hstd : flags &&& 2 ≠ 0) (h : idnConvert t flags true s = some r) :
    HostName r.bytes := by
  rw [idnConvert] at h
  obtain ⟨-, h⟩ := ite_none_left_eq_some.1 h
  by_cases hempty : s.bytes = []
  · rw [if_pos hempty] at h
    cases h
    exact .inl rfl
  rw [if_neg hempty] at h
  by_cases hroot : s.bytes ∈ roots
  · rw [if_pos hroot] at h
    cases h
    exact .inr (.inl rfl)
  rw [if_neg hroot] at h
  obtain ⟨all, -, h⟩ := bind_eq_some_iff.1 h
  dsimp only at h
  obtain ⟨out, hout, h⟩ := bind_eq_some_iff.1 h
  cases h
  generalize (encode (all.map fun p => if isSeparator p then 0x2e else p)).bytes = text at hout
  have htext : text ≠ [] := by
    rintro rfl
    cases hout
  obtain ⟨closed, ls, hne, rfl, hfree, hlast⟩ := exists_dotted dot text htext
  obtain ⟨ls', hall, rfl⟩ := (convertFrom_dotted hne (length_dotted ls) hfree hlast).1 hout
  simp only [if_true] at hall
  have hldh := forall₂_ldh hstd hall
  refine .inr (.inr ⟨closed, ls', fun hnil => ?_, hldh, strdup_bytes (dotted_nonul hldh)⟩)
  subst hnil
  cases hall
  exact hne rfl

theorem idnConvert_text {u : CString} {v : List Nat} {ascii : Bool} (hflags : flags &&& ~~~3 = 0)
    (hu : u.bytes = encodeUtf8 v)
    (hv : ∀ p ∈ v, p ≤ 0x10ffff) (hsep : ∀ p ∈ v, isSeparator p = false) (hempty : u.bytes ≠ []) (hroot : u.bytes ∉ roots) :
    idnConvert t flags ascii u =
      (convertFrom (fun p => if ascii then labelAscii t flags p else some (labelUnicode t flags p))
        (u.bytes.length + 1) u.bytes).map strdup := by
  have hmap : (v.map fun p => if isSeparator p then 0x2e else p) = v := by
    refine (map_congr_left fun p hp => ?_).trans (List.map_id v)
    rw [hsep p hp, if_neg Bool.false_ne_true]
    rfl
  have hbytes : (encode v).bytes = u.bytes := by
    rw [encode, ← hu]
    exact strdup_bytes u.nonul
  have hdecode : decodeUtf8 u.bytes = some v := by rw [hu, decodeUtf8_encodeUtf8 hv]
  rw [idnConvert, if_neg (not_not_intro hflags), if_neg hempty, if_neg hroot, hdecode, bind_eq_bind, bind_some, hmap]
  dsimp only
  rw [hbytes]
  cases convertFrom (fun p => if ascii then labelAscii t flags p else some (labelUnicode t flags p))
    (u.bytes.length + 1) u.bytes <;> rfl

theorem isSeparator_ascii {p : Nat} (h : p < 0x80) : isSeparator p = false := by
  simp only [isSeparator, Bool.or_eq_false_iff, decide_eq_false_iff_not]
  omega

theorem HostName.not_root (hne : ls ≠ []) (hls : ∀ l ∈ ls, Ldh l) :
    dotted dot closed ls ∉ roots := by
  obtain ⟨l, ls, rfl⟩ := exists_cons_of_ne_nil hne
  have hl := hls l mem_cons_self
  obtain ⟨c, rest, rfl⟩ := exists_cons_of_ne_nil hl.nonempty
  have hc := hl.chars c mem_cons_self
  intro hmem
  have hhead := @dotted_head _ dot closed (c :: rest) ls (cons_ne_nil c rest)
  simp only [roots, mem_cons, not_mem_nil, or_false] at hmem
  rcases hmem with h | h | h | h <;> rw [h] at hhead <;> obtain rfl := some.inj hhead <;> exact absurd hc (by decide)

theorem HostName.convert {ascii : Bool} {r : CString} (hflags : flags &&& ~~~3 = 0)
    (hne : ls ≠ []) (hls : ∀ l ∈ ls, Ldh l) (hr : r.bytes = dotted dot closed ls) {ls' : List (List UInt8)}
    (hall : Forall₂ (fun l l' => (if ascii then labelAscii t flags l else some (labelUnicode t flags l)) = some l') ls ls') :
    idnConvert t flags ascii r = some (strdup (dotted dot closed ls')) := by
  have hascii : ∀ c ∈ r.bytes, c < 0x80 := by
    rw [hr]
    exact HostName.ascii (.inr (.inr ⟨closed, ls, hne, hls, rfl⟩))
  have hpoints : ∀ p ∈ r.bytes.map (·.toNat), p < 0x80 := fun p hp => by
    obtain ⟨c, hc, rfl⟩ := List.mem_map.1 hp
    exact UInt8.lt_iff_toNat_lt.1 (hascii c hc)
  have hlast : closed = false → ls.getLast? ≠ some [] := fun _ => getLast_ldh hls
  rw [idnConvert_text hflags (encodeUtf8_ascii hascii).symm (fun p hp => Nat.le_trans (Nat.le_of_lt (hpoints p hp))
    (by decide)) (fun p hp => isSeparator_ascii (hpoints p hp)) (by rw [hr]; exact dotted_ne_nil hne hlast)
    (by rw [hr]; exact HostName.not_root hne hls), hr,
    (convertFrom_dotted hne (length_dotted ls) (fun l hl => (hls l hl).nodot) hlast).2 ⟨ls', hall, rfl⟩]
  rfl

/-! ### There and back -/

theorem punyDecode_points {s : CString} {v : List Nat} (h : punyDecode s = some v)
    (hs : ∀ c ∈ s.bytes, isLdh c.toNat = true) : ∀ p ∈ v, p ≤ 0x10ffff ∧ p ≠ 0 ∧ p ≠ 0x2e := by
  rw [punyDecode] at h
  cases hsplit : splitBasic s.bytes with
  | mk basic rest =>
    rw [hsplit] at h
    dsimp only at h
    obtain ⟨-, h⟩ := ite_none_left_eq_some.1 h
    have hbasic : ∀ c ∈ basic, c ∈ s.bytes := fun c hc => by
      rw [splitBasic] at hsplit
      split at hsplit
      · cases hsplit
        exact mem_of_mem_take hc
      · cases hsplit
        cases hc
    have hpoints : ∀ x ∈ basic.map (·.toNat), 0 < x ∧ x < 0x80 ∧ x ≠ 0x2e := fun x hx => by
      obtain ⟨c, hc, rfl⟩ := List.mem_map.1 hx
      exact isLdh_bounds (hs c (hbasic c hc))
    have hscalar : ∀ x ∈ basic.map (·.toNat), Scalar x := fun x hx => by
      obtain ⟨-, hlt, -⟩ := hpoints x hx
      exact ⟨by omega, by omega⟩
    obtain ⟨ds, hrun, -, hall⟩ := decodeLoop_some (b := ⟨basic.map (·.toNat), 128, 0⟩) (iff_of_true rfl rfl) le_rfl h
    intro p hp
    refine ⟨(hall hscalar p hp).1, ?_⟩
    rw [← hrun] at hp
    rcases mem_run_inserted ds hp with hp | hp
    · obtain ⟨hpos, -, hdot⟩ := hpoints p hp
      exact ⟨Nat.ne_of_gt hpos, hdot⟩
    · dsimp only at hp
      exact ⟨by omega, by omega⟩

/-- A label's Unicode form is a text of points without dots, and the ASCII form of that is the label, up to case. -/
theorem labelUnicode_spec {l : List UInt8} (h : Ldh l) : ∃ v check, labelUnicode t flags l = encodeUtf8 v ∧ v ≠ [] ∧
    (∀ p ∈ v, p ≤ 0x10ffff ∧ p ≠ 0 ∧ p ≠ 0x2e) ∧ labelAscii t flags (encodeUtf8 v) = some check ∧
      check.map toLower = l.map toLower := by
  have hself : ∃ v check, l = encodeUtf8 v ∧ v ≠ [] ∧ (∀ p ∈ v, p ≤ 0x10ffff ∧ p ≠ 0 ∧ p ≠ 0x2e) ∧
      labelAscii t flags (encodeUtf8 v) = some check ∧ check.map toLower = l.map toLower := by
    refine ⟨l.map (·.toNat), l, (encodeUtf8_ascii h.ascii).symm, fun hnil => h.nonempty (map_eq_nil_iff.1 hnil),
      fun p hp => ?_, by rw [encodeUtf8_ascii h.ascii, labelAscii_fixed h], rfl⟩
    obtain ⟨c, hc, rfl⟩ := List.mem_map.1 hp
    obtain ⟨hpos, hlt, hdot⟩ := isLdh_bounds (h.chars c hc)
    exact ⟨by omega, by omega, hdot⟩
  rw [labelUnicode]
  split
  · cases hdecode : punyDecode (strdup (l.drop 4)) with
    | none => exact hself
    | some v =>
      have hpoints := punyDecode_points hdecode fun c hc =>
        h.chars c (mem_of_mem_drop (( takeWhile_prefix _).subset hc))
      have hbytes : (encode v).bytes = encodeUtf8 v :=
        encode_bytes (fun p hp => (hpoints p hp).1) fun hmem => (hpoints 0 hmem).2.1 rfl
      dsimp only
      rw [hbytes]
      cases hcheck : labelAscii t flags (encodeUtf8 v) with
      | none => exact hself
      | some check =>
        dsimp only
        split
        · rename_i hsame
          refine ⟨v, check, rfl, ?_, hpoints, hcheck, hsame⟩
          rintro rfl
          cases hcheck
        · exact hself
  · exact hself

theorem labelsUnicode_spec : ∀ {ls : List (List UInt8)}, (∀ l ∈ ls, Ldh l) →
    ∃ (vs : List (List Nat)) (checks : List (List UInt8)), ls.map (labelUnicode t flags) = vs.map encodeUtf8 ∧
      (∀ v ∈ vs, v ≠ [] ∧ ∀ p ∈ v, p ≤ 0x10ffff ∧ p ≠ 0 ∧ p ≠ 0x2e) ∧
    Forall₂ (fun l l' => labelAscii t flags l = some l') (vs.map encodeUtf8) checks ∧
    checks.map (List.map toLower) = ls.map (List.map toLower)
  | [], _ => ⟨[], [], rfl, fun v hv => (by cases hv), .nil, rfl⟩
  | l :: ls, h => by
    obtain ⟨v, check, hv, hne, hpoints, hcheck, hsame⟩ := @labelUnicode_spec t flags l (h l mem_cons_self)
    obtain ⟨vs, checks, hvs, hall, hchecks, hsames⟩ := labelsUnicode_spec fun l' hl' => h l' (mem_cons_of_mem l hl')
    refine ⟨v :: vs, check :: checks, ?_, fun v' hv' => ?_, .cons hcheck hchecks, ?_⟩
    · rw [map_cons, map_cons, hv, hvs]
    · rcases mem_cons.1 hv' with rfl | hv'
      · exact ⟨hne, hpoints⟩
      · exact hall v' hv'
    · rw [map_cons, map_cons, hsame, hsames]

theorem forall₂_map (f : List UInt8 → List UInt8) : Forall₂ (fun l l' => some (f l) = some l') ls (ls.map f) := by
  induction ls with
  | nil => exact .nil
  | cons l ls ih => exact .cons rfl ih

def NoSeparators (u : CString) : Prop := ∀ v, decodeUtf8 u.bytes = some v → ∀ p ∈ v, isSeparator p = false

/-- A text of points between dots, without other separators, is converted label by label. -/
theorem convert_points {vs : List (List Nat)} {checks : List (List UInt8)} {u : CString} (hflags : flags &&& ~~~3 = 0)
    (hne : vs ≠ []) (hvs : ∀ v ∈ vs, v ≠ [] ∧ ∀ p ∈ v, p ≤ 0x10ffff ∧ p ≠ 0 ∧ p ≠ 0x2e)
    (hu : u.bytes = encodeUtf8 (dotted 0x2e closed vs)) (hsep : NoSeparators u)
    (hchecks : Forall₂ (fun l l' => labelAscii t flags l = some l') (vs.map encodeUtf8) checks) :
    idnConvert t flags true u = some (strdup (dotted dot closed checks)) := by
  have hbound : ∀ p ∈ dotted 0x2e closed vs, p ≤ 0x10ffff := fun p hp => by
    rcases mem_dotted hp with rfl | ⟨v, hv, hp⟩
    · decide
    · exact ((hvs v hv).2 p hp).1
  have hdecode := decodeUtf8_encodeUtf8 hbound
  have hplain : ∀ p ∈ dotted 0x2e closed vs, isSeparator p = false := hsep _ (by rw [hu, hdecode])
  have hlabels : u.bytes = dotted dot closed (vs.map encodeUtf8) := by
    rw [hu]
    exact flatMap_dotted utf8Of rfl vs
  have hfilled : ∀ l ∈ vs.map encodeUtf8, l ≠ [] ∧ dot ∉ l := fun l hl => by
    obtain ⟨v, hv, rfl⟩ := List.mem_map.1 hl
    obtain ⟨hv0, hpoints⟩ := hvs v hv
    refine ⟨fun hnil => ?_, fun hmem => ?_⟩
    · have hlen := length_encodeUtf8 v
      rw [hnil, length_nil, Nat.le_zero] at hlen
      exact hv0 (length_eq_zero_iff.1 hlen)
    · exact (hpoints _ (mem_encodeUtf8 (fun p hp => (hpoints p hp).1) hmem (by decide))).2.2 rfl
  have hlast : closed = false → (vs.map encodeUtf8).getLast? ≠ some [] := fun _ h => (hfilled [] (mem_of_getLast? h)).1 rfl
  have hne' : vs.map encodeUtf8 ≠ [] := fun hnil => hne (map_eq_nil_iff.1 hnil)
  have hroot : u.bytes ∉ roots := by
    intro hmem
    obtain ⟨v, vs, rfl⟩ := exists_cons_of_ne_nil hne
    obtain ⟨hv0, hpoints⟩ := hvs v mem_cons_self
    -- a name of the root is read as one point, a dot or another separator
    have hone : ∃ p, dotted 0x2e closed (v :: vs) = [p] ∧ (p = 0x2e ∨ isSeparator p = true) := by
      rw [hu] at hmem
      simp only [roots, mem_cons, not_mem_nil, or_false] at hmem
      rcases hmem with h | h | h | h <;> rw [h] at hdecode <;> obtain heq := some.inj hdecode <;>
        exact ⟨_, heq.symm, by decide⟩
    obtain ⟨p, hp, rfl | hisSep⟩ := hone
    · have hhead := @dotted_head _ 0x2e closed v vs hv0
      rw [hp] at hhead
      exact (hpoints _ (mem_of_head? hhead.symm)).2.2 rfl
    · rw [hplain p (by rw [hp]; exact mem_singleton_self p)] at hisSep
      cases hisSep
  have hloop := (convertFrom_dotted hne' (@length_dotted _ dot closed _) (fun l hl => (hfilled l hl).2) hlast).2
    ⟨checks, hchecks, rfl⟩
  rw [idnConvert_text hflags hu hbound hplain (by rw [hlabels]; exact dotted_ne_nil hne' hlast) hroot, hlabels]
  simp only [if_true]
  rw [hloop]
  rfl

end

theorem strdup_self (s : CString) : strdup s.bytes = s := by
  have hbytes := strdup_bytes s.nonul
  generalize strdup s.bytes = c at hbytes
  obtain ⟨bytes, _⟩ := c
  dsimp only at hbytes
  subst hbytes
  rfl


/-- The ASCII form of a name under the rules of STD3 is ASCII, with labels of letters, digits and dashes; it is its own
    ASCII form, and that of its Unicode form, up to case, if no label of this has a separator in it. -/
theorem idn_stable (t : PrepTables) {flags : UInt32} (hstd : flags &&& 2 ≠ 0) {s r : CString}
    (h : idnConvert t flags true s = some r) :
    (∀ c ∈ r.bytes, c < 0x80) ∧ HostName r.bytes ∧ idnConvert t flags true r = some r ∧
      ∃ u, idnConvert t flags false r = some u ∧ (NoSeparators u →
        ∃ r', idnConvert t flags true u = some r' ∧ r'.bytes.map toLower = r.bytes.map toLower) := by
  have hname := idnConvert_hostName hstd h
  have hflags : flags &&& ~~~3 = 0 := by
    rw [idnConvert] at h
    obtain ⟨hok, -⟩ := ite_none_left_eq_some.1 h
    exact not_not.1 hok
  refine ⟨hname.ascii, hname, ?_⟩
  obtain ⟨bytes, hnul⟩ := r
  rcases hname with hr | hr | ⟨closed, ls, hne, hls, hr⟩
  · dsimp only at hr
    subst hr
    have hfixed : ∀ ascii, idnConvert t flags ascii ⟨[], hnul⟩ = some ⟨[], hnul⟩ := fun ascii => by
      rw [idnConvert, if_neg (not_not_intro hflags), if_pos rfl]
      rfl
    exact ⟨hfixed true, _, hfixed false, fun _ => ⟨_, hfixed true, rfl⟩⟩
  · dsimp only at hr
    subst hr
    have hfixed : ∀ ascii, idnConvert t flags ascii ⟨[dot], hnul⟩ = some ⟨[dot], hnul⟩ := fun ascii => by
      rw [idnConvert, if_neg (not_not_intro hflags), if_neg (cons_ne_nil _ _),
        if_pos (show [dot] ∈ roots from mem_cons_self)]
      rfl
    exact ⟨hfixed true, _, hfixed false, fun _ => ⟨_, hfixed true, rfl⟩⟩
  · dsimp only at hr
    subst hr
    have hfixed : Forall₂ (fun l l' => labelAscii t flags l = some l') ls ls := by
      rw [List.forall₂_same]
      exact fun l hl => labelAscii_fixed (hls l hl)
    refine ⟨?_, _, HostName.convert hflags hne hls rfl (forall₂_map (labelUnicode t flags)), fun hsep => ?_⟩
    · rw [@HostName.convert t flags ls closed true _ hflags hne hls rfl ls hfixed]
      exact congrArg some (strdup_self ⟨_, hnul⟩)
    · obtain ⟨vs, checks, hvs, hpoints, hchecks, hsame⟩ := @labelsUnicode_spec t flags ls hls
      have hvs0 : vs ≠ [] := by
        rintro rfl
        exact hne (map_eq_nil_iff.1 hvs)
      have htext : encodeUtf8 (dotted 0x2e closed vs) = dotted dot closed (vs.map encodeUtf8) :=
        flatMap_dotted utf8Of rfl vs
      have hclean : 0 ∉ encodeUtf8 (dotted 0x2e closed vs) := fun hmem => by
        have hzero := mem_encodeUtf8 (fun p hp => ?_) hmem (by decide)
        · rcases mem_dotted hzero with heq | ⟨v, hv, hp⟩
          · cases heq
          · exact ((hpoints v hv).2 _ hp).2.1 rfl
        · rcases mem_dotted hp with rfl | ⟨v, hv, hp⟩
          · decide
          · exact ((hpoints v hv).2 p hp).1
      have hu :
          (strdup (dotted dot closed (ls.map (labelUnicode t flags)))).bytes = encodeUtf8 (dotted 0x2e closed vs) := by
        rw [hvs, ← htext]
        exact strdup_bytes hclean
      refine ⟨_, convert_points hflags hvs0 hpoints hu hsep hchecks, ?_⟩
      rw [strdup_bytes (dotted_nonul (forall₂_ldh hstd hchecks)), map_dotted, map_dotted, hsame]

/-- Tables that change nothing and forbid nothing. -/
def noTables : PrepTables := ⟨fun _ => none, fun _ => 0, fun v => v.map UInt32.ofNat⟩

/-- `ü。b.` -/
def umlautText : CString := ⟨[0xc3, 0xbc, 0xe3, 0x80, 0x82, 0x62, 0x2e], by decide⟩

/-- `xn--tda.b.` -/
def umlautAscii : CString := ⟨[0x78, 0x6e, 0x2d, 0x2d, 0x74, 0x64, 0x61, 0x2e, 0x62, 0x2e], by decide⟩

theorem idn_stable_umlaut : idnConvert noTables 2 true umlautText = some umlautAscii ∧
    idnConvert noTables 2 true umlautAscii = some umlautAscii := by
  have hascii : idnConvert noTables 2 true umlautText = some umlautAscii := by decide +kernel
  exact ⟨hascii, (idn_stable noTables (by decide) hascii).2.2.1⟩

/-- The ASCII form of `a.` is `a.`, whose last label is empty. -/
theorem last_label_empty : idnConvert noTables 2 true ⟨[0x61, 0x2e], by decide⟩ = some ⟨[0x61, 0x2e], by decide⟩ ∧
    ∃ l ∈ [0x61, 0x2e].splitOn dot, ¬Ldh l :=
  ⟨by decide +kernel, [], by decide, fun h => h.nonempty rfl⟩

end Lunaria.Idn
