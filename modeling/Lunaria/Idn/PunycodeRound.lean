import Lunaria.Idn.PunycodeCode

/-! Punycode there and back. The encoder writes the distances of the insertions that build its input from the ASCII part;
    the decoder reads any such sequence, and no list is built in two ways. -/

namespace Lunaria.Idn
open Bootstring List Option
open CText (toLower)

/-- The start of both coders: the ASCII points, and nothing inserted. -/
def start (v : List Nat) : Build := ⟨v.filter (· < 128), 128, 0⟩

theorem sorted_start (v : List Nat) : (start v).Sorted where
  le x hx := by
    have := of_decide_eq_true (mem_filter.1 hx).2
    exact Nat.le_of_lt this
  place := Nat.zero_le _
  behind j x _ hx := of_decide_eq_true (mem_filter.1 (mem_of_getElem? hx)).2
  last h := absurd h (Nat.lt_irrefl 0)

/-- The encoder in the middle of a scan for the point `n`: the distances written so far, and how far it is from the last
    insertion to the place it looks at. -/
structure Coding (pre : List UInt8) (v : List Nat) (ds : List Nat) (e : Encoder) (n : Nat) (scanned rest : List Nat) :
    Prop where
  out : e.out = pre ++ codes (start v).list.length 72 (start v).list.length ds
  room : e.out.length ≤ 63
  bias : e.bias = biasAfter (start v).list.length 72 (start v).list.length ds
  h : e.h = (start v).list.length + ds.length
  list : ((start v).run ds).list = scanned.filter (· ≤ n) ++ rest.filter (· < n)
  below : ((start v).run ds).n ≤ n
  delta : ((start v).run ds).i + e.delta =
    (n - ((start v).run ds).n) * (e.h + 1) + (scanned.filter (· ≤ n)).length

section
variable {pre : List UInt8} {v ds : List Nat} {e e' : Encoder} {n : Nat} {scanned rest : List Nat}

theorem Coding.length (h : Coding pre v ds e n scanned rest) : ((start v).run ds).list.length = e.h := by
  rw [Build.length_run, h.h]

/-- One point of the scan. -/
theorem Coding.point {p : Nat} (h : Coding pre v ds e n scanned (p :: rest))
    (hp : encodePoint (start v).list.length n e p = some e') : ∃ ds', Coding pre v ds' e' n (scanned ++ [p]) rest := by
  rw [encodePoint] at hp
  obtain ⟨-, hp⟩ := ite_none_left_eq_some.1 hp
  rcases Nat.lt_trichotomy p n with hlt | heq | hgt
  · -- a smaller point is one place further on
    rw [if_neg (Nat.ne_of_lt hlt), if_pos hlt] at hp
    cases hp
    have hscan : (scanned ++ [p]).filter (· ≤ n) = scanned.filter (· ≤ n) ++ [p] := by
      simp [Nat.le_of_lt hlt]
    have hrest : (p :: rest).filter (· < n) = p :: rest.filter (· < n) := filter_cons_of_pos (decide_eq_true hlt)
    refine ⟨ds, h.out, h.room, h.bias, h.h, ?_, h.below, ?_⟩
    · rw [h.list, hscan, hrest, append_assoc]
      rfl
    · have hdelta := h.delta
      rw [hscan, length_append, length_singleton]
      show _ + (e.delta + 1) = _ * (e.h + 1) + _
      omega
  · subst heq
    rw [if_pos rfl, if_neg (Nat.lt_irrefl p)] at hp
    have hscan : (scanned ++ [p]).filter (· ≤ p) = scanned.filter (· ≤ p) ++ [p] := by
      simp
    have hrest : (p :: rest).filter (· < p) = rest.filter (· < p) :=
      filter_cons_of_neg (by rw [decide_eq_true_eq]; exact Nat.lt_irrefl p)
    have hlist := h.list
    rw [hrest] at hlist
    have hwrite := @encodeInt_spec e.bias 0 e.delta _ (spells_word e.bias 0 e.delta) 64 e.out (by omega) h.room
    rw [show encodeInt e.bias 64 36 e.delta e.out = _ from hwrite] at hp
    by_cases hfits : e.out.length + (word e.bias 0 e.delta).length ≤ 63
    · rw [if_pos hfits] at hp
      cases hp
      have hplace : (scanned.filter (· ≤ p)).length ≤ ((start v).run ds).list.length := by
        rw [hlist, length_append]
        omega
      have hins : ((start v).run ds).insert e.delta = ⟨((start v).run ds).list.insertIdx _ p, p, _ + 1⟩ :=
        Build.insert_eq h.below hplace (by rw [h.length]; exact h.delta)
      refine ⟨ds ++ [e.delta], ?_, ?_, ?_, ?_, ?_, ?_, ?_⟩
      · rw [codes_concat, ← append_assoc, ← h.out, ← h.bias]
      · show (e.out ++ (word e.bias 0 e.delta).map digit).length ≤ 63
        rw [length_append, length_map]
        exact hfits
      · rw [biasAfter_concat, ← h.h]
      · show e.h + 1 = _
        rw [length_append, length_singleton, h.h, Nat.add_assoc]
      · rw [Build.run_concat, hins, hscan, hlist, append_assoc]
        exact Build.insertIdx_append ..
      · rw [Build.run_concat, hins]
      · rw [Build.run_concat, hins, hscan, length_append, length_singleton, Nat.sub_self, Nat.zero_mul,
          Nat.zero_add]
        rfl
    · rw [if_neg hfits] at hp
      cases hp
  · rw [if_neg (Nat.ne_of_gt hgt), if_neg (Nat.not_lt.2 (Nat.le_of_lt hgt))] at hp
    cases hp
    have hscan : (scanned ++ [p]).filter (· ≤ n) = scanned.filter (· ≤ n) := by
      simp [Nat.not_le.2 hgt]
    have hrest : (p :: rest).filter (· < n) = rest.filter (· < n) :=
      filter_cons_of_neg (by rw [decide_eq_true_eq]; exact Nat.not_lt.2 (Nat.le_of_lt hgt))
    refine ⟨ds, h.out, h.room, h.bias, h.h, ?_, h.below, ?_⟩
    · rw [h.list, hscan, hrest]
    · rw [hscan]
      exact h.delta

theorem Coding.scan (h : Coding pre v ds e n scanned rest)
    (hp : rest.foldlM (encodePoint (start v).list.length n) e = some e') :
    ∃ ds', Coding pre v ds' e' n (scanned ++ rest) [] := by
  induction rest generalizing scanned e ds with
  | nil =>
    cases hp
    exact ⟨ds, (append_nil scanned).symm ▸ h⟩
  | cons p rest ih =>
    rw [foldlM_cons] at hp
    obtain ⟨e₁, he₁, hp⟩ := bind_eq_some_iff.1 hp
    obtain ⟨ds₁, h₁⟩ := h.point he₁
    obtain ⟨ds', h'⟩ := ih h₁ hp
    exact ⟨ds', by rwa [append_assoc] at h'⟩

end

/-! ### The rounds of the encoder -/

theorem smallest_foldl (n : Nat) (v : List Nat) : ∀ m₀ : Nat,
    let m := v.foldl (fun m p => if n ≤ p ∧ p < m then p else m) m₀
    (m = m₀ ∨ m ∈ v ∧ n ≤ m) ∧ m ≤ m₀ ∧ ∀ p ∈ v, n ≤ p → m ≤ p := by
  induction v with
  | nil => exact fun m₀ => ⟨.inl rfl, le_rfl, fun p hp => absurd hp not_mem_nil⟩
  | cons x v ih =>
    intro m₀
    obtain ⟨hmem, hle, hmin⟩ := ih (if n ≤ x ∧ x < m₀ then x else m₀)
    by_cases hx : n ≤ x ∧ x < m₀
    · rw [if_pos hx] at hmem hle hmin
      dsimp only
      rw [foldl_cons, if_pos hx]
      refine ⟨.inr ?_, Nat.le_trans hle (Nat.le_of_lt hx.2), ?_⟩
      · rcases hmem with hmem | ⟨hmem, hn⟩
        · rw [hmem]
          exact ⟨mem_cons_self, hx.1⟩
        · exact ⟨mem_cons_of_mem _ hmem, hn⟩
      · intro p hp hn
        rcases mem_cons.1 hp with rfl | hp
        · exact hle
        · exact hmin p hp hn
    · rw [if_neg hx] at hmem hle hmin
      dsimp only
      rw [foldl_cons, if_neg hx]
      refine ⟨hmem.imp_right fun h => ⟨mem_cons_of_mem _ h.1, h.2⟩, hle, ?_⟩
      intro p hp hn
      rcases mem_cons.1 hp with rfl | hp
      · exact Nat.le_trans hle (Nat.le_of_not_lt fun hlt => hx ⟨hn, hlt⟩)
      · exact hmin p hp hn

theorem smallest_spec {v : List Nat} {n : Nat} (hv : ∀ p ∈ v, p ≤ uint32Max) (h : (v.filter (· < n)).length < v.length) :
    smallest v n ∈ v ∧ n ≤ smallest v n ∧ ∀ p ∈ v, n ≤ p → smallest v n ≤ p := by
  obtain ⟨p, hp, hn⟩ : ∃ p ∈ v, n ≤ p := by
    by_contra hall
    have hfilter : v.filter (· < n) = v := by
      rw [filter_eq_self]
      intro p hp
      exact decide_eq_true (Nat.lt_of_not_le fun hle => hall ⟨p, hp, hle⟩)
    rw [hfilter] at h
    exact Nat.lt_irrefl _ h
  obtain ⟨hmem, hle, hmin⟩ := smallest_foldl n v uint32Max
  refine ⟨?_, ?_, hmin⟩
  · rcases hmem with hmax | hmem
    · -- then the point itself is the greatest number there is
      have hpmax : p = uint32Max := Nat.le_antisymm (hv p hp) (hmax ▸ hmin p hp hn)
      rw [smallest, hmax, ← hpmax]
      exact hp
    · exact hmem.1
  · rcases hmem with hmax | hmem
    · rw [smallest, hmax]
      exact Nat.le_trans hn (hv p hp)
    · exact hmem.2

section
variable {pre : List UInt8} {v ds : List Nat} {e e' : Encoder} {n : Nat}

theorem Coding.jump {m : Nat} (h : Coding pre v ds e n [] v) (hn : n ≤ m) (hmin : ∀ p ∈ v, n ≤ p → m ≤ p) :
    Coding pre v ds { e with delta := e.delta + (m - n) * (e.h + 1) } m [] v := by
  have hfilter : v.filter (· < m) = v.filter (· < n) := by
    apply filter_congr
    intro p hp
    rw [decide_eq_decide]
    constructor
    · intro hlt
      by_contra hle
      exact absurd (hmin p hp (Nat.le_of_not_lt hle)) (Nat.not_le.2 hlt)
    · exact fun hlt => Nat.lt_of_lt_of_le hlt hn
  refine ⟨h.out, h.room, h.bias, h.h, ?_, Nat.le_trans h.below hn, ?_⟩
  · rw [h.list, hfilter]
    rfl
  · have hdelta := h.delta
    have hsplit : m - ((start v).run ds).n = (n - ((start v).run ds).n) + (m - n) := by
      have := h.below
      omega
    rw [hsplit, Nat.add_mul]
    rw [filter_nil, length_nil] at hdelta
    show _ + (e.delta + (m - n) * (e.h + 1)) = _ * (e.h + 1) + (m - n) * (e.h + 1) + 0
    omega

theorem Coding.next {m : Nat} (h : Coding pre v ds e m v []) :
    Coding pre v ds { e with delta := e.delta + 1 } (m + 1) [] v := by
  have hfilter : v.filter (· < m + 1) = v.filter (· ≤ m) :=
    filter_congr fun p _ => decide_eq_decide.2 Nat.lt_succ_iff
  have hlist : ((start v).run ds).list = v.filter (· ≤ m) := by
    rw [h.list]
    exact append_nil _
  refine ⟨h.out, h.room, h.bias, h.h, ?_, Nat.le_succ_of_le h.below, ?_⟩
  · rw [hlist, hfilter]
    rfl
  · have hdelta := h.delta
    have hsplit : m + 1 - ((start v).run ds).n = (m - ((start v).run ds).n) + 1 := by
      have := h.below
      omega
    rw [← hlist, h.length] at hdelta
    rw [hsplit, Nat.add_mul, Nat.one_mul]
    show _ + (e.delta + 1) = _ * (e.h + 1) + (e.h + 1) + 0
    omega

theorem Coding.h_eq (h : Coding pre v ds e n [] v) : e.h = (v.filter (· < n)).length := by
  rw [← h.length, h.list]
  rfl

theorem Coding.round (hv : ∀ p ∈ v, p ≤ uint32Max) (h : Coding pre v ds e n [] v) (hmore : e.h < v.length)
    (hscan : v.foldlM (encodePoint (start v).list.length (smallest v n))
      { e with delta := e.delta + (smallest v n - n) * (e.h + 1) } = some e') :
    e.h < e'.h ∧ ∃ ds', Coding pre v ds' { e' with delta := e'.delta + 1 } (smallest v n + 1) [] v := by
  have hlen := h.h_eq
  obtain ⟨hmem, hn, hmin⟩ := smallest_spec hv (hlen ▸ hmore)
  obtain ⟨ds', h'⟩ := (h.jump hn hmin).scan hscan
  have hnext := h'.next
  refine ⟨?_, ds', hnext⟩
  have hsub : (v.filter (· < n)).length < (v.filter (· < smallest v n + 1)).length := by
    have htwice : v.filter (· < n) = (v.filter (· < smallest v n + 1)).filter (· < n) := by
      rw [List.filter_filter]
      refine filter_congr fun p _ => ?_
      rw [← Bool.decide_and, decide_eq_decide]
      omega
    rw [htwice, length_filter_lt_length_iff_exists]
    refine ⟨smallest v n, mem_filter.2 ⟨hmem, decide_eq_true (Nat.lt_succ_self _)⟩, ?_⟩
    rw [decide_eq_true_eq]
    exact Nat.not_lt.2 hn
  have hlen' := hnext.h_eq
  rw [hlen]
  exact hlen' ▸ hsub

theorem Coding.loop (hv : ∀ p ∈ v, p ≤ uint32Max) : ∀ {fuel n : Nat} {e : Encoder} {ds : List Nat},
    Coding pre v ds e n [] v → encodeLoop v (start v).list.length fuel n e = some e' →
    ∃ ds', e'.out = pre ++ codes (start v).list.length 72 (start v).list.length ds' ∧ e'.out.length ≤ 63 ∧
      ((start v).run ds').list = v := by
  -- when the loop stops, all the points are below `n`
  have hstop : ∀ {n : Nat} {e : Encoder} {ds : List Nat}, Coding pre v ds e n [] v → ¬e.h < v.length →
      ∃ ds', e.out = pre ++ codes (start v).list.length 72 (start v).list.length ds' ∧ e.out.length ≤ 63 ∧
        ((start v).run ds').list = v := by
    intro n e ds h hdone
    refine ⟨ds, h.out, h.room, ?_⟩
    rw [h.list]
    refine filter_sublist.eq_of_length_le ?_
    rw [← h.h_eq]
    exact Nat.le_of_not_lt hdone
  intro fuel
  induction fuel with
  | zero =>
    intro n e ds h hloop
    rw [encodeLoop] at hloop
    obtain ⟨hdone, hloop⟩ := ite_none_left_eq_some.1 hloop
    cases hloop
    exact hstop h hdone
  | succ fuel ih =>
    intro n e ds h hloop
    rw [encodeLoop] at hloop
    by_cases hmore : e.h < v.length
    · rw [if_pos hmore] at hloop
      dsimp only at hloop
      split at hloop
      · cases hloop
      · obtain ⟨e₁, hscan, hloop⟩ := bind_eq_some_iff.1 hloop
        obtain ⟨-, ds₁, h₁⟩ := h.round hv hmore hscan
        exact ih h₁ hloop
    · rw [if_neg hmore] at hloop
      cases hloop
      exact hstop h hmore

end

/-! ### The strings -/

theorem strrchr_none {c : UInt8} {s : List UInt8} (h : c ∉ s) : strrchr c s = none := by
  induction s with
  | nil => rfl
  | cons b s ih =>
    rw [mem_cons, not_or] at h
    rw [strrchr, ih h.2]
    exact if_neg (Ne.symm h.1)

theorem strrchr_append {c : UInt8} (s : List UInt8) {r : List UInt8} (h : c ∉ r) :
    strrchr c (s ++ c :: r) = some s.length := by
  induction s with
  | nil =>
    rw [nil_append, strrchr, strrchr_none h]
    exact if_pos rfl
  | cons b s ih => rw [cons_append, strrchr, ih, length_cons]

theorem split_last (c : UInt8) (s : List UInt8) : c ∉ s ∨ ∃ l r, s = l ++ c :: r ∧ c ∉ r := by
  induction s with
  | nil => exact .inl not_mem_nil
  | cons b s ih =>
    rcases ih with hnone | ⟨l, r, rfl, hr⟩
    · by_cases hb : c = b
      · exact .inr ⟨[], s, by rw [hb]; rfl, hnone⟩
      · refine .inl fun hmem => ?_
        rcases mem_cons.1 hmem with heq | hmem
        · exact hb heq
        · exact hnone hmem
    · exact .inr ⟨b :: l, r, rfl, hr⟩

theorem splitBasic_none {s : List UInt8} (h : dash ∉ s) : splitBasic s = ([], s) := by
  rw [splitBasic, strrchr_none h]

theorem splitBasic_append (l : List UInt8) {r : List UInt8} (h : dash ∉ r) : splitBasic (l ++ dash :: r) = (l, r) := by
  rw [splitBasic, strrchr_append l h]
  dsimp only
  rw [take_left, ← drop_drop, drop_left]
  rfl

/-- The characters before the distances. -/
def front (ascii : List UInt8) : List UInt8 := if ascii = [] then [] else ascii ++ [dash]

theorem splitBasic_front (ascii : List UInt8) {r : List UInt8} (h : dash ∉ r) :
    splitBasic (front ascii ++ r) = (ascii, r) := by
  by_cases hnil : ascii = []
  · rw [front, if_pos hnil, nil_append, splitBasic_none h, hnil]
  · rw [front, if_neg hnil, append_assoc]
    exact splitBasic_append ascii h

theorem strdup_bytes {buf : List UInt8} (h : 0 ∉ buf) : (strdup buf).bytes = buf := by
  refine takeWhile_eq_self_iff.2 fun c hc => decide_eq_true ?_
  rintro rfl
  exact h hc

/-- The ASCII points as characters. -/
def ascii (v : List Nat) : List UInt8 := (v.filter (· < 128)).map UInt8.ofNat

theorem put_some {out out' : List UInt8} {c : UInt8} (h : put out c = some out') (hout : out.length ≤ 63) :
    out' = out ++ [c] ∧ out'.length ≤ 63 := by
  rw [put] at h
  obtain ⟨hroom, h⟩ := ite_none_left_eq_some.1 h
  cases h
  rw [length_append, length_singleton]
  exact ⟨rfl, by omega⟩

theorem foldlM_ascii {v : List Nat} : ∀ {out out' : List UInt8}, out.length ≤ 63 →
    v.foldlM (fun out p => if p < 128 then put out (UInt8.ofNat p) else some out) out = some out' →
    out' = out ++ ascii v ∧ out'.length ≤ 63 := by
  induction v with
  | nil =>
    intro out out' hout h
    cases h
    exact ⟨(append_nil out).symm, hout⟩
  | cons p v ih =>
    intro out out' hout h
    rw [foldlM_cons] at h
    obtain ⟨out₁, h₁, h⟩ := bind_eq_some_iff.1 h
    by_cases hp : p < 128
    · rw [if_pos hp] at h₁
      obtain ⟨rfl, hlen⟩ := put_some h₁ hout
      obtain ⟨rfl, hlen'⟩ := ih hlen h
      refine ⟨?_, hlen'⟩
      rw [ascii, ascii, filter_cons_of_pos (p := fun x => decide (x < 128)) (decide_eq_true hp), map_cons,
        append_assoc]
      rfl
    · rw [if_neg hp] at h₁
      cases h₁
      obtain ⟨rfl, hlen⟩ := ih hout h
      refine ⟨?_, hlen⟩
      rw [ascii, ascii, filter_cons_of_neg (p := fun x => decide (x < 128)) (by rwa [decide_eq_true_eq])]

theorem ascii_eq_nil {v : List Nat} : ascii v = [] ↔ v.countP (· < 128) = 0 := by
  rw [ascii, map_eq_nil_iff, countP_eq_length_filter, length_eq_zero_iff]

/-- What the encoder writes: the ASCII points, and the distances of insertions that build the whole list. -/
theorem encodeOut_some {v : List Nat} {out : List UInt8} (hv : ∀ p ∈ v, p ≤ uint32Max) (h : encodeOut v = some out) :
    ∃ ds, out = xn ++ front (ascii v) ++ codes (start v).list.length 72 (start v).list.length ds ∧ out.length ≤ 63 ∧
      ((start v).run ds).list = v := by
  rw [encodeOut] at h
  obtain ⟨out₁, h₁, h⟩ := bind_eq_some_iff.1 h
  obtain ⟨hout₁, hlen₁⟩ := foldlM_ascii (by decide) h₁
  obtain ⟨out₂, h₂, h⟩ := bind_eq_some_iff.1 h
  have hout₂ : out₂ = xn ++ front (ascii v) ∧ out₂.length ≤ 63 := by
    by_cases hbasic : v.countP (· < 128) ≠ 0
    · rw [if_pos hbasic] at h₂
      obtain ⟨rfl, hlen₂⟩ := put_some h₂ hlen₁
      refine ⟨?_, hlen₂⟩
      rw [hout₁, front, if_neg (mt ascii_eq_nil.1 hbasic), append_assoc]
    · rw [if_neg hbasic] at h₂
      cases h₂
      refine ⟨?_, hlen₁⟩
      have hnil := ascii_eq_nil.2 (not_not.1 hbasic)
      rw [hout₁, front, if_pos hnil, hnil]
  obtain ⟨e, hloop, h⟩ := bind_eq_some_iff.1 h
  cases h
  have hcount : v.countP (· < 128) = (start v).list.length := countP_eq_length_filter
  rw [hcount] at hloop
  have hstart : Coding (xn ++ front (ascii v)) v [] ⟨out₂, (start v).list.length, 72, 0⟩ 128 [] v := by
    refine ⟨?_, hout₂.2, rfl, rfl, rfl, le_rfl, ?_⟩
    · rw [codes, append_nil]
      exact hout₂.1
    · show 0 + 0 = (128 - 128) * _ + 0
      rw [Nat.sub_self, Nat.zero_mul]
  exact hstart.loop hv hloop

theorem ascii_toNat (v : List Nat) : (ascii v).map (·.toNat) = (start v).list := by
  rw [ascii, List.map_map]
  refine (map_congr_left fun p hp => ?_).trans (List.map_id _)
  have hlt := of_decide_eq_true (mem_filter.1 hp).2
  exact UInt8.toNat_ofNat_of_lt (Nat.lt_trans hlt (by decide))

theorem length_ascii (v : List Nat) : (ascii v).length = (start v).list.length := by
  rw [← ascii_toNat, length_map]

theorem length_front (l : List UInt8) : l.length ≤ (front l).length := by
  rw [front]
  split
  · rename_i hnil
    rw [hnil]
  · rw [length_append]
    exact Nat.le_add_right _ _

theorem mem_ascii {v : List Nat} {c : UInt8} (h : c ∈ ascii v) : c < 0x80 ∧ c.toNat ∈ v := by
  obtain ⟨p, hp, rfl⟩ := List.mem_map.1 h
  obtain ⟨hmem, hlt⟩ := mem_filter.1 hp
  have hlt' := of_decide_eq_true hlt
  have htoNat : (UInt8.ofNat p).toNat = p := UInt8.toNat_ofNat_of_lt (Nat.lt_trans hlt' (by decide))
  refine ⟨?_, htoNat.symm ▸ hmem⟩
  rw [UInt8.lt_iff_toNat_lt, htoNat]
  exact hlt'

theorem mem_front {l : List UInt8} {c : UInt8} (h : c ∈ front l) : c ∈ l ∨ c = dash := by
  rw [front] at h
  split at h
  · cases h
  · exact (mem_append.1 h).imp_right mem_singleton.1

/-- All that is written is ASCII, and the end mark is among it only as a point. -/
theorem mem_out {v ds : List Nat} {bias h : Nat} {c : UInt8} {basic : Nat}
    (hc : c ∈ xn ++ front (ascii v) ++ codes basic bias h ds) : c < 0x80 ∧ (c = 0 → 0 ∈ v) := by
  have hdash : dash < 0x80 ∧ (dash = 0 → 0 ∈ v) := ⟨by decide, fun h => absurd h (by decide)⟩
  rcases mem_append.1 hc with hc | hc
  · rcases mem_append.1 hc with hc | hc
    · rcases mem_cons.1 hc with rfl | hc
      · exact ⟨by decide, fun h => absurd h (by decide)⟩
      rcases mem_cons.1 hc with rfl | hc
      · exact ⟨by decide, fun h => absurd h (by decide)⟩
      rcases mem_cons.1 hc with rfl | hc
      · exact hdash
      · obtain rfl := mem_singleton.1 hc
        exact hdash
    · rcases mem_front hc with hc | rfl
      · obtain ⟨hlt, hmem⟩ := mem_ascii hc
        refine ⟨hlt, ?_⟩
        rintro rfl
        exact hmem
      · exact hdash
  · obtain ⟨-, hnul, hlt⟩ := mem_codes hc
    exact ⟨hlt, fun h => absurd h hnul⟩

theorem punyEncode_some {v : List Nat} {s : CString} (hv : ∀ p ∈ v, p ≤ uint32Max) (hnul : 0 ∉ v)
    (h : punyEncode v = some s) :
    ∃ ds, s.bytes = xn ++ front (ascii v) ++ codes (start v).list.length 72 (start v).list.length ds ∧
      s.bytes.length ≤ 63 ∧ ((start v).run ds).list = v := by
  obtain ⟨out, hout, rfl⟩ := map_eq_some_iff.1 h
  obtain ⟨ds, heq, hlen, hrun⟩ := encodeOut_some hv hout
  have hbytes : (strdup out).bytes = out := by
    refine strdup_bytes fun hmem => hnul ?_
    rw [heq] at hmem
    exact (mem_out hmem).2 rfl
  exact ⟨ds, hbytes.trans heq, hbytes.symm ▸ hlen, hrun⟩

theorem punyDecode_front {v ds : List Nat} {s : CString} (hv : ∀ p ∈ v, Scalar p) (hlen : v.length ≤ 60)
    (hs : s.bytes = front (ascii v) ++ codes (start v).list.length 72 (start v).list.length ds)
    (hrun : ((start v).run ds).list = v) : punyDecode s = some v := by
  have hdash : dash ∉ codes (start v).list.length 72 (start v).list.length ds := fun hmem => (mem_codes hmem).1 rfl
  have hany : (ascii v).any (0x80 ≤ ·) = false := by
    rw [List.any_eq_false]
    intro c hc hle
    exact absurd (mem_ascii hc).1 (UInt8.not_lt.2 (of_decide_eq_true hle))
  rw [punyDecode, hs, splitBasic_front _ hdash]
  dsimp only
  rw [hany, ascii_toNat]
  refine (if_neg Bool.false_ne_true).trans ?_
  have hread := @decodeLoop_codes (start v).list.length ds (start v) 72 (iff_of_true rfl rfl) le_rfl
    (hrun.symm ▸ hv) (hrun.symm ▸ hlen)
  rw [hrun] at hread
  exact hread

/-- The letters after the last dash in lower case. -/
def lowerTail (s : List UInt8) : List UInt8 :=
  match strrchr dash s with
  | some k => s.take (k + 1) ++ (s.drop (k + 1)).map toLower
  | none => s.map toLower

theorem lowerTail_append (l : List UInt8) {r : List UInt8} (h : dash ∉ r) :
    lowerTail (l ++ dash :: r) = l ++ dash :: r.map toLower := by
  rw [lowerTail, strrchr_append l h]
  dsimp only
  rw [take_length_add_append, ← drop_drop, drop_left]
  simp

/-- The strings that the decoder takes: ASCII points, and a sequence of distances that builds the rest. -/
theorem punyDecode_some {s : CString} {v : List Nat} (h : punyDecode s = some v) (hdash : s.bytes.head? ≠ some dash) :
    ∃ rest ds, s.bytes = front (ascii v) ++ rest ∧ dash ∉ rest ∧ ((start v).run ds).list = v ∧
      rest.map toLower = codes (start v).list.length 72 (start v).list.length ds ∧ 0 ∉ v ∧ ∀ p ∈ v, Scalar p := by
  obtain ⟨basic, rest, hs, hrest⟩ : ∃ basic rest, s.bytes = front basic ++ rest ∧ dash ∉ rest := by
    rcases split_last dash s.bytes with hnone | ⟨l, r, hs, hr⟩
    · exact ⟨[], s.bytes, rfl, hnone⟩
    · refine ⟨l, r, ?_, hr⟩
      have hne : l ≠ [] := by
        rintro rfl
        rw [hs] at hdash
        exact hdash rfl
      rw [hs, front, if_neg hne, append_assoc]
      rfl
  rw [punyDecode, hs, splitBasic_front basic hrest] at h
  dsimp only at h
  obtain ⟨hany, h⟩ := ite_none_left_eq_some.1 h
  have hascii : ∀ c ∈ basic, c < 0x80 := by
    intro c hc
    by_contra hle
    exact hany (List.any_eq_true.2 ⟨c, hc, decide_eq_true (UInt8.not_lt.1 hle)⟩)
  have hsmall : ∀ p ∈ basic.map (·.toNat), p < 128 := by
    intro p hp
    obtain ⟨c, hc, rfl⟩ := List.mem_map.1 hp
    exact UInt8.lt_iff_toNat_lt.1 (hascii c hc)
  -- the insertions leave the ASCII points alone
  obtain ⟨ds, hrun, hcodes, hscalar⟩ := @decodeLoop_some basic.length rest ⟨basic.map (·.toNat), 128, 0⟩ 72 v
    (iff_of_true rfl (length_map ..)) (Nat.le_of_eq (length_map ..).symm) h
  have hstart : start v = ⟨basic.map (·.toNat), 128, 0⟩ := by
    have hfilter := @Build.filter_run (· < 128) ⟨basic.map (·.toNat), 128, 0⟩ ds
      (fun n hn => decide_eq_false (Nat.not_lt.2 hn))
    rw [hrun] at hfilter
    have hself : (basic.map (·.toNat)).filter (· < 128) = basic.map (·.toNat) :=
      filter_eq_self.2 fun p hp => decide_eq_true (hsmall p hp)
    rw [start, hfilter, hself]
  have hbasic : ascii v = basic := by
    have hmap := ascii_toNat v
    rw [hstart] at hmap
    exact (List.map_inj_right fun _ _ => UInt8.toNat_inj.1).1 hmap
  have hnul : 0 ∉ v := by
    intro hmem
    have hfront : (0 : UInt8) ∈ ascii v := List.mem_map.2 ⟨0, mem_filter.2 ⟨hmem, rfl⟩, rfl⟩
    rw [hbasic] at hfront
    refine s.nonul ?_
    rw [hs, front, if_neg (ne_nil_of_mem hfront)]
    exact mem_append_left _ (mem_append_left _ hfront)
  refine ⟨rest, ds, hbasic.symm ▸ hs, hrest, hstart.symm ▸ hrun, ?_, hnul, hscalar ?_⟩
  · rw [hstart]
    show _ = codes (basic.map (·.toNat)).length 72 (basic.map (·.toNat)).length ds
    rw [hcodes, length_map]
  · intro p hp
    have := hsmall p hp
    constructor <;> omega

theorem Scalar.le_max {p : Nat} (h : Scalar p) : p ≤ uint32Max := Nat.le_trans h.1 (by decide)

/-- What the encoder writes is read back, and what is read is what the encoder writes, up to the case of the digits. -/
theorem puny_roundTrip :
    (∀ v s, (∀ p ∈ v, 0 < p ∧ Scalar p) → punyEncode v = some s →
      s.bytes.take 4 = xn ∧ s.bytes.length ≤ 63 ∧ (∀ c ∈ s.bytes, c < 0x80) ∧ punyDecode (s.drop 4) = some v) ∧
    (∀ s v e, punyDecode s = some v → s.bytes.head? ≠ some dash → punyEncode v = some e →
      e.bytes = lowerTail (xn ++ s.bytes)) := by
  constructor
  · intro v s hv henc
    have hnul : 0 ∉ v := fun h => Nat.lt_irrefl 0 (hv 0 h).1
    obtain ⟨ds, hbytes, hlen, hrun⟩ := punyEncode_some (fun p hp => (hv p hp).2.le_max) hnul henc
    have hdrop : (s.drop 4).bytes = front (ascii v) ++ codes (start v).list.length 72 (start v).list.length ds := by
      show s.bytes.drop 4 = _
      rw [hbytes, append_assoc]
      rfl
    have hshort : v.length ≤ 60 := by
      have hds := @length_le_codes (start v).list.length ds 72 (start v).list.length
      have hfront := length_front (ascii v)
      have hv := (start v).length_run ds
      have hxn : xn.length = 4 := rfl
      rw [hbytes, length_append, length_append, hxn] at hlen
      rw [hrun] at hv
      rw [length_ascii] at hfront
      omega
    refine ⟨?_, hlen, ?_, punyDecode_front (fun p hp => (hv p hp).2) hshort hdrop hrun⟩
    · rw [hbytes, append_assoc]
      rfl
    · intro c hc
      rw [hbytes] at hc
      exact (mem_out hc).1
  · intro s v e hdec hdash henc
    obtain ⟨rest, ds, hs, hrest, hrun, hcodes, hnul, hscalar⟩ := punyDecode_some hdec hdash
    obtain ⟨ds', hbytes, -, hrun'⟩ := punyEncode_some (fun p hp => (hscalar p hp).le_max) hnul henc
    have hds : ds' = ds := Build.run_injective (sorted_start v) ds' ds (hrun'.trans hrun.symm)
    rw [hbytes, hds, ← hcodes, hs]
    -- the last dash is the one before the distances, or that of the mark
    by_cases hnil : ascii v = []
    · rw [hnil]
      exact (lowerTail_append [0x78, 0x6e, dash] hrest).symm
    · have htail := lowerTail_append (xn ++ ascii v) hrest
      rw [front, if_neg hnil]
      simp only [append_assoc, singleton_append] at htail ⊢
      exact htail.symm

/-- The label `grüße`. -/
def greetings : List Nat := [0x67, 0x72, 0xfc, 0xdf, 0x65]

/-- `xn--gre-6ka8l` -/
def greetingsCode : CString := ⟨xn ++ [0x67, 0x72, 0x65, 0x2d, 0x36, 0x6b, 0x61, 0x38, 0x6c], by decide⟩

theorem puny_roundTrip_greetings : punyDecode (greetingsCode.drop 4) = some greetings ∧
    greetingsCode.bytes = lowerTail (xn ++ (greetingsCode.drop 4).bytes) := by
  have henc : punyEncode greetings = some greetingsCode := by decide
  have hdec := (puny_roundTrip.1 greetings greetingsCode (by simp [Scalar, greetings]) henc).2.2.2
  exact ⟨hdec, puny_roundTrip.2 _ greetings greetingsCode hdec (by decide) henc⟩

/-- The point 0 ends the string it is written to. -/
theorem nul_cut : ¬∀ v s, (∀ p ∈ v, Scalar p) → punyEncode v = some s → punyDecode (s.drop 4) = some v := by
  intro h
  have hdec := h [0] ⟨xn, by decide⟩ (by simp [Scalar]) (by decide)
  rw [punyDecode, show splitBasic (CString.drop ⟨xn, by decide⟩ 4).bytes = ([], []) from rfl] at hdec
  dsimp only at hdec
  rw [any_nil, if_neg Bool.false_ne_true, decodeLoop, if_pos rfl] at hdec
  cases hdec

end Lunaria.Idn
