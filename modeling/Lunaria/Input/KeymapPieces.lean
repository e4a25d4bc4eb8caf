import Lunaria.Input.KeymapText

/-! The lines of a keymap and the pieces in which they are read. A line stands for what is loaded from its pieces exactly
    if it is read as it is written. -/

namespace Lunaria.Input
open CText Trimming List Option

/-! ### White space -/

section Space
variable {s t : List UInt8}

theorem firstWord_append_left (h : ∀ c ∈ t, isSpace c = true) (s : List UInt8) : firstWord (t ++ s) = firstWord s := by
  rw [firstWord, firstWord, dropWhile_append_of_pos h]

theorem firstWord_append_right (h : ∀ c ∈ t, isSpace c = true) (s : List UInt8) : firstWord (s ++ t) = firstWord s := by
  have hdrop : t.dropWhile isSpace = [] := dropWhile_eq_nil_iff.2 h
  have htake : t.takeWhile (fun c => !isSpace c) = [] := by
    cases t with
    | nil => rfl
    | cons c t => exact takeWhile_cons_of_neg (by rw [h c mem_cons_self]; exact Bool.false_ne_true)
  rw [firstWord, firstWord, dropWhile_append, hdrop]
  split
  · next hnil => rw [List.isEmpty_iff.1 hnil]
  · rw [takeWhile_append]
    split
    · next hlen =>
      have hself := ( takeWhile_prefix (fun c => !isSpace c) (l := s.dropWhile isSpace)).eq_of_length hlen
      rw [htake, append_nil, hself]
    · rfl

theorem firstWord_eq_nil : firstWord s = [] ↔ ∀ c ∈ s, isSpace c = true := by
  rw [firstWord, ← dropWhile_eq_nil_iff]
  constructor
  · intro h
    cases hd : s.dropWhile isSpace with
    | nil => rfl
    | cons c t =>
      have hc : isSpace c = false := by
        have hne : s.dropWhile isSpace ≠ [] := by rw [hd]; exact cons_ne_nil _ _
        have hnot := head_dropWhile_not isSpace hne
        simpa [hd] using hnot
      rw [hd, takeWhile_cons_of_pos (by rw [hc]; rfl)] at h
      cases h
  · intro h
    rw [h]
    rfl

theorem mem_firstWord {c : UInt8} (h : c ∈ firstWord s) : c ∈ s ∧ isSpace c = false := by
  refine ⟨(dropWhile_suffix _).subset (( takeWhile_prefix _).subset h), ?_⟩
  have := mem_takeWhile_imp h
  simpa using this

theorem ink_append (s t : List UInt8) : ink (s ++ t) = ink s ++ ink t := filter_append _ _

theorem ink_space (h : ∀ c ∈ t, isSpace c = true) : ink t = [] :=
  filter_eq_nil_iff.2 fun c hc => by rw [h c hc]; exact Bool.false_ne_true

theorem ink_word (h : ∀ c ∈ t, isSpace c = false) : ink t = t :=
  filter_eq_self.2 fun c hc => by rw [h c hc]; rfl

theorem ink_dropWhile (s : List UInt8) : ink (s.dropWhile isSpace) = ink s := by
  conv_rhs => rw [← takeWhile_append_dropWhile (p := isSpace) (l := s)]
  rw [ink_append, ink_space fun c hc => mem_takeWhile_imp hc, nil_append]

theorem ink_split (s : List UInt8) : ink s = firstWord s ++ ink (skipWord s) := by
  rw [← ink_dropWhile, skipWord]
  conv_lhs => rw [← takeWhile_append_dropWhile (p := fun c => !isSpace c) (l := s.dropWhile isSpace)]
  rw [ink_append]
  exact congrArg (· ++ _) (ink_word fun c hc => (mem_firstWord hc).2)

end Space

/-! ### Pieces -/

section Pieces
variable {R : Type} {F : Floats R} {s s' : Loading R} {line piece : List UInt8} {ps : List (List UInt8)}

theorem take_eq_lit {w name : List UInt8} (h : w.take 31 = name) (hlen : name.length < 31) : w = name := by
  have hle : w.length ≤ 31 := by
    have := congrArg List.length h
    rw [length_take] at this
    omega
  rw [← h, take_of_length_le hle]

theorem Reads.marker (h : Reads F s piece s') (hword : firstWord (cstr piece) ≠ []) : markers piece ≠ [] := by
  have hmem : ∀ {c : UInt8}, isMarker c = true → c ∈ firstWord (cstr piece) → markers piece ≠ [] := by
    intro c hm hc hnil
    have hcp : c ∈ piece := ( takeWhile_prefix _).subset (mem_firstWord hc).1
    have hmark : c ∈ markers piece := mem_filter.2 ⟨hcp, hm⟩
    rw [hnil] at hmark
    cases hmark
  have hname : ∀ {name : List UInt8}, lineName piece = name → name.length < 31 → firstWord (cstr piece) = name :=
    fun h hlen => take_eq_lit h hlen
  cases h with
  | skip h =>
    rcases h with h | h
    · rw [lineName, take_eq_nil_iff] at h
      exact absurd h (not_or.2 ⟨by decide, hword⟩)
    · have hhash := mem_of_head? h
      exact hmem (c := 0x23) (by decide) ((take_sublist _ _).subset hhash)
  | stick h => exact hmem (c := 0x73) (by decide) (hname h (by decide) ▸ by decide)
  | walk h => exact hmem (c := 0x77) (by decide) (hname h (by decide) ▸ by decide)
  | button h => exact hmem (c := 0x75) (by decide) (hname h (by decide) ▸ by decide)
  | macro' h => exact hmem (c := 0x6d) (by decide) (hname h (by decide) ▸ by decide)

theorem tail_space {tail : List UInt8} (h : tail = [] ∨ tail = [newline]) : (∀ c ∈ tail, isSpace c = true) ∧
    markers tail = [] ∧ 0 ∉ tail := by
  rcases h with rfl | rfl <;> exact ⟨forall_of_all (by decide), by decide, by decide⟩

theorem run_marker {room : Nat} (hcuts : Cuts room line ps) (hzero : 0 ∉ line) (hrun : ps.foldlM (loadLine F) s = some s')
    (hword : firstWord line ≠ []) : markers line ≠ [] := by
  induction hcuts generalizing s with
  | none => exact absurd rfl hword
  | @done line tail hlen htail =>
    obtain ⟨hspace, hclean, hzero'⟩ := tail_space htail
    obtain ⟨s₁, hread, -⟩ := run_cons.1 hrun
    have hcstr : cstr (line ++ tail) = line ++ tail :=
      cstr_of_not_mem fun hmem => (mem_append.1 hmem).elim hzero hzero'
    have hmark := (loadLine_reads hread).marker (by rw [hcstr, firstWord_append_right hspace]; exact hword)
    rwa [markers_append, hclean, append_nil] at hmark
  | @more line pieces hlen hrest ih =>
    obtain ⟨s₁, hread, hrun⟩ := run_cons.1 hrun
    have hsplit := take_append_drop room line
    have hzero₁ : 0 ∉ line.take room := fun hmem => hzero ((take_sublist _ _).subset hmem)
    have hzero₂ : 0 ∉ line.drop room := fun hmem => hzero ((drop_sublist _ _).subset hmem)
    rw [← hsplit, markers_append]
    by_cases hfirst : firstWord (line.take room) = []
    · have hdrop : firstWord (line.drop room) ≠ [] := by
        rw [← firstWord_append_left (firstWord_eq_nil.1 hfirst), hsplit]
        exact hword
      exact append_ne_nil_of_right_ne_nil _ (ih hzero₂ hrun hdrop)
    · exact append_ne_nil_of_left_ne_nil
        ((loadLine_reads hread).marker (by rw [cstr_of_not_mem hzero₁]; exact hfirst)) _

/-- The first piece of a line that has words, and what is around it. -/
structure FirstPiece (F : Floats R) (s' : Loading R) (room : Nat) (line pre c rest tail : List UInt8) : Prop where
  split : line = pre ++ (c ++ rest)
  space : ∀ d ∈ pre, isSpace d = true
  start : ∃ i, pre.length = room * i
  word : firstWord c ≠ []
  length : c.length ≤ room
  full : rest = [] ∨ c.length = room
  ending : tail = [] ∨ tail = [newline]
  read : ∃ s₁ s₂, Reads F s₁ (c ++ tail) s₂ ∧ Grows s₂ s'
  after : firstWord rest = [] ∨ markers rest ≠ []

theorem exists_firstPiece {room : Nat} (hcuts : Cuts room line ps) (hzero : 0 ∉ line)
    (hrun : ps.foldlM (loadLine F) s = some s')
    (hword : firstWord line ≠ []) : ∃ pre c rest tail, FirstPiece F s' room line pre c rest tail := by
  induction hcuts generalizing s with
  | none => exact absurd rfl hword
  | @done line tail hlen htail =>
    obtain ⟨s₁, hread, hrun⟩ := run_cons.1 hrun
    refine ⟨[], line, [], tail, ⟨by simp, nofun, ⟨0, rfl⟩, hword, Nat.le_of_lt hlen, .inl rfl, htail,
      ⟨s, s₁, loadLine_reads hread, run_grows hrun⟩, .inl rfl⟩⟩
  | @more line pieces hlen hrest ih =>
    obtain ⟨s₁, hread, hrun⟩ := run_cons.1 hrun
    have hsplit := take_append_drop room line
    have htake : (line.take room).length = room := by
      rw [length_take]
      omega
    have hzero' : 0 ∉ line.drop room := fun hmem => hzero ((drop_sublist _ _).subset hmem)
    by_cases hfirst : firstWord (line.take room) = []
    · have hspace := firstWord_eq_nil.1 hfirst
      have hdrop : firstWord (line.drop room) ≠ [] := by
        rw [← firstWord_append_left hspace, hsplit]
        exact hword
      obtain ⟨pre, c, rest, tail, hp⟩ := ih hzero' hrun hdrop
      obtain ⟨i, hi⟩ := hp.start
      refine ⟨line.take room ++ pre, c, rest, tail, ⟨?_, ?_, ⟨i + 1, ?_⟩, hp.word, hp.length, hp.full, hp.ending, hp.read,
        hp.after⟩⟩
      · rw [append_assoc, ← hp.split, hsplit]
      · exact fun d hd => (mem_append.1 hd).elim (hspace d) (hp.space d)
      · rw [length_append, htake, hi, Nat.mul_succ, Nat.add_comm]
    · refine ⟨[], line.take room, line.drop room, [], ⟨hsplit.symm, nofun, ⟨0, rfl⟩, hfirst, Nat.le_of_eq htake, .inr htake,
        .inl rfl, ⟨s, s₁, ?_, run_grows hrun⟩, ?_⟩⟩
      · rw [append_nil]
        exact loadLine_reads hread
      · by_cases hrest' : firstWord (line.drop room) = []
        · exact .inl hrest'
        · exact .inr (run_marker hrest hzero' hrun hrest')

theorem FirstPiece.uncut_iff {pre c rest tail : List UInt8} (h : FirstPiece F s' (lineSize - 1) line pre c rest tail)
    (hzero : 0 ∉ line) : Uncut line ↔ firstWord rest = [] := by
  obtain ⟨i, hi⟩ := h.start
  have hc : ∃ d ∈ c, isSpace d = false := by
    by_contra hnone
    exact h.word (firstWord_eq_nil.2 fun d hd => Bool.of_not_eq_false fun hd' => hnone ⟨d, hd, hd'⟩)
  obtain ⟨d, hd, hnot⟩ := hc
  have hlen := h.length
  have hdrop : line.drop ((lineSize - 1) * (i + 1)) = (c ++ rest).drop (lineSize - 1) := by
    rw [h.split, Nat.mul_succ, ← drop_drop, drop_left' hi]
  have hrest : (c ++ rest).drop (lineSize - 1) = rest := by
    rcases h.full with rfl | hfull
    · rw [append_nil]
      exact drop_eq_nil_of_le hlen
    · exact drop_left' hfull
  constructor
  · rintro ⟨-, j, htake, hafter⟩
    rw [List.all_eq_true] at htake hafter
    have hlt : ¬ i < j := by
      intro hij
      refine Bool.noConfusion (hnot.symm.trans (htake d ?_))
      have hle : pre.length + c.length ≤ (lineSize - 1) * j := by
        have := Nat.mul_le_mul_left (lineSize - 1) (Nat.succ_le_of_lt hij)
        rw [Nat.mul_succ] at this
        omega
      have hprefix : pre ++ c <+: line.take ((lineSize - 1) * j) := by
        rw [prefix_take_iff, length_append]
        refine ⟨⟨rest, ?_⟩, hle⟩
        rw [append_assoc, ← h.split]
      exact hprefix.subset (mem_append_right _ hd)
    have hgt : ¬ j < i := by
      intro hji
      refine Bool.noConfusion (hnot.symm.trans (hafter d ?_))
      have hle : (lineSize - 1) * (j + 1) ≤ pre.length := by
        rw [hi]
        exact Nat.mul_le_mul_left _ hji
      rw [h.split, drop_append_of_le_length hle]
      exact mem_append_right _ (mem_append_left _ hd)
    obtain rfl : j = i := by omega
    rw [hdrop, hrest] at hafter
    exact firstWord_eq_nil.2 hafter
  · intro hspace
    refine ⟨hzero, i, ?_, ?_⟩
    · rw [h.split, take_left' hi, List.all_eq_true]
      exact h.space
    · rw [hdrop, hrest, List.all_eq_true]
      exact firstWord_eq_nil.1 hspace

end Pieces

/-! ### The lines of the stick and of walking -/

section Scans
variable {R : Type} {F : Floats R} {s s' : Loading R} {text line : List UInt8} {m : Keymap R}

variable {v : R}

theorem finite_of_unit (h : unit F v = true) : F.finite v = true := (of_decide_eq_true h).1

theorem finite_of_inRadius (h : inRadius F v = true) : F.finite v = true := (of_decide_eq_true h).1

theorem scan_ink (hF : F.Lawful) {r : List UInt8} (h : F.scan text = some (v, r)) (hv : F.finite v = true) :
    ∃ t, ink text = t ++ ink r ∧ number F t = some v := by
  obtain ⟨t, hsplit, hne, hspace, hread⟩ := hF.scan h
  refine ⟨t, ?_, ?_⟩
  · rw [← ink_dropWhile, hsplit, ink_append, ink_word hspace]
  · have hlen : ([] : List UInt8).length ≠ t.length := fun h => hne (length_eq_zero_iff.1 h.symm)
    dsimp only [number]
    rw [hread]
    exact if_pos ⟨hlen, rfl, hv⟩

theorem ink_all_space {t : List UInt8} (h : t.all isSpace = true) : ink t = [] := ink_space (List.all_eq_true.1 h)

theorem scanStick_ink (hF : F.Lawful) {x y radius : R} (h : scanStick F text = some (x, y, radius)) (hx : unit F x = true)
    (hy : unit F y = true) (hradius : inRadius F radius = true) : ∃ a b c, ink (skipWord text) = a ++ (b ++ c) ∧
      number F a = some x ∧ number F b = some y ∧ number F c = some radius := by
  unfold scanStick at h
  obtain ⟨⟨x', r⟩, hscan, h⟩ := bind_eq_some_iff.1 h
  obtain ⟨⟨y', r'⟩, hscan', h⟩ := bind_eq_some_iff.1 h
  obtain ⟨⟨radius', r''⟩, hscan'', h⟩ := bind_eq_some_iff.1 h
  obtain ⟨hspace, h⟩ := guard_bind.1 h
  obtain ⟨rfl, ⟨⟩⟩ := Prod.mk.inj (some.inj h)
  obtain ⟨a, ha, hxa⟩ := scan_ink hF hscan (finite_of_unit hx)
  obtain ⟨b, hb, hyb⟩ := scan_ink hF hscan' (finite_of_unit hy)
  obtain ⟨c, hc, hrc⟩ := scan_ink hF hscan'' (finite_of_inRadius hradius)
  refine ⟨a, b, c, ?_, hxa, hyb, hrc⟩
  rw [ha, hb, hc, ink_all_space hspace, append_nil]

theorem scanWalk_ink (hF : F.Lawful) {key : List UInt8} {radius : R} (h : scanWalk F text = some (key, radius))
    (hradius : inRadius F radius = true) : ∃ a, ink (skipWord text) = key ++ a ∧ number F a = some radius := by
  have hkey := scanWalk_key h
  unfold scanWalk at h
  dsimp only at h
  obtain ⟨-, h⟩ := guard_bind.1 h
  obtain ⟨⟨radius', r⟩, hscan, h⟩ := bind_eq_some_iff.1 h
  obtain ⟨hspace, h⟩ := guard_bind.1 h
  obtain ⟨-, rfl⟩ := Prod.mk.inj (some.inj h)
  obtain ⟨a, ha, hra⟩ := scan_ink hF hscan (finite_of_inRadius hradius)
  refine ⟨a, ?_, hra⟩
  rw [ink_all_space hspace, append_nil, ← hkey] at ha
  have hprefix : key <+: (skipWord text).dropWhile isSpace := by
    rw [hkey]
    exact ( take_prefix _ _).trans ( takeWhile_prefix _)
  obtain ⟨t, ht⟩ := hprefix
  have hink : ink key = key := ink_word fun c hc => by
    rw [hkey] at hc
    exact (mem_firstWord ((take_sublist _ _).subset hc)).2
  rw [← ink_dropWhile, ← ht, ink_append, hink]
  rw [← ht, drop_left' rfl] at ha
  rw [ha]

theorem keyCode_ne_zero {w : List UInt8} {code : Nat} (h : keyCode w = some code) : code ≠ 0 := by
  rintro rfl
  unfold keyCode at h
  iterate 3
    split at h
    · exact absurd (some.inj h) (by decide)
  split at h
  · next c _ _ _ =>
    split at h
    · next hc =>
      have hzero : c = 0 := UInt8.toNat_inj.1 (some.inj h)
      subst hzero
      exact absurd hc (by decide)
    · cases h
  · cases h

end Scans

/-! ### The words of buttons and macros -/

section Words
variable {R : Type} {F : Floats R} {w : List UInt8} {args : List (List UInt8)}

theorem not_isHold (h : isRepeat w = true) : isHold w = false := by
  rw [isRepeat_split h]
  exact decide_eq_false fun hhold => by
    obtain ⟨t, ht⟩ := hhold
    cases (List.cons.inj ht).1

/-- What the words of a button leave in the variables. -/
structure ArgsOf (F : Floats R) (ws : List (List UInt8)) (a : Args R) : Prop where
  values : Forall₂ (fun w v => number F w = some v) (ws.filter fun w => !isOption w) a.values
  repeatMs : a.repeatMs = repeatOf ws
  holdMs : a.holdMs = lastValue isHold holdValue ws

variable {is : List UInt8 → Bool} {value : List UInt8 → Option Int} {ws : List (List UInt8)} {c : UInt8} {s : List UInt8}

theorem lastValue_append {n : Int}
    (h : is w = true) (hv : value w = some n) : lastValue is value (ws ++ [w]) = n := by
  rw [lastValue, filter_append, filter_singleton, h, Bool.cond_true, filterMap_append]
  rw [filterMap_cons, hv, filterMap_nil, getLast?_concat, getD_some]

theorem lastValue_append_other
    (h : is w = false) : lastValue is value (ws ++ [w]) = lastValue is value ws := by
  rw [lastValue, filter_append, filter_singleton, h, Bool.cond_false, append_nil, lastValue]

theorem ArgsOf.step {a a' : Args R} (h : ArgsOf F ws a) (hw : buttonWord F a w = some a') :
    ArgsOf F (ws ++ [w]) a' := by
  unfold buttonWord at hw
  by_cases hr : isRepeat w = true
  · rw [if_pos hr] at hw
    obtain ⟨n, hn, rfl⟩ := map_eq_some_iff.1 hw
    have ho : isOption w = true := by rw [isOption, hr, Bool.true_or]
    refine ⟨?_, (lastValue_append hr hn).symm, ?_⟩
    · rw [filter_append, filter_singleton, ho, Bool.not_true, Bool.cond_false, append_nil]
      exact h.values
    · exact h.holdMs.trans (lastValue_append_other (not_isHold hr)).symm
  rw [if_neg hr] at hw
  have hr := Bool.eq_false_iff.2 hr
  by_cases hh : isHold w = true
  · rw [if_pos hh] at hw
    obtain ⟨n, hn, rfl⟩ := map_eq_some_iff.1 hw
    have ho : isOption w = true := by rw [isOption, hh, Bool.or_true]
    refine ⟨?_, ?_, (lastValue_append hh hn).symm⟩
    · rw [filter_append, filter_singleton, ho, Bool.not_true, Bool.cond_false, append_nil]
      exact h.values
    · exact h.repeatMs.trans (lastValue_append_other hr).symm
  rw [if_neg hh] at hw
  have hh := Bool.eq_false_iff.2 hh
  split at hw
  · cases hw
  obtain ⟨v, hv, hw⟩ := bind_eq_some_iff.1 hw
  split at hw
  swap
  · cases hw
  cases hw
  have ho : isOption w = false := by rw [isOption, hr, hh, Bool.false_or]
  refine ⟨?_, ?_, ?_⟩
  · rw [filter_append, filter_singleton, ho, Bool.not_false, Bool.cond_true]
    exact rel_append h.values (.cons hv .nil)
  · exact h.repeatMs.trans (lastValue_append_other hr).symm
  · exact h.holdMs.trans (lastValue_append_other hh).symm

theorem ArgsOf.run : ∀ {ws ws' : List (List UInt8)} {a a' : Args R}, ArgsOf F ws a → ws'.foldlM (buttonWord F) a = some a' →
    ArgsOf F (ws ++ ws') a'
  | ws, [], _, _, h, hrun => by
    cases hrun
    rwa [append_nil]
  | ws, w :: ws', a, a', h, hrun => by
    rw [foldlM_cons] at hrun
    obtain ⟨a₁, ha, hrun⟩ := bind_eq_some_iff.1 hrun
    have hargs := ArgsOf.run (h.step ha) hrun
    rwa [append_assoc, singleton_append] at hargs

theorem flatMap_pairs : ∀ {vs : List R}, vs.length % 2 = 0 → ((pairs vs).flatMap fun p => [p.1, p.2]) = vs
  | [], _ => by simp [pairs]
  | [_], h => by simp at h
  | x :: y :: vs, h => by
    have htail : vs.length % 2 = 0 := by
      rw [length_cons, length_cons] at h
      omega
    rw [pairs, flatMap_cons, flatMap_pairs htail]
    rfl

theorem buttonWords_iff {b : Button R} {a : Args R} (h : (args.take 14).foldlM (buttonWord F) ⟨[], 0, 0⟩ = some a)
    (hcount : a.values.length % 2 = 0) (hrepeat : b.repeatMs = a.repeatMs) (hhold : b.holdMs = holdTime a.repeatMs a.holdMs)
    (hpoints : b.points = pairs a.values) : ButtonWords F b args ↔ ButtonKept args := by
  have hargs := ArgsOf.run (⟨.nil, rfl, rfl⟩ : ArgsOf F [] _) h
  rw [nil_append] at hargs
  have hrepeat' : b.repeatMs = repeatOf (args.take 14) := hrepeat.trans hargs.repeatMs
  have hhold' : b.holdMs = holdOf (args.take 14) := by rw [hhold, hargs.repeatMs, hargs.holdMs, holdOf]
  have hvalues : (b.points.flatMap fun p => [p.1, p.2]) = a.values := by rw [hpoints, flatMap_pairs hcount]
  have hsplit : args.filter (fun w => !isOption w) =
      (args.take 14).filter (fun w => !isOption w) ++ (args.drop 14).filter fun w => !isOption w := by
    rw [← filter_append, take_append_drop]
  constructor
  · intro hw
    refine ⟨fun w hdrop => ?_, ?_, ?_⟩
    · have hlen := hw.points.length_eq
      rw [hvalues, hsplit, length_append, hargs.values.length_eq] at hlen
      have hnil : (args.drop 14).filter (fun w => !isOption w) = [] := length_eq_zero_iff.1 (by omega)
      have hnot := filter_eq_nil_iff.1 hnil w hdrop
      simpa using hnot
    · rw [← hrepeat']
      exact hw.repeats
    · rw [← hhold']
      exact hw.holds
  · intro hk
    refine ⟨?_, ?_, ?_⟩
    · have hnil : (args.drop 14).filter (fun w => !isOption w) = [] :=
        filter_eq_nil_iff.2 fun w hw => by rw [hk.options w hw]; exact Bool.false_ne_true
      rw [hvalues, hsplit, hnil, append_nil]
      exact hargs.values
    · rw [hrepeat']
      exact hk.repeats
    · rw [hhold']
      exact hk.holds

theorem cut_mem (h : c ∈ s) : s = (cut c s).1 ++ c :: (cut c s).2 := by
  have hne : s.dropWhile (fun d => decide (d ≠ c)) ≠ [] := fun hnil => by
    have := dropWhile_eq_nil_iff.1 hnil c h
    simp at this
  have hhead : (s.dropWhile fun d => decide (d ≠ c)).head hne = c := by
    have := head_dropWhile_not (fun d => decide (d ≠ c)) hne
    simpa using this
  conv_lhs => rw [← takeWhile_append_dropWhile (p := fun d => decide (d ≠ c)) (l := s), ← cons_head_tail hne, hhead]
  rfl

theorem not_mem_cut : c ∉ (cut c s).1 := fun h => by
  have := mem_takeWhile_imp h
  simp at this

theorem cut_not_mem (h : c ∉ s) : (cut c s).1 = s :=
  takeWhile_eq_self_iff.2 fun _ hd => decide_eq_true fun heq => h (heq ▸ hd)

theorem stepPoint_text {points points' : List (R × R)} (h : stepPoint F points w = some points') :
    ∃ p, points' = points ++ [p] ∧ PointText F w p := by
  unfold stepPoint at h
  obtain ⟨⟨hcomma, -⟩, h⟩ := guard_bind.1 h
  obtain ⟨x, hx, h⟩ := bind_eq_some_iff.1 h
  obtain ⟨y, hy, h⟩ := bind_eq_some_iff.1 h
  obtain ⟨-, h⟩ := guard_bind.1 h
  cases h
  exact ⟨(x, y), rfl, _, _, cut_mem hcomma, not_mem_cut, hx, hy⟩

theorem stepPoints_text : ∀ {ws : List (List UInt8)} {points points' : List (R × R)},
    ws.foldlM (stepPoint F) points = some points' → ∃ ps, points' = points ++ ps ∧ Forall₂ (PointText F) ws ps
  | [], points, _, h => by
    cases h
    exact ⟨[], (append_nil _).symm, .nil⟩
  | w :: ws, points, points', h => by
    rw [foldlM_cons] at h
    obtain ⟨points₁, hw, h⟩ := bind_eq_some_iff.1 h
    obtain ⟨p, rfl, hp⟩ := stepPoint_text hw
    obtain ⟨ps, rfl, hps⟩ := stepPoints_text h
    exact ⟨p :: ps, by rw [append_assoc, singleton_append], .cons hp hps⟩

theorem parseStep_text {st : Step R} (h : parseStep F w = some st) : StepText F w st := by
  unfold parseStep at h
  split at h
  · next hwait =>
    obtain ⟨n, hn, rfl⟩ := map_eq_some_iff.1 h
    refine .inl ⟨w.tail, ?_, hn, rfl⟩
    cases w with
    | nil => cases hwait
    | cons c w => rw [some.inj hwait, tail_cons]
  · obtain ⟨hold, hhold, h⟩ := bind_eq_some_iff.1 h
    obtain ⟨points, hpoints, h⟩ := bind_eq_some_iff.1 h
    obtain ⟨-, h⟩ := guard_bind.1 h
    cases h
    obtain ⟨ps, rfl, hps⟩ := stepPoints_text hpoints
    by_cases hslash : 0x2f ∈ w
    · rw [if_pos hslash] at hhold
      exact .inr ⟨_, _, cut_mem hslash, not_mem_cut, hps, .inr ⟨_, rfl, hhold⟩⟩
    · rw [if_neg hslash] at hhold
      rw [cut_not_mem hslash] at hps
      exact .inr ⟨w, [], (append_nil w).symm, hslash, hps, .inl ⟨rfl, (some.inj hhold).symm⟩⟩

structure StepsOf (F : Floats R) (ws : List (List UInt8)) (mc : Macro R) : Prop where
  words : MacroWords F mc ws
  count : mc.steps.length ≤ macroSteps

theorem StepsOf.step {mc mc' : Macro R} (h : StepsOf F ws mc) (hw : macroWord F mc w = some mc') :
    StepsOf F (ws ++ [w]) mc' := by
  unfold macroWord at hw
  split at hw
  · next hloop =>
    cases hw
    refine ⟨⟨?_, fun _ => rfl⟩, h.count⟩
    rw [filter_append, filter_singleton, decide_eq_false (not_not.2 hloop), Bool.cond_false, append_nil]
    exact h.words.steps
  · next hloop =>
    split at hw
    · cases hw
    next hroom =>
    obtain ⟨st, hst, rfl⟩ := map_eq_some_iff.1 hw
    refine ⟨⟨?_, fun hmem => ?_⟩, ?_⟩
    · rw [filter_append, filter_singleton, decide_eq_true hloop, Bool.cond_true]
      exact rel_append h.words.steps (.cons (parseStep_text hst) .nil)
    · refine h.words.loop ((mem_append.1 hmem).resolve_right fun hmem => ?_)
      exact hloop (mem_singleton.1 hmem).symm
    · have := h.count
      rw [length_append, length_singleton]
      omega

theorem StepsOf.run : ∀ {ws ws' : List (List UInt8)} {mc mc' : Macro R}, StepsOf F ws mc →
    ws'.foldlM (macroWord F) mc = some mc' → StepsOf F (ws ++ ws') mc'
  | ws, [], _, _, h, hrun => by
    cases hrun
    rwa [append_nil]
  | ws, w :: ws', mc, mc', h, hrun => by
    rw [foldlM_cons] at hrun
    obtain ⟨mc₁, hmc, hrun⟩ := bind_eq_some_iff.1 hrun
    have hsteps := StepsOf.run (h.step hmc) hrun
    rwa [append_assoc, singleton_append] at hsteps

theorem macroWords_iff {mc : Macro R} {code id : Nat}
    (h : (args.take (macroSteps + 1)).foldlM (macroWord F) ⟨code, id, false, []⟩ = some mc) :
    MacroWords F mc args ↔ MacroKept args := by
  have hempty : StepsOf F [] (⟨code, id, false, []⟩ : Macro R) := ⟨⟨.nil, nofun⟩, Nat.zero_le _⟩
  have hsteps := hempty.run h
  rw [nil_append] at hsteps
  have hsplit :
      args.filter (fun w => decide (w ≠ lit "loop")) = (args.take (macroSteps + 1)).filter
        (fun w => decide (w ≠ lit "loop")) ++
      (args.drop (macroSteps + 1)).filter fun w => decide (w ≠ lit "loop") := by
    rw [← filter_append, take_append_drop]
  constructor
  · intro hw w hdrop
    have hlen := hw.steps.length_eq
    rw [hsplit, length_append, hsteps.words.steps.length_eq] at hlen
    have hnil : (args.drop (macroSteps + 1)).filter (fun w => decide (w ≠ lit "loop")) = [] :=
      length_eq_zero_iff.1 (by omega)
    by_contra hne
    exact filter_eq_nil_iff.1 hnil w hdrop (decide_eq_true hne)
  · intro hk
    have hnil : (args.drop (macroSteps + 1)).filter (fun w => decide (w ≠ lit "loop")) = [] :=
      filter_eq_nil_iff.2 fun w hw => by simp [hk w hw]
    refine ⟨?_, fun hmem => ?_⟩
    · rw [hsplit, hnil, append_nil]
      exact hsteps.words.steps
    · -- without a `loop` among the first words these would all be steps, which is one too many
      by_contra hloop
      have hnot : lit "loop" ∉ args.take (macroSteps + 1) := fun h => hloop (hsteps.words.loop h)
      have hdrop : lit "loop" ∈ args.drop (macroSteps + 1) := by
        rw [← take_append_drop (macroSteps + 1) args] at hmem
        exact (mem_append.1 hmem).resolve_left hnot
      have hlen : (args.take (macroSteps + 1)).length = macroSteps + 1 := by
        have := length_pos_of_mem hdrop
        rw [length_drop] at this
        rw [length_take]
        omega
      have hall : (args.take (macroSteps + 1)).filter (fun w => decide (w ≠ lit "loop")) = args.take (macroSteps + 1) :=
        filter_eq_self.2 fun w hw => decide_eq_true fun heq => hnot (heq ▸ hw)
      have hcount := hsteps.words.steps.length_eq
      rw [hall, hlen] at hcount
      have := hsteps.count
      omega

end Words

/-! ### A line -/

section Line
variable {R : Type} {F : Floats R} {s' : Loading R} {line pre c rest tail : List UInt8}

/-- White space in front of a text whose first word is more than that changes no other word. -/
theorem tokens_ink {s : List UInt8} : ∀ {pre w : List UInt8} {ws : List (List UInt8)}, (∀ d ∈ pre, isSpace d = true) →
    tokens blank (pre ++ s) = w :: ws → ink w ≠ [] → (tokens blank s).tail = ws
  | [], w, ws, _, h, _ => by
    rw [nil_append] at h
    rw [h]
    rfl
  | d :: pre, w, ws, hpre, h, hw => by
    rw [forall_mem_cons] at hpre
    by_cases hd : blank d = true
    · rw [cons_append, tokens_cons_sep hd] at h
      exact tokens_ink hpre.2 h hw
    have hspace : ∀ u : List UInt8, ink (d :: u) = ink u := fun u => filter_cons_of_neg (by simp [hpre.1])
    rcases tokens_cons_word (Bool.eq_false_iff.2 hd) (pre ++ s) with ⟨ws', hcons⟩ | ⟨w', ws', hrest, hcons⟩
    · obtain ⟨rfl, -⟩ := List.cons.inj (hcons.symm.trans h)
      exact absurd (hspace []) hw
    · obtain ⟨rfl, rfl⟩ := List.cons.inj (hcons.symm.trans h)
      exact tokens_ink hpre.2 hrest (hspace w' ▸ hw)

variable {room : Nat} {m : Keymap R}

section
variable (h : FirstPiece F s' room line pre c rest tail)
include h

theorem FirstPiece.tokens_eq {name : List UInt8} (hworded : Worded name line) (hname : name ≠ [])
    (hrest : firstWord rest = []) : (tokens blank (c ++ tail)).tail = (tokens blank line).tail := by
  obtain ⟨hend, w, ws, hline, rfl⟩ := hworded
  have htail : ∀ d ∈ tail, blank d = true := by
    rcases h.ending with rfl | rfl <;> exact forall_of_all (by decide)
  have hblank : ∀ d ∈ rest, blank d = true := by
    refine fun d hd => hend d ?_
    rw [h.split, ← append_assoc, rtakeWhile, reverse_append,
      takeWhile_append_of_pos fun e he => firstWord_eq_nil.1 hrest e (mem_reverse.1 he), reverse_append, reverse_reverse]
    exact mem_append_right _ hd
  have hleft : tokens blank (pre ++ c) = w :: ws := by
    rw [← hline, h.split, ← append_assoc, tokens_append_right hblank]
  rw [tokens_append_right htail, hline, tail_cons, tokens_ink h.space hleft hname]

theorem FirstPiece.firstWord_eq (hrest : firstWord rest = []) :
    firstWord (c ++ tail) = firstWord line := by
  rw [h.split, firstWord_append_left h.space, firstWord_append_right (firstWord_eq_nil.1 hrest),
    firstWord_append_right (tail_space h.ending).1]

theorem FirstPiece.ink_eq (hrest : firstWord rest = []) :
    ink (c ++ tail) = ink line := by
  rw [h.split, ink_append, ink_append, ink_append, ink_space h.space, ink_space (firstWord_eq_nil.1 hrest),
    ink_space (tail_space h.ending).1, append_nil, nil_append]

end

theorem split_args {text : List UInt8} {name key : List UInt8} {args : List (List UInt8)} {n : Nat} (hzero : 0 ∉ text)
    (h : tokens blank text = name :: key :: args) :
    (Input.split text (n + 2)).getD 1 [] = key ∧ (Input.split text (n + 2)).drop 2 = args.take n := by
  rw [Input.split, cstr_of_not_mem hzero, h]
  exact ⟨rfl, rfl⟩

theorem Sound.button_inj (h : Sound m) {b b' : Button R} (hb : b ∈ m.buttons) (hb' : b' ∈ m.buttons)
    (hkey : b.key = b'.key) : b = b' :=
  inj_on_of_nodup_map ((nodup_append.1 (nodup_append.1 h.keys).2.1).1) hb hb' hkey

theorem Sound.macro_inj (h : Sound m) {mc mc' : Macro R} (hmc : mc ∈ m.macros) (hmc' : mc' ∈ m.macros)
    (hkey : mc.key = mc'.key) : mc = mc' :=
  inj_on_of_nodup_map ((nodup_append.1 (nodup_append.1 h.keys).2.1).2.1) hmc hmc' hkey

/-- A line from which one of these was made stands for it exactly if the words that were not read say nothing else. -/
theorem lineOf_iff {α : Type} {l : List α} {key : α → Nat} {words : α → List (List UInt8) → Prop}
    {kept : List (List UInt8) → Prop} {name : String} {text : List UInt8} {n : Nat} {b : α} (hzero : 0 ∉ text)
    (htokens : Worded (lit name) line → (tokens blank text).tail = (tokens blank line).tail)
    (hlen : 2 ≤ (Input.split text (n + 2)).length) (hmem : b ∈ l) (hinj : ∀ b' ∈ l, key b = key b' → b = b')
    (hkey : keyCode ((Input.split text (n + 2)).getD 1 []) = some (key b))
    (hwords : ∀ args : List (List UInt8), (Input.split text (n + 2)).drop 2 = args.take n → (words b args ↔ kept args)) :
    LineOf name l key words line ↔ Worded (lit name) line ∧ kept ((tokens blank line).drop 2) := by
  refine and_congr_right fun hworded => ?_
  have htail := htokens hworded
  have hlen' := hlen
  rw [Input.split, cstr_of_not_mem hzero, length_take] at hlen'
  obtain ⟨w, k, args, htext⟩ : ∃ w k args, tokens blank text = w :: k :: args := by
    rcases h : tokens blank text with _ | ⟨w, _ | ⟨k, args⟩⟩
    · rw [h, length_nil] at hlen'
      omega
    · rw [h, length_singleton] at hlen'
      omega
    · exact ⟨w, k, args, rfl⟩
  obtain ⟨hk, hdrop⟩ := split_args (n := n) hzero htext
  rw [htext, tail_cons] at htail
  obtain ⟨v, hline⟩ : ∃ v, tokens blank line = v :: k :: args := by
    obtain ⟨-, v, vs, hline, -⟩ := hworded
    rw [hline, tail_cons] at htail
    exact ⟨v, by rw [hline, htail]⟩
  rw [hk] at hkey
  rw [hline]
  change _ ↔ kept args
  rw [← hwords args hdrop]
  constructor
  · rintro ⟨k', args', heq, b', hb', hcode, hb⟩
    obtain ⟨rfl, rfl⟩ := List.cons.inj heq
    obtain rfl := hinj b' hb' (some.inj (hkey.symm.trans hcode))
    exact hb
  · exact fun hb => ⟨k, args, rfl, b, hmem, hkey, hb⟩

theorem button_iff (hsound : Sound s'.next) (hzero : 0 ∉ c ++ tail) {b : Button R} {a : Args R}
    (hb : ButtonMade F m (c ++ tail) b a) (hmem : b ∈ s'.next.buttons)
    (htokens : Worded (lit "button") line → (tokens blank (c ++ tail)).tail = (tokens blank line).tail) :
    ButtonLine F s'.next line ↔ Worded (lit "button") line ∧ ButtonKept ((tokens blank line).drop 2) :=
  lineOf_iff (n := 14) hzero htokens (le_trans (by decide) hb.words) hmem (fun _ hb' => hsound.button_inj hmem hb') hb.key
    fun _ hdrop => buttonWords_iff (hdrop ▸ hb.args) hb.count.2 hb.repeatMs hb.holdMs hb.points

theorem macro_iff (hsound : Sound s'.next) (hzero : 0 ∉ c ++ tail) {mc : Macro R}
    (hmc : MacroMade F m (c ++ tail) mc) (hmem : mc ∈ s'.next.macros)
    (htokens : Worded (lit "macro") line → (tokens blank (c ++ tail)).tail = (tokens blank line).tail) :
    MacroLine F s'.next line ↔ Worded (lit "macro") line ∧ MacroKept ((tokens blank line).drop 2) := by
  obtain ⟨code, id, hmade⟩ := hmc.args
  exact lineOf_iff (n := macroSteps + 1) hzero htokens (le_trans (by decide) hmc.words) hmem
    (fun _ hmc' => hsound.macro_inj hmem hmc') hmc.key fun _ hdrop => macroWords_iff (hdrop ▸ hmade)

/-- A line that is spoken stands for what is loaded from it exactly if it is read as it is written. -/
theorem represented_iff (hF : F.Lawful) (hsound : Sound s'.next) {ps : List (List UInt8)} {s₀ s₁ : Loading R}
    (hcuts : Cuts (lineSize - 1) line ps) (hrun : ps.foldlM (loadLine F) s₀ = some s₁) (hgrows : Grows s₁ s')
    (hspoken : Spoken line) : Represented F s'.next line ↔ Kept line := by
  by_cases hzero : 0 ∈ line
  · refine iff_of_false (fun h => ?_) fun h => h.uncut.1 hzero
    obtain ⟨d, hd, hmarkers⟩ := h.markers hF
    have hmem : 0 ∈ markers line := mem_filter.2 ⟨hzero, by decide⟩
    rw [hmarkers] at hmem
    exact hd (mem_singleton.1 hmem).symm
  obtain ⟨pre, c, rest, tail, hp⟩ := exists_firstPiece hcuts hzero hrun hspoken.1
  obtain ⟨s₂, s₃, hreads, hgrows'⟩ := hp.read
  have hg := hgrows'.trans hgrows
  have huncut := hp.uncut_iff hzero
  have hzero' : 0 ∉ c ++ tail := by
    have hc : 0 ∉ c := fun h => hzero (by rw [hp.split]; simp [h])
    exact fun h => (mem_append.1 h).elim hc (tail_space hp.ending).2.2
  have hcstr := cstr_of_not_mem hzero'
  have hwordc : firstWord (c ++ tail) ≠ [] := by
    rw [firstWord_append_right (tail_space hp.ending).1]
    exact hp.word
  by_cases hrest : firstWord rest = []
  swap
  · -- the first piece has a marker and so has what follows it
    refine iff_of_false (fun h => ?_) fun h => hrest (huncut.1 h.uncut)
    obtain ⟨d, -, hmarkers⟩ := h.markers hF
    have hfirst := hreads.marker (by rwa [hcstr])
    rw [markers_append, (tail_space hp.ending).2.1, append_nil] at hfirst
    have hafter := hp.after.resolve_left hrest
    have hlen := congrArg List.length hmarkers
    rw [hp.split, markers_append, markers_append, length_append, length_append, length_singleton] at hlen
    have h₁ := length_pos_iff.2 hfirst
    have h₂ := length_pos_iff.2 hafter
    omega
  have hword := hp.firstWord_eq hrest
  have hname : lineName (c ++ tail) = (firstWord line).take 31 := by rw [lineName, hcstr, hword]
  have hkept : Kept line ↔
      (firstWord line = lit "button" → Worded (lit "button") line ∧ ButtonKept ((tokens blank line).drop 2)) ∧
      (firstWord line = lit "macro" → Worded (lit "macro") line ∧ MacroKept ((tokens blank line).drop 2)) :=
    ⟨fun h => ⟨h.button, h.macro'⟩, fun h => ⟨huncut.2 hrest, h.1, h.2⟩⟩
  rw [hkept]
  have hfirst : ∀ {name : List UInt8}, lineName (c ++ tail) = name → name.length < 31 → firstWord line = name :=
    fun h hlen => take_eq_lit (hname.symm.trans h) hlen
  cases hreads with
  | skip h =>
    rw [hname] at h
    rcases h with h | h
    · rw [take_eq_nil_iff] at h
      exact absurd h (not_or.2 ⟨by decide, hspoken.1⟩)
    · refine absurd ?_ hspoken.2
      rwa [head?_take, if_neg (by decide)] at h
  | stick h hnew hscan hx hy hradius =>
    have hl := hfirst h (by decide)
    refine iff_of_true ?_ ⟨fun hb => absurd (hl.symm.trans hb) (by decide), fun hm => absurd (hl.symm.trans hm) (by decide)⟩
    rw [hcstr] at hscan
    obtain ⟨ta, tb, tc, hink, ha, hb, hc⟩ := scanStick_ink hF hscan hx hy hradius
    obtain ⟨-, hsx, hsy, hsr⟩ := hg.stick rfl
    rw [Represented, if_pos hl]
    refine ⟨ta, tb, tc, ?_, by rw [hsx]; exact ha, by rw [hsy]; exact hb, by rw [hsr]; exact hc⟩
    rw [← hp.ink_eq hrest, ink_split, hword, hl, hink]
  | walk h hnew hscan hcode hradius hfree =>
    have hl := hfirst h (by decide)
    refine iff_of_true ?_ ⟨fun hb => absurd (hl.symm.trans hb) (by decide), fun hm => absurd (hl.symm.trans hm) (by decide)⟩
    rw [hcstr] at hscan
    obtain ⟨ta, hink, ha⟩ := scanWalk_ink hF hscan hradius
    obtain ⟨hk, hr⟩ := hg.walk (keyCode_ne_zero hcode)
    rw [Represented, if_neg (by rw [hl]; decide), if_pos hl]
    refine ⟨_, ta, ?_, hcode.trans (congrArg some hk.symm), by rw [hr]; exact ha⟩
    rw [← hp.ink_eq hrest, ink_split, hword, hl, hink]
  | button h hb =>
    have hl := hfirst h (by decide)
    have hmem := hg.buttons.subset (mem_append_right _ (mem_singleton_self _))
    have hmacro : ¬ firstWord line = lit "macro" := by rw [hl]; decide
    rw [Represented, if_neg (by rw [hl]; decide), if_neg (by rw [hl]; decide), if_pos hl,
      button_iff hsound hzero' hb hmem fun hw => hp.tokens_eq hw (by decide) hrest]
    exact ⟨fun hk => ⟨fun _ => hk, fun hm => absurd hm hmacro⟩, fun hk => hk.1 hl⟩
  | macro' h hmc =>
    have hl := hfirst h (by decide)
    have hmem := hg.macros.subset (mem_append_right _ (mem_singleton_self _))
    have hbutton : ¬ firstWord line = lit "button" := by rw [hl]; decide
    rw [Represented, if_neg (by rw [hl]; decide), if_neg (by rw [hl]; decide), if_neg hbutton, if_pos hl,
      macro_iff hsound hzero' hmc hmem fun hw => hp.tokens_eq hw (by decide) hrest]
    exact ⟨fun hk => ⟨fun hb => absurd hb hbutton, fun _ => hk⟩, fun hk => hk.2 hl⟩

end Line

/-! ### The whole file -/

section File
variable {R : Type} {F : Floats R} {data : List UInt8} {m : Keymap R}

theorem loadText_iff (hF : F.Lawful) (h : loadText F data = some m) : Means F data m ↔ Plain data := by
  unfold loadText at h
  obtain ⟨s, hrun, h⟩ := bind_eq_some_iff.1 h
  obtain ⟨-, h⟩ := guard_bind.1 h
  obtain ⟨hwalk, h⟩ := guard_bind.1 h
  cases h
  have hsound : Sound s.next := Sound.run .empty hrun
  have hnone : KeysOf [] (Keymap.empty F) := ⟨fun h => absurd rfl h, fun mc hmc => absurd hmc not_mem_nil⟩
  have hkeys := KeysOf.run hnone hrun
  rw [nil_append] at hkeys
  have htext : ∀ line ∈ data.splitOn newline, Spoken line → (Represented F s.next line ↔ Kept line) := by
    intro line hline hspoken
    obtain ⟨before, ps, after, hread, hcuts⟩ := readLines_mem (show 2 ≤ lineSize by decide) hline
    rw [hread] at hrun
    obtain ⟨s₀, -, hrun⟩ := run_append.1 hrun
    obtain ⟨s₁, hps, hrun⟩ := run_append.1 hrun
    exact represented_iff hF hsound hcuts hps (run_grows hrun) hspoken
  have hroles := hsound.roles_iff (hwalk.imp_right fun h => h.2)
  constructor
  · intro hmeans
    refine ⟨fun line hline hspoken => (htext line hline hspoken).1 (hmeans.text line hline hspoken), ?_⟩
    intro p hp q hq code hpk hqk
    have hne := keyCode_ne_zero hpk.2
    have hwalkKey := run_walkKey hrun hp hpk hne
    have hnot := hroles.1 hmeans.roles (hwalkKey ▸ hne)
    rw [hwalkKey] at hnot
    exact hnot (run_macroKey hrun hq hqk)
  · intro hplain
    refine ⟨hroles.2 fun hne hmem => ?_, ⟨hsound.ids.1, fun i hi => (hsound.ids.2 i hi).trans_le hsound.next⟩,
      fun line hline hspoken => (htext line hline hspoken).2 (hplain.kept line hline hspoken)⟩
    obtain ⟨p, hp, hpk⟩ := hkeys.walk hne
    obtain ⟨mc, hmc, hkey⟩ := List.mem_map.1 hmem
    obtain ⟨q, hq, hqk⟩ := hkeys.macros mc hmc
    exact hplain.walk p hp q hq _ hpk (hkey ▸ hqk)

/-- A keymap file that is accepted means its text exactly if the text is plain; a file that is refused changes nothing. -/
theorem keymap_iff (hF : F.Lawful) (path : Option (List UInt8)) (open' : List UInt8 → Option (List UInt8)) :
    ((keymapLoad F m path open').1 = false → (keymapLoad F m path open').2 = m) ∧
      ∀ p, path = some p → p ≠ [] → p ≠ lit "off" → (keymapLoad F m path open').1 = true →
        ∃ data, open' p = some data ∧ (Means F data (keymapLoad F m path open').2 ↔ Plain data) := by
  constructor
  · intro hrefused
    cases path with
    | none => cases hrefused
    | some p =>
      rw [keymapLoad] at hrefused ⊢
      split_ifs at hrefused ⊢ with hp
      cases hload : (open' p).bind (loadText F) with
      | none => rfl
      | some next =>
        rw [hload] at hrefused
        cases hrefused
  · rintro p rfl hne hoff haccepted
    have hp : ¬ (p = [] ∨ p = lit "off") := not_or.2 ⟨hne, hoff⟩
    rw [keymapLoad, if_neg hp] at haccepted ⊢
    cases hload : (open' p).bind (loadText F) with
    | none =>
      rw [hload] at haccepted
      cases haccepted
    | some next =>
      obtain ⟨data, hdata, htext⟩ := bind_eq_some_iff.1 hload
      exact ⟨data, hdata, loadText_iff hF htext⟩

end File

/-! ### Decimal fractions -/

/-- A point and digits, behind white space. -/
def fraction (s : List UInt8) : Option (ℚ × List UInt8) :=
  match s.dropWhile isSpace with
  | 0x2e :: r =>
    if r.takeWhile isDigit = [] then none
    else some (digitsValue (r.takeWhile isDigit) / 10 ^ (r.takeWhile isDigit).length, r.dropWhile isDigit)
  | _ => none

/-- What the readers of the C library do to the fractions that are exact. -/
def fractions : Floats ℚ where
  strtof s := (fraction s).getD (0, s)
  scan := fraction
  finite _ := true
  le a b := a ≤ b
  lt a b := a < b
  zero := 0
  half := 1 / 2
  one := 1

theorem fraction_eq_some {s r : List UInt8} {v : ℚ} (h : fraction s = some (v, r)) :
    ∃ ds, s.dropWhile isSpace = 0x2e :: (ds ++ r) ∧ ds ≠ [] ∧ (∀ d ∈ ds, isDigit d = true) ∧
      v = digitsValue ds / 10 ^ ds.length := by
  unfold fraction at h
  split at h
  · rename_i r' heq
    split_ifs at h with hne
    cases h
    exact ⟨_, by rw [heq, takeWhile_append_dropWhile], hne, fun d => mem_takeWhile_imp, rfl⟩
  · cases h

theorem isSpace_digit {d : UInt8} (h : isDigit d = true) : isSpace d = false ∧ numeralChar d = true :=
    (char_facts d).2.2.2 h

theorem fractions_lawful : fractions.Lawful where
  scan {s v r} h := by
    obtain ⟨ds, heq, hne, hdigits, rfl⟩ := fraction_eq_some h
    refine ⟨0x2e :: ds, heq, nofun, forall_mem_cons.2 ⟨by decide, fun d hd => (isSpace_digit (hdigits d hd)).1⟩, ?_⟩
    have htake : ds.takeWhile isDigit = ds := takeWhile_eq_self_iff.2 hdigits
    have hdrop : ds.dropWhile isDigit = [] := dropWhile_eq_nil_iff.2 hdigits
    have hself : fraction (0x2e :: ds) = some ((digitsValue ds : ℚ) / 10 ^ ds.length, []) := by
      unfold fraction
      rw [dropWhile_cons_of_neg (by decide)]
      change (if ds.takeWhile isDigit = [] then none
        else some ((digitsValue (ds.takeWhile isDigit) : ℚ) / 10 ^ (ds.takeWhile isDigit).length, ds.dropWhile isDigit)) = _
      rw [htake, hdrop, if_neg hne]
    change (fraction (0x2e :: ds)).getD _ = _
    rw [hself]
    rfl
  chars {t v} hne h _ := by
    change (fraction t).getD (0, t) = (v, []) at h
    cases hf : fraction t with
    | none =>
      rw [hf] at h
      exact absurd (Prod.mk.inj h).2 hne
    | some p =>
      rw [hf] at h
      obtain rfl : p = (v, []) := h
      obtain ⟨ds, heq, -, hdigits, -⟩ := fraction_eq_some hf
      intro c hc
      rw [← takeWhile_append_dropWhile (p := isSpace) (l := t), heq, append_nil, mem_append, mem_cons] at hc
      rcases hc with hc | rfl | hc
      · exact .inl (mem_takeWhile_imp hc)
      · exact .inr (by decide)
      · exact .inr (isSpace_digit (hdigits c hc)).2

/-- A keymap with a stick, a button and a macro. -/
def stickText : List UInt8 := lit "stick .25 .75 .125\nbutton Q \x0b.5 .5 hold=40\nmacro E .5,.5 @100 loop\n"

/-- A keymap with a macro on the key that walks. -/
def walkText : List UInt8 := lit "stick .25 .75 .125\nwalk SHIFT .0625\nmacro SHIFT .5,.5\n"

theorem stickText_plain : Plain stickText where
  kept line hline hspoken := by
    have hlines : stickText.splitOn newline = [lit "stick .25 .75 .125", lit "button Q \x0b.5 .5 hold=40",
      lit "macro E .5,.5 @100 loop", []] := by decide +kernel
    rw [hlines] at hline
    simp only [mem_cons, not_mem_nil, or_false] at hline
    rcases hline with rfl | rfl | rfl | rfl
    · exact ⟨⟨by decide, 0, by decide, by decide +kernel⟩, fun h => absurd h (by decide), fun h => absurd h (by decide)⟩
    · exact ⟨⟨by decide, 0, by decide, by decide +kernel⟩,
        fun _ => ⟨⟨by decide +kernel, lit "button",
          [lit "Q", lit "\x0b.5", lit ".5", lit "hold=40"], by decide +kernel, by decide⟩,
          forall_of_all (by decide), forall_of_all (by decide +kernel), forall_of_all (by decide +kernel)⟩,
        fun h => absurd h (by decide)⟩
    · exact ⟨⟨by decide, 0, by decide, by decide +kernel⟩, fun h => absurd h (by decide),
        fun _ => ⟨⟨by decide +kernel, lit "macro",
          [lit "E", lit ".5,.5", lit "@100", lit "loop"], by decide +kernel, by decide⟩,
          forall_of_all (by decide +kernel)⟩⟩
    · exact absurd rfl hspoken.1
  walk p hp q hq code hwalk := by
    have hnames : ∀ p ∈ readLines lineSize stickText, lineName p ≠ lit "walk" := by decide +kernel
    exact absurd hwalk.1 (hnames p hp)

theorem keymap_stick :
    Means fractions stickText (keymapLoad fractions (.empty fractions) (some (lit "keys")) fun _ => some stickText).2 := by
  obtain ⟨data, hdata, h⟩ := (keymap_iff (m := .empty fractions) fractions_lawful (some (lit "keys"))
    fun _ => some stickText).2 (lit "keys") rfl (by decide) (by decide) (by decide +kernel)
  cases hdata
  exact h.2 stickText_plain

theorem walk_means_macro :
    fractions.Lawful ∧ (keymapLoad fractions (.empty fractions) (some (lit "keys")) fun _ => some walkText).1 = true ∧
      ¬ Means fractions walkText (keymapLoad fractions (.empty fractions) (some (lit "keys")) fun _ => some walkText).2 :=
  ⟨fractions_lawful, by decide +kernel, fun h => absurd h.roles (by decide +kernel)⟩

end Lunaria.Input
