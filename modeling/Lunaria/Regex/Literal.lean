import Mathlib.Tactic.Linarith
import Lunaria.Regex.Compile

/-! A quoted pattern and the text it is looked for in, as sequences of code points. Each code point of the pattern is a
    node, and the match of a node is inside that of the one before it: a pattern with more code points than calls may be
    nested is found nowhere. -/

namespace Lunaria.Regex
open Backtrack Attempt Nat
open List hiding after

/-! ### Code points and offsets -/

section
variable (s : List UInt8)

def codePoints : List Nat := pointsFrom s s.length 0

/-- The place after `n` code points. -/
def offset : Nat → Nat
  | 0 => 0
  | n + 1 => (rxU8 s s.length (offset n)).2

/-- The code points from a place on, with as many rounds as are needed. -/
def points (i : Nat) : List Nat := pointsFrom s (s.length - i) i

theorem pointsFrom_step (fuel i : Nat) : pointsFrom s (fuel + 1) i =
    if s.length ≤ i then [] else (rxU8 s s.length i).1 :: pointsFrom s fuel (rxU8 s s.length i).2 := rfl

theorem pointsFrom_succ (fuel i : Nat) (h : s.length - i ≤ fuel) : pointsFrom s (fuel + 1) i = pointsFrom s fuel i := by
  induction fuel generalizing i with
  | zero =>
    rw [pointsFrom_step, if_pos (by omega)]
    rfl
  | succ fuel ih =>
    rw [pointsFrom_step s (fuel + 1) i, pointsFrom_step s fuel i]
    split
    · rfl
    · have := rxU8_gt s s.length i
      rw [ih _ (by omega)]

theorem pointsFrom_eq {fuel i : Nat} (h : s.length - i ≤ fuel) : pointsFrom s fuel i = points s i := by
  induction fuel, h using le_induction with
  | base => rfl
  | succ fuel h ih => rw [pointsFrom_succ s fuel i h, ih]

theorem points_of_ge {i : Nat} (h : s.length ≤ i) : points s i = [] := by
  rw [points, Nat.sub_eq_zero_of_le h]
  rfl

theorem points_of_lt {i : Nat} (h : i < s.length) :
    points s i = (rxU8 s s.length i).1 :: points s (rxU8 s s.length i).2 := by
  have hgt := rxU8_gt s s.length i
  obtain ⟨fuel, hfuel⟩ : ∃ fuel, s.length - i = fuel + 1 := ⟨s.length - i - 1, by omega⟩
  rw [points, hfuel, pointsFrom_step, if_neg (by omega), pointsFrom_eq s (by omega)]

theorem codePoints_eq : codePoints s = points s 0 := (rfl)

/-- What is left after some code points is read from the place after them. -/
theorem points_offset {n : Nat} (h : n ≤ (codePoints s).length) :
    points s (offset s n) = (codePoints s).drop n ∧ offset s n ≤ s.length := by
  induction n with
  | zero => exact ⟨rfl, Nat.zero_le _⟩
  | succ n ih =>
    obtain ⟨heq, hle⟩ := ih (le_of_succ_le h)
    have hlt : offset s n < s.length := by
      by_contra hge
      rw [points_of_ge s (Nat.le_of_not_lt hge)] at heq
      have hlen := congrArg List.length heq
      rw [length_nil, length_drop] at hlen
      omega
    rw [points_of_lt s hlt] at heq
    refine ⟨?_, (rxU8_le s hlt).1⟩
    rw [← tail_drop, ← heq]
    rfl

theorem offset_lt_iff {n : Nat} (h : n ≤ (codePoints s).length) : offset s n < s.length ↔ n < (codePoints s).length := by
  obtain ⟨heq, -⟩ := points_offset s h
  have hlen := congrArg List.length heq
  rw [length_drop] at hlen
  constructor
  · intro hlt
    rw [points_of_lt s hlt, length_cons] at hlen
    omega
  · intro hlt
    by_contra hge
    rw [points_of_ge s (Nat.le_of_not_lt hge), length_nil] at hlen
    omega

theorem offset_le {n : Nat} (h : n ≤ (codePoints s).length) : offset s n ≤ 4 * n := by
  induction n with
  | zero => exact Nat.le_refl 0
  | succ n ih =>
    have hlt := (offset_lt_iff s (le_of_succ_le h)).2 h
    have hstep := (rxU8_le s hlt).2
    have := ih (le_of_succ_le h)
    rw [offset]
    omega

/-- Where some code points that stand at a place end. -/
def readEnd : List Nat → Nat → Option Nat
  | [], pos => some pos
  | cp :: cps, pos =>
    if s.length ≤ pos then none
    else if (rxU8 s s.length pos).1 = cp then readEnd cps (rxU8 s s.length pos).2 else none

theorem readEnd_offset (cps : List Nat) (n : Nat) :
    readEnd s cps (offset s n) = if cps <+: points s (offset s n) then some (offset s (n + cps.length)) else none := by
  induction cps generalizing n with
  | nil => rw [readEnd, if_pos nil_prefix, length_nil, Nat.add_zero]
  | cons cp cps ih =>
    rw [readEnd]
    by_cases hend : s.length ≤ offset s n
    · rw [if_pos hend, points_of_ge s hend, if_neg (fun h => by cases List.prefix_nil.1 h)]
    · rw [if_neg hend, points_of_lt s (Nat.lt_of_not_le hend)]
      by_cases hcp : (rxU8 s s.length (offset s n)).1 = cp
      · rw [if_pos hcp, show (rxU8 s s.length (offset s n)).2 = offset s (n + 1) from rfl, ih, length_cons,
          show n + 1 + cps.length = n + (cps.length + 1) by omega]
        by_cases hrest : cps <+: points s (offset s (n + 1))
        · rw [if_pos hrest, if_pos (List.cons_prefix_cons.2 ⟨hcp.symm, hrest⟩)]
        · rw [if_neg hrest, if_neg fun h => hrest (List.cons_prefix_cons.1 h).2]
      · rw [if_neg hcp, if_neg fun h => hcp (List.cons_prefix_cons.1 h).1.symm]

end

/-! ### The match of a chain of code points -/

theorem ticked_eq (m : Attempt Ctx Nat) (c : Ctx) : ticked m c =
    if rxStepMax < c.steps + 1 then some (none, { c with steps := c.steps + 1 })
    else m { c with steps := c.steps + 1 } := by
  simp only [ticked, change, reading]
  split <;> rfl

theorem deeper_eq (m : Attempt Ctx Nat) (c : Ctx) : deeper m c =
    if rxDepthMax < c.depth + 1 then some (none, c)
    else (m { c with depth := c.depth + 1 }).map fun (r, c') => (r, { c' with depth := c'.depth - 1 }) := by
  simp only [deeper, reading]
  split <;> rfl

theorem atomStep_char {inp : Input} {stamp : Stamp} (hs : stamp.icase = false) (cp pos : Nat) :
    atomStep inp (charNode stamp cp) pos =
      if inp.len ≤ pos then none
      else if (rxU8 inp.text inp.len pos).1 = cp then some (rxU8 inp.text inp.len pos).2 else none := by
  simp only [atomStep, charNode, Node.op, Node.stamp, hs, rxCpEq, Bool.false_and, Bool.or_false, decide_eq_true_eq]

/-- What the match of a chain comes to: it ends, it uses few steps, and if they are not used up it finds the code points
    where they stand, as long as they are not too many. -/
structure Literal (inp : Input) (cps : List Nat) (pos : Nat) (c : Ctx) (r : Option Nat) (c' : Ctx) : Prop where
  depth : c'.depth = c.depth
  steps : c.steps ≤ c'.steps
  counts : c.depth < rxDepthMax → c.steps < c'.steps
  few : c'.steps ≤ c.steps + 2 * (inp.len - pos) + 2
  result : c'.steps ≤ rxStepMax → r = if c.depth + cps.length ≤ rxDepthMax then readEnd inp.text cps pos else none
  finish : c'.steps ≤ rxStepMax → ∀ e ∈ r, c'.finish = e

theorem run_literal {inp : Input} (hend : inp.anchorEnd = false) {stamp : Stamp} (hs : stamp.icase = false)
    (cps : List Nat) : ∀ {fuel pos : Nat} {c : Ctx}, 3 * (rxDepthMax + 1 - c.depth) + 3 ≤ fuel → c.depth ≤ rxDepthMax →
      ∃ r c', run inp fuel (.node (cps.map (charNode stamp)) .accept pos) c = some (r, c') ∧
        Literal inp cps pos c r c' := by
  induction cps with
  | nil =>
    intro fuel pos c hfuel hdepth
    obtain ⟨fuel, rfl⟩ : ∃ f, fuel = f + 2 := ⟨fuel - 2, by omega⟩
    rw [show run inp (fuel + 2) (.node ([].map (charNode stamp)) .accept pos) c =
      mCont inp (run inp fuel) .accept pos c from rfl, mCont, ticked_eq]
    split
    · rename_i hover
      exact ⟨_, _, rfl, rfl, le_succ _, fun _ => lt_succ_self _, by dsimp only; omega,
        fun h => absurd h (Nat.not_le.2 hover), fun h => absurd h (Nat.not_le.2 hover)⟩
    · refine ⟨some pos, { c with steps := c.steps + 1, finish := pos }, ?_, rfl, le_succ _, fun _ => lt_succ_self _,
        by dsimp only; omega, fun _ => ?_, fun _ e he => ?_⟩
      · rw [hend]
        rfl
      · rw [length_nil, Nat.add_zero, if_pos hdepth]
        rfl
      · exact Option.some.inj he
  | cons cp cps ih =>
    intro fuel pos c hfuel hdepth
    obtain ⟨fuel, rfl⟩ : ∃ f, fuel = f + 3 := ⟨fuel - 3, by omega⟩
    rw [show run inp (fuel + 3) (.node ((cp :: cps).map (charNode stamp)) .accept pos) c =
      deeper (mAtom inp (run inp (fuel + 1)) (charNode stamp cp) (.node (cps.map (charNode stamp)) .accept) pos) c from rfl,
      deeper_eq]
    split
    · rename_i hdeep
      refine ⟨_, _, rfl, rfl, le_rfl, fun h => by omega, by omega, fun _ => ?_, fun _ e he => by cases he⟩
      rw [length_cons, if_neg (by omega)]
    · rename_i hdeep
      rw [mAtom, ticked_eq]
      split
      · rename_i hover
        exact ⟨_, _, rfl, rfl, le_succ _, fun _ => lt_succ_self _, by dsimp only; omega,
          fun h => absurd h (Nat.not_le.2 hover), fun h => absurd h (Nat.not_le.2 hover)⟩
      · rename_i hleft
        rw [show (charNode stamp cp).op = .char cp from rfl]
        dsimp only
        rw [atomStep_char hs]
        have hlen : inp.len = inp.text.length := rfl
        by_cases hpos : inp.len ≤ pos
        · rw [if_pos hpos]
          refine ⟨none, { c with steps := c.steps + 1 }, rfl, rfl, le_succ _, fun _ => lt_succ_self _,
            by dsimp only; omega, fun _ => ?_, fun _ e he => by cases he⟩
          rw [readEnd, ← hlen, if_pos hpos, ite_self]
        · rw [if_neg hpos]
          have hgt := rxU8_gt inp.text inp.len pos
          have hle := (rxU8_le inp.text (Nat.lt_of_not_le hpos)).1
          by_cases hcp : (rxU8 inp.text inp.len pos).1 = cp
          · rw [if_pos hcp]
            dsimp only
            set next := (rxU8 inp.text inp.len pos).2 with hnext
            rw [show run inp (fuel + 1) (.cont (.node (cps.map (charNode stamp)) .accept) next) =
              ticked (run inp fuel (.node (cps.map (charNode stamp)) .accept next)) from rfl, ticked_eq]
            split
            · rename_i hover
              exact ⟨_, _, rfl, rfl, by dsimp only; omega, fun _ => by dsimp only; omega, by dsimp only; omega,
                fun h => absurd h (Nat.not_le.2 hover), fun h => absurd h (Nat.not_le.2 hover)⟩
            · obtain ⟨r, c', hrun, h⟩ := @ih fuel next { c with depth := c.depth + 1, steps := c.steps + 1 + 1 }
                (by dsimp only; omega) (by dsimp only; omega)
              have hsteps := h.steps
              have hfew := h.few
              have hd := h.depth
              dsimp only at hrun hsteps hfew hd
              refine ⟨r, { c' with depth := c'.depth - 1 }, ?_, ?_, ?_, fun _ => ?_, ?_, fun hmax => ?_,
                fun hmax => h.finish hmax⟩
              · dsimp only
                rw [hrun]
                rfl
              iterate 4
                · dsimp only
                  omega
              · rw [h.result hmax, length_cons, readEnd, ← hlen, if_neg hpos, if_pos hcp,
                  show c.depth + 1 + cps.length = c.depth + (cps.length + 1) by omega]
          · rw [if_neg hcp]
            refine ⟨none, { c with steps := c.steps + 1 }, rfl, rfl, le_succ _, fun _ => lt_succ_self _,
              by dsimp only; omega, fun _ => ?_, fun _ e he => by cases he⟩
            rw [readEnd, ← hlen, if_neg hpos, if_neg hcp, ite_self]

/-! ### The search for a chain of code points -/

/-- The first place, in code points, that a sequence stands at. -/
structure Leftmost (cps text : List Nat) (n : Nat) : Prop where
  le : n ≤ text.length
  here : cps <+: text.drop n
  before : ∀ m < n, ¬cps <+: text.drop m

theorem infix_iff_drop {cps text : List Nat} : cps <:+: text ↔ ∃ n ≤ text.length, cps <+: text.drop n := by
  rw [infix_iff_prefix_suffix]
  constructor
  · rintro ⟨l, hpre, hsuf⟩
    refine ⟨text.length - l.length, sub_le _ _, ?_⟩
    rwa [← List.suffix_iff_eq_drop.1 hsuf]
  · rintro ⟨n, -, hpre⟩
    exact ⟨text.drop n, hpre, drop_suffix n text⟩

/-- What the search from the `n`-th code point on comes to. -/
structure Searched (t : List UInt8) (cps : List Nat) (n : Nat) (c : Ctx) (r : Option Nat) (c' : Ctx) : Prop where
  steps : c.steps ≤ c'.steps
  few : c'.steps ≤ c.steps + (t.length - offset t n + 1) * (t.length - offset t n + 2)
  missed : c'.steps ≤ rxStepMax → r = none →
    rxDepthMax < cps.length ∨ ∀ m, n ≤ m → m ≤ (codePoints t).length → ¬cps <+: (codePoints t).drop m
  found : c'.steps ≤ rxStepMax → ∀ pos ∈ r, cps.length ≤ rxDepthMax ∧ ∃ m, n ≤ m ∧ m ≤ (codePoints t).length ∧
    c.steps + m ≤ n + c'.steps ∧ pos = offset t m ∧ c'.finish = offset t (m + cps.length) ∧ cps <+: (codePoints t).drop m ∧
    ∀ m', n ≤ m' → m' < m → ¬cps <+: (codePoints t).drop m'

theorem rounds_one (c x : Nat) : c + 2 * x + 2 ≤ c + (x + 1) * (x + 2) := by nlinarith [Nat.zero_le (x * x)]

/-- The steps of one place and of all places after it. -/
theorem rounds_step {x y : Nat} (h : y < x) : 2 * x + 2 + (y + 1) * (y + 2) ≤ (x + 1) * (x + 2) := by
  have hmul : (y + 1) * (y + 2) ≤ x * (x + 1) := Nat.mul_le_mul (by omega) (by omega)
  nlinarith

theorem searchLoop_literal {t : List UInt8} {stamp : Stamp} (hs : stamp.icase = false) (cps : List Nat)
    (start ngroups : Nat) : ∀ {left n : Nat} {c : Ctx}, n ≤ (codePoints t).length → t.length + 1 ≤ left + offset t n →
      ∃ r c', searchLoop (run ⟨t, start, ngroups, false⟩ enough) ⟨[cps.map (charNode stamp)], ngroups⟩
        ⟨t, start, ngroups, false⟩ false left (offset t n) c = some (r, c') ∧ Searched t cps n c r c' := by
  intro left
  induction left with
  | zero =>
    intro n c hn hleft
    have := (points_offset t hn).2
    omega
  | succ left ih =>
    intro n c hn hleft
    obtain ⟨hpoints, hoff⟩ := points_offset t hn
    set inp : Input := ⟨t, start, ngroups, false⟩ with hinp
    obtain ⟨r₁, c₁, hrun, h⟩ := @run_literal inp rfl stamp hs cps enough (offset t n) (resetGroups ngroups c)
      (by show 3 * (rxDepthMax + 1 - 0) + 3 ≤ enough; decide) (Nat.zero_le _)
    have hsteps : c.steps ≤ c₁.steps := h.steps
    have hcount : c.steps < c₁.steps := h.counts (by show 0 < rxDepthMax; decide)
    have hfew : c₁.steps ≤ c.steps + 2 * (t.length - offset t n) + 2 := h.few
    have hresult := h.result
    rw [show (resetGroups ngroups c).depth + cps.length = cps.length from Nat.zero_add _,
      show inp.text = t from rfl, readEnd_offset, hpoints] at hresult
    have htry : (change (resetGroups ngroups) (first ([cps.map (charNode stamp)].map fun alt =>
        run inp enough (.node alt .accept (offset t n))))) c = some (r₁, c₁) := by
      rw [change, map_singleton, first_singleton]
      exact hrun
    rw [searchLoop, after, htry]
    cases r₁ with
    | some e =>
      refine ⟨some (offset t n), c₁, rfl, hsteps, Nat.le_trans hfew (rounds_one _ _),
        fun _ h => (by cases h), fun hmax pos hpos => ?_⟩
      cases hpos
      have hr := hresult hmax
      split at hr
      · rename_i hshort
        split at hr
        · rename_i hhere
          refine ⟨hshort, n, Nat.le_refl n, hn, by omega, rfl, ?_, hhere, fun m' hm' hlt => absurd hlt (Nat.not_lt.2 hm')⟩
          rw [h.finish hmax e rfl]
          exact Option.some.inj hr
        · cases hr
      · cases hr
    | none =>
      have hhere : c₁.steps ≤ rxStepMax → rxDepthMax < cps.length ∨ ¬cps <+: (codePoints t).drop n := by
        intro hmax
        have hr := hresult hmax
        split at hr
        · split at hr
          · cases hr
          · exact .inr ‹_›
        · exact .inl (Nat.lt_of_not_le ‹_›)
      dsimp only [reading]
      by_cases hstop : inp.len ≤ offset t n ∨ rxStepMax < c₁.steps
      · -- at the end of the text there is no other place
        rw [if_pos (.inr hstop)]
        refine ⟨none, c₁, rfl, hsteps, Nat.le_trans hfew (rounds_one _ _),
          fun hmax _ => ?_, fun _ pos hpos => (by cases hpos)⟩
        have hend : ¬n < (codePoints t).length := by
          rw [← offset_lt_iff t hn]
          rcases hstop with hstop | hstop
          · exact Nat.not_lt.2 hstop
          · omega
        refine (hhere hmax).imp_right fun hno m hnm hm => ?_
        rwa [show m = n by omega]
      · rw [if_neg (by simpa using hstop)]
        rw [not_or, Nat.not_le] at hstop
        have hin : offset t n < t.length := hstop.1
        have hlt : n < (codePoints t).length := (offset_lt_iff t hn).1 hin
        have hgt := rxU8_gt t t.length (offset t n)
        obtain ⟨r, c', hloop, h'⟩ := @ih (n + 1) c₁ hlt (by rw [offset]; omega)
        refine ⟨r, c', hloop, Nat.le_trans hsteps h'.steps, ?_, fun hmax hr => ?_, fun hmax pos hpos => ?_⟩
        · have hfew' := h'.few
          have hround := rounds_step (show t.length - offset t (n + 1) < t.length - offset t n by rw [offset]; omega)
          omega
        · rcases h'.missed hmax hr with hlong | hno
          · exact .inl hlong
          · refine (hhere (Nat.le_trans h'.steps hmax)).imp_right fun hno' m hnm hm => ?_
            rcases Nat.eq_or_lt_of_le hnm with rfl | hnm
            · exact hno'
            · exact hno m hnm hm
        · obtain ⟨hshort, m, hnm, hm, hcost, hpos, hfin, hpre, hleft'⟩ := h'.found hmax pos hpos
          refine ⟨hshort, m, by omega, hm, by omega, hpos, hfin, hpre, fun m' hm' hlt' => ?_⟩
          rcases Nat.eq_or_lt_of_le hm' with rfl | hm'
          · rcases hhere (Nat.le_trans h'.steps hmax) with hlong | hno
            · omega
            · exact hno
          · exact hleft' m' hm' hlt'

end Lunaria.Regex
