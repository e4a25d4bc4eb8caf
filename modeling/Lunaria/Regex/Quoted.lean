import Lunaria.Lib.CText
import Lunaria.Regex.Literal
import Lunaria.Regex.Parse

/-! Quoted patterns, in both ways to quote them: they are compiled to the code points of the text, and found where these
    stand if they are not too many. -/

namespace Lunaria.Regex
open Backtrack Attempt List CText
open Parse (parseQuoted parseQuant parseCounts parseSeq parseAlt rxCompile Rxp Numeral machine)

/-! ### Reading the same bytes at another place -/

theorem followBytes_congr {s s' : List UInt8} : ∀ {n i i' cp : Nat},
    (∀ k < n, byteAt s (i + k) = byteAt s' (i' + k)) → followBytes s n i cp = followBytes s' n i' cp
  | 0, _, _, _, _ => rfl
  | n + 1, i, i', cp, h => by
    have hhead := h 0 (Nat.succ_pos n)
    rw [Nat.add_zero, Nat.add_zero] at hhead
    rw [followBytes, followBytes, hhead]
    split
    · rfl
    · refine followBytes_congr fun k hk => ?_
      have hnext := h (k + 1) (by omega)
      rwa [show i + 1 + k = i + (k + 1) by omega, show i' + 1 + k = i' + (k + 1) by omega]

theorem followBytes_none {s : List UInt8} : ∀ {n i cp k : Nat}, k < n → byteAt s (i + k) &&& 0xc0 ≠ 0x80 →
    followBytes s n i cp = none
  | 0, _, _, _, hk, _ => absurd hk (Nat.not_lt_zero _)
  | n + 1, i, cp, k, hk, h => by
    rw [followBytes]
    split
    · rfl
    · rename_i hhead
      cases k with
      | zero => exact absurd h hhead
      | succ k => exact followBytes_none (k := k) (by omega) (by rwa [show i + 1 + k = i + (k + 1) by omega])

/-- A code point is the same in a longer text, if what comes after the shorter one does not go on with it. -/
theorem rxU8_shift {s s' : List UInt8} {len len' i i' : Nat} (hlt : i < len)
    (hbytes : ∀ k < len - i, byteAt s (i + k) = byteAt s' (i' + k)) (hlen : len - i < len' - i')
    (hstop : byteAt s' (i' + (len - i)) &&& 0xc0 ≠ 0x80) :
    (rxU8 s' len' i').1 = (rxU8 s len i).1 ∧ (rxU8 s' len' i').2 + i = (rxU8 s len i).2 + i' := by
  have hhead := hbytes 0 (by omega)
  rw [Nat.add_zero, Nat.add_zero] at hhead
  rw [rxU8, rxU8, ← hhead]
  split
  · exact ⟨rfl, by dsimp only; omega⟩
  · cases hlead : leadByte (byteAt s i) with
    | none => exact ⟨rfl, by dsimp only; omega⟩
    | some lead =>
      obtain ⟨need, cp⟩ := lead
      dsimp only
      by_cases hshort : len - i ≤ need
      · rw [if_pos hshort]
        by_cases hshort' : len' - i' ≤ need
        · rw [if_pos hshort']
          exact ⟨rfl, by dsimp only; omega⟩
        · have hnone : followBytes s' need (i' + 1) cp = none := by
            refine followBytes_none (k := len - i - 1) (by omega) ?_
            rwa [show i' + 1 + (len - i - 1) = i' + (len - i) by omega]
          rw [if_neg hshort', hnone]
          exact ⟨rfl, by dsimp only; omega⟩
      · have hsame : followBytes s' need (i' + 1) cp = followBytes s need (i + 1) cp := by
          refine (followBytes_congr fun k hk => ?_).symm
          have := hbytes (k + 1) (by omega)
          rwa [show i + 1 + k = i + (k + 1) by omega, show i' + 1 + k = i' + (k + 1) by omega]
        rw [if_neg hshort, if_neg (by omega), hsame]
        split
        · exact ⟨rfl, by dsimp only; omega⟩
        · exact ⟨rfl, by dsimp only; omega⟩

/-! ### Compiling -/

/-- The pattern `\Q` + `p` + `\E`. -/
def quote (p : List UInt8) : List UInt8 := [0x5c, 0x51] ++ (p ++ [0x5c, 0x45])

section
variable {p : List UInt8} {flags : Flags}

theorem length_quote : (quote p).length = p.length + 4 := by
  simp [quote]

theorem byteAt_drop (s : List UInt8) (a k : Nat) : byteAt (s.drop a) k = byteAt s (a + k) := by
  simp [byteAt, getD_eq_getElem?_getD, getElem?_drop]

theorem byteAt_quote (k : Nat) : byteAt (quote p) (2 + k) = byteAt (p ++ [0x5c, 0x45]) k := by
  rw [← byteAt_drop]
  rfl

theorem byteAt_append_left {r : List UInt8} {k : Nat} (h : k < p.length) : byteAt (p ++ r) k = byteAt p k := by
  rw [byteAt, byteAt, getD_eq_getElem?_getD, getD_eq_getElem?_getD, getElem?_append_left h]

theorem byteAt_append_right (r : List UInt8) (k : Nat) : byteAt (p ++ r) (p.length + k) = byteAt r k := by
  rw [byteAt, byteAt, getD_eq_getElem?_getD, getD_eq_getElem?_getD, getElem?_append_right (by omega),
    Nat.add_sub_cancel_left]

theorem infix_of_bytes {i : Nat} {a b : UInt8} (h : i + 1 < p.length) (ha : byteAt p i = a) (hb : byteAt p (i + 1) = b) :
    [a, b] <:+: p := by
  rw [byteAt, getD_eq_getElem?_getD, getElem?_eq_getElem (Nat.lt_of_succ_lt h), Option.getD_some] at ha
  rw [byteAt, getD_eq_getElem?_getD, getElem?_eq_getElem h, Option.getD_some] at hb
  have hdrop : p.drop i = a :: b :: p.drop (i + 2) := by
    rw [drop_eq_getElem_cons (Nat.lt_of_succ_lt h), drop_eq_getElem_cons h, ha, hb]
  rw [infix_iff_prefix_suffix]
  exact ⟨p.drop i, ⟨p.drop (i + 2), hdrop.symm⟩, drop_suffix i p⟩

theorem pointAt_quote {i : Nat} (h : i < p.length) :
    pointAt (quote p) (2 + i) = ((rxU8 p p.length i).1, 2 + (rxU8 p p.length i).2) := by
  have hbytes : ∀ k < p.length - i, byteAt p (i + k) = byteAt ((quote p).drop (2 + i)) (0 + k) := by
    intro k hk
    rw [byteAt_drop, show 2 + i + (0 + k) = 2 + (i + k) by omega, byteAt_quote, byteAt_append_left (by omega)]
  have hstop : byteAt ((quote p).drop (2 + i)) (0 + (p.length - i)) &&& 0xc0 ≠ 0x80 := by
    rw [byteAt_drop, show 2 + i + (0 + (p.length - i)) = 2 + (p.length + 0) by omega, byteAt_quote, byteAt_append_right]
    decide
  obtain ⟨hcp, hnext⟩ := @rxU8_shift p ((quote p).drop (2 + i)) p.length ((quote p).length - (2 + i)) i 0 h hbytes
    (by rw [length_quote]; omega) hstop
  rw [pointAt]
  dsimp only
  rw [hcp, show 2 + i + (rxU8 ((quote p).drop (2 + i)) ((quote p).length - (2 + i)) 0).2 =
    2 + (rxU8 p p.length i).2 by omega]

theorem parseQuoted_quote (hE : ¬[0x5c, 0x45] <:+: p) : ∀ {fuel i : Nat}, i ≤ p.length → p.length - i < fuel →
    parseQuoted (quote p) flags fuel (2 + i) = ((points p i).map (charNode (nodeStamp flags)), p.length + 4) := by
  intro fuel
  induction fuel with
  | zero => exact fun _ h => absurd h (Nat.not_lt_zero _)
  | succ fuel ih =>
    intro i hi hfuel
    rw [parseQuoted, if_neg (by rw [atEnd, length_quote, decide_eq_true_eq]; omega), length_quote]
    rcases Nat.eq_or_lt_of_le hi with rfl | hlt
    · -- the mark that ends the quote
      have h0 : byteAt (quote p) (2 + p.length) = 0x5c := by
        rw [show p.length = p.length + 0 from rfl, byteAt_quote, byteAt_append_right]
        rfl
      have h1 : byteAt (quote p) (2 + p.length + 1) = 0x45 := by
        rw [Nat.add_assoc, byteAt_quote, byteAt_append_right]
        rfl
      rw [if_pos ⟨h0, by omega, h1⟩, points_of_ge p le_rfl, show 2 + p.length + 2 = p.length + 4 by omega]
      rfl
    · have hno : ¬(byteAt (quote p) (2 + i) = 0x5c ∧ 2 + i + 1 < p.length + 4 ∧ byteAt (quote p) (2 + i + 1) = 0x45) := by
        rintro ⟨h0, -, h1⟩
        rw [byteAt_quote, byteAt_append_left hlt] at h0
        rw [Nat.add_assoc, byteAt_quote] at h1
        by_cases hlast : i + 1 < p.length
        · rw [byteAt_append_left hlast] at h1
          exact hE (infix_of_bytes hlast h0 h1)
        · rw [show i + 1 = p.length + 0 by omega, byteAt_append_right] at h1
          cases h1
      have hgt := rxU8_gt p p.length i
      have hle := (rxU8_le p hlt).1
      rw [if_neg hno, pointAt_quote hlt]
      dsimp only
      rw [ih hle (by omega), points_of_lt p hlt]
      rfl

theorem atEnd_length (src : List UInt8) : atEnd src src.length = true := decide_eq_true le_rfl

theorem peek_length (src : List UInt8) : peek src src.length = 0 := by rw [peek, if_pos (atEnd_length src)]

theorem parseQuant_end {src : List UInt8} (n : Node) : parseQuant src n src.length = pure (n, src.length) := by
  have hcounts : parseCounts src src.length = pure none := by
    rw [parseCounts, peek_length]
    rfl
  rw [parseQuant, hcounts]
  rfl

theorem skipX_end {src : List UInt8} : skipX src flags src.length = src.length := by
  rw [skipX]
  split
  · rw [skipLoop, if_pos (atEnd_length src)]
  · rfl

theorem skipX_quote : skipX (quote p) flags 0 = 0 := by
  rw [skipX]
  split
  · rw [skipLoop, if_neg (by rw [atEnd, length_quote, decide_eq_true_eq]; omega)]
    rfl
  · rfl

theorem parseSeq_end {src : List UInt8} (fuel depth : Nat) (ps : Rxp) (hp : ps.p = src.length) :
    parseSeq src (fuel + 1) depth ps = pure ([], ps) := by
  obtain ⟨p, flags, ngroups, names⟩ := ps
  obtain rfl : p = src.length := hp
  rw [parseSeq]
  dsimp only
  rw [skipX_end, if_pos (.inl (atEnd_length src))]

/-- The quoted code points, the last of which has no quantifier. -/
theorem parseSeq_quote (hE : ¬[0x5c, 0x45] <:+: p) (fuel depth : Nat) :
    parseSeq (quote p) (fuel + 2) depth ⟨0, flags, 0, []⟩ =
      pure ((codePoints p).map (charNode (nodeStamp flags)), ⟨(quote p).length, flags, 0, []⟩) := by
  have hquoted := @parseQuoted_quote p flags hE (quote p).length 0 (Nat.zero_le _) (by rw [length_quote]; omega)
  rw [← length_quote, ← codePoints_eq] at hquoted
  have hstart : ¬(atEnd (quote p) 0 = true ∨ byteAt (quote p) 0 = 0x7c ∨ byteAt (quote p) 0 = 0x29) := by
    rw [atEnd, length_quote, decide_eq_true_eq]
    have h0 : byteAt (quote p) 0 = 0x5c := rfl
    rw [h0]
    rintro (h | h | h)
    · omega
    · cases h
    · cases h
  have hQ : byteAt (quote p) 0 = 0x5c ∧ 0 + 1 < (quote p).length ∧ byteAt (quote p) (0 + 1) = 0x51 :=
    ⟨rfl, by rw [length_quote]; omega, rfl⟩
  have hrest := @parseSeq_end (quote p) fuel depth ⟨(quote p).length, flags, 0, []⟩ rfl
  rw [parseSeq]
  simp only [skipX_quote, if_neg hstart, if_pos hQ, hquoted]
  cases hlast : ((codePoints p).map (charNode (nodeStamp flags))).getLast? with
  | none => rw [getLast?_eq_none_iff.1 hlast, hrest]
  | some last =>
    dsimp only
    rw [parseQuant_end, Questions.pure_bind]
    dsimp only
    rw [hrest, Questions.pure_bind]
    dsimp only
    rw [← dropLast_append_getLast? last hlast]
    simp

theorem compile_quoted (hlit : flags.literal = false) (hE : ¬[0x5c, 0x45] <:+: p) {fuel : Nat} (hfuel : 3 ≤ fuel) :
    (rxCompile fuel flags (quote p) machine).1 = .ok ⟨[(codePoints p).map (charNode (nodeStamp flags))], 0⟩ := by
  obtain ⟨fuel, rfl⟩ : ∃ f, fuel = f + 3 := ⟨fuel - 3, by omega⟩
  have hpeek : peek (quote p) (quote p).length ≠ 0x7c := by
    rw [peek_length]
    decide
  have halt : parseAlt (quote p) (fuel + 3) 0 ⟨0, flags, 0, []⟩ =
      pure ([(codePoints p).map (charNode (nodeStamp flags))], ⟨(quote p).length, flags, 0, []⟩) := by
    rw [parseAlt, parseSeq_quote hE, Questions.pure_bind]
    exact if_pos hpeek
  rw [rxCompile, hlit, if_neg Bool.false_ne_true, halt, Questions.pure_bind]
  dsimp only
  rw [atEnd_length]
  rfl

end

/-! ### Searching -/

/-- What a search for a text should give: the leftmost place it stands at, and nothing only where it stands nowhere. -/
def FindsText (p t : List UInt8) : Option (List Int) → Prop
  | none => ¬codePoints p <:+: codePoints t
  | some caps => ∃ n, Leftmost (codePoints p) (codePoints t) n ∧ caps[0]? = some (offset t n : Int) ∧
      caps[1]? = some (offset t (n + (codePoints p).length) : Int)

theorem toInt_eq {n : Nat} (h : n < 2 ^ 31) : toInt n = n :=
  Int.bmod_eq_of_le_mul_two (by omega) (by omega)

theorem captures_match {ngroups ncaps : Nat} (h : 2 ≤ ncaps) (c : Ctx) :
    (captures ngroups ncaps c)[0]? = some (c.gs 0) ∧ (captures ngroups ncaps c)[1]? = some (c.ge 0) := by
  have h0 : (List.range ncaps)[0]? = some 0 := getElem?_range (by omega)
  have h1 : (List.range ncaps)[1]? = some 1 := getElem?_range (by omega)
  have hcond : 0 ≤ ngroups ∧ 2 * 0 + 1 < ncaps := ⟨Nat.zero_le _, by omega⟩
  constructor
  · rw [captures, getElem?_map, h0, Option.map_some, Nat.zero_div, if_pos hcond]
    rfl
  · rw [captures, getElem?_map, h1, Option.map_some, show 1 / 2 = 0 from rfl, if_pos hcond]
    rfl

theorem search_literal {p : List UInt8} {stamp : Stamp} (hs : stamp.icase = false) (t : List UInt8) {ncaps : Nat}
    (hn : 2 ≤ ncaps) : ∃ r c, rxSearch ⟨[(codePoints p).map (charNode stamp)], 0⟩ t 0 ncaps false false = some (r, c) ∧
      c.steps ≤ (t.length + 1) * (t.length + 2) ∧ (c.steps ≤ rxStepMax →
        ((codePoints p).length ≤ rxDepthMax → FindsText p t r) ∧ (rxDepthMax < (codePoints p).length → r = none)) := by
  obtain ⟨r, c, hloop, h⟩ := @searchLoop_literal t stamp hs (codePoints p) 0 0 (t.length - 0 + 1) 0 initCtx (Nat.zero_le _)
    (by rw [offset]; omega)
  have hfew : c.steps ≤ (t.length + 1) * (t.length + 2) := by
    have hfew := h.few
    rw [offset, Nat.sub_zero, show initCtx.steps = 0 from rfl, Nat.zero_add] at hfew
    exact hfew
  rw [rxSearch, if_neg (Nat.not_lt.2 (Nat.zero_le _))]
  replace hloop :
    searchAll (run ⟨t, 0, 0, false⟩ enough) ⟨[(codePoints p).map (charNode stamp)], 0⟩ ⟨t, 0, 0, false⟩ false =
    some (r, c) := hloop
  cases r with
  | none =>
    refine ⟨none, c, by rw [hloop], hfew, fun hmax => ⟨fun hshort hin => ?_, fun _ => rfl⟩⟩
    obtain ⟨n, hnle, hpre⟩ := infix_iff_drop.1 hin
    rcases h.missed hmax rfl with hlong | hno
    · exact absurd hlong (Nat.not_lt.2 hshort)
    · exact hno n (Nat.zero_le _) hnle hpre
  | some pos =>
    refine ⟨_, c, by rw [hloop], hfew, fun hmax => ?_⟩
    obtain ⟨hshort, m, -, hm, hcost, rfl, hfin, hpre, hleft⟩ := h.found hmax pos rfl
    refine ⟨fun _ => ⟨m, ⟨hm, hpre, fun m' hlt => hleft m' (Nat.zero_le _) hlt⟩, ?_⟩,
      fun hlong => absurd hlong (Nat.not_lt.2 hshort)⟩
    -- a place that is found is near enough to be a number of 32 bits
    have hlen : m + (codePoints p).length ≤ (codePoints t).length := by
      have := hpre.length_le
      rw [length_drop] at this
      omega
    have hoff := offset_le t hm
    have hoff' := offset_le t hlen
    have hsmall : m ≤ 20000000 := by
      rw [show initCtx.steps = 0 from rfl] at hcost
      unfold rxStepMax at hmax
      omega
    have hdepth : (codePoints p).length ≤ 4000 := hshort
    obtain ⟨h0, h1⟩ := @captures_match 0 ncaps hn ((c.setGs 0 (toInt (offset t m))).setGe 0 (toInt c.finish))
    refine ⟨h0.trans (congrArg some ?_), h1.trans (congrArg some ?_)⟩
    · rw [Ctx.setGe_gs, Ctx.setGs_self]
      exact toInt_eq (by omega)
    · rw [Ctx.setGe_self, hfin]
      exact toInt_eq (by omega)

/-- The two ways to quote a text: the flag `LITERAL`, and the marks, between which the second may not stand. -/
def Quotes (flags : Flags) (p src : List UInt8) : Prop :=
  (flags.literal = true ∧ src = p) ∨ (flags.literal = false ∧ src = quote p ∧ ¬[0x5c, 0x45] <:+: p)

theorem compile_quotes {flags : Flags} {p src : List UInt8} (h : Quotes flags p src) (hicase : flags.icase = false)
    {fuel : Nat} (hfuel : 3 ≤ fuel) : ∃ stamp : Stamp, stamp.icase = false ∧
      (rxCompile fuel flags src machine).1 = .ok ⟨[(codePoints p).map (charNode stamp)], 0⟩ := by
  rcases h with ⟨hlit, rfl⟩ | ⟨hlit, rfl, hE⟩
  · refine ⟨⟨flags.icase, false, false, false⟩, hicase, ?_⟩
    rw [rxCompile, if_pos hlit]
    rfl
  · exact ⟨nodeStamp flags, hicase, compile_quoted hlit hE hfuel⟩

/-- A quoted text is found where it stands just if it has no more code points than calls may be nested. -/
theorem quoted_found (fuel : Nat) (hfuel : 3 ≤ fuel) (flags : Flags) (p src t : List UInt8) (ncaps : Nat)
    (hq : Quotes flags p src) (hicase : flags.icase = false) (hn : 2 ≤ ncaps) :
    ∃ re r c, (rxCompile fuel flags src machine).1 = .ok re ∧ rxSearch re t 0 ncaps false false = some (r, c) ∧
      c.steps ≤ (t.length + 1) * (t.length + 2) ∧ (c.steps ≤ rxStepMax →
        (FindsText p t r ↔ (codePoints p).length ≤ rxDepthMax ∨ ¬codePoints p <:+: codePoints t)) := by
  obtain ⟨stamp, hs, hre⟩ := compile_quotes hq hicase hfuel
  obtain ⟨r, c, hsearch, hfew, hr⟩ := @search_literal p stamp hs t ncaps hn
  refine ⟨_, r, c, hre, hsearch, hfew, fun hmax => ?_⟩
  obtain ⟨hfinds, hnone⟩ := hr hmax
  rcases Nat.lt_or_ge rxDepthMax (codePoints p).length with hlong | hshort
  · rw [hnone hlong]
    exact ⟨.inr, fun h => h.resolve_left (Nat.not_le.2 hlong)⟩
  · exact ⟨fun _ => .inl hshort, fun _ => hfinds hshort⟩

def literalFlags : Flags := ⟨false, false, false, false, true, false⟩

/-- The text `(a`, with a bracket, in `b(a`, quoted by the marks. -/
theorem quoted_found_letters : ∃ re r c,
    (rxCompile 3 { literalFlags with literal := false } (lit "\\Q(a\\E") machine).1 = .ok re ∧
    rxSearch re (lit "b(a") 0 2 false false = some (r, c) ∧ c.steps ≤ rxStepMax ∧
    FindsText (lit "(a") (lit "b(a") r := by
  obtain ⟨re, r, c, hre, hsearch, hfew, hiff⟩ := quoted_found 3 (Nat.le_refl 3) { literalFlags with literal := false }
    (lit "(a") (lit "\\Q(a\\E") (lit "b(a") 2 (.inr ⟨rfl, rfl, by decide⟩) rfl (Nat.le_refl 2)
  have hsteps : c.steps ≤ rxStepMax := Nat.le_trans hfew (by decide)
  exact ⟨re, r, c, hre, hsearch, hsteps, (hiff hsteps).2 (.inl (by decide))⟩

theorem rxU8_ascii {s : List UInt8} {len i : Nat} (h : byteAt s i < 0x80) : rxU8 s len i = ((byteAt s i).toNat, i + 1) := by
  rw [rxU8, if_pos h]

/-- As many letters `a`. -/
theorem length_codePoints_replicate (n : Nat) : (codePoints (replicate n 0x61)).length = n := by
  have hpoints : ∀ k i, i + k = n → (points (replicate n 0x61) i).length = k := by
    intro k
    induction k with
    | zero =>
      intro i hi
      rw [points_of_ge _ (by rw [length_replicate]; omega), length_nil]
    | succ k ih =>
      intro i hi
      have hlt : i < (replicate n (0x61 : UInt8)).length := by
        rw [length_replicate]
        omega
      have hbyte : byteAt (replicate n 0x61) i = 0x61 := by
        rw [byteAt, getD_eq_getElem?_getD, getElem?_eq_getElem hlt, getElem_replicate, Option.getD_some]
      rw [points_of_lt _ hlt, rxU8_ascii (by rw [hbyte]; decide), length_cons, ih (i + 1) (by omega)]
  exact hpoints n 0 (Nat.zero_add n)

/-- A literal pattern of 4001 letters, in a text of the same letters. -/
theorem long_quote_missed : ¬∀ (flags : Flags) (p src t : List UInt8) (re : Rx) (r : Option (List Int)) (c : Ctx),
    Quotes flags p src → flags.icase = false → (rxCompile 3 flags src machine).1 = .ok re →
    rxSearch re t 0 2 false false = some (r, c) → c.steps ≤ rxStepMax → FindsText p t r := by
  intro h
  have hq : Quotes literalFlags (replicate 4001 0x61) (replicate 4001 0x61) := .inl ⟨rfl, rfl⟩
  obtain ⟨stamp, hs, hre⟩ := compile_quotes hq rfl (Nat.le_refl 3)
  obtain ⟨r, c, hsearch, hfew, hr⟩ := @search_literal (replicate 4001 0x61) stamp hs (replicate 4001 0x61) 2
    (Nat.le_refl 2)
  rw [length_replicate] at hfew
  have hsteps : c.steps ≤ rxStepMax := Nat.le_trans hfew (by decide)
  have hnone := (hr hsteps).2 (by rw [length_codePoints_replicate]; decide)
  have hfinds := h _ _ _ _ _ r c hq rfl hre hsearch hsteps
  rw [hnone] at hfinds
  exact hfinds (infix_refl _)

end Lunaria.Regex
