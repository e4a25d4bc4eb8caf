import Mathlib.Tactic.NormNum
import Lunaria.Lib.Bootstring
import Lunaria.Idn.Punycode
import Lunaria.Lib.CText

/-! The numbers of punycode, and what its decoder makes of a sequence of them. A sequence of distances is written with a
    bias that follows them; reading it back inserts the points that the distances stand for. -/

namespace Lunaria.Idn
open Bootstring List
open CText (toLower)

/-! ### Digits -/

theorem undigit_digit {d : Nat} (h : d < 36) : undigit (digit d) = some d := by
  have hall : ∀ d : Fin 36, undigit (digit d.1) = some d.1 := by decide
  exact hall ⟨d, h⟩

theorem digit_ne {d : Nat} (h : d < 36) : digit d ≠ dash ∧ digit d ≠ 0 ∧ digit d < 0x80 := by
  have hall : ∀ d : Fin 36, digit d.1 ≠ dash ∧ digit d.1 ≠ 0 ∧ digit d.1 < 0x80 := by decide
  exact hall ⟨d, h⟩

theorem digit_undigit {c : UInt8} {d : Nat} (h : undigit c = some d) : d < 36 ∧ digit d = toLower c := by
  have hall : ∀ n : Fin 256, ∀ d ∈ undigit (UInt8.ofNat n.1), d < 36 ∧ digit d = toLower (UInt8.ofNat n.1) := by
    decide +kernel
  have hc := hall ⟨c.toNat, c.toNat_lt⟩ d
  rw [UInt8.ofNat_toNat] at hc
  exact hc h

theorem threshold_bounds (bias k : Nat) : 0 < threshold bias k ∧ threshold bias k ≤ 26 := by
  unfold threshold
  split
  · omega
  · split <;> omega

/-! ### Writing a number -/

def places (bias j : Nat) : Nat := threshold bias (36 * (j + 1))

theorem word_lt {bias j q : Nat} (h : places bias j ≤ q) : (q - places bias j) / (36 - places bias j) < q := by
  have ht : 0 < places bias j := (threshold_bounds bias (36 * (j + 1))).1
  exact Nat.lt_of_le_of_lt (Nat.div_le_self _ _) (Nat.sub_lt (Nat.lt_of_lt_of_le ht h) ht)

/-- The digits of a number. -/
def word (bias j q : Nat) : List Nat :=
  let t := places bias j
  if q < t then [q] else (t + (q - t) % (36 - t)) :: word bias (j + 1) ((q - t) / (36 - t))
termination_by q
decreasing_by exact word_lt (Nat.le_of_not_lt ‹_›)

theorem spells_word (bias j q : Nat) : Spells 36 (places bias) j q (word bias j q) := by
  induction q using Nat.strong_induction_on generalizing j with
  | _ q ih =>
    rw [word]
    by_cases hlt : q < places bias j
    · rw [if_pos hlt]
      exact .last hlt
    · rw [if_neg hlt]
      exact .more (Nat.le_of_not_lt hlt) (ih _ (word_lt (Nat.le_of_not_lt hlt)) _)

theorem spells_lt {bias j q : Nat} {ds : List Nat} (h : Spells 36 (places bias) j q ds) : ∀ d ∈ ds, d < 36 := by
  induction h with
  | @last j q hlt =>
    intro d hd
    have := (threshold_bounds bias (36 * (j + 1))).2
    obtain rfl := mem_singleton.1 hd
    unfold places at hlt
    omega
  | @more j q ds hle _ ih =>
    intro d hd
    rcases mem_cons.1 hd with rfl | hd
    · have hb := threshold_bounds bias (36 * (j + 1))
      have := Nat.mod_lt (q - places bias j) (show 0 < 36 - places bias j by unfold places; omega)
      unfold places at *
      omega
    · exact ih d hd

/-- The number is written where there is room for it. -/
theorem encodeInt_spec {bias j q : Nat} {ds : List Nat} (h : Spells 36 (places bias) j q ds) :
    ∀ {fuel : Nat} {out : List UInt8}, 63 < fuel + out.length → out.length ≤ 63 →
      encodeInt bias fuel (36 * (j + 1)) q out =
        if out.length + ds.length ≤ 63 then some (out ++ ds.map digit) else none := by
  induction h with
  | @last j q hlt =>
    intro fuel out hfuel hout
    obtain ⟨fuel, rfl⟩ : ∃ f, fuel = f + 1 := ⟨fuel - 1, by omega⟩
    have hlt' : q < threshold bias (36 * (j + 1)) := hlt
    rw [encodeInt, if_pos hlt', put, length_singleton]
    by_cases hfull : out.length = 63
    · rw [if_pos hfull, if_neg (by omega)]
    · rw [if_neg hfull, if_pos (by omega)]
      rfl
  | @more j q ds hle hds ih =>
    intro fuel out hfuel hout
    obtain ⟨fuel, rfl⟩ : ∃ f, fuel = f + 1 := ⟨fuel - 1, by omega⟩
    have hle' : ¬q < threshold bias (36 * (j + 1)) := Nat.not_lt.2 hle
    have hpos : 0 < ds.length := length_pos_iff.2 hds.ne_nil
    rw [encodeInt, if_neg hle', put, length_cons]
    by_cases hfull : out.length = 63
    · rw [if_pos hfull, if_neg (by omega)]
      rfl
    · rw [if_neg hfull]
      have hnext := @ih fuel (out ++ [digit (threshold bias (36 * (j + 1)) + (q - threshold bias (36 * (j + 1))) %
        (36 - threshold bias (36 * (j + 1))))]) (by rw [length_append, length_singleton]; omega)
        (by rw [length_append, length_singleton]; omega)
      rw [length_append, length_singleton] at hnext
      rw [Option.bind_eq_bind, Option.bind_some, show 36 * (j + 1) + 36 = 36 * (j + 1 + 1) from rfl]
      refine hnext.trans ?_
      rw [show out.length + 1 + ds.length = out.length + (ds.length + 1) by omega]
      split
      · rw [append_assoc]
        rfl
      · rfl

/-! ### Reading a number -/

/-- Above every distance that a label of at most 60 points needs. -/
def limit : Nat := 0x4000000

/-- A number is read back, whatever follows it, where its value stays below the limit. -/
theorem decodeInt_word {bias j q : Nat} {ds : List Nat} (h : Spells 36 (places bias) j q ds) :
    ∀ {i weight : Nat} {rest : List UInt8}, i + weight * q ≤ limit → 0 < weight → weight ≤ 35 * limit →
      decodeInt bias (36 * (j + 1)) i weight (ds.map digit ++ rest) = some (i + weight * q, rest) := by
  have hall := spells_lt h
  induction h with
  | @last j q hlt =>
    intro i weight rest hsum hpos hweight
    have hlt' : q < threshold bias (36 * (j + 1)) := hlt
    rw [map_singleton, singleton_append, decodeInt, undigit_digit (hall q mem_cons_self)]
    dsimp only
    rw [if_neg ?_, if_pos hlt', Nat.mul_comm]
    rw [Nat.not_lt]
    by_cases hq : q = 0
    · rw [if_pos hq, Nat.div_one]
      unfold uint32Max limit at *
      omega
    · rw [if_neg hq, Nat.le_div_iff_mul_le (Nat.pos_of_ne_zero hq)]
      unfold uint32Max limit at *
      omega
  | @more j q ds hle hds ih =>
    intro i weight rest hsum hpos hweight
    obtain ⟨ht, ht'⟩ := threshold_bounds bias (36 * (j + 1))
    obtain ⟨hd, hq⟩ := @Spells.head_le 36 (places bias) j q hle
    set d := places bias j + (q - places bias j) % (36 - places bias j) with hddef
    set q' := (q - places bias j) / (36 - places bias j) with hqdef
    have htd : places bias j ≤ d := Nat.le_add_right _ _
    have hplaces : places bias j = threshold bias (36 * (j + 1)) := rfl
    have hdpos : 0 < d := by omega
    have hmul : weight * d ≤ weight * q := Nat.mul_le_mul_left weight hd
    have hwq : weight ≤ weight * q := Nat.le_mul_of_pos_right weight (by omega)
    have hnext : weight * (36 - places bias j) ≤ 35 * limit := by
      rw [Nat.mul_comm 35]
      exact Nat.mul_le_mul (by omega) (by omega)
    have hval : i + d * weight + weight * (36 - places bias j) * q' = i + weight * q := by
      rw [hq, Nat.mul_add, Nat.mul_assoc, Nat.mul_comm d weight, Nat.add_assoc]
    have hdigit := hall d mem_cons_self
    rw [map_cons, cons_append, decodeInt, undigit_digit hdigit]
    dsimp only
    rw [← hplaces]
    have hfits : ¬(uint32Max - i) / (if d = 0 then 1 else d) < weight := by
      rw [if_neg (Nat.pos_iff_ne_zero.1 hdpos), Nat.not_lt, Nat.le_div_iff_mul_le hdpos]
      unfold uint32Max limit at *
      omega
    have hgrows : ¬uint32Max / (36 - places bias j) < weight := by
      rw [Nat.not_lt, Nat.le_div_iff_mul_le (by omega)]
      unfold uint32Max limit at *
      omega
    rw [if_neg hfits, if_neg (Nat.not_lt.2 htd), if_neg hgrows, show 36 * (j + 1) + 36 = 36 * (j + 1 + 1) from rfl,
      ih (fun x hx => hall x (mem_cons_of_mem _ hx)) (hval.symm ▸ hsum)
        (Nat.mul_pos hpos (by omega)) hnext, hval]

/-- What is read is the digits of a number, in either case of letters. -/
theorem decodeInt_some {bias : Nat} : ∀ {s : List UInt8} {j i weight at' : Nat} {rest : List UInt8},
    decodeInt bias (36 * (j + 1)) i weight s = some (at', rest) →
    ∃ used q ds, s = used ++ rest ∧ Spells 36 (places bias) j q ds ∧ used.map toLower = ds.map digit ∧
      at' = i + weight * q
  | [], _, _, _, _, _, h => by cases h
  | c :: s, j, i, weight, at', rest, h => by
    rw [decodeInt] at h
    cases hd : undigit c with
    | none =>
      rw [hd] at h
      cases h
    | some d =>
      rw [hd] at h
      obtain ⟨-, h⟩ := Option.ite_none_left_eq_some.1 h
      obtain ⟨hlt, hlow⟩ := digit_undigit hd
      have hplaces : places bias j = threshold bias (36 * (j + 1)) := rfl
      by_cases hlast : d < threshold bias (36 * (j + 1))
      · rw [if_pos hlast] at h
        cases h
        refine ⟨[c], d, [d], rfl, .last hlast, ?_, by rw [Nat.mul_comm]⟩
        rw [map_singleton, map_singleton, hlow]
      · rw [if_neg hlast] at h
        obtain ⟨-, h⟩ := Option.ite_none_left_eq_some.1 h
        obtain ⟨used, q, ds, rfl, hspells, hmap, rfl⟩ := decodeInt_some (j := j + 1) h
        refine ⟨c :: used, d + (36 - places bias j) * q, d :: ds, rfl, hspells.cons (Nat.le_of_not_lt hlast) hlt, ?_, ?_⟩
        · rw [map_cons, map_cons, hmap, hlow]
        · rw [← hplaces, Nat.mul_add weight, Nat.mul_assoc, Nat.mul_comm d weight, Nat.add_assoc]

/-! ### Sequences of distances -/

/-- The characters of a sequence of distances, when `h` points of `basic` and more are there. -/
def codes (basic : Nat) : Nat → Nat → List Nat → List UInt8
  | _, _, [] => []
  | bias, h, d :: ds => (word bias 0 d).map digit ++ codes basic (adapt d (h + 1) (h = basic)) (h + 1) ds

def biasAfter (basic : Nat) : Nat → Nat → List Nat → Nat
  | bias, _, [] => bias
  | _, h, d :: ds => biasAfter basic (adapt d (h + 1) (h = basic)) (h + 1) ds

section
variable {basic : Nat}

theorem codes_concat (ds : List Nat) (d bias h : Nat) : codes basic bias h (ds ++ [d]) =
    codes basic bias h ds ++ (word (biasAfter basic bias h ds) 0 d).map digit := by
  induction ds generalizing bias h with
  | nil => simp [codes, biasAfter]
  | cons x ds ih => rw [cons_append, codes, codes, ih, biasAfter, append_assoc]

theorem biasAfter_concat (ds : List Nat) (d bias h : Nat) : biasAfter basic bias h (ds ++ [d]) =
    adapt d (h + ds.length + 1) (h + ds.length = basic) := by
  induction ds generalizing bias h with
  | nil => rfl
  | cons x ds ih =>
    rw [cons_append, biasAfter, ih, length_cons, Nat.add_assoc h 1, Nat.add_comm 1]

theorem mem_codes_digit {ds : List Nat} {bias h : Nat} {c : UInt8} (hc : c ∈ codes basic bias h ds) :
    ∃ d < 36, c = digit d := by
  induction ds generalizing bias h with
  | nil => cases hc
  | cons d ds ih =>
    rcases mem_append.1 hc with hc | hc
    · obtain ⟨x, hx, rfl⟩ := List.mem_map.1 hc
      exact ⟨x, spells_lt (spells_word bias 0 d) x hx, rfl⟩
    · exact ih hc

theorem mem_codes {ds : List Nat} {bias h : Nat} {c : UInt8} (hc : c ∈ codes basic bias h ds) :
    c ≠ dash ∧ c ≠ 0 ∧ c < 0x80 := by
  obtain ⟨d, hd, rfl⟩ := mem_codes_digit hc
  exact digit_ne hd

/-- Every distance takes a character or more. -/
theorem length_le_codes (ds : List Nat) (bias h : Nat) : ds.length ≤ (codes basic bias h ds).length := by
  induction ds generalizing bias h with
  | nil => exact le_rfl
  | cons d ds ih =>
    have hpos := length_pos_iff.2 (spells_word bias 0 d).ne_nil
    have hrest := ih (adapt d (h + 1) (h = basic)) (h + 1)
    rw [codes, length_append, length_map, length_cons]
    omega

/-- A point that the decoder takes. -/
def Scalar (p : Nat) : Prop := p ≤ 0x10ffff ∧ ¬(0xd800 ≤ p ∧ p ≤ 0xdfff)

theorem mem_run {b : Build} {x : Nat} (ds : List Nat) (hx : x ∈ b.list) : x ∈ (b.run ds).list := by
  induction ds generalizing b with
  | nil => exact hx
  | cons d ds ih =>
    refine ih (b := b.insert d) ?_
    exact (mem_insertIdx (b.place_le d)).2 (.inr hx)

/-- What is not there at the start was inserted, with a value from the start's on. -/
theorem mem_run_inserted {x : Nat} : ∀ {b : Build} (ds : List Nat), x ∈ (b.run ds).list → x ∈ b.list ∨ b.n ≤ x
  | _, [], hx => .inl hx
  | b, d :: ds, hx => by
    have hn : b.n ≤ (b.insert d).n := Nat.le_add_right _ _
    rcases mem_run_inserted ds (show x ∈ ((b.insert d).run ds).list from hx) with hx | hx
    · rcases eq_or_mem_of_mem_insertIdx hx with rfl | hx
      · exact .inr hn
      · exact .inl hx
    · exact .inr (Nat.le_trans hn hx)

theorem decodeLoop_read {v : List Nat} {n i bias at' : Nat} {s rest : List UInt8} (hs : s ≠ [])
    (h : decodeInt bias 36 i 1 s = some (at', rest)) :
    decodeLoop v n i bias s =
      if 0x10ffff < n + at' / (v.length + 1) ∨
        (0xd800 ≤ n + at' / (v.length + 1) ∧ n + at' / (v.length + 1) ≤ 0xdfff) then none
      else decodeLoop (v.insertIdx (at' % (v.length + 1)) (n + at' / (v.length + 1))) (n + at' / (v.length + 1))
        (at' % (v.length + 1) + 1) (adapt (at' - i) (v.length + 1) (i = 0)) rest := by
  rw [decodeLoop, if_neg hs]
  split
  · rename_i hnone
    rw [h] at hnone
    cases hnone
  · rename_i a r heq
    rw [h] at heq
    cases heq
    rfl

theorem decodeLoop_failed {v : List Nat} {n i bias : Nat} {s : List UInt8} (hs : s ≠ [])
    (h : decodeInt bias 36 i 1 s = none) : decodeLoop v n i bias s = none := by
  rw [decodeLoop, if_neg hs]
  split
  · rfl
  · rename_i a r heq
    rw [h] at heq
    cases heq

/-- A sequence of distances is read back as the insertions it stands for, if they give a list of at most 60 scalar values. -/
theorem decodeLoop_codes (ds : List Nat) : ∀ {b : Build} {bias : Nat}, (b.i = 0 ↔ b.list.length = basic) →
    basic ≤ b.list.length → (∀ x ∈ (b.run ds).list, Scalar x) → (b.run ds).list.length ≤ 60 →
    decodeLoop b.list b.n b.i bias (codes basic bias b.list.length ds) = some (b.run ds).list := by
  induction ds with
  | nil =>
    intro b bias _ _ _ _
    rw [codes, decodeLoop, if_pos rfl]
    rfl
  | cons d ds ih =>
    intro b bias hfirst hbasic hscalar hlen
    have hlist : (b.insert d).list.length = b.list.length + 1 := b.length_insert d
    have hrun : b.run (d :: ds) = (b.insert d).run ds := rfl
    -- the value that is inserted is in the list, so that the distance is small
    have hmem : (b.insert d).n ∈ ((b.insert d).run ds).list := by
      apply mem_run
      exact (mem_insertIdx (b.place_le d)).2 (.inl rfl)
    have hn : Scalar (b.insert d).n := hscalar _ hmem
    have hshort : b.list.length + 1 ≤ 60 := by
      rw [hrun, Build.length_run, hlist] at hlen
      omega
    have hsum : b.i + 1 * d ≤ limit := by
      have hdiv : (b.i + d) / (b.list.length + 1) ≤ 0x10ffff := Nat.le_trans (Nat.le_add_left _ _) hn.1
      have hlt : (b.i + d) < (0x10ffff + 1) * (b.list.length + 1) :=
        (Nat.div_lt_iff_lt_mul (Nat.succ_pos _)).1 (Nat.lt_succ_of_le hdiv)
      have hmul : (0x10ffff + 1) * (b.list.length + 1) ≤ (0x10ffff + 1) * 60 := Nat.mul_le_mul_left _ hshort
      unfold limit
      omega
    have hread := @decodeInt_word bias 0 d _ (spells_word bias 0 d) b.i 1
      (codes basic (adapt d (b.list.length + 1) (b.list.length = basic)) (b.list.length + 1) ds) hsum Nat.one_pos
      (by norm_num [limit])
    rw [Nat.one_mul] at hread
    have hne : codes basic bias b.list.length (d :: ds) ≠ [] := by
      intro hnil
      have := @length_le_codes basic (d :: ds) bias b.list.length
      rw [hnil, length_nil, length_cons] at this
      omega
    have hbias : adapt (b.i + d - b.i) (b.list.length + 1) (decide (b.i = 0)) =
        adapt d (b.list.length + 1) (decide (b.list.length = basic)) := by
      rw [Nat.add_sub_cancel_left, decide_eq_decide.2 hfirst]
    have hok : ¬(0x10ffff < (b.insert d).n ∨ (0xd800 ≤ (b.insert d).n ∧ (b.insert d).n ≤ 0xdfff)) :=
      not_or.2 ⟨Nat.not_lt.2 hn.1, hn.2⟩
    rw [decodeLoop_read hne hread, hbias]
    refine (if_neg hok).trans ?_
    have hnext := @ih (b.insert d) (adapt d (b.list.length + 1) (decide (b.list.length = basic)))
      (iff_of_false (Nat.succ_ne_zero _) (by omega)) (by omega) hscalar hlen
    rw [hlist] at hnext
    exact hnext

/-- What the decoder takes is a sequence of distances, in either case of letters. -/
theorem decodeLoop_some {s : List UInt8} {b : Build} {bias : Nat} {v : List Nat}
    (hfirst : b.i = 0 ↔ b.list.length = basic) (hbasic : basic ≤ b.list.length)
    (h : decodeLoop b.list b.n b.i bias s = some v) :
    ∃ ds, (b.run ds).list = v ∧ s.map toLower = codes basic bias b.list.length ds ∧
      ((∀ x ∈ b.list, Scalar x) → ∀ x ∈ v, Scalar x) := by
  induction hn : s.length using Nat.strong_induction_on generalizing s b bias with
  | _ n ih =>
    by_cases hs : s = []
    · subst hs
      rw [decodeLoop, if_pos rfl] at h
      cases h
      exact ⟨[], rfl, rfl, id⟩
    · cases hint : decodeInt bias 36 b.i 1 s with
      | none =>
        rw [decodeLoop_failed hs hint] at h
        cases h
      | some r =>
        obtain ⟨at', rest⟩ := r
        rw [decodeLoop_read hs hint] at h
        obtain ⟨hok, h⟩ := Option.ite_none_left_eq_some.1 h
        obtain ⟨used, q, ds, rfl, hspells, hmap, rfl⟩ := @decodeInt_some bias s 0 b.i 1 at' rest hint
        rw [Nat.one_mul, Nat.add_sub_cancel_left] at h
        rw [Nat.one_mul, not_or, Nat.not_lt] at hok
        have hlist := b.length_insert q
        have hrest : rest.length < n := hn ▸ decodeInt_length hint
        obtain ⟨deltas, hrun, hcodes, hscalar⟩ := @ih rest.length hrest rest (b.insert q) _
          (iff_of_false (Nat.succ_ne_zero _) (by omega)) (by omega) h rfl
        refine ⟨q :: deltas, hrun, ?_, fun hall => hscalar ?_⟩
        · rw [map_append, hmap, hcodes, hlist, codes, (spells_word bias 0 q).unique hspells,
            decide_eq_decide.2 hfirst]
        · intro x hx
          rcases eq_or_mem_of_mem_insertIdx hx with rfl | hx
          · exact hok
          · exact hall x hx

end

end Lunaria.Idn
