import Lunaria.Regex.Backref
import Lunaria.Regex.Numerals

/-! What is so of every compiled pattern: the groups are numbered in the order of their brackets, and the bounds of a
    repetition are as they are written where they fit an `int`. So the back references of a search are well formed, and
    the search ends. -/

namespace Lunaria.Regex.Parse
open Questions List Option CText

/-! ### Nodes by their groups -/

theorem Op.nodes_eq {N : Type} (op : Op N) : op.nodes = op.alts.flatten := by
  cases op <;> rfl

theorem hasGroup_of_op {g : Nat} {n n' : Node} (hop : n'.op = n.op) (h : HasGroup g n') : HasGroup g n := by
  cases h with
  | here hg h0 => exact .here (hop ▸ hg) h0
  | inside hx hg => exact .inside (hop ▸ hx) hg

/-- A node whose groups have the numbers after `a`, up to `b`. If all is `ok`, no bound is below zero. -/
structure Fresh (ok : Prop) (a b : Nat) (n : Node) : Prop where
  numbered : Numbered n
  within : ∀ g, HasGroup g n → a < g ∧ g ≤ b
  nonNeg : ok → NonNeg n

structure FreshAll (ok : Prop) (a b : Nat) (l : List Node) : Prop where
  apart : Apart l
  all : ∀ x ∈ l, Fresh ok a b x

section
variable {ok : Prop} {a b m : Nat} {n : Node} {l : List Node}

theorem Fresh.wider (h : Fresh ok a b n) {a' b' : Nat} (ha : a' ≤ a) (hb : b ≤ b') : Fresh ok a' b' n :=
  ⟨h.numbered, fun g hg => ⟨Nat.lt_of_le_of_lt ha (h.within g hg).1, Nat.le_trans (h.within g hg).2 hb⟩, h.nonNeg⟩

/-- Another quantifier changes no group. -/
theorem Fresh.requant (h : Fresh ok a b n) (quant : Quant) (stamp : Stamp) {min max : Int} (hmin : ok → 0 ≤ min) :
    Fresh ok a b (.mk n.op quant stamp min max) := by
  obtain ⟨⟨hown, hapart, hinner⟩, hwithin, hnonNeg⟩ := h
  have hop : (Node.mk n.op quant stamp min max).op = n.op := rfl
  exact ⟨.intro hown hapart hinner, fun g hg => hwithin g (hasGroup_of_op hop hg),
    fun hok => .intro (hmin hok) (hnonNeg hok).inner⟩

theorem freshAll_nil : FreshAll ok a b [] := ⟨.nil, fun x hx => by cases hx⟩

/-- What stands later has later numbers. -/
theorem FreshAll.append {l' : List Node} (h : FreshAll ok a m l) (h' : FreshAll ok m b l') (ham : a ≤ m) (hmb : m ≤ b) :
    FreshAll ok a b (l ++ l') := by
  refine ⟨pairwise_append.2 ⟨h.apart, h'.apart, fun x hx y hy g hgx hgy => ?_⟩, fun x hx => ?_⟩
  · have := ((h.all x hx).within g hgx).2
    have := ((h'.all y hy).within g hgy).1
    omega
  · rcases mem_append.1 hx with hx | hx
    · exact (h.all x hx).wider (Nat.le_refl a) hmb
    · exact (h'.all x hx).wider ham (Nat.le_refl b)

theorem Fresh.singleton (h : Fresh ok a b n) : FreshAll ok a b [n] :=
  ⟨pairwise_singleton .., fun x hx => by rw [mem_singleton.1 hx]; exact h⟩

/-- An operation with alternatives, whose own group, if it has one, comes before those in them. -/
theorem fresh_alts {op : Op Node} (quant : Quant) (stamp : Stamp) (h : FreshAll ok m b op.nodes) (hm : a ≤ m) (hb : m ≤ b)
    (hop : ∀ g alts, op = .group g alts → g ≤ m ∧ (g ≠ 0 → a < g)) : Fresh ok a b (.mk op quant stamp 1 1) := by
  refine ⟨.intro (fun g alts hg x hx hgx => ?_) h.apart fun x hx => (h.all x hx).numbered, fun g hg => ?_, fun hok => ?_⟩
  · have := ((h.all x hx).within g hgx).1
    have := (hop g alts hg).1
    omega
  · cases hg with
    | here hg h0 =>
      obtain ⟨hle, hlt⟩ := hop g _ hg
      exact ⟨hlt h0, Nat.le_trans hle hb⟩
    | inside hx hg => exact ((h.all _ hx).wider hm (Nat.le_refl b)).within g hg
  · refine .intro (by decide : (0 : Int) ≤ 1) fun alt halt x hx => (h.all x ?_).nonNeg hok
    rw [Op.nodes_eq]
    exact mem_flatten.2 ⟨alt, halt, hx⟩

/-- An operation without alternatives. -/
def Leaf (op : Op Node) : Prop := op.nodes = [] ∧ ∀ g alts, op ≠ .group g alts

theorem Leaf.fresh {op : Op Node} (h : Leaf op) (quant : Quant) (stamp : Stamp) :
    Fresh ok a a (.mk op quant stamp 1 1) := by
  refine fresh_alts quant stamp ?_ (Nat.le_refl a) (Nat.le_refl a) fun g alts hg => absurd hg (h.2 g alts)
  rw [h.1]
  exact freshAll_nil

theorem leaf_char (cp : Nat) : Leaf (.char cp) := ⟨rfl, by rintro _ _ ⟨⟩⟩

/-- Nodes without groups. -/
theorem freshAll_chars {flags : Stamp} (cps : List Nat) : FreshAll ok a a (cps.map (charNode flags)) := by
  induction cps with
  | nil => exact freshAll_nil
  | cons cp cps ih => exact ((leaf_char cp).fresh .greedy flags).singleton.append ih (Nat.le_refl a) (Nat.le_refl a)

end

/-! ### The parser -/

section
variable {ok : Prop}

/-- If all is `ok`, the counts are in range. -/
def Counts (ok : Prop) (x : Numeral) : Prop := ok → ∀ digits, x = .count digits → InRange x

/-- What is read, in a pattern with such counts. -/
abbrev Reads (ok : Prop) {α : Type} (m : Reading α) (R : α → Prop) : Prop := Gives machine (Counts ok) m R

/-- Groups may have been counted. -/
def Grown (ps ps' : Rxp) : Prop := ps.ngroups ≤ ps'.ngroups ∧ ps'.ngroups ≤ rxMaxGroups

variable (src : List UInt8)

theorem parseNumber_reads (p : Nat) : Reads ok (parseNumber src p) fun x => ok → 0 ≤ x.1 := by
  refine gives_bind (R := fun v => ok → 0 ≤ v) (gives_ask fun v hcounts hv hok => ?_) fun v hv => gives_pure hv
  rw [machine_inRange (hcounts hok _ rfl)] at hv
  cases hv
  exact Int.natCast_nonneg _

theorem parseBraces_reads (p : Nat) : Reads ok (parseBraces src p) fun x => ok → 0 ≤ x.1 := by
  refine gives_bind (parseNumber_reads src p) fun first hmin => gives_then fun second => ?_
  obtain ⟨min, q⟩ := first
  obtain ⟨max, r⟩ := second
  split
  split
  · exact gives_fail _
  split
  · exact gives_fail _
  · exact gives_pure hmin

theorem parseCounts_reads (p : Nat) :
    Reads ok (parseCounts src p) fun x => ok → ∀ min max q, x = some (min, max, q) → 0 ≤ min := by
  rw [parseCounts]
  iterate 3
    split
    · refine gives_pure fun _ min max q h => ?_
      cases h
      decide
  split
  · refine gives_bind (parseBraces_reads src (p + 1)) fun x hx => gives_pure fun hok min max q h => ?_
    cases h
    exact hx hok
  · refine gives_pure fun _ min max q h => ?_
    cases h

theorem parseQuant_reads {a b : Nat} {n : Node} (hn : Fresh ok a b n) (p : Nat) :
    Reads ok (parseQuant src n p) fun x => Fresh ok a b x.1 := by
  refine gives_bind (parseCounts_reads src p) fun counts hcounts => ?_
  cases counts with
  | none => exact gives_pure hn
  | some bounds =>
    obtain ⟨min, max, q⟩ := bounds
    have hmin : ok → 0 ≤ min := fun hok => hcounts hok min max q rfl
    dsimp only
    split
    · exact gives_pure (hn.requant .reluctant n.stamp hmin)
    · split
      · exact gives_pure (hn.requant .possessive n.stamp hmin)
      · exact gives_pure (hn.requant .greedy n.stamp hmin)

theorem letterOp_leaf {c : UInt8} {op : Op Node} (h : letterOp c = some op) : Leaf op := by
  unfold letterOp at h
  split_ifs at h
  all_goals
    cases h
    exact ⟨rfl, by rintro _ _ ⟨⟩⟩

theorem parseEscape_reads (ps : Rxp) (p : Nat) : Reads ok (parseEscape src ps p) fun x => Leaf x.1 := by
  rw [parseEscape]
  dsimp only
  split
  · exact gives_pure (letterOp_leaf (by assumption))
  split
  · refine gives_then fun read => ?_
    obtain ⟨name, q⟩ := read
    dsimp only
    split
    · exact gives_fail _
    · exact gives_pure ⟨rfl, by rintro _ _ ⟨⟩⟩
  split
  · split
    · exact gives_fail _
    · exact gives_pure ⟨rfl, by rintro _ _ ⟨⟩⟩
  · refine gives_then fun found => ?_
    cases found with
    | some sub => exact gives_pure ⟨rfl, by rintro _ _ ⟨⟩⟩
    | none =>
      refine gives_then fun read => ?_
      obtain ⟨cp, q⟩ := read
      exact gives_pure (leaf_char cp)

/-- What the beginning of a group makes of the alternatives. -/
structure Opens (ps : Rxp) (op : List (List Node) → Op Node) (inner : Rxp) : Prop where
  grown : Grown ps inner
  nodes : ∀ alts, (op alts).nodes = alts.flatten
  number : ∀ alts g l, op alts = .group g l → g ≤ inner.ngroups ∧ (g ≠ 0 → ps.ngroups < g)

theorem capture_opens {ps : Rxp} {name : Option (List UInt8)} {p : Nat}
    {op : List (List Node) → Op Node} {inner : Rxp} (h : capture ps name p = .ok (.group op inner)) :
      Opens ps op inner := by
  unfold capture at h
  dsimp only at h
  split at h
  · cases h
  · rename_i hfew
    cases h
    refine ⟨⟨Nat.le_succ _, Nat.le_of_not_lt hfew⟩, fun _ => rfl, fun alts g l hg => ?_⟩
    cases hg
    exact ⟨Nat.le_refl _, fun _ => Nat.lt_succ_self _⟩

/-- An opening that gives no number. -/
theorem opens_same {ps inner : Rxp} (hps : ps.ngroups ≤ rxMaxGroups) (hinner : inner.ngroups = ps.ngroups)
    {op : List (List Node) → Op Node} (hnodes : ∀ alts, (op alts).nodes = alts.flatten)
    (hop : ∀ alts g l, op alts = .group g l → g = 0) : Opens ps op inner := by
  refine ⟨⟨Nat.le_of_eq hinner.symm, hinner ▸ hps⟩, hnodes, fun alts g l hg => ?_⟩
  obtain rfl := hop alts g l hg
  exact ⟨Nat.zero_le _, fun h => absurd rfl h⟩

theorem parseOpening_opens {ps : Rxp} (hps : ps.ngroups ≤ rxMaxGroups) {p : Nat} {opening : Opening}
    (h : parseOpening src ps p = .ok opening) :
    (∃ ps', opening = .flags ps' ∧ ps'.ngroups = ps.ngroups) ∨ ∃ op inner, opening = .group op inner ∧
      Opens ps op inner := by
  have hsame : ∀ {op : List (List Node) → Op Node} {inner : Rxp}, inner.ngroups = ps.ngroups →
      (∀ alts, (op alts).nodes = alts.flatten) → (∀ alts g l, op alts = .group g l → g = 0) →
      ∃ op' inner', Opening.group op inner = .group op' inner' ∧ Opens ps op' inner' :=
    fun hinner hnodes hop => ⟨_, _, rfl, opens_same hps hinner hnodes hop⟩
  have hcapture : ∀ {name : Option (List UInt8)} {p : Nat}, capture ps name p = .ok opening →
      ∃ op inner, opening = .group op inner ∧ Opens ps op inner := by
    intro name p hcap
    have hop := hcap
    unfold capture at hop
    dsimp only at hop
    split at hop
    · cases hop
    · cases hop
      exact ⟨_, _, rfl, capture_opens hcap⟩
  unfold parseOpening at h
  dsimp only at h
  obtain ⟨-, h⟩ | ⟨-, h⟩ := ite_eq_iff.1 h
  · exact .inr (hcapture h)
  iterate 5
    obtain ⟨-, h⟩ | ⟨-, h⟩ := ite_eq_iff.1 h
    · cases h
      exact .inr (hsame rfl (fun _ => rfl) (by rintro _ _ _ ⟨⟩; try rfl))
  obtain ⟨-, h⟩ | ⟨-, h⟩ := ite_eq_iff.1 h
  · cases hname : parseGroupName src (p + 2) with
    | error e =>
      rw [hname] at h
      cases h
    | ok named =>
      rw [hname] at h
      change capture ps (some named.1) named.2 = _ at h
      exact .inr (hcapture h)
  obtain ⟨-, h⟩ | ⟨-, h⟩ := ite_eq_iff.1 h
  · cases h
    exact .inl ⟨_, rfl, rfl⟩
  obtain ⟨-, h⟩ | ⟨-, h⟩ := ite_eq_iff.1 h
  · cases h
  · cases h
    exact .inr (hsame rfl (fun _ => rfl) (by rintro _ _ _ ⟨⟩; rfl))

theorem parseQuoted_fresh {a : Nat} (flags : Flags) (fuel p : Nat) : FreshAll ok a a (parseQuoted src flags fuel p).1 := by
  induction fuel generalizing p with
  | zero => exact freshAll_nil
  | succ fuel ih =>
    rw [parseQuoted]
    split
    · exact freshAll_nil
    split
    · exact freshAll_nil
    · exact ((leaf_char _).fresh .greedy _).singleton.append (ih _) (Nat.le_refl a) (Nat.le_refl a)

/-- What patterns are read from, to a depth of calls. -/
structure PatternsFresh (ok : Prop) (fuel : Nat) : Prop where
  atom : ∀ depth ps, ps.ngroups ≤ rxMaxGroups → Reads ok (parseAtom src fuel depth ps) fun x =>
    Grown ps x.2 ∧ ∀ n, x.1 = some n → Fresh ok ps.ngroups x.2.ngroups n
  seq : ∀ depth ps, ps.ngroups ≤ rxMaxGroups → Reads ok (parseSeq src fuel depth ps) fun x =>
    Grown ps x.2 ∧ FreshAll ok ps.ngroups x.2.ngroups x.1
  alt : ∀ depth ps, ps.ngroups ≤ rxMaxGroups → Reads ok (parseAlt src fuel depth ps) fun x =>
    Grown ps x.2 ∧ FreshAll ok ps.ngroups x.2.ngroups x.1.flatten

variable {src} {fuel : Nat}

theorem PatternsFresh.succ_atom (h : PatternsFresh src ok fuel) (depth : Nat) {ps : Rxp} (hps : ps.ngroups ≤ rxMaxGroups) :
    Reads ok (parseAtom src (fuel + 1) depth ps) fun x =>
      Grown ps x.2 ∧ ∀ n, x.1 = some n → Fresh ok ps.ngroups x.2.ngroups n := by
  have hsingle : ∀ {op : Op Node} {p : Nat}, Leaf op → Reads ok
      (pure (some (node op ps.flags), { ps with p := p }) : Reading (Option Node × Rxp)) fun x =>
        Grown ps x.2 ∧ ∀ n, x.1 = some n → Fresh ok ps.ngroups x.2.ngroups n := by
    intro op p hop
    refine gives_pure ⟨⟨Nat.le_refl _, hps⟩, fun n hn => ?_⟩
    cases hn
    exact hop.fresh .greedy _
  rw [parseAtom]
  dsimp only
  split
  · exact gives_fail _
  split
  · refine gives_bind (gives_lift fun opening => parseOpening_opens src hps) fun opening hopening => ?_
    rcases hopening with ⟨ps', rfl, hsame⟩ | ⟨op, inner, rfl, hopens⟩
    · refine gives_pure ⟨⟨Nat.le_of_eq hsame.symm, hsame ▸ hps⟩, fun n hn => ?_⟩
      cases hn
    · refine gives_bind (h.alt (depth + 1) inner hopens.grown.2) fun read hread => ?_
      obtain ⟨alts, last⟩ := read
      obtain ⟨hgrown, halts⟩ := hread
      dsimp only
      split
      · exact gives_fail _
      · refine gives_pure ⟨⟨Nat.le_trans hopens.grown.1 hgrown.1, hgrown.2⟩, fun n hn => ?_⟩
        cases hn
        refine fresh_alts .greedy _ ?_ hopens.grown.1 hgrown.1 (hopens.number alts)
        rw [hopens.nodes]
        exact halts
  split
  · refine gives_then fun read => ?_
    obtain ⟨cls, q⟩ := read
    exact hsingle ⟨rfl, by rintro _ _ ⟨⟩⟩
  iterate 3
    split
    · exact hsingle ⟨rfl, by rintro _ _ ⟨⟩⟩
  split
  · refine gives_bind (parseEscape_reads src ps _) fun read hop => ?_
    obtain ⟨op, q⟩ := read
    exact hsingle hop
  split
  · exact gives_fail _
  split
  · exact gives_fail _
  · exact hsingle (leaf_char _)

/-- What is read first comes before the rest of a sequence. -/
theorem PatternsFresh.rest (h : PatternsFresh src ok fuel) (depth : Nat) {ps : Rxp} (ps' : Rxp) (hgrown : Grown ps ps')
    {l : List Node} (hl : FreshAll ok ps.ngroups ps'.ngroups l) :
    Reads ok (do
      let (rest, ps) ← parseSeq src fuel depth ps'
      pure (l ++ rest, ps)) fun x => Grown ps x.2 ∧ FreshAll ok ps.ngroups x.2.ngroups x.1 := by
  refine gives_bind (h.seq depth ps' hgrown.2) fun read hread => ?_
  obtain ⟨rest, ps''⟩ := read
  obtain ⟨hgrown', hrest⟩ := hread
  exact gives_pure ⟨⟨Nat.le_trans hgrown.1 hgrown'.1, hgrown'.2⟩, hl.append hrest hgrown.1 hgrown'.1⟩

theorem FreshAll.sub {a b : Nat} {l l' : List Node} (h : FreshAll ok a b l) (hsub : l' <+ l) : FreshAll ok a b l' :=
  ⟨h.apart.sublist hsub, fun x hx => h.all x (hsub.subset hx)⟩

theorem PatternsFresh.succ_seq (h : PatternsFresh src ok fuel) (depth : Nat) {ps : Rxp} (hps : ps.ngroups ≤ rxMaxGroups) :
    Reads ok (parseSeq src (fuel + 1) depth ps) fun x => Grown ps x.2 ∧ FreshAll ok ps.ngroups x.2.ngroups x.1 := by
  rw [parseSeq]
  dsimp only
  split
  · exact gives_pure ⟨⟨Nat.le_refl _, hps⟩, freshAll_nil⟩
  split
  · split
    · exact h.seq depth _ hps
    · rename_i last hlast
      have hquoted := @parseQuoted_fresh ok src ps.ngroups ps.flags src.length (skipX src ps.flags ps.p + 2)
      refine gives_bind (parseQuant_reads src (hquoted.all last (mem_of_getLast? hlast)) _) fun read hn => ?_
      obtain ⟨n, q⟩ := read
      have hread := h.rest depth { ps with p := q } ⟨Nat.le_refl ps.ngroups, hps⟩
        ((hquoted.sub (dropLast_sublist _)).append hn.singleton (Nat.le_refl _) (Nat.le_refl _))
      simpa only [append_assoc, singleton_append] using hread
  · refine gives_bind (h.atom depth _ hps) fun atom hread => ?_
    obtain ⟨read, ps'⟩ := atom
    obtain ⟨hgrown, hn⟩ := hread
    cases read with
    | none =>
      refine (h.seq depth ps' hgrown.2).mono fun x hx => ?_
      obtain ⟨hgrown', hx⟩ := hx
      refine ⟨⟨Nat.le_trans hgrown.1 hgrown'.1, hgrown'.2⟩, hx.apart,
        fun n hn => (hx.all n hn).wider hgrown.1 (Nat.le_refl _)⟩
    | some n =>
      refine gives_bind (parseQuant_reads src (hn n rfl) _) fun read hn => ?_
      obtain ⟨n, q⟩ := read
      exact h.rest depth { ps' with p := q } hgrown hn.singleton

theorem PatternsFresh.succ_alt (h : PatternsFresh src ok fuel) (depth : Nat) {ps : Rxp} (hps : ps.ngroups ≤ rxMaxGroups) :
    Reads ok (parseAlt src (fuel + 1) depth ps) fun x => Grown ps x.2 ∧ FreshAll ok ps.ngroups x.2.ngroups x.1.flatten := by
  rw [parseAlt]
  refine gives_bind (h.seq depth ps hps) fun read hread => ?_
  obtain ⟨seq, ps'⟩ := read
  obtain ⟨hgrown, hseq⟩ := hread
  dsimp only
  split
  · refine gives_pure ⟨hgrown, ?_⟩
    rwa [flatten_singleton]
  · refine gives_bind (h.alt depth { ps' with p := ps'.p + 1 } hgrown.2) fun read hread => ?_
    obtain ⟨alts, ps''⟩ := read
    obtain ⟨hgrown', halts⟩ := hread
    exact gives_pure ⟨⟨Nat.le_trans hgrown.1 hgrown'.1, hgrown'.2⟩, hseq.append halts hgrown.1 hgrown'.1⟩

variable (src ok) in
theorem patterns_fresh : ∀ fuel, PatternsFresh src ok fuel
  | 0 => ⟨fun _ _ _ => gives_fail _, fun _ _ _ => gives_fail _, fun _ _ _ => gives_fail _⟩
  | fuel + 1 =>
    have h := patterns_fresh fuel
    ⟨fun depth _ hps => h.succ_atom depth hps, fun depth _ hps => h.succ_seq depth hps,
      fun depth _ hps => h.succ_alt depth hps⟩

theorem rxCompile_reads (fuel : Nat) (flags : Flags) (pattern : List UInt8) :
    Reads ok (rxCompile fuel flags pattern) fun re =>
    FreshAll ok 0 re.ngroups re.alts.flatten ∧ re.ngroups ≤ rxMaxGroups := by
  rw [rxCompile]
  split
  · refine gives_pure ⟨?_, Nat.zero_le _⟩
    rw [flatten_singleton]
    exact freshAll_chars _
  · refine gives_bind ((patterns_fresh ok pattern fuel).alt 0 ⟨0, flags, 0, []⟩ (Nat.zero_le _)) fun read hread => ?_
    obtain ⟨alts, ps⟩ := read
    obtain ⟨hgrown, halts⟩ := hread
    dsimp only
    split
    · exact gives_fail _
    · exact gives_pure ⟨halts, hgrown.2⟩

end

/-- The compiler gives every group a number of its own. -/
theorem rxCompile_numbered {fuel : Nat} {flags : Flags} {pattern : List UInt8} {re : Rx}
    (h : (rxCompile fuel flags pattern machine).1 = .ok re) : re.Numbered ∧ re.ngroups ≤ rxMaxGroups := by
  obtain ⟨hfresh, hmax⟩ := @rxCompile_reads False fuel flags pattern re (fun _ _ hno => hno.elim) h
  exact ⟨⟨hfresh.apart, fun x hx => (hfresh.all x hx).numbered⟩, hmax⟩

/-- In a search for a compiled pattern in a text of less than 2^32 bytes, in which no group that refers to itself is entered
    beyond where it ended before, every reference to a group that is set is well formed. -/
theorem references_wellFormed {fuel : Nat} {flags : Flags} {pattern : List UInt8} {re : Rx}
    (hre : (rxCompile fuel flags pattern machine).1 = .ok re) (text : List UInt8) (hlen : text.length < 2 ^ 32)
    (start : Nat)
    (anchorStart anchorEnd : Bool) (h : Passes re text start anchorStart anchorEnd entersBefore) :
    Passes re text start anchorStart anchorEnd wellFormed :=
  wellFormed_of_numbered re (rxCompile_numbered hre).1 text hlen start anchorStart anchorEnd h

/-- Whether all atoms of an unanchored search pass. -/
def passes (ok : Input → Node → Nat → Ctx → Bool) (text : List UInt8) (re : Rx) : Bool :=
  (searchAll (runWatched ⟨text, 0, re.ngroups, false⟩ (ok ⟨text, 0, re.ngroups, false⟩) enough) re
    ⟨text, 0, re.ngroups, false⟩ false).isSome

theorem passes_iff {ok : Input → Node → Nat → Ctx → Bool} {text : List UInt8} {re : Rx} :
    passes ok text re = true ↔ Passes re text 0 false false ok := by
  rw [passes, Passes, isSome_iff_ne_none]
  exact ⟨fun h _ => h, fun h => h (Nat.zero_le _)⟩

/-- `(?:(a|b\1))+` on `aba`: the group is entered again where it ended. -/
theorem references_wellFormed_again : ∃ re, (rxCompile 16 plain (lit "(?:(a|b\\1))+")
    machine).1 = .ok re ∧ Passes re (lit "aba") 0 false false entersBefore ∧
      Passes re (lit "aba") 0 false false wellFormed := by
  obtain ⟨re, hre, hpass⟩ :=
    Option.map_eq_some_iff.1 (show (rxCompile 16 plain (lit "(?:(a|b\\1))+") machine).1.toOption.map
      (passes entersBefore (lit "aba")) = some true by decide +kernel)
  have h := passes_iff.1 hpass
  exact ⟨re, ok_of_toOption hre, h, references_wellFormed (ok_of_toOption hre) (lit "aba") (by decide) 0 false false h⟩

/-- `(?:(a|b\1)c)+` on `acb`: in the second iteration the group has started at 2, but ended at 1 before. -/
theorem reference_before_its_group : ∃ re, (rxCompile 16 plain (lit "(?:(a|b\\1)c)+") machine).1 = .ok re ∧
    ¬Passes re (lit "acb") 0 false false wellFormed := by
  obtain ⟨re, hre, hpass⟩ :=
    Option.map_eq_some_iff.1 (show (rxCompile 16 plain (lit "(?:(a|b\\1)c)+") machine).1.toOption.map
      (passes wellFormed (lit "acb")) = some false by decide +kernel)
  refine ⟨re, ok_of_toOption hre, fun h => ?_⟩
  rw [passes_iff.2 h] at hpass
  cases hpass

end Lunaria.Regex.Parse
