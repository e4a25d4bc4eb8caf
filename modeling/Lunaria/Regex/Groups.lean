import Mathlib.Data.List.Pairwise
import Lunaria.Regex.Watch

/-! Where the groups of a pattern stand. What an atomic group, a lookaround or an iteration of a possessive repetition
    matches is taken for good, so that the groups in it are not put back by what fails later. As no number is given to two
    groups, a group is either within such a part or it is not. -/

namespace Lunaria.Regex

/-- A node that is repeated possessively: each iteration is taken for good. -/
def Node.loops (n : Node) : Prop := n.quant = .possessive ∧ ¬(n.min = 1 ∧ n.max = 1)

/-- A group in a node that is not within what is taken for good. -/
inductive Bare (g : Nat) : Node → Prop
  | here {n : Node} {alts : List (List Node)} : n.op = .group g alts → g ≠ 0 → Bare g n
  | inside {n x : Node} {i : Nat} {alts : List (List Node)} :
    n.op = .group i alts → x ∈ n.op.nodes → ¬x.loops → Bare g x → Bare g n

inductive Sheltered (g : Nat) : Node → Prop
  | closed {n x : Node} : (∀ i alts, n.op ≠ .group i alts) → x ∈ n.op.nodes → HasGroup g x → Sheltered g n
  | loop {n x : Node} {i : Nat} {alts : List (List Node)} :
    n.op = .group i alts → x ∈ n.op.nodes → x.loops → HasGroup g x → Sheltered g n
  | inside {n x : Node} {i : Nat} {alts : List (List Node)} :
    n.op = .group i alts → x ∈ n.op.nodes → Sheltered g x → Sheltered g n

theorem Bare.hasGroup {g : Nat} {n : Node} (h : Bare g n) : HasGroup g n := by
  induction h with
  | here hop hg => exact .here hop hg
  | inside _ hx _ _ ih => exact .inside hx ih

theorem Sheltered.hasGroup {g : Nat} {n : Node} (h : Sheltered g n) : HasGroup g n := by
  induction h with
  | closed _ hx hg => exact .inside hx hg
  | loop _ hx _ hg => exact .inside hx hg
  | inside _ hx _ ih => exact .inside hx ih

theorem Numbered.own {n : Node} (h : Numbered n) {g : Nat} {alts : List (List Node)} (hop : n.op = .group g alts) {x : Node}
    (hx : x ∈ n.op.nodes) : ¬HasGroup g x := by
  obtain ⟨hown, -, -⟩ := h
  exact hown g alts hop x hx

theorem Numbered.inner {n : Node} (h : Numbered n) {x : Node} (hx : x ∈ n.op.nodes) : Numbered x := by
  obtain ⟨-, -, hinner⟩ := h
  exact hinner x hx

def Apart (l : List Node) : Prop := l.Pairwise fun x y => ∀ g, HasGroup g x → ¬HasGroup g y

theorem Numbered.apart {n : Node} (h : Numbered n) : Apart n.op.nodes := by
  obtain ⟨-, hapart, -⟩ := h
  exact hapart

theorem Apart.eq {l : List Node} (h : Apart l) {g : Nat} {x y : Node} (hx : x ∈ l) (hy : y ∈ l) (hgx : HasGroup g x)
    (hgy : HasGroup g y) : x = y := by
  have : Std.Symm fun x y : Node => ∀ g, HasGroup g x → ¬HasGroup g y :=
    ⟨fun a b hab i hb ha => hab i ha hb⟩
  by_contra hne
  exact List.Pairwise.forall h hx hy hne g hgx hgy

theorem Numbered.not_both {n : Node} (hn : Numbered n) {g : Nat} (hbare : Bare g n) : ¬Sheltered g n := by
  induction hbare with
  | here hop _ =>
    intro hsh
    cases hsh with
    | closed hno => exact hno _ _ hop
    | loop _ hx _ hg => exact hn.own hop hx hg
    | inside _ hx hg => exact hn.own hop hx hg.hasGroup
  | inside hop hx hloops hg ih =>
    intro hsh
    cases hsh with
    | closed hno => exact hno _ _ hop
    | loop _ hy hloop hgy =>
      obtain rfl := hn.apart.eq hx hy hg.hasGroup hgy
      exact hloops hloop
    | inside _ hy hgy =>
      obtain rfl := hn.apart.eq hx hy hg.hasGroup hgy.hasGroup
      exact ih (hn.inner hx) hgy

/-! ### Segments -/

/-- A part of a pattern that is taken for good at its end: the groups in it that are put back until then, those that are
    not, and the groups around it that are open. -/
structure Seg where
  bare : Set Nat
  sheltered : Set Nat
  base : Set Nat
  apart : ∀ g ∈ bare, g ∉ sheltered

/-- One node, matched once. -/
def Seg.atom (o : Set Nat) (n : Node) (hn : Numbered n) : Seg where
  bare := {g | Bare g n}
  sheltered := {g | Sheltered g n}
  base := o
  apart := fun _ => hn.not_both

def Seg.body (o : Set Nat) (l : List Node) (hl : Apart l) (hn : ∀ x ∈ l, Numbered x) : Seg where
  bare := {g | ∃ x ∈ l, ¬x.loops ∧ Bare g x}
  sheltered := {g | ∃ x ∈ l, (x.loops ∧ HasGroup g x) ∨ Sheltered g x}
  base := o
  apart := by
    rintro g ⟨x, hx, hloops, hg⟩ ⟨y, hy, ⟨hloop, hgy⟩ | hgy⟩
    · obtain rfl := hl.eq hx hy hg.hasGroup hgy
      exact hloops hloop
    · obtain rfl := hl.eq hx hy hg.hasGroup hgy.hasGroup
      exact (hn x hx).not_both hg hgy

/-- A node stands in a segment where the groups `o` are open, and it does not refer to them. If `loops`, it is repeated
    possessively there. -/
structure Fits (σ : Seg) (o : Set Nat) (loops : Prop) (n : Node) : Prop where
  numbered : Numbered n
  bare : ¬loops → ∀ g, Bare g n → g ∈ σ.bare
  sheltered : ∀ g, Sheltered g n → g ∈ σ.sheltered
  whole : loops → ∀ g, HasGroup g n → g ∈ σ.sheltered
  refs : ∀ g ∈ n.refs, g ∉ o

def FitsAll (σ : Seg) (o : Set Nat) (ns : List Node) : Prop := ∀ x ∈ ns, Fits σ o x.loops x

theorem Fits.of_loops {σ : Seg} {o : Set Nat} {p q : Prop} {n : Node} (h : Fits σ o p n) (hp : ¬p) (hq : ¬q) :
    Fits σ o q n :=
  ⟨h.numbered, fun _ => h.bare hp, h.sheltered, fun hq' => (hq hq').elim, h.refs⟩

/-- What is to be matched next stands in the segment. The end of a group closes it. -/
def Cont.Fits (σ : Seg) : Cont → Set Nat → Prop
  | .accept, o | .stop, o | .endat _, o => o = σ.base
  | .node rest k, o => FitsAll σ o rest ∧ k.Fits σ o
  | .gend g k, o => g ∈ σ.bare ∧ ∃ o', (∀ i ∈ o', i ∈ o) ∧ (∀ i ∈ o, i = g ∨ i ∈ o') ∧ k.Fits σ o'
  | .rep n _ _ k, o => n.quant ≠ .possessive ∧ Regex.Fits σ o False n ∧ k.Fits σ o

/-- The groups that a continuation ends. -/
def Cont.opens : Cont → List Nat
  | .accept | .stop | .endat _ => []
  | .node _ k | .rep _ _ _ k => k.opens
  | .gend g k => g :: k.opens

theorem Cont.Fits.opens_bare {σ : Seg} : ∀ {k : Cont} {o : Set Nat}, k.Fits σ o → ∀ g ∈ k.opens, g ∈ σ.bare
  | .accept, _, _ | .stop, _, _ | .endat _, _, _ => nofun
  | .node _ k, _, h => fun g hg => opens_bare (k := k) h.2 g hg
  | .rep _ _ _ k, _, h => fun g hg => opens_bare (k := k) h.2.2 g hg
  | .gend g k, o, h => by
    obtain ⟨hg, o', -, -, hk⟩ := h
    intro i hi
    rcases List.mem_cons.1 hi with rfl | hi
    · exact hg
    · exact opens_bare hk i hi

def Call.Fits (σ : Seg) (o : Set Nat) : Call → Prop
  | .node ns k _ => FitsAll σ o ns ∧ k.Fits σ o
  | .atom n k _ => Regex.Fits σ o False n ∧ k.Fits σ o
  | .rep n _ k _ => Regex.Fits σ o (n.quant = .possessive) n ∧ k.Fits σ o
  | .cont k _ => k.Fits σ o

def Call.opens : Call → List Nat
  | .node _ k _ | .atom _ k _ | .rep _ _ k _ | .cont k _ => k.opens

def Call.pos : Call → Nat
  | .node _ _ pos | .atom _ _ pos | .rep _ _ _ pos | .cont _ pos => pos

/-! ### What stands in a node -/

theorem mem_seqRefs {g : Nat} {x : Node} : ∀ {ns : List Node}, x ∈ ns → g ∈ x.refs → g ∈ seqRefs ns
  | [], hx, _ => by cases hx
  | n :: ns, hx, hg => by
    rw [seqRefs, List.mem_append]
    rcases List.mem_cons.1 hx with rfl | hx
    · exact .inl hg
    · exact .inr (mem_seqRefs hx hg)

theorem mem_altsRefs {g : Nat} {x : Node} : ∀ {alts : List (List Node)}, x ∈ alts.flatten → g ∈ x.refs → g ∈ altsRefs alts
  | [], hx, _ => by cases hx
  | alt :: alts, hx, hg => by
    rw [altsRefs, List.mem_append]
    rcases List.mem_append.1 hx with hx | hx
    · exact .inl (mem_seqRefs hx hg)
    · exact .inr (mem_altsRefs hx hg)

theorem refs_inside {n x : Node} (hx : x ∈ n.op.nodes) {g : Nat} (hg : g ∈ x.refs) : g ∈ n.refs := by
  obtain ⟨op, quant, stamp, min, max⟩ := n
  rw [Node.refs]
  cases op with
  | group i alts | atomic alts | lookahead negate alts | lookbehind negate alts =>
    rw [opRefs]
    exact mem_altsRefs hx hg
  | _ => cases hx

theorem refs_backref {n : Node} {g : Nat} (hop : n.op = .backref g) : g ∈ n.refs := by
  obtain ⟨op, quant, stamp, min, max⟩ := n
  obtain rfl : op = .backref g := hop
  rw [Node.refs, opRefs]
  exact List.mem_singleton_self g

theorem mem_nodes {n : Node} {g : Nat} {alts : List (List Node)} (hop : n.op = .group g alts) {alt : List Node}
    (halt : alt ∈ alts) {x : Node} (hx : x ∈ alt) : x ∈ n.op.nodes := by
  rw [hop]
  exact List.mem_flatten.2 ⟨alt, halt, hx⟩

section
variable {σ : Seg} {o : Set Nat} {n : Node}

/-- The nodes of a group stand in the segment of the group, where it is open too if nothing in it refers to it. -/
theorem Fits.group (h : Fits σ o False n) {g : Nat} {alts : List (List Node)} (hop : n.op = .group g alts) {o₁ : Set Nat}
    (ho : ∀ i ∈ o₁, i ∈ o ∨ i = g ∧ g ∉ altsRefs alts) : ∀ alt ∈ alts, FitsAll σ o₁ alt := by
  intro alt halt x hx
  have hmem := mem_nodes hop halt hx
  refine ⟨h.numbered.inner hmem, fun hloops g' hg' => h.bare id g' (.inside hop hmem hloops hg'),
    fun g' hg' => h.sheltered g' (.inside hop hmem hg'), fun hloop g' hg' => h.sheltered g' (.loop hop hmem hloop hg'), ?_⟩
  intro g' hg' ho'
  rcases ho g' ho' with ho' | ⟨rfl, hno⟩
  · exact h.refs g' (refs_inside hmem hg') ho'
  · exact hno (mem_altsRefs (List.mem_flatten.2 ⟨alt, halt, hx⟩) hg')

/-- The body of what is taken for good is a segment of its own, whose groups are sheltered in the segment around it. -/
theorem Fits.closed (h : Fits σ o False n) {alts : List (List Node)} (hclosed : ∀ i l, n.op ≠ .group i l)
    (hnodes : n.op.nodes = alts.flatten) : ∃ τ : Seg, τ.base = o ∧
      (∀ g, g ∈ τ.bare ∨ g ∈ τ.sheltered → g ∈ σ.sheltered) ∧ ∀ alt ∈ alts, FitsAll τ o alt := by
  refine ⟨Seg.body o n.op.nodes h.numbered.apart fun x => h.numbered.inner, rfl, ?_, fun alt halt x hx => ?_⟩
  · rintro g (⟨x, hx, -, hg⟩ | ⟨x, hx, ⟨-, hg⟩ | hg⟩)
    · exact h.sheltered g (.closed hclosed hx hg.hasGroup)
    · exact h.sheltered g (.closed hclosed hx hg)
    · exact h.sheltered g (.closed hclosed hx hg.hasGroup)
  · have hmem : x ∈ n.op.nodes := by
      rw [hnodes]
      exact List.mem_flatten.2 ⟨alt, halt, hx⟩
    exact ⟨h.numbered.inner hmem, fun hloops g hg => ⟨x, hmem, hloops, hg⟩, fun g hg => ⟨x, hmem, .inr hg⟩,
      fun hloop g hg => ⟨x, hmem, .inl ⟨hloop, hg⟩⟩, fun g hg => h.refs g (refs_inside hmem hg)⟩

theorem Fits.atom (h : Fits σ o True n) : Fits (Seg.atom o n h.numbered) o False n :=
  ⟨h.numbered, fun _ _ hg => hg, fun _ hg => hg, fun hf => hf.elim, h.refs⟩

theorem Fits.atom_sheltered (h : Fits σ o True n) {g : Nat}
    (hg : g ∈ (Seg.atom o n h.numbered).bare ∨ g ∈ (Seg.atom o n h.numbered).sheltered) : g ∈ σ.sheltered := by
  rcases hg with hg | hg
  · exact h.whole trivial g hg.hasGroup
  · exact h.sheltered g hg

end

end Lunaria.Regex
