import Mathlib
import Lunaria.Regex.Groups
import Lunaria.Regex.Restore

/-! Back references are matched with captures in the text, as long as no group that refers to itself is entered beyond
    where it ended before: the start of a group is set when it is entered, its end only when it ends, and only what stands
    in the group sees the new start with the old end. -/

namespace Lunaria.Regex
open Backtrack Attempt List Function Int Option

theorem bmod_le (x : Int) (m : Nat) (h : 0 ≤ x) (hm : 0 < m) : x.bmod m ≤ x := by
  have := emod_nonneg x (show (m : Int) ≠ 0 by omega)
  have hle : x % m ≤ x := by
    have := mul_ediv_add_emod x m
    have := Int.mul_nonneg (natCast_nonneg m) (ediv_nonneg h (natCast_nonneg m))
    omega
  rw [bmod_def]
  split <;> omega

theorem toInt_le {pos : Nat} : toInt pos ≤ pos := bmod_le pos _ (natCast_nonneg pos) (by decide)

/-- A position that is read as one. -/
theorem toInt_of_nonneg {pos : Nat} (h : pos < 2 ^ 32) (h0 : 0 ≤ toInt pos) : toInt pos = pos := by
  unfold toInt at h0 ⊢
  have : ∀ x : Int, 0 ≤ x → x < 4294967296 → 0 ≤ x.bmod 4294967296 → x.bmod 4294967296 = x := by
    intro x hx hlt hb
    rw [bmod_def] at *
    omega
  exact this pos (natCast_nonneg pos) (by omega) h0

theorem toInt_mono {p pos : Nat} (h : p ≤ pos) (hpos : pos < 2 ^ 32) (hp : 0 ≤ toInt pos) : toInt p ≤ toInt pos := by
  rw [toInt_of_nonneg hpos hp]
  exact toInt_le.trans (Int.ofNat_le.2 h)
/-! ### States -/

/-- A group that is set ends where it starts, or later. -/
def InOrder (c : Ctx) (g : Nat) : Prop := 0 ≤ c.gs g → 0 ≤ c.ge g → c.gs g ≤ c.ge g

/-- All groups but those of `o` are in order. -/
structure Calm (inp : Input) (o : Set Nat) (c : Ctx) : Prop where
  order : ∀ g, g ∉ o → InOrder c g
  ends : ∀ g, c.ge g ≤ inp.len

/-- Before a call: the groups that what follows will end have started. -/
structure Ready (inp : Input) (o : Set Nat) (opens : List Nat) (pos : Nat) (c : Ctx) : Prop where
  within : pos ≤ inp.len
  calm : Calm inp o c
  opened : ∀ g ∈ opens, ∃ p ≤ pos, c.gs g = toInt p

def Same (c c' : Ctx) (g : Nat) : Prop := c'.gs g = c.gs g ∧ c'.ge g = c.ge g

/-- After it. A failure puts back what is not sheltered, and a match ends the segment. -/
structure Left (σ : Seg) (inp : Input) (o : Set Nat) (pos : Nat) (c : Ctx) (r : Option Nat) (c' : Ctx) : Prop where
  ends : ∀ g, c'.ge g ≤ inp.len
  kept : ∀ g, g ∉ σ.sheltered → r = none ∨ g ∉ σ.bare → Same c c' g
  failed : r = none → ∀ g, g ∉ o → InOrder c' g
  ended : ∀ e, r = some e → (∀ g, g ∉ σ.base → InOrder c' g) ∧ pos ≤ e ∧ e ≤ inp.len

theorem Same.trans {c c₁ c₂ : Ctx} {g : Nat} (h : Same c c₁ g) (h' : Same c₁ c₂ g) : Same c c₂ g :=
  ⟨h'.1.trans h.1, h'.2.trans h.2⟩

theorem InOrder.same {c c' : Ctx} {g : Nat} (h : InOrder c g) (hsame : Same c c' g) : InOrder c' g := by
  intro hs he
  rw [hsame.1, hsame.2] at *
  exact h hs he

section
variable {σ : Seg} {inp : Input} {o : Set Nat} {opens : List Nat} {pos : Nat} {c c' : Ctx} {r : Option Nat} {pos' : Nat}

theorem Ready.later (h : Ready inp o opens pos c) (hle : pos ≤ pos') (hlen : pos' ≤ inp.len) :
    Ready inp o opens pos' c :=
  ⟨hlen, h.calm, fun g hg => by
    obtain ⟨p, hp, heq⟩ := h.opened g hg
    exact ⟨p, Nat.le_trans hp hle, heq⟩⟩

theorem Left.earlier (h : Left σ inp o pos' c r c') (hle : pos ≤ pos') : Left σ inp o pos c r c' :=
  ⟨h.ends, h.kept, h.failed, fun e he => by
    obtain ⟨horder, hpos, hlen⟩ := h.ended e he
    exact ⟨horder, Nat.le_trans hle hpos, hlen⟩⟩

/-- Nothing was done. -/
theorem left_refl (h : Ready inp o opens pos c) : Left σ inp o pos c none c :=
  ⟨h.calm.ends, fun _ _ _ => ⟨rfl, rfl⟩, fun _ => h.calm.order, fun _ he => (nomatch he)⟩

/-- What follows a failure. -/
theorem Left.next {c₁ : Ctx} (h : Left σ inp o pos c none c₁) (h' : Left σ inp o pos c₁ r c') : Left σ inp o pos c r c' :=
  ⟨h'.ends, fun g hsh hor => (h.kept g hsh (.inl rfl)).trans (h'.kept g hsh hor), h'.failed, h'.ended⟩

theorem Ready.failed (h : Ready inp o opens pos c) (hopens : ∀ g ∈ opens, g ∈ σ.bare) (hl : Left σ inp o pos c none c') :
    Ready inp o opens pos c' := by
  refine ⟨h.within, ⟨hl.failed rfl, hl.ends⟩, fun g hg => ?_⟩
  obtain ⟨p, hp, heq⟩ := h.opened g hg
  exact ⟨p, hp, ((hl.kept g (σ.apart g (hopens g hg)) (.inl rfl)).1).trans heq⟩

/-- After a segment in the segment, whose groups are all sheltered. -/
theorem Ready.inner (h : Ready inp o opens pos c) (hopens : ∀ g ∈ opens, g ∈ σ.bare) (hcalm : Calm inp o c')
    (hsame : ∀ g, g ∉ σ.sheltered → Same c c' g) (hle : pos ≤ pos') (hlen : pos' ≤ inp.len) :
    Ready inp o opens pos' c' := by
  refine ⟨hlen, hcalm, fun g hg => ?_⟩
  obtain ⟨p, hp, heq⟩ := h.opened g hg
  exact ⟨p, Nat.le_trans hp hle, ((hsame g (σ.apart g (hopens g hg))).1).trans heq⟩

theorem Left.after_inner {c₁ : Ctx} (hsame : ∀ g, g ∉ σ.sheltered → Same c c₁ g) (h : Left σ inp o pos c₁ r c') :
    Left σ inp o pos c r c' :=
  ⟨h.ends, fun g hsh hor => (hsame g hsh).trans (h.kept g hsh hor), h.failed, h.ended⟩

/-- What a segment in the segment leaves. -/
theorem Left.calm {τ : Seg} (h : Left τ inp τ.base pos c r c') : Calm inp τ.base c' := by
  refine ⟨fun g hg => ?_, h.ends⟩
  cases r with
  | none => exact h.failed rfl g hg
  | some e => exact (h.ended e rfl).1 g hg

theorem Left.same {τ : Seg} (h : Left τ inp o pos c r c') (hsub : ∀ g, g ∈ τ.bare ∨ g ∈ τ.sheltered → g ∈ σ.sheltered)
    {g : Nat} (hg : g ∉ σ.sheltered) : Same c c' g :=
  h.kept g (fun hsh => hg (hsub g (.inr hsh))) (.inr fun hb => hg (hsub g (.inl hb)))

end

/-! ### Positions -/

section
variable {inp : Input} {n : Node}

theorem atomStep_bounds {pos next : Nat} (h : atomStep inp n pos = some next) : pos ≤ next ∧ next ≤ inp.len := by
  rw [atomStep] at h
  split at h
  · cases h
  · rename_i hlt
    have hend : ∃ ok : Bool, (if ok then some (rxU8 inp.text inp.len pos).2 else none) = some next := ⟨_, h⟩
    obtain ⟨ok, hok⟩ := hend
    obtain ⟨-, heq⟩ := Option.ite_none_right_eq_some.1 hok
    rw [← some.inj heq]
    exact ⟨Nat.le_of_lt (rxU8_gt ..), (rxU8_le inp.text (Nat.lt_of_not_le hlt)).1⟩

theorem mem_stops {fuel count cur i : Nat} (hcur : cur ≤ inp.len) (h : i ∈ stops inp n fuel count cur) :
    cur ≤ i ∧ i ≤ inp.len := by
  induction fuel generalizing count cur with
  | zero =>
    obtain rfl := mem_singleton.1 h
    exact ⟨le_rfl, hcur⟩
  | succ fuel ih =>
    rw [stops] at h
    split at h
    · split at h
      · rename_i next hstep
        obtain ⟨hle, hlen⟩ := atomStep_bounds hstep
        rcases mem_cons.1 h with rfl | h
        · exact ⟨le_rfl, hcur⟩
        · obtain ⟨hi, hi'⟩ := ih hlen h
          exact ⟨Nat.le_trans hle hi, hi'⟩
      · obtain rfl := mem_singleton.1 h
        exact ⟨le_rfl, hcur⟩
    · obtain rfl := mem_singleton.1 h
      exact ⟨le_rfl, hcur⟩

theorem prevFrom_le (s : List UInt8) (i j : Nat) : prevFrom s i j ≤ j := by
  induction j with
  | zero => exact Nat.le_refl 0
  | succ j ih =>
    rw [prevFrom]
    split
    · exact Nat.le_succ j
    · split
      · exact Nat.le_succ j
      · exact Nat.le_succ_of_le ih

theorem mem_behind {steps s i : Nat} (h : i ∈ behind inp steps s) : i ≤ s := by
  induction steps generalizing s with
  | zero =>
    obtain rfl := mem_singleton.1 h
    exact le_rfl
  | succ steps ih =>
    rw [behind] at h
    split at h
    · obtain rfl := mem_singleton.1 h
      exact le_rfl
    · rcases mem_cons.1 h with rfl | h
      · exact le_rfl
      · exact Nat.le_trans (ih h) (prevFrom_le inp.text s s)

theorem wellFormed_of_calm {o : Set Nat} {c : Ctx} {pos : Nat} (hlen : inp.len < 2 ^ 32) (hpos : pos ≤ inp.len)
    (hc : Calm inp o c) (hrefs : ∀ g ∈ n.refs, g ∉ o) : wellFormed inp n pos c = true := by
  rw [wellFormed]
  split
  · rename_i g hop
    split
    · rename_i hset
      have horder := hc.order g (hrefs g (refs_backref hop)) hset.1 hset.2
      have hend := hc.ends g
      simp only [Bool.and_eq_true, Bool.or_eq_true, decide_eq_true_eq]
      omega
    · rfl
  · rfl

theorem backrefEnd_bounds {g pos next : Nat} {c : Ctx} (hlen : inp.len < 2 ^ 32) (hpos : pos ≤ inp.len)
    (horder : InOrder c g) (hend : c.ge g ≤ inp.len) (h : backrefEnd inp n g pos c = some next) :
    pos ≤ next ∧ next ≤ inp.len := by
  rw [backrefEnd] at h
  split at h
  · cases h
  · rename_i hset
    have := horder (by omega) (by omega)
    dsimp only at h
    split at h
    · cases h
    · rename_i hfits
      have hnext : next = pos + ((c.ge g - c.gs g) % 2 ^ 64).toNat := by
        split at h
        · split at h
          · exact (some.inj h).symm
          · cases h
        · split at h
          · cases h
          · exact (some.inj h).symm
      omega

end

/-! ### One call -/

/-- What is not cut off when groups are watched is not cut off when references are. -/
def Keeping (inp : Input) (w w' : Call → Attempt Ctx Nat) : Prop :=
  ∀ σ o call c, call.Fits σ o → Ready inp o call.opens call.pos c → Follows (w call) (w' call) c (Left σ inp o call.pos c)

section
variable {σ : Seg} {inp : Input} {o : Set Nat} {opens : List Nat} {pos : Nat} {c : Ctx} {k : Cont} {n : Node}

/-- Steps, depth and the end do not matter. -/
theorem Ready.counted (h : Ready inp o opens pos c) {c' : Ctx} (hgs : c'.gs = c.gs) (hge : c'.ge = c.ge) :
    Ready inp o opens pos c' := by
  refine ⟨h.within, ⟨fun g hg => ?_, fun g => ?_⟩, fun g hg => ?_⟩
  · exact (h.calm.order g hg).same ⟨by rw [hgs], by rw [hge]⟩
  · rw [hge]
    exact h.calm.ends g
  · rw [hgs]
    exact h.opened g hg

theorem Left.counted {r : Option Nat} {c₁ c₂ c' : Ctx} (h : Left σ inp o pos c₁ r c₂) (hgs : c₁.gs = c.gs)
    (hge : c₁.ge = c.ge) (hgs' : c'.gs = c₂.gs) (hge' : c'.ge = c₂.ge) : Left σ inp o pos c r c' := by
  have hsame : ∀ g, Same c₂ c' g := fun g => ⟨by rw [hgs'], by rw [hge']⟩
  refine ⟨fun g => ?_, fun g hsh hor => ?_, fun hr g hg => (h.failed hr g hg).same (hsame g), fun e he => ?_⟩
  · rw [hge']
    exact h.ends g
  · rw [Same, ← hgs, ← hge]
    exact (h.kept g hsh hor).trans (hsame g)
  · obtain ⟨horder, hpos, hlen⟩ := h.ended e he
    exact ⟨fun g hg => (horder g hg).same (hsame g), hpos, hlen⟩

theorem follows_ticked {m m' : Attempt Ctx Nat} (hc : Ready inp o opens pos c)
    (h : c.steps < rxStepMax → ∀ c₁, c₁.gs = c.gs → c₁.ge = c.ge → Ready inp o opens pos c₁ →
      Follows m m' c₁ (Left σ inp o pos c₁)) : Follows (ticked m) (ticked m') c (Left σ inp o pos c) := by
  refine Follows.change (Follows.reading ?_)
  dsimp only
  split
  · exact follows_fail ((left_refl hc).counted rfl rfl rfl rfl)
  · have hm := h (by omega) { c with steps := c.steps + 1 } rfl rfl (hc.counted rfl rfl)
    exact hm.mono fun r c' hl => hl.counted rfl rfl rfl rfl

theorem follows_deeper {m m' : Attempt Ctx Nat} (hc : Ready inp o opens pos c)
    (h : ∀ c₁, Ready inp o opens pos c₁ → Follows m m' c₁ (Left σ inp o pos c₁)) :
    Follows (deeper m) (deeper m') c (Left σ inp o pos c) := by
  refine Follows.reading ?_
  split
  · exact follows_fail (left_refl hc)
  · have hm := h { c with depth := c.depth + 1 } (hc.counted rfl rfl)
    exact Follows.change (hm.lastly fun r c' hl => hl.counted rfl rfl rfl rfl)

variable {w w' : Call → Attempt Ctx Nat} (hself : Keeping inp w w')
include hself

/-- Calls that are made one after the other, as long as they fail. -/
theorem follows_first {γ : Type} {f : γ → Call} {l : List γ} (hopens : ∀ g ∈ opens, g ∈ σ.bare)
    (hl : ∀ x ∈ l, (f x).Fits σ o ∧ (f x).opens = opens ∧ pos ≤ (f x).pos ∧ (f x).pos ≤ inp.len)
    (hc : Ready inp o opens pos c) :
    Follows (first (l.map fun x => w (f x))) (first (l.map fun x => w' (f x))) c (Left σ inp o pos c) := by
  refine Follows.first (left_refl hc : Left σ inp o pos c none c) (fun x hx s hs => ?_) fun _ h => h
  obtain ⟨hfits, heq, hle, hend⟩ := hl x hx
  have hready : Ready inp o (f x).opens (f x).pos s := by
    rw [heq]
    exact (hc.failed hopens hs).later hle hend
  refine (hself σ o (f x) s hfits hready).mono fun r s' hr => ?_
  have hleft := hs.next (hr.earlier hle)
  cases r with
  | none => exact hleft
  | some e => exact hleft

theorem follows_alts {alts : List (List Node)} (halts : ∀ alt ∈ alts, FitsAll σ o alt) (hk : k.Fits σ o)
    (hc : Ready inp o k.opens pos c) :
    Follows (first (alts.map fun alt => w (.node alt k pos))) (first (alts.map fun alt => w' (.node alt k pos))) c
      (Left σ inp o pos c) :=
  follows_first hself hk.opens_bare (fun alt halt => ⟨⟨halts alt halt, hk⟩, rfl, Nat.le_refl pos, hc.within⟩) hc

theorem follows_mNode {ns : List Node} (hns : FitsAll σ o ns) (hk : k.Fits σ o) (hc : Ready inp o k.opens pos c) :
    Follows (mNode w ns k pos) (mNode w' ns k pos) c (Left σ inp o pos c) := by
  cases ns with
  | nil => exact hself σ o (.cont k pos) c hk hc
  | cons n rest =>
    have hn := hns n mem_cons_self
    have hrest : (Cont.node rest k).Fits σ o := ⟨fun x hx => hns x (mem_cons_of_mem _ hx), hk⟩
    refine follows_deeper hc fun c₁ hc₁ => ?_
    split
    · rename_i hone
      exact hself σ o (.atom n (.node rest k) pos) c₁ ⟨hn.of_loops (fun h => h.2 hone) id, hrest⟩ hc₁
    · rename_i hone
      have hloops : n.loops = (n.quant = .possessive) := propext ⟨And.left, fun h => ⟨h, hone⟩⟩
      exact hself σ o (.rep n 0 (.node rest k) pos) c₁ ⟨hloops ▸ hn, hrest⟩ hc₁

/-- The iterations of a possessive repetition, each of which is a segment of its own. -/
theorem follows_possessive (hn : Fits σ o True n) {fuel cnt cur : Nat} (hcur : cur ≤ inp.len) (hc : Calm inp o c) :
    Follows (possessive w n fuel cnt cur) (possessive w' n fuel cnt cur) c fun r c' =>
      Calm inp o c' ∧ (∀ g, g ∉ σ.sheltered → Same c c' g) ∧ ∀ x, r = some x → cur ≤ x.2 ∧ x.2 ≤ inp.len := by
  induction fuel generalizing cnt cur c with
  | zero =>
    intro r c' hrun
    cases hrun
  | succ fuel ih =>
    have hstay : ∀ x, some (cnt, cur) = some x → cur ≤ x.2 ∧ x.2 ≤ inp.len := by
      rintro x heq
      cases heq
      exact ⟨Nat.le_refl cur, hcur⟩
    rw [possessive, possessive]
    split
    · have hready : Ready inp o (Call.atom n .stop cur).opens cur c := ⟨hcur, hc, by rintro _ ⟨⟩⟩
      refine (hself (Seg.atom o n hn.numbered) o (.atom n .stop cur) c ⟨hn.atom, rfl⟩ hready).after fun r c' hl => ?_
      have hsame : ∀ g, g ∉ σ.sheltered → Same c c' g := fun g => hl.same fun g => hn.atom_sheltered
      cases r with
      | none => exact follows_give ⟨hl.calm, hsame, hstay⟩
      | some got =>
        obtain ⟨-, hle, hend⟩ := hl.ended got rfl
        dsimp only
        split
        · exact follows_give ⟨hl.calm, hsame, hstay⟩
        · refine (ih hend hl.calm).mono fun r c₂ h => ?_
          obtain ⟨hcalm, hsame', hpos⟩ := h
          refine ⟨hcalm, fun g hg => (hsame g hg).trans (hsame' g hg), fun x hx => ?_⟩
          exact ⟨Nat.le_trans hle (hpos x hx).1, (hpos x hx).2⟩
    · exact follows_give ⟨hc, fun _ _ => ⟨rfl, rfl⟩, hstay⟩

theorem follows_mRep (hn : Fits σ o (n.quant = .possessive) n) (hk : k.Fits σ o)
    (hc : Ready inp o k.opens pos c) (fuel count : Nat) :
    Follows (mRep inp w fuel n count k pos) (mRep inp w' fuel n count k pos) c (Left σ inp o pos c) := by
  rw [mRep, mRep]
  split
  · have hconts : ∀ l : List Nat, (∀ i ∈ l, i ∈ stops inp n inp.len 0 pos) →
        Follows (first (l.map fun i => w (.cont k i))) (first (l.map fun i => w' (.cont k i))) c (Left σ inp o pos c) := by
      intro l hl
      refine follows_first hself hk.opens_bare (fun i hi => ?_) hc
      obtain ⟨hle, hend⟩ := mem_stops hc.within (hl i hi)
      exact ⟨hk, rfl, hle, hend⟩
    have hastray : ∀ s, Follows astray astray s (Left σ inp o pos c) := by
      intro s r c' hrun
      cases hrun
    rw [mRepSimple, mRepSimple]
    split
    · split
      · exact hastray c
      · exact hconts _ fun i hi => mem_of_mem_drop hi
    · refine hconts _ fun i hi => ?_
      exact mem_of_mem_drop (mem_of_getLast? (Option.mem_toList.1 hi))
    · refine (hconts _ fun i hi => mem_of_mem_drop (mem_reverse.1 hi)).orElse (fun _ _ h => h) fun s hs => ?_
      split
      · exact hastray s
      · exact follows_fail hs
  · have hmore : n.quant ≠ .possessive → ∀ s, Ready inp o k.opens pos s →
        Follows (if n.canMore count then w (.atom n (.rep n (count + 1) pos k) pos) else fail)
          (if n.canMore count then w' (.atom n (.rep n (count + 1) pos k) pos) else fail) s (Left σ inp o pos s) := by
      intro hq s hs
      split
      · have hn' := hn.of_loops hq id
        exact hself σ o (.atom n (.rep n (count + 1) pos k) pos) s ⟨hn', hq, hn', hk⟩ hs
      · exact follows_fail (left_refl hs)
    have henough : ∀ s, Ready inp o k.opens pos s →
        Follows (if n.min ≤ count then w (.cont k pos) else fail) (if n.min ≤ count then w' (.cont k pos) else fail) s
          (Left σ inp o pos s) := by
      intro s hs
      split
      · exact hself σ o (.cont k pos) s hk hs
      · exact follows_fail (left_refl hs)
    dsimp only
    cases hq : n.quant with
    | reluctant =>
      refine (henough c hc).orElse (fun _ _ h => h) fun s hs => ?_
      exact (hmore (by rw [hq]; decide) s (hc.failed hk.opens_bare hs)).mono fun _ _ h => hs.next h
    | possessive =>
      have hn' : Fits σ o True n := by
        rw [eq_true hq] at hn
        exact hn
      refine (follows_possessive hself hn' hc.within hc.calm).andThen (fun s hs => ?_) fun x s hs => ?_
      · obtain ⟨hcalm, hsame, -⟩ := hs
        exact (left_refl (hc.inner hk.opens_bare hcalm hsame (Nat.le_refl pos) hc.within)).after_inner hsame
      · obtain ⟨cnt, cur⟩ := x
        obtain ⟨hcalm, hsame, hpos⟩ := hs
        obtain ⟨hle, hend⟩ := hpos _ rfl
        have hs' := hc.inner hk.opens_bare hcalm hsame hle hend
        split
        · exact follows_fail ((left_refl hs').earlier hle |>.after_inner hsame)
        · exact (hself σ o (.cont k cur) s hk hs').mono fun _ _ h => (h.earlier hle).after_inner hsame
    | greedy =>
      refine (hmore (by rw [hq]; decide) c hc).orElse (fun _ _ h => h) fun s hs => ?_
      exact (henough s (hc.failed hk.opens_bare hs)).mono fun _ _ h => hs.next h

theorem follows_mCont (hlen : inp.len < 2 ^ 32) (hk : k.Fits σ o) (hc : Ready inp o k.opens pos c) :
    Follows (mCont inp w k pos) (mCont inp w' k pos) c (Left σ inp o pos c) := by
  refine follows_ticked hc fun _ c₁ _ _ hc₁ => ?_
  have hgive : ∀ c₂ : Ctx, o = σ.base → c₂.gs = c₁.gs → c₂.ge = c₁.ge → Left σ inp o pos c₁ (some pos) c₂ := by
    intro c₂ ho hgs hge
    have hc₂ := hc₁.counted hgs hge
    refine ⟨hc₂.calm.ends, fun g _ _ => ⟨by rw [hgs], by rw [hge]⟩, fun h => (nomatch h), fun e he => ?_⟩
    cases he
    exact ⟨ho ▸ hc₂.calm.order, Nat.le_refl pos, hc.within⟩
  cases k with
  | accept =>
    dsimp only
    split
    · exact follows_fail (left_refl hc₁)
    · exact Follows.change (follows_give (hgive _ hk rfl rfl))
  | node rest k => exact hself σ o (.node rest k pos) c₁ hk hc₁
  | gend g k =>
    obtain ⟨hg, o', hsub, hsup, hk'⟩ := hk
    obtain ⟨p, hp, hgs⟩ := hc₁.opened g mem_cons_self
    have hother : ∀ {i}, i ≠ g → (c₁.setGe g (toInt pos)).ge i = c₁.ge i := fun hne => update_of_ne hne ..
    have hready : Ready inp o' k.opens pos (c₁.setGe g (toInt pos)) := by
      refine ⟨hc.within, ⟨fun i hi => ?_, fun i => ?_⟩, fun i hi => hc₁.opened i (mem_cons_of_mem g hi)⟩
      · by_cases heq : i = g
        · subst heq
          intro _ he
          rw [Ctx.setGe_self] at *
          rw [Ctx.setGe_gs, hgs]
          exact toInt_mono hp (Nat.lt_of_le_of_lt hc.within hlen) he
        · have hio : i ∉ o := fun h => (hsup i h).elim heq hi
          exact (hc₁.calm.order i hio).same ⟨rfl, hother heq⟩
      · by_cases heq : i = g
        · subst heq
          rw [Ctx.setGe_self]
          exact toInt_le.trans (Int.ofNat_le.2 hc.within)
        · rw [hother heq]
          exact hc₁.calm.ends i
    have hcall := hself σ o' (.cont k pos) (c₁.setGe g (toInt pos)) hk' hready
    refine Follows.undoing (Follows.change hcall) (fun e s hs => ?_) fun s hs => ?_
    · refine ⟨hs.ends, fun i hsh hor => ?_, fun h => (nomatch h), hs.ended⟩
      rcases hor with h | hb
      · cases h
      · have hne : i ≠ g := fun h => hb (h ▸ hg)
        have hset : Same c₁ (c₁.setGe g (toInt pos)) i := ⟨rfl, hother hne⟩
        exact hset.trans (hs.kept i hsh (.inr hb))
    · -- the start of the group is what it was, so that its old end fits again
      have hgsame := hs.kept g (σ.apart g hg) (.inl rfl)
      have hback : ∀ i, i ∉ σ.sheltered → Same c₁ (s.setGe g (c₁.ge g)) i := by
        intro i hsh
        by_cases heq : i = g
        · subst heq
          exact ⟨hgsame.1, Ctx.setGe_self ..⟩
        · have hs' := hs.kept i hsh (.inl rfl)
          exact ⟨hs'.1, (update_of_ne heq ..).trans (hs'.2.trans (hother heq))⟩
      refine ⟨fun i => ?_, fun i hsh _ => hback i hsh, fun _ i hi => ?_, fun e he => (nomatch he)⟩
      · by_cases heq : i = g
        · subst heq
          rw [Ctx.setGe_self]
          exact hc₁.calm.ends i
        · exact (update_of_ne heq (c₁.ge g) s.ge).le.trans (hs.ends i)
      · by_cases heq : i = g
        · subst heq
          exact (hc₁.calm.order i hi).same (hback i (σ.apart i hg))
        · have hi' : i ∉ o' := fun h => hi (hsub i h)
          exact (hs.failed rfl i hi').same ⟨rfl, update_of_ne heq ..⟩
  | rep n count start k =>
    obtain ⟨hq, hn, hk'⟩ := hk
    dsimp only
    split
    · exact hself σ o (.cont k pos) c₁ hk' hc₁
    · exact hself σ o (.rep n count k pos) c₁ ⟨hn.of_loops id hq, hk'⟩ hc₁
  | stop => exact follows_give (hgive c₁ hk rfl rfl)
  | endat at' =>
    dsimp only
    split
    · exact follows_give (hgive c₁ hk rfl rfl)
    · exact follows_fail (left_refl hc₁)

theorem follows_lookaround {τ : Seg} (hsub : ∀ g, g ∈ τ.bare ∨ g ∈ τ.sheltered → g ∈ σ.sheltered)
    {hit hit' : Attempt Ctx Nat}
    (hhit : Follows hit hit' c (Left τ inp τ.base 0 c)) (hk : k.Fits σ τ.base) (hc : Ready inp τ.base k.opens pos c)
    (negate : Bool) :
    Follows (lookaround w negate hit k pos) (lookaround w' negate hit' k pos) c (Left σ inp τ.base pos c) := by
  refine Follows.reading ?_
  split
  · refine hhit.after fun r s _ => Follows.change ?_
    have hs : Ready inp τ.base k.opens pos (c.restore s) := hc.counted rfl rfl
    split
    · exact follows_fail ((left_refl hs).counted rfl rfl rfl rfl)
    · exact (hself σ τ.base (.cont k pos) _ hk hs).mono fun r s' h => h.counted rfl rfl rfl rfl
  · have hall : Follows (hit.andThen fun _ => w (.cont k pos)) (hit'.andThen fun _ => w' (.cont k pos)) c
        fun r s => ∀ e, r = some e → Left σ inp τ.base pos c r s := by
      refine hhit.andThen (fun s _ e he => (nomatch he)) fun e s hs => ?_
      have hsame : ∀ g, g ∉ σ.sheltered → Same c s g := fun g hg => hs.same hsub hg
      have hs' := hc.inner hk.opens_bare hs.calm hsame (Nat.le_refl pos) hc.within
      exact (hself σ τ.base (.cont k pos) s hk hs').mono fun r s' h _ _ => h.after_inner hsame
    exact hall.undoing (fun e s h => h e rfl) fun s _ => (left_refl hc).counted rfl rfl rfl rfl

/-- A group is open in its body, unless something there refers to it; then it is entered before its end. -/
theorem follows_group {g : Nat} {alts : List (List Node)} (hop : n.op = .group g alts) (hg : g ≠ 0)
    (hn : Fits σ o False n) (hk : k.Fits σ o) (hc : Ready inp o k.opens pos c) (henter : entersBefore inp n pos c = true) :
    Follows (undoing (fun old c => (c.setGs g (old.gs g)).setGe g (old.ge g))
        (change (fun c => c.setGs g (toInt pos)) (first (alts.map fun alt => w (.node alt (.gend g k) pos)))))
      (undoing (fun old c => (c.setGs g (old.gs g)).setGe g (old.ge g))
        (change (fun c => c.setGs g (toInt pos)) (first (alts.map fun alt => w' (.node alt (.gend g k) pos)))))
      c (Left σ inp o pos c) := by
  have hbare : g ∈ σ.bare := hn.bare id g (.here hop hg)
  let o₁ : Set Nat := {i | i ∈ o ∨ i = g ∧ g ∉ altsRefs alts}
  have hk₁ : (Cont.gend g k).Fits σ o₁ :=
    ⟨hbare, o, fun i hi => .inl hi, fun i hi => hi.elim .inr fun h => .inl h.1, hk⟩
  have hset : ∀ {i}, i ≠ g → Same c (c.setGs g (toInt pos)) i := fun hne => ⟨update_of_ne hne .., rfl⟩
  have hready : Ready inp o₁ (Cont.gend g k).opens pos (c.setGs g (toInt pos)) := by
    refine ⟨hc.within, ⟨fun i hi => ?_, hc.calm.ends⟩, fun i hi => ?_⟩
    · by_cases heq : i = g
      · subst heq
        have hrefs : i ∈ altsRefs alts := by
          by_contra hno
          exact hi (.inr ⟨rfl, hno⟩)
        simp only [entersBefore, hop, hrefs, not_true_eq_false, decide_false, Bool.false_or, Bool.or_eq_true,
          decide_eq_true_eq] at henter
        intro _ he
        rw [Ctx.setGs_self]
        exact henter.resolve_left (Int.not_lt.2 he)
      · exact (hc.calm.order i fun h => hi (.inl h)).same (hset heq)
    · by_cases heq : i = g
      · subst heq
        exact ⟨pos, Nat.le_refl pos, Ctx.setGs_self ..⟩
      · rw [(hset heq).1]
        exact hc.opened i ((mem_cons.1 hi).resolve_left heq)
  have hfirst := follows_alts hself (hn.group hop fun i (hi : i ∈ o₁) => hi) hk₁ hready
  refine Follows.undoing (Follows.change hfirst) (fun e s hs => ?_) fun s hs => ?_
  · refine ⟨hs.ends, fun i hsh hor => ?_, fun h => (nomatch h), hs.ended⟩
    rcases hor with h | hb
    · cases h
    · have hne : i ≠ g := fun h => hb (h ▸ hbare)
      exact (hset hne).trans (hs.kept i hsh (.inr hb))
  · have hback : Same c ((s.setGs g (c.gs g)).setGe g (c.ge g)) g := ⟨Ctx.setGs_self .., Ctx.setGe_self ..⟩
    have hothers : ∀ {i}, i ≠ g → Same s ((s.setGs g (c.gs g)).setGe g (c.ge g)) i := fun hne =>
      ⟨update_of_ne hne .., update_of_ne hne ..⟩
    refine ⟨fun i => ?_, fun i hsh _ => ?_, fun _ i hi => ?_, fun e he => (nomatch he)⟩
    · by_cases heq : i = g
      · subst heq
        rw [hback.2]
        exact hc.calm.ends i
      · rw [(hothers heq).2]
        exact hs.ends i
    · by_cases heq : i = g
      · subst heq
        exact hback
      · exact ((hset heq).trans (hs.kept i hsh (.inl rfl))).trans (hothers heq)
    · by_cases heq : i = g
      · subst heq
        exact (hc.calm.order i hi).same hback
      · have hi₁ : i ∉ o₁ := fun h => h.elim hi fun h => heq h.1
        exact (hs.failed rfl i hi₁).same (hothers heq)

theorem follows_mAtom (hlen : inp.len < 2 ^ 32) (hn : Fits σ o False n) (hk : k.Fits σ o)
    (hc : Ready inp o k.opens pos c) (henter : c.steps < rxStepMax → entersBefore inp n pos c = true) :
    Follows (mAtom inp w n k pos) (mAtom inp w' n k pos) c (Left σ inp o pos c) := by
  refine follows_ticked hc fun hsteps c₁ hgs₁ hge₁ hc₁ => ?_
  have hempty : ∀ {o : Set Nat} {p s}, p ≤ inp.len → Calm inp o s → Ready inp o [] p s :=
    fun hp hs => ⟨hp, hs, nofun⟩
  cases hop : n.op with
  | char ch | any | cls cs =>
    cases hstep : atomStep inp n pos with
    | none => exact follows_fail (left_refl hc₁)
    | some next =>
      obtain ⟨hle, hend⟩ := atomStep_bounds hstep
      exact (hself σ o (.cont k next) c₁ hk (hc₁.later hle hend)).mono fun _ _ h => h.earlier hle
  | backref g =>
    refine Follows.reading ?_
    cases href : backrefEnd inp n g pos c₁ with
    | none => exact follows_fail (left_refl hc₁)
    | some next =>
      have horder := hc₁.calm.order g (hn.refs g (refs_backref hop))
      obtain ⟨hle, hend⟩ := backrefEnd_bounds hlen hc.within horder (hc₁.calm.ends g) href
      exact (hself σ o (.cont k next) c₁ hk (hc₁.later hle hend)).mono fun _ _ h => h.earlier hle
  | group g alts =>
    dsimp only
    split
    · exact follows_alts hself (hn.group hop fun i hi => .inl hi) hk hc₁
    · rename_i hg
      refine follows_group hself hop hg hn hk hc₁ ?_
      simpa only [entersBefore, hop, hge₁] using henter hsteps
  | atomic alts =>
    have hnodes : n.op.nodes = alts.flatten := by rw [hop]; rfl
    obtain ⟨τ, rfl, hsub, halts⟩ := hn.closed (fun i l h => by rw [hop] at h; cases h) hnodes
    refine (follows_alts hself halts (k := .stop) rfl (hempty hc.within hc₁.calm)).andThen (fun s hs => ?_) fun e s hs => ?_
    · have hsame : ∀ g, g ∉ σ.sheltered → Same c₁ s g := fun g hg => hs.same hsub hg
      exact (left_refl (hc₁.inner hk.opens_bare hs.calm hsame (Nat.le_refl pos) hc.within)).after_inner hsame
    · have hsame : ∀ g, g ∉ σ.sheltered → Same c₁ s g := fun g hg => hs.same hsub hg
      obtain ⟨-, hle, hend⟩ := hs.ended e rfl
      have hs' := hc₁.inner hk.opens_bare hs.calm hsame hle hend
      exact (hself σ τ.base (.cont k e) s hk hs').mono fun _ _ h => (h.earlier hle).after_inner hsame
  | lookahead negate alts =>
    have hnodes : n.op.nodes = alts.flatten := by rw [hop]; rfl
    obtain ⟨τ, rfl, hsub, halts⟩ := hn.closed (fun i l h => by rw [hop] at h; cases h) hnodes
    refine follows_lookaround hself hsub ?_ hk hc₁ negate
    exact (follows_alts hself halts (k := .stop) rfl (hempty hc.within hc₁.calm)).mono fun _ _ h =>
      h.earlier (Nat.zero_le pos)
  | lookbehind negate alts =>
    have hnodes : n.op.nodes = alts.flatten := by rw [hop]; rfl
    obtain ⟨τ, rfl, hsub, halts⟩ := hn.closed (fun i l h => by rw [hop] at h; cases h) hnodes
    refine follows_lookaround hself hsub ?_ hk hc₁ negate
    have hstart : Left τ inp τ.base 0 c₁ none c₁ := left_refl (hempty (Nat.zero_le _) hc₁.calm)
    refine Follows.first hstart (fun p hp s hs => ?_) fun _ h => h
    have hp' := Nat.le_trans (mem_behind hp) hc.within
    refine (follows_alts hself halts (k := .endat pos) rfl (hempty hp' hs.calm)).mono fun r s' h => ?_
    have hleft := hs.next (h.earlier (Nat.zero_le p))
    cases r with
    | none => exact hleft
    | some e => exact hleft
  | bol | eol | bos | eos | eosFinal | gpos | wordb | nwordb =>
    dsimp only
    split
    · exact hself σ o (.cont k pos) c₁ hk hc₁
    · exact follows_fail (left_refl hc₁)

end

/-! ### A run -/

theorem watched_keeps {inp : Input} (hlen : inp.len < 2 ^ 32) (fuel : Nat) :
    Keeping inp (runWatched inp (entersBefore inp) fuel) (runWatched inp (wellFormed inp) fuel) := by
  induction fuel with
  | zero =>
    intro σ o call c _ _ r c' hrun
    cases hrun
  | succ fuel ih =>
    intro σ o call c hfits hc
    cases call with
    | node ns k pos => exact follows_mNode ih hfits.1 hfits.2 hc
    | atom n k pos =>
      intro r c' hrun
      rw [runWatched] at hrun
      dsimp only at hrun
      split at hrun
      · cases hrun
      · rename_i hpass
        have henter : c.steps < rxStepMax → entersBefore inp n pos c = true := by
          intro hsteps
          by_contra hno
          exact hpass ⟨hsteps, eq_false_of_ne_true hno⟩
        rw [runWatched]
        dsimp only
        rw [if_neg]
        · exact follows_mAtom ih hlen hfits.1 hfits.2 hc henter r c' hrun
        · rintro ⟨-, hill⟩
          have hwell := wellFormed_of_calm hlen hc.within hc.calm hfits.1.refs
          cases hwell.symm.trans hill
    | rep n count k pos => exact follows_mRep ih hfits.1 hfits.2 hc fuel count
    | cont k pos => exact follows_mCont ih hlen hfits hc

theorem searchLoop_keeps {re : Rx} {inp : Input} (hre : re.Numbered) (hlen : inp.len < 2 ^ 32) (anchorStart : Bool) :
    ∀ {left start : Nat} {c : Ctx}, start ≤ inp.len → Calm inp ∅ c →
      Follows (searchLoop (runWatched inp (entersBefore inp) enough) re inp anchorStart left start)
        (searchLoop (runWatched inp (wellFormed inp) enough) re inp anchorStart left start) c fun _ _ => True := by
  intro left
  induction left with
  | zero =>
    intro start c _ _ r c' hrun
    cases hrun
  | succ left ih =>
    intro start c hstart hc
    obtain ⟨hapart, hnum⟩ := hre
    have halts : ∀ alt ∈ re.alts, FitsAll (Seg.body ∅ re.alts.flatten hapart hnum) ∅ alt := by
      intro alt halt x hx
      have hmem : x ∈ re.alts.flatten := mem_flatten.2 ⟨alt, halt, hx⟩
      exact ⟨hnum x hmem, fun hloops g hg => ⟨x, hmem, hloops, hg⟩, fun g hg => ⟨x, hmem, .inr hg⟩,
        fun hloop g hg => ⟨x, hmem, .inl ⟨hloop, hg⟩⟩, fun g _ hg => hg⟩
    have hreset : Ready inp ∅ [] start (resetGroups re.ngroups c) := by
      refine ⟨hstart, ⟨fun g _ hs => ?_, fun g => ?_⟩, nofun⟩
      · dsimp only [resetGroups] at *
        split at hs
        · cases hs
        · rename_i hg
          rw [if_neg hg, if_neg hg]
          exact hc.order g (Set.notMem_empty g) hs
      · dsimp only [resetGroups]
        split
        · omega
        · exact hc.ends g
    have hfirst := follows_alts (watched_keeps hlen enough) halts (k := .accept) rfl hreset
    refine (Follows.change hfirst).after fun r s hs => ?_
    cases r with
    | some _ => exact follows_give trivial
    | none =>
      refine Follows.reading ?_
      split
      · exact follows_fail trivial
      · rename_i hgo
        exact ih (rxU8_le inp.text (by omega)).1 hs.calm

/-- In a search in a text of less than 2^32 bytes, in which no group that refers to itself is entered beyond where it ended
    before, every reference to a group that is set is well formed. -/
theorem wellFormed_of_numbered (re : Rx) (hre : re.Numbered) (text : List UInt8) (hlen : text.length < 2 ^ 32) (start : Nat)
    (anchorStart anchorEnd : Bool) (h : Passes re text start anchorStart anchorEnd entersBefore) :
    Passes re text start anchorStart anchorEnd wellFormed := by
  intro hstart
  obtain ⟨⟨r, c⟩, hrun⟩ := Option.ne_none_iff_exists'.1 (h hstart)
  have hinit : Calm ⟨text, start, re.ngroups, anchorEnd⟩ ∅ initCtx :=
    ⟨fun _ _ _ _ => Int.le_refl 0, fun _ => natCast_nonneg _⟩
  have hkept := @searchLoop_keeps re ⟨text, start, re.ngroups, anchorEnd⟩ hre hlen anchorStart _ _ _ hstart hinit r c hrun
  unfold searchAll
  rw [hkept.1]
  exact some_ne_none _

end Lunaria.Regex
