import Lunaria.Regex.Match

/-! What a failed match leaves of the captures. Every branch undoes what it set itself, so that a failure leaves them as
    they were, except where a branch takes the result of an inner match for good: an atomic group and a possessive
    repetition keep the captures of their body when what follows them fails. -/

namespace Lunaria.Regex
open Backtrack Attempt List Function Option

/-- The capture arrays. -/
def Ctx.caps (c : Ctx) : List (Int × Int) := (range (rxMaxGroups + 1)).map fun g => (c.gs g, c.ge g)

theorem caps_eq_iff {c c' : Ctx} : c'.caps = c.caps ↔ ∀ g ≤ rxMaxGroups, c'.gs g = c.gs g ∧ c'.ge g = c.ge g := by
  unfold Ctx.caps
  rw [map_inj_left]
  simp only [mem_range, Nat.lt_succ_iff, Prod.mk.injEq]

theorem caps_counted {c c' : Ctx} (hgs : c'.gs = c.gs) (hge : c'.ge = c.ge) : c'.caps = c.caps := by
  rw [Ctx.caps, Ctx.caps, hgs, hge]

/-- One capture put back. -/
theorem caps_setGe {c c' : Ctx} {g : Nat} {x : Int} (h : c'.caps = (c.setGe g x).caps) :
    (c'.setGe g (c.ge g)).caps = c.caps := by
  rw [caps_eq_iff] at *
  intro i hi
  obtain ⟨hgs, hge⟩ := h i hi
  refine ⟨hgs, ?_⟩
  by_cases heq : i = g
  · subst heq
    exact Ctx.setGe_self ..
  · exact (update_of_ne heq ..).trans (hge.trans (update_of_ne heq ..))

theorem caps_setGs {c c' : Ctx} {g : Nat} {x : Int} (h : c'.caps = (c.setGs g x).caps) :
    ((c'.setGs g (c.gs g)).setGe g (c.ge g)).caps = c.caps := by
  rw [caps_eq_iff] at *
  intro i hi
  obtain ⟨hgs, hge⟩ := h i hi
  by_cases heq : i = g
  · subst heq
    exact ⟨Ctx.setGs_self .., Ctx.setGe_self ..⟩
  · exact ⟨(update_of_ne heq ..).trans (hgs.trans (update_of_ne heq ..)), (update_of_ne heq ..).trans hge⟩

/-! ### Runs that are cut off -/

section
variable (inp : Input) (self : Call → Attempt Ctx Nat)

/-- One call, which makes others. -/
def level (fuel : Nat) : Call → Attempt Ctx Nat
  | .node ns k pos => mNode self ns k pos
  | .atom n k pos => mAtom inp self n k pos
  | .rep n count k pos => mRep inp self fuel n count k pos
  | .cont k pos => mCont inp self k pos

/-- The same, cut off where the body of an atomic group or the iterations of a possessive repetition have changed a
    capture and what follows them fails. -/
def levelCommitting (fuel : Nat) : Call → Attempt Ctx Nat
  | .atom n k pos =>
    match n.op with
    | .atomic alts =>
      ticked (committing Ctx.caps (first (alts.map fun alt => self (.node alt .stop pos))) fun stop => self (.cont k stop))
    | _ => mAtom inp self n k pos
  | .rep n count k pos =>
    if n.quant = .possessive ∧ ¬(count = 0 ∧ atomIsSimple n) then
      committing Ctx.caps (possessive self n fuel count pos) fun (cnt, cur) =>
        if cnt < n.min then fail else self (.cont k cur)
    else mRep inp self fuel n count k pos
  | .node ns k pos => mNode self ns k pos
  | .cont k pos => mCont inp self k pos

end

/-- The four functions, cut off where a call fails with other captures than it began with. -/
def runGuarded (inp : Input) : Nat → Call → Attempt Ctx Nat
  | 0, _ => fun _ => none
  | fuel + 1, call => sure Ctx.caps (level inp (runGuarded inp fuel) fuel call)

def runCommitting (inp : Input) : Nat → Call → Attempt Ctx Nat
  | 0, _ => fun _ => none
  | fuel + 1, call => levelCommitting inp (runCommitting inp fuel) fuel call

theorem run_succ (inp : Input) (fuel : Nat) (call : Call) :
    run inp (fuel + 1) call = level inp (run inp fuel) fuel call := by
  cases call <;> rfl

/-! ### What the branches put back -/

section
variable {m : Attempt Ctx Nat}

theorem restores_ticked (h : Restores Ctx.caps m) : Restores Ctx.caps (ticked m) := by
  intro c c' hrun
  simp only [ticked, change, reading] at hrun
  split at hrun
  · exact (restores_fail _ c' hrun).trans (caps_counted rfl rfl)
  · exact (h _ c' hrun).trans (caps_counted rfl rfl)

theorem restores_deeper (h : Restores Ctx.caps m) : Restores Ctx.caps (deeper m) := by
  intro c c' hrun
  simp only [deeper, reading] at hrun
  split at hrun
  · exact restores_fail _ c' hrun
  · exact h.around (f := fun c => { c with depth := c.depth + 1 }) (g := fun c => { c with depth := c.depth - 1 })
      (fun _ => caps_counted rfl rfl) (fun _ => caps_counted rfl rfl) c c' hrun

/-- The step that is counted is no capture. -/
theorem sure_ticked (m : Attempt Ctx Nat) : sure Ctx.caps (ticked m) = ticked (sure Ctx.caps m) := by
  funext c
  rw [ticked, ticked, sure, change, change, reading, reading]
  split_ifs
  · exact if_pos (caps_counted rfl rfl)
  · rfl

end

section
variable {inp : Input} {self : Call → Attempt Ctx Nat} (hself : ∀ call, Restores Ctx.caps (self call))
include hself

theorem restores_alts (alts : List (List Node)) (k : Cont) (pos : Nat) :
    Restores Ctx.caps (first (alts.map fun alt => self (.node alt k pos))) := by
  refine Restores.first fun m hm => ?_
  obtain ⟨alt, -, rfl⟩ := List.mem_map.1 hm
  exact hself _

theorem restores_mNode (ns : List Node) (k : Cont) (pos : Nat) : Restores Ctx.caps (mNode self ns k pos) := by
  cases ns with
  | nil => exact hself _
  | cons n rest =>
    refine restores_deeper ?_
    split
    · exact hself _
    · exact hself _

theorem restores_mRepSimple (n : Node) (k : Cont) (pos : Nat) : Restores Ctx.caps (mRepSimple inp self n k pos) := by
  have hcont : ∀ l : List Nat, Restores Ctx.caps (first (l.map fun i => self (.cont k i))) := by
    intro l
    refine Restores.first fun m hm => ?_
    obtain ⟨i, -, rfl⟩ := List.mem_map.1 hm
    exact hself _
  have hastray : Restores Ctx.caps astray := by
    intro c c' hrun
    cases hrun
  rw [mRepSimple]
  split
  · split
    · exact hastray
    · exact hcont _
  · exact hcont _
  · refine (hcont _).orElse ?_
    split
    · exact hastray
    · exact restores_fail

theorem restores_mRep (fuel : Nat) {n : Node} (count : Nat) (k : Cont) (pos : Nat)
    (hn : ¬(n.quant = .possessive ∧ ¬(count = 0 ∧ atomIsSimple n))) :
    Restores Ctx.caps (mRep inp self fuel n count k pos) := by
  rw [mRep]
  split
  · exact restores_mRepSimple hself n k pos
  · rename_i hsimple
    have hmore : Restores Ctx.caps (if n.canMore count then self (.atom n (.rep n (count + 1) pos k) pos) else fail) := by
      split
      · exact hself _
      · exact restores_fail
    have henough : Restores Ctx.caps (if n.min ≤ count then self (.cont k pos) else fail) := by
      split
      · exact hself _
      · exact restores_fail
    dsimp only
    cases hq : n.quant with
    | reluctant => exact henough.orElse hmore
    | possessive => exact absurd ⟨hq, hsimple⟩ hn
    | greedy => exact hmore.orElse henough

theorem restores_mCont (k : Cont) (pos : Nat) : Restores Ctx.caps (mCont inp self k pos) := by
  refine restores_ticked ?_
  cases k with
  | accept =>
    dsimp only
    split
    · exact restores_fail
    · intro c c' hrun
      cases hrun
  | node rest k => exact hself _
  | gend g k => exact Restores.undoing (fun c c' h => caps_setGe h) (hself (.cont k pos))
  | rep n count start k =>
    dsimp only
    split
    · exact hself _
    · exact hself _
  | stop => exact restores_give pos
  | endat at' =>
    dsimp only
    split
    · exact restores_give pos
    · exact restores_fail

/-- A lookaround puts the captures back whatever its body did. -/
theorem restores_lookaround (negate : Bool) (hit : Attempt Ctx Nat) (k : Cont) (pos : Nat) :
    Restores Ctx.caps (lookaround self negate hit k pos) := by
  intro c c' hrun
  simp only [lookaround, reading] at hrun
  cases negate with
  | true =>
    rw [if_pos rfl] at hrun
    obtain ⟨r₁, c₁, -, h₂⟩ := after_eq_some hrun
    rw [change] at h₂
    split at h₂
    · exact (restores_fail _ c' h₂).trans (caps_counted rfl rfl)
    · exact (hself (.cont k pos) _ c' h₂).trans (caps_counted rfl rfl)
  | false =>
    rw [if_neg Bool.false_ne_true] at hrun
    have hundone : ∀ m : Attempt Ctx Nat, Restores Ctx.caps (undoing Ctx.restore m) :=
      restores_undoing fun _ _ => caps_counted rfl rfl
    exact hundone _ c c' hrun

theorem restores_mAtom {n : Node} (hn : ∀ alts, n.op ≠ .atomic alts) (k : Cont) (pos : Nat) :
    Restores Ctx.caps (mAtom inp self n k pos) := by
  refine restores_ticked ?_
  cases hop : n.op with
  | char ch | any | cls c =>
    cases atomStep inp n pos with
    | none => exact restores_fail
    | some next => exact hself _
  | backref g =>
    refine Restores.reading fun c => ?_
    cases backrefEnd inp n g pos c with
    | none => exact restores_fail
    | some next => exact hself _
  | group g alts =>
    dsimp only
    split
    · exact restores_alts hself alts k pos
    · exact Restores.undoing (fun c c' h => caps_setGs h) (restores_alts hself alts (.gend g k) pos)
  | atomic alts => exact absurd hop (hn alts)
  | lookahead negate alts | lookbehind negate alts => exact restores_lookaround hself negate _ k pos
  | bol | eol | bos | eos | eosFinal | gpos | wordb | nwordb =>
    dsimp only
    split
    · exact hself _
    · exact restores_fail

end

/-- The iterations of a possessive repetition end, and that is no failure. -/
theorem possessive_gives (self : Call → Attempt Ctx Nat) (n : Node) (fuel cnt cur : Nat) (c c' : Ctx) :
    possessive self n fuel cnt cur c ≠ some (none, c') := by
  induction fuel generalizing cnt cur c with
  | zero =>
    intro hrun
    cases hrun
  | succ fuel ih =>
    intro hrun
    rw [possessive] at hrun
    split at hrun
    · obtain ⟨r₁, c₁, -, h₂⟩ := after_eq_some hrun
      cases r₁ with
      | none => cases h₂
      | some got =>
        dsimp only at h₂
        split at h₂
        · cases h₂
        · exact ih (cnt + 1) got c₁ h₂
    · cases hrun

/-- Where all calls put the captures back, one that makes them does it too, or it is cut off for what it committed. -/
theorem sure_level (inp : Input) {self : Call → Attempt Ctx Nat} (hself : ∀ call, Restores Ctx.caps (self call))
    (fuel : Nat) (call : Call) : sure Ctx.caps (level inp self fuel call) = levelCommitting inp self fuel call := by
  cases call with
  | node ns k pos => exact (restores_mNode hself ns k pos).sure_eq
  | cont k pos => exact (restores_mCont hself k pos).sure_eq
  | atom n k pos =>
    rw [level, levelCommitting]
    split
    · rename_i alts hop
      have hatom : mAtom inp self n k pos =
          ticked ((first (alts.map fun alt => self (.node alt .stop pos))).andThen fun stop => self (.cont k stop)) := by
        rw [mAtom, hop]
      rw [hatom, sure_ticked, sure_andThen (restores_alts hself alts .stop pos) fun stop => hself _]
    · rename_i hno
      exact (restores_mAtom hself hno k pos).sure_eq
  | rep n count k pos =>
    rw [level, levelCommitting]
    split
    · rename_i hposs
      have hrep : mRep inp self fuel n count k pos = (possessive self n fuel count pos).andThen fun (cnt, cur) =>
          if cnt < n.min then fail else self (.cont k cur) := by
        rw [mRep, if_neg hposs.2]
        dsimp only
        rw [hposs.1]
      rw [hrep]
      refine sure_andThen (fun c c' h => absurd h (possessive_gives self n fuel count pos c c')) fun (cnt, cur) => ?_
      dsimp only
      split
      · exact restores_fail
      · exact hself _
    · rename_i hno
      exact (restores_mRep hself fuel count k pos hno).sure_eq

theorem restores_runGuarded (inp : Input) (fuel : Nat) (call : Call) : Restores Ctx.caps (runGuarded inp fuel call) := by
  cases fuel with
  | zero =>
    intro c c' hrun
    cases hrun
  | succ fuel => exact restores_sure _

/-- Nothing but what was committed is left behind. -/
theorem runGuarded_eq (inp : Input) (fuel : Nat) : runGuarded inp fuel = runCommitting inp fuel := by
  induction fuel with
  | zero => rfl
  | succ fuel ih =>
    funext call
    rw [runGuarded, runCommitting, ← ih]
    exact sure_level inp (restores_runGuarded inp fuel) fuel call

/-! ### What is not cut off -/

theorem ticked_under {m m' : Attempt Ctx Nat} (h : Under m m') : Under (ticked m) (ticked m') := by
  intro c
  refine Follows.change (Follows.reading ?_)
  split
  · exact Under.refl _ _
  · exact h _

theorem deeper_under {m m' : Attempt Ctx Nat} (h : Under m m') : Under (deeper m) (deeper m') := by
  intro c
  refine Follows.reading ?_
  split
  · exact Under.refl _ _
  · exact Follows.change (h.lastly _)

section
variable {inp : Input} {self self' : Call → Attempt Ctx Nat} (hself : ∀ call, Under (self call) (self' call))
include hself

theorem mNode_under (ns : List Node) (k : Cont) (pos : Nat) : Under (mNode self ns k pos) (mNode self' ns k pos) := by
  cases ns with
  | nil => exact hself _
  | cons n rest =>
    refine deeper_under ?_
    split
    · exact hself _
    · exact hself _

theorem conts_under (k : Cont) (l : List Nat) :
    Under (first (l.map fun i => self (.cont k i))) (first (l.map fun i => self' (.cont k i))) :=
  Under.first (fun _ => hself _) l

theorem possessive_under (n : Node) (fuel cnt cur : Nat) : Under (possessive self n fuel cnt cur)
    (possessive self' n fuel cnt cur) := by
  induction fuel generalizing cnt cur with
  | zero => exact Under.refl _
  | succ fuel ih =>
    rw [possessive, possessive]
    split
    · refine (hself _).after fun r => ?_
      cases r with
      | none => exact Under.refl _
      | some got =>
        dsimp only
        split
        · exact Under.refl _
        · exact ih _ _
    · exact Under.refl _

theorem mRep_under (fuel : Nat) (n : Node) (count : Nat) (k : Cont) (pos : Nat) :
    Under (mRep inp self fuel n count k pos) (mRep inp self' fuel n count k pos) := by
  rw [mRep, mRep]
  split
  · rw [mRepSimple, mRepSimple]
    split
    · split
      · exact Under.refl _
      · exact conts_under hself k _
    · exact conts_under hself k _
    · exact (conts_under hself k _).orElse (Under.refl _)
  · have hmore : Under (if n.canMore count then self (.atom n (.rep n (count + 1) pos k) pos) else fail)
        (if n.canMore count then self' (.atom n (.rep n (count + 1) pos k) pos) else fail) := by
      split
      · exact hself _
      · exact Under.refl _
    have henough : Under (if n.min ≤ count then self (.cont k pos) else fail)
        (if n.min ≤ count then self' (.cont k pos) else fail) := by
      split
      · exact hself _
      · exact Under.refl _
    dsimp only
    split
    · exact henough.orElse hmore
    · refine (possessive_under hself n fuel count pos).andThen fun (cnt, cur) => ?_
      dsimp only
      split
      · exact Under.refl _
      · exact hself _
    · exact hmore.orElse henough

theorem mCont_under (k : Cont) (pos : Nat) : Under (mCont inp self k pos) (mCont inp self' k pos) := by
  unfold mCont
  refine ticked_under ?_
  cases k with
  | accept | stop | endat at' => exact Under.refl _
  | node rest k => exact hself _
  | gend g k => exact Under.undoing fun c => hself (.cont k pos) _
  | rep n count start k =>
    dsimp only
    split
    · exact hself _
    · exact hself _

theorem lookaround_under (negate : Bool) {hit hit' : Attempt Ctx Nat} (hhit : Under hit hit') (k : Cont) (pos : Nat) :
    Under (lookaround self negate hit k pos) (lookaround self' negate hit' k pos) := by
  intro c
  refine Follows.reading ?_
  split
  · refine Under.after hhit (fun r s => Follows.change ?_) c
    split
    · exact Under.refl _ _
    · exact hself _ _
  · exact Under.undoing (hhit.andThen fun _ => hself _) c

theorem mAtom_under (n : Node) (k : Cont) (pos : Nat) : Under (mAtom inp self n k pos) (mAtom inp self' n k pos) := by
  have halts : ∀ (alts : List (List Node)) (k : Cont) (pos : Nat),
      Under (first (alts.map fun alt => self (.node alt k pos)))
      (first (alts.map fun alt => self' (.node alt k pos))) := fun alts k pos => Under.first (fun _ => hself _) alts
  unfold mAtom
  refine ticked_under ?_
  cases n.op with
  | char ch | any | cls c =>
    dsimp only
    split
    · exact Under.refl _
    · exact hself _
  | backref g =>
    intro c
    refine Follows.reading ?_
    split
    · exact Under.refl _ _
    · exact hself _ _
  | group g alts =>
    dsimp only
    split
    · exact halts alts k pos
    · exact Under.undoing fun c => halts alts (.gend g k) pos _
  | atomic alts => exact (halts alts .stop pos).andThen fun _ => hself _
  | lookahead negate alts => exact lookaround_under hself negate (halts alts .stop pos) k pos
  | lookbehind negate alts =>
    exact lookaround_under hself negate (Under.first (fun s => halts alts (.endat pos) s) _) k pos
  | bol | eol | bos | eos | eosFinal | gpos | wordb | nwordb =>
    dsimp only
    split
    · exact hself _
    · exact Under.refl _

end

theorem runGuarded_under (inp : Input) (fuel : Nat) (call : Call) : Under (runGuarded inp fuel call)
    (run inp fuel call) := by
  induction fuel generalizing call with
  | zero => exact Under.refl _
  | succ fuel ih =>
    rw [runGuarded, run_succ]
    refine sure_under ?_
    cases call with
    | node ns k pos => exact mNode_under ih ns k pos
    | atom n k pos => exact mAtom_under ih n k pos
    | rep n count k pos => exact mRep_under ih fuel n count k pos
    | cont k pos => exact mCont_under ih k pos

/-! ### The search -/

/-- No group is set. -/
def Unset (ngroups : Nat) (c : Ctx) : Prop := ∀ g ≤ ngroups, c.gs g = -1 ∧ c.ge g = -1

/-- Of the calls that one makes, and of itself, each that fails leaves the captures as they were. -/
def Restoring (inp : Input) (fuel : Nat) (call : Call) (c : Ctx) : Prop :=
  run inp fuel call c ≠ none → runGuarded inp fuel call c ≠ none

/-- Where the body of an atomic group or the iterations of a possessive repetition change a capture, what follows them
    does not fail. -/
def Commits (inp : Input) (fuel : Nat) (call : Call) (c : Ctx) : Prop :=
  run inp fuel call c ≠ none → runCommitting inp fuel call c ≠ none

/-- The same of all calls of a search. -/
def Rx.Restoring (re : Rx) (inp : Input) (anchorStart : Bool) : Prop :=
  searchAll (run inp enough) re inp anchorStart ≠ none → searchAll (runGuarded inp enough) re inp anchorStart ≠ none

def Rx.Commits (re : Rx) (inp : Input) (anchorStart : Bool) : Prop :=
  searchAll (run inp enough) re inp anchorStart ≠ none → searchAll (runCommitting inp enough) re inp anchorStart ≠ none

theorem unset_reset (ngroups : Nat) (c : Ctx) : Unset ngroups (resetGroups ngroups c) := fun _ hg => ⟨if_pos hg, if_pos hg⟩

section
variable {inp : Input} {self : Call → Attempt Ctx Nat}

theorem searchLoop_under {self' : Call → Attempt Ctx Nat} (hself : ∀ call, Under (self call) (self' call)) (re : Rx)
    (anchorStart : Bool) (left start : Nat) :
    Under (searchLoop self re inp anchorStart left start) (searchLoop self' re inp anchorStart left start) := by
  induction left generalizing start with
  | zero => exact Under.refl _
  | succ left ih =>
    intro c
    refine (Follows.change (Under.first (fun _ => hself _) re.alts _)).after fun r s _ => ?_
    cases r with
    | some _ => exact Under.refl _ _
    | none =>
      refine Follows.reading ?_
      split
      · exact Under.refl _ _
      · exact ih _ _

/-- The alternatives before the one that matches leave nothing behind. -/
theorem first_unset {ngroups start r : Nat} (hgroups : ngroups ≤ rxMaxGroups)
    (hself : ∀ call, Restores Ctx.caps (self call)) {c c' : Ctx} {alts : List (List Node)} (hunset : Unset ngroups c)
    (h : first (alts.map fun alt => self (.node alt .accept start)) c = some (some r, c')) :
    ∃ alt ∈ alts, ∃ c₀, Unset ngroups c₀ ∧ self (.node alt .accept start) c₀ = some (some r, c') := by
  induction alts generalizing c with
  | nil => cases h
  | cons alt alts ih =>
    rw [map_cons, first] at h
    obtain ⟨r₁, c₁, h₁, h₂⟩ := after_eq_some h
    cases r₁ with
    | some a =>
      cases h₂
      exact ⟨alt, mem_cons_self, c, hunset, h₁⟩
    | none =>
      have hcaps := caps_eq_iff.1 (hself _ c c₁ h₁)
      have hunset₁ : Unset ngroups c₁ := by
        intro g hg
        obtain ⟨hgs, hge⟩ := hcaps g (Nat.le_trans hg hgroups)
        rw [hgs, hge]
        exact hunset g hg
      obtain ⟨alt', hmem, c₀, hc₀, hrun⟩ := ih hunset₁ h₂
      exact ⟨alt', mem_cons_of_mem _ hmem, c₀, hc₀, hrun⟩

/-- A match is made by one alternative, from a state without captures. -/
theorem searchLoop_unset {re : Rx} (hgroups : re.ngroups ≤ rxMaxGroups) (hself : ∀ call, Restores Ctx.caps (self call))
    {anchorStart : Bool} {at' left start : Nat} {c c' : Ctx}
    (h : searchLoop self re inp anchorStart left start c = some (some at', c')) :
    ∃ alt ∈ re.alts, ∃ c₀ r, Unset re.ngroups c₀ ∧ self (.node alt .accept at') c₀ = some (some r, c') := by
  induction left generalizing start c with
  | zero => cases h
  | succ left ih =>
    rw [searchLoop] at h
    obtain ⟨r₁, c₁, h₁, h₂⟩ := after_eq_some h
    cases r₁ with
    | some r =>
      cases h₂
      obtain ⟨alt, hmem, c₀, hc₀, hrun⟩ := first_unset hgroups hself (unset_reset re.ngroups c) h₁
      exact ⟨alt, hmem, c₀, r, hc₀, hrun⟩
    | none =>
      simp only [reading] at h₂
      split at h₂
      · cases h₂
      · exact ih h₂

end

/-- The search that is cut off nowhere is that of the guarded runs. -/
theorem Rx.Commits.guarded {re : Rx} {inp : Input} {anchorStart : Bool} (h : re.Commits inp anchorStart)
    {r : Option Nat} {c : Ctx} (hrun : searchAll (run inp enough) re inp anchorStart = some (r, c)) :
    searchAll (runGuarded inp enough) re inp anchorStart = some (r, c) := by
  obtain ⟨p, hp⟩ := ne_none_iff_exists'.1 (h (by rw [hrun]; exact some_ne_none _))
  rw [← runGuarded_eq] at hp
  rw [hp, ← hrun]
  exact ((searchLoop_under (runGuarded_under inp enough) re anchorStart _ _).eq hp).symm

/-- In a call, and in a search, all failures put the captures back exactly where nothing that was committed is followed by a
    failure. The search then hands out the captures of the run that matched, which began with none. -/
theorem captures_restored (inp : Input) :
    (∀ fuel call c, Restoring inp fuel call c ↔ Commits inp fuel call c) ∧
    (∀ fuel call c c', Commits inp fuel call c → run inp fuel call c = some (none, c') → c'.caps = c.caps) ∧
    (∀ re anchorStart, Rx.Restoring re inp anchorStart ↔ re.Commits inp anchorStart) ∧
    ∀ (re : Rx) ncaps anchorStart caps c', inp.ngroups = re.ngroups → re.ngroups ≤ rxMaxGroups →
      re.Commits inp anchorStart → rxSearch re inp.text inp.start ncaps anchorStart inp.anchorEnd = some (some caps, c') →
      ∃ alt ∈ re.alts, ∃ at' c₀ r, Unset re.ngroups c₀ ∧ run inp enough (.node alt .accept at') c₀ = some (some r, c') ∧
        caps = captures re.ngroups ncaps ((c'.setGs 0 (toInt at')).setGe 0 (toInt c'.finish)) := by
  refine ⟨fun fuel call c => ?_, fun fuel call c c' hcommits hrun => ?_, fun re anchorStart => ?_,
    fun re ncaps anchorStart caps c' hsame hgroups hcommits hsearch => ?_⟩
  · rw [Restoring, Commits, runGuarded_eq]
  · obtain ⟨p, hp⟩ := ne_none_iff_exists'.1 (hcommits (by rw [hrun]; exact some_ne_none _))
    rw [← runGuarded_eq] at hp
    have hsame := (runGuarded_under inp fuel call).eq hp
    rw [hrun] at hsame
    cases hsame
    exact restores_runGuarded inp fuel call c c' hp
  · rw [Rx.Restoring, Rx.Commits, runGuarded_eq]
  · obtain ⟨text, start, ngroups, anchorEnd⟩ := inp
    obtain rfl : ngroups = re.ngroups := hsame
    rw [rxSearch] at hsearch
    split at hsearch
    · cases hsearch
    · split at hsearch
      · cases hsearch
      · cases hsearch
      · rename_i at' c hloop
        cases hsearch
        obtain ⟨alt, hmem, c₀, r, hunset, hrun⟩ :=
          searchLoop_unset hgroups (restores_runGuarded _ enough) (hcommits.guarded hloop)
        exact ⟨alt, hmem, at', c₀, r, hunset, (runGuarded_under _ enough _).eq hrun, rfl⟩

def once (op : Op Node) : Node := .mk op .greedy ⟨false, false, false, false⟩ 1 1

/-- The pattern `(?>(a))b|ac`. -/
def leaky : Rx where
  alts := [[once (.atomic [[once (.group 1 [[once (.char 0x61)]])]]), once (.char 0x62)],
    [once (.char 0x61), once (.char 0x63)]]
  ngroups := 1

/-- On `bab`, the atomic group does not match at first, and what follows it does then. -/
theorem captures_restored_committed : ∃ alt ∈ leaky.alts, ∃ at' c₀ r c', Unset 1 c₀ ∧
    run ⟨[0x62, 0x61, 0x62], 0, 1, false⟩ enough (.node alt .accept at') c₀ = some (some r, c') ∧
    [1, 3, 1, 2] = captures 1 4 ((c'.setGs 0 (toInt at')).setGe 0 (toInt c'.finish)) := by
  have hcommits : leaky.Commits ⟨[0x62, 0x61, 0x62], 0, 1, false⟩ false := by
    intro _ hnone
    have hrun : (searchAll (runCommitting ⟨[0x62, 0x61, 0x62], 0, 1, false⟩ enough) leaky
        ⟨[0x62, 0x61, 0x62], 0, 1, false⟩ false).isSome = true := by decide +kernel
    cases hrun.symm.trans (congrArg Option.isSome hnone)
  obtain ⟨⟨r, c'⟩, hrun, rfl⟩ := Option.map_eq_some_iff.1 (show
    (rxSearch leaky [0x62, 0x61, 0x62] 0 4 false false).map (·.1) = some (some [1, 3, 1, 2]) by decide +kernel)
  obtain ⟨alt, hmem, at', c₀, r, hunset, hmatch, hcaps⟩ :=
    (captures_restored ⟨[0x62, 0x61, 0x62], 0, 1, false⟩).2.2.2 leaky 4 false [1, 3, 1, 2] c' rfl (by decide) hcommits hrun
  exact ⟨alt, hmem, at', c₀, r, c', hunset, hmatch, hcaps⟩

/-- On `ac`, its first alternative fails after the atomic group, whose capture stays, and the search hands that out with the
    match of the second, which has no group. -/
theorem atomic_capture_stays :
    (¬∀ inp fuel call c c', run inp fuel call c = some (none, c') → c'.caps = c.caps) ∧
    (rxSearch leaky [0x61, 0x63] 0 4 false false).map (·.1) = some (some [0, 2, 0, 1]) := by
  refine ⟨fun h => ?_, by decide +kernel⟩
  obtain ⟨⟨r, c'⟩, hrun, heq⟩ := Option.map_eq_some_iff.1 (show (run ⟨[0x61, 0x63], 0, 1, false⟩ 20
    (.node [once (.atomic [[once (.group 1 [[once (.char 0x61)]])]]), once (.char 0x62)] .accept 0)
    ⟨fun _ => -1, fun _ => -1, 0, 0, 0⟩).map (fun r => (r.1, r.2.gs 1)) = some (none, 0) by decide +kernel)
  obtain ⟨rfl, hgs⟩ := Prod.mk.inj heq
  have hkept : c'.gs 1 = -1 := (caps_eq_iff.1 (h _ _ _ _ c' hrun) 1 (by decide)).1
  rw [hkept] at hgs
  cases hgs

end Lunaria.Regex
