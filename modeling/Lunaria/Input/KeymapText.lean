import Lunaria.Input.Keymap
import Lunaria.Lib.Trimming

/-! When a keymap that is loaded means its whole text: what a line stands for, and which lines are read otherwise. -/

namespace Lunaria.Input
open CText Trimming List

/-! ### What a keymap stands for -/

section Meaning
variable {R : Type} (F : Floats R)

/-- The keys of the directions, of walking, of the buttons and of the macros. -/
def Keymap.keys (m : Keymap R) : List Nat :=
  directions ++ (if m.walkKey = 0 then [] else [m.walkKey]) ++ (m.buttons.map (·.key) ++ m.macros.map (·.key))

/-- The contacts of the mouse, of the stick, of the buttons and of the macros. -/
def Keymap.ids (m : Keymap R) : List Nat :=
  [0, 1] ++ (m.buttons.flatMap (fun b => List.range' b.id b.points.length) ++
    m.macros.flatMap fun mc => List.range' mc.id keyPoints)

/-- A point of a step: two coordinates and a comma. -/
def PointText (w : List UInt8) (p : R × R) : Prop :=
  ∃ x y, w = x ++ 0x2c :: y ∧ 0x2c ∉ x ∧ number F x = some p.1 ∧ number F y = some p.2

/-- A step of a macro: a wait, or points between bars and how long they are held. -/
def StepText (w : List UInt8) (st : Step R) : Prop :=
  (∃ t, w = 0x40 :: t ∧ whole t 1 600000 = some st.waitMs ∧ st.points = []) ∨
    ∃ points hold, w = points ++ hold ∧ 0x2f ∉ points ∧ Forall₂ (PointText F) (tokens (· = 0x7c) points) st.points ∧
      (hold = [] ∧ st.holdMs = 30 ∨ ∃ t, hold = 0x2f :: t ∧ whole t 1 60000 = some st.holdMs)

/-- The characters of a line that are not white space. -/
def ink (line : List UInt8) : List UInt8 := line.filter fun c => !isSpace c

def StickLine (m : Keymap R) (line : List UInt8) : Prop :=
  ∃ x y radius, ink line = lit "stick" ++ (x ++ (y ++ radius)) ∧ number F x = some m.stickX ∧ number F y = some m.stickY ∧
    number F radius = some m.radius

def WalkLine (m : Keymap R) (line : List UInt8) : Prop :=
  ∃ key radius, ink line = lit "walk" ++ (key ++ radius) ∧ keyCode key = some m.walkKey ∧
    number F radius = some m.walkRadius

def isOption (w : List UInt8) : Bool := isRepeat w || isHold w

/-- The words of a button: every coordinate is one of a point, and every option has its value. -/
structure ButtonWords (b : Button R) (args : List (List UInt8)) : Prop where
  points : Forall₂ (fun w v => number F w = some v) (args.filter fun w => !isOption w)
    (b.points.flatMap fun p => [p.1, p.2])
  repeats : ∀ w ∈ args, isRepeat w = true → repeatValue w = some b.repeatMs
  holds : ∀ w ∈ args, isHold w = true → holdValue w = some b.holdMs

/-- The words of a macro: every one but `loop` is a step. -/
structure MacroWords (mc : Macro R) (args : List (List UInt8)) : Prop where
  steps : Forall₂ (StepText F) (args.filter fun w => w ≠ lit "loop") mc.steps
  loop : lit "loop" ∈ args → mc.loop = true

/-- The first word is the name, white space aside: a vertical tab and a form feed do not separate words here. At the end of
    the line they would be part of the last word. -/
def Worded (name line : List UInt8) : Prop :=
  (∀ c ∈ line.rtakeWhile isSpace, blank c = true) ∧ ∃ w ws, tokens blank line = w :: ws ∧ ink w = name

/-- The words of a line stand for one of these, by its key and what comes after the key. -/
def LineOf {α : Type} (name : String) (l : List α) (key : α → Nat) (words : α → List (List UInt8) → Prop)
    (line : List UInt8) : Prop :=
  Worded (lit name) line ∧ ∃ k args, (tokens blank line).tail = k :: args ∧ ∃ b ∈ l, keyCode k = some (key b) ∧ words b args

def ButtonLine (m : Keymap R) : List UInt8 → Prop := LineOf "button" m.buttons Button.key (ButtonWords F)

def MacroLine (m : Keymap R) : List UInt8 → Prop := LineOf "macro" m.macros Macro.key (MacroWords F)

def Represented (m : Keymap R) (line : List UInt8) : Prop :=
  if firstWord line = lit "stick" then StickLine F m line
  else if firstWord line = lit "walk" then WalkLine F m line
  else if firstWord line = lit "button" then ButtonLine F m line
  else if firstWord line = lit "macro" then MacroLine F m line
  else False

/-- A line with words that is no comment. -/
def Spoken (line : List UInt8) : Prop := firstWord line ≠ [] ∧ (firstWord line).head? ≠ some 0x23

structure Means (data : List UInt8) (m : Keymap R) : Prop where
  roles : m.keys.Nodup
  ids : m.ids.Nodup ∧ ∀ i ∈ m.ids, i < 32
  text : ∀ line ∈ data.splitOn newline, Spoken line → Represented F m line

end Meaning

/-! ### The lines that are read as they are written -/

/-- All but white space is within one of the pieces into which the buffer cuts the line, and none of it is a NUL. -/
def Uncut (line : List UInt8) : Prop :=
  0 ∉ line ∧ ∃ i, (line.take ((lineSize - 1) * i)).all isSpace = true ∧
    (line.drop ((lineSize - 1) * (i + 1))).all isSpace = true

def lastValue (is : List UInt8 → Bool) (value : List UInt8 → Option Int) (ws : List (List UInt8)) : Int :=
  ((ws.filter is).filterMap value).getLast?.getD 0

/-- The repetition that words ask for, and how long a tap is held. -/
def repeatOf (ws : List (List UInt8)) : Int := lastValue isRepeat repeatValue ws

def holdOf (ws : List (List UInt8)) : Int :=
  holdTime (repeatOf ws) (lastValue isHold holdValue ws)

/-- The words of a button that are not among the first sixteen of its line are options, and no option is given twice with
    different values. -/
structure ButtonKept (args : List (List UInt8)) : Prop where
  options : ∀ w ∈ args.drop 14, isOption w = true
  repeats : ∀ w ∈ args, isRepeat w = true → repeatValue w = some (repeatOf (args.take 14))
  holds : ∀ w ∈ args, isHold w = true → holdValue w = some (holdOf (args.take 14))

/-- The words of a macro that are not among the first of its line are `loop`. -/
def MacroKept (args : List (List UInt8)) : Prop := ∀ w ∈ args.drop (macroSteps + 1), w = lit "loop"

/-- A line that is read as it is written. -/
structure Kept (line : List UInt8) : Prop where
  uncut : Uncut line
  button : firstWord line = lit "button" → Worded (lit "button") line ∧ ButtonKept ((tokens blank line).drop 2)
  macro' : firstWord line = lit "macro" → Worded (lit "macro") line ∧ MacroKept ((tokens blank line).drop 2)

/-- The key of a line that begins with some name, as the loader finds it in its buffer. -/
def WalkKey (piece : List UInt8) (code : Nat) : Prop :=
  lineName piece = lit "walk" ∧ keyCode ((firstWord (skipWord (cstr piece))).take 31) = some code

def MacroKey (piece : List UInt8) (code : Nat) : Prop :=
  lineName piece = lit "macro" ∧ keyCode ((tokens blank (cstr piece)).getD 1 []) = some code

/-- The text is read as it is written, and no macro is on the walk key. -/
structure Plain (data : List UInt8) : Prop where
  kept : ∀ line ∈ data.splitOn newline, Spoken line → Kept line
  walk : ∀ p ∈ readLines lineSize data, ∀ q ∈ readLines lineSize data, ∀ code, WalkKey p code → ¬ MacroKey q code

/-! ### What a line does -/

section Lines
variable {R : Type} {F : Floats R} {s s' : Loading R} {line : List UInt8}

theorem guard_bind {α : Type} {p : Prop} [Decidable p] {f : Unit → Option α} {b : α} :
    (guard p >>= f) = some b ↔ p ∧ f () = some b := by
  by_cases h : p
  · rw [guard, if_pos h, and_iff_right h]
    rfl
  · rw [guard, if_neg h]
    exact iff_of_false nofun fun h' => h h'.1

structure ButtonMade (F : Floats R) (m : Keymap R) (line : List UInt8) (b : Button R) (a : Args R) : Prop where
  words : 4 ≤ (split line 16).length
  key : keyCode ((split line 16).getD 1 []) = some b.key
  free : keyTaken m b.key = false
  args : ((split line 16).drop 2).foldlM (buttonWord F) ⟨[], 0, 0⟩ = some a
  count : 2 ≤ a.values.length ∧ a.values.length % 2 = 0
  repeatMs : b.repeatMs = a.repeatMs
  holdMs : b.holdMs = holdTime a.repeatMs a.holdMs
  points : b.points = pairs a.values
  id : claimIds m (a.values.length / 2) = some b.id

variable {m m' : Keymap R}

theorem parseButton_eq_some (h : parseButton F m line = some m') :
    ∃ b a, ButtonMade F m line b a ∧ m' = { m with buttons := m.buttons ++ [b] } := by
  unfold parseButton at h
  dsimp only at h
  obtain ⟨hwords, h⟩ := guard_bind.1 h
  obtain ⟨code, hcode, h⟩ := Option.bind_eq_some_iff.1 h
  obtain ⟨hfree, h⟩ := guard_bind.1 h
  obtain ⟨a, ha, h⟩ := Option.bind_eq_some_iff.1 h
  obtain ⟨hcount, h⟩ := guard_bind.1 h
  obtain ⟨-, h⟩ := guard_bind.1 h
  obtain ⟨id, hid, h⟩ := Option.bind_eq_some_iff.1 h
  cases h
  exact ⟨_, a, ⟨hwords, hcode, hfree, ha, hcount, rfl, rfl, rfl, hid⟩, rfl⟩

structure MacroMade (F : Floats R) (m : Keymap R) (line : List UInt8) (mc : Macro R) : Prop where
  words : 3 ≤ (split line (2 + macroSteps + 1)).length
  key : keyCode ((split line (2 + macroSteps + 1)).getD 1 []) = some mc.key
  free : keyTaken m mc.key = false
  args : ∃ code id, ((split line (2 + macroSteps + 1)).drop 2).foldlM (macroWord F) ⟨code, id, false, []⟩ = some mc
  id : claimIds m keyPoints = some mc.id

theorem macroWord_key {mc mc' : Macro R} {w : List UInt8} (h : macroWord F mc w = some mc') :
    mc'.key = mc.key ∧ mc'.id = mc.id := by
  unfold macroWord at h
  split at h
  · cases h
    exact ⟨rfl, rfl⟩
  · split at h
    · cases h
    · obtain ⟨st, -, rfl⟩ := Option.map_eq_some_iff.1 h
      exact ⟨rfl, rfl⟩

theorem macroWords_key : ∀ {ws : List (List UInt8)} {mc mc' : Macro R}, ws.foldlM (macroWord F) mc = some mc' →
    mc'.key = mc.key ∧ mc'.id = mc.id
  | [], _, _, h => by
    cases h
    exact ⟨rfl, rfl⟩
  | w :: ws, mc, mc', h => by
    rw [foldlM_cons] at h
    obtain ⟨mc₁, h₁, h⟩ := Option.bind_eq_some_iff.1 h
    obtain ⟨hk, hi⟩ := macroWord_key h₁
    obtain ⟨hk', hi'⟩ := macroWords_key h
    exact ⟨hk'.trans hk, hi'.trans hi⟩

theorem parseMacro_eq_some (h : parseMacro F m line = some m') :
    ∃ mc, MacroMade F m line mc ∧ m' = { m with macros := m.macros ++ [mc] } := by
  unfold parseMacro at h
  dsimp only at h
  obtain ⟨hwords, h⟩ := guard_bind.1 h
  obtain ⟨code, hcode, h⟩ := Option.bind_eq_some_iff.1 h
  obtain ⟨hfree, h⟩ := guard_bind.1 h
  obtain ⟨id, hid, h⟩ := Option.bind_eq_some_iff.1 h
  obtain ⟨mc, hmc, h⟩ := Option.bind_eq_some_iff.1 h
  cases h
  obtain ⟨hk, hi⟩ := macroWords_key hmc
  refine ⟨mc, ⟨hwords, ?_, ?_, ⟨code, id, hmc⟩, ?_⟩, rfl⟩
  · rw [hcode, hk]
  · rw [hk]
    exact hfree
  · rw [hid, hi]

/-- What a line does that is accepted. -/
inductive Reads (F : Floats R) (s : Loading R) (line : List UInt8) : Loading R → Prop
  | skip (h : lineName line = [] ∨ (lineName line).head? = some 0x23) : Reads F s line s
  | stick {x y radius : R} (hname : lineName line = lit "stick") (hnew : s.stick = false)
      (hscan : scanStick F (cstr line) = some (x, y, radius)) (hx : unit F x = true) (hy : unit F y = true)
      (hradius : inRadius F radius = true) :
      Reads F s line ⟨{ s.next with stickX := x, stickY := y, radius := radius }, true⟩
  | walk {key : List UInt8} {radius : R} {code : Nat} (hname : lineName line = lit "walk") (hnew : s.next.walkKey = 0)
      (hscan : scanWalk F (cstr line) = some (key, radius)) (hcode : keyCode key = some code)
      (hradius : inRadius F radius = true) (hfree : code ∉ directions) :
      Reads F s line { s with next := { s.next with walkKey := code, walkRadius := radius } }
  | button {b : Button R} {a : Args R} (hname : lineName line = lit "button") (h : ButtonMade F s.next line b a) :
      Reads F s line { s with next := { s.next with buttons := s.next.buttons ++ [b] } }
  | macro' {mc : Macro R} (hname : lineName line = lit "macro") (h : MacroMade F s.next line mc) :
      Reads F s line { s with next := { s.next with macros := s.next.macros ++ [mc] } }

theorem loadLine_reads (h : loadLine F s line = some s') : Reads F s line s' := by
  unfold loadLine at h
  dsimp only at h
  split at h
  · next hskip =>
    cases h
    exact .skip hskip
  split at h
  · next hname =>
    obtain ⟨hnew, h⟩ := guard_bind.1 h
    obtain ⟨⟨x, y, radius⟩, hscan, h⟩ := Option.bind_eq_some_iff.1 h
    obtain ⟨⟨hx, hy, hradius⟩, h⟩ := guard_bind.1 h
    cases h
    exact .stick hname hnew hscan hx hy hradius
  split at h
  · next hname =>
    obtain ⟨hnew, h⟩ := guard_bind.1 h
    obtain ⟨⟨key, radius⟩, hscan, h⟩ := Option.bind_eq_some_iff.1 h
    obtain ⟨code, hcode, h⟩ := Option.bind_eq_some_iff.1 h
    obtain ⟨⟨hradius, hfree⟩, h⟩ := guard_bind.1 h
    cases h
    exact .walk hname hnew hscan hcode hradius hfree
  split at h
  · next hname =>
    obtain ⟨-, h⟩ := guard_bind.1 h
    obtain ⟨next, hnext, h⟩ := Option.bind_eq_some_iff.1 h
    cases h
    obtain ⟨b, a, hb, rfl⟩ := parseButton_eq_some hnext
    exact .button hname hb
  split at h
  · next hname =>
    obtain ⟨-, h⟩ := guard_bind.1 h
    obtain ⟨next, hnext, h⟩ := Option.bind_eq_some_iff.1 h
    cases h
    obtain ⟨mc, hmc, rfl⟩ := parseMacro_eq_some hnext
    exact .macro' hname hmc
  · cases h

end Lines

/-! ### Keys and contacts -/

section Contacts
variable {R : Type} {F : Floats R} {s s' : Loading R} {line : List UInt8} {m : Keymap R}

/-- The first contact that is not taken. -/
def Keymap.nextId (m : Keymap R) : Nat :=
  2 + (m.buttons.map fun b => b.points.length).sum + (m.macros.map fun _ => keyPoints).sum

/-- What every keymap keeps while it is loaded. -/
structure Sound (m : Keymap R) : Prop where
  keys : (directions ++ (m.buttons.map (·.key) ++ m.macros.map (·.key))).Nodup
  walk : m.walkKey ∉ directions
  ids : m.ids.Nodup ∧ ∀ i ∈ m.ids, i < m.nextId
  next : m.nextId ≤ 32

theorem claimIds_eq_some {n id : Nat} (h : claimIds m n = some id) : id = m.nextId ∧ m.nextId + n ≤ 32 := by
  have hle : m.nextId + n ≤ 32 := by
    by_contra hle
    exact nomatch (if_neg hle).symm.trans h
  exact ⟨(Option.some.inj ((if_pos hle).symm.trans h)).symm, hle⟩

theorem keyTaken_eq_false {code : Nat} (h : keyTaken m code = false) :
    code ∉ directions ++ (m.buttons.map (·.key) ++ m.macros.map (·.key)) := by
  have h := of_decide_eq_false h
  rw [mem_append, mem_append]
  exact h

/-- Contacts that begin where the others end. -/
theorem ids_add {l l' : List Nat} {next n : Nat} (h : l.Nodup ∧ ∀ i ∈ l, i < next)
    (hl : l'.Perm (l ++ List.range' next n)) : l'.Nodup ∧ ∀ i ∈ l', i < next + n := by
  constructor
  · rw [hl.nodup_iff, nodup_append]
    refine ⟨h.1, nodup_range', fun i hi j hj => ?_⟩
    have hlo := (List.mem_range'_1.1 hj).1
    have hlt := h.2 i hi
    omega
  · intro i hi
    rcases List.mem_append.1 (hl.mem_iff.1 hi) with hi | hi
    · exact (h.2 i hi).trans_le (Nat.le_add_right _ _)
    · exact (List.mem_range'_1.1 hi).2

theorem length_pairs : ∀ vs : List R, (pairs vs).length = vs.length / 2
  | [] => by simp [pairs]
  | [_] => by simp [pairs]
  | _ :: _ :: vs => by
    rw [pairs, length_cons, length_pairs, length_cons, length_cons]
    omega

theorem perm_insert {α : Type} (a b c r : List α) : (a ++ ((b ++ r) ++ c)).Perm ((a ++ (b ++ c)) ++ r) := by
  rw [append_assoc, append_assoc, append_assoc]
  exact (List.perm_append_comm.append_left b).append_left a

theorem Sound.empty : Sound (.empty F) := by
  refine ⟨?_, ?_, ?_, ?_⟩
  · change directions.Nodup
    decide
  · change 0 ∉ directions
    decide
  · change [0, 1].Nodup ∧ ∀ i ∈ [0, 1], i < 2
    decide
  · change 2 ≤ 32
    decide

theorem Sound.button {b : Button R} {a : Args R} (h : Sound m) (hb : ButtonMade F m line b a) :
    Sound { m with buttons := m.buttons ++ [b] } := by
  obtain ⟨hid, hle⟩ := claimIds_eq_some hb.id
  have hlen : b.points.length = a.values.length / 2 := by rw [hb.points, length_pairs]
  have hnext : Keymap.nextId { m with buttons := m.buttons ++ [b] } = m.nextId + a.values.length / 2 := by
    simp only [Keymap.nextId, map_append, map_singleton, sum_append, sum_singleton, hlen]
    omega
  refine ⟨?_, h.walk, ?_, hnext ▸ hle⟩
  · have hperm := perm_insert directions (m.buttons.map (·.key)) (m.macros.map (·.key)) [b.key]
    rw [map_append]
    refine hperm.nodup_iff.2 (List.nodup_append.2 ⟨h.keys, nodup_singleton _, fun x hx y hy => ?_⟩)
    rintro rfl
    exact keyTaken_eq_false hb.free (List.mem_singleton.1 hy ▸ hx)
  · rw [hnext]
    refine ids_add h.ids ?_
    have hperm := perm_insert [0, 1] (m.buttons.flatMap fun b => List.range' b.id b.points.length)
      (m.macros.flatMap fun mc => List.range' mc.id keyPoints) (List.range' b.id b.points.length)
    rw [← hid, ← hlen]
    rw [Keymap.ids, flatMap_append, flatMap_singleton]
    exact hperm

theorem Sound.macro' {mc : Macro R} (h : Sound m) (hmc : MacroMade F m line mc) :
    Sound { m with macros := m.macros ++ [mc] } := by
  obtain ⟨hid, hle⟩ := claimIds_eq_some hmc.id
  have hnext : Keymap.nextId { m with macros := m.macros ++ [mc] } = m.nextId + keyPoints := by
    simp only [Keymap.nextId, map_append, map_singleton, sum_append, sum_singleton]
    omega
  refine ⟨?_, h.walk, ?_, hnext ▸ hle⟩
  · rw [map_append, map_singleton, ← append_assoc, ← append_assoc, append_assoc directions]
    refine List.nodup_append.2 ⟨h.keys, nodup_singleton _, fun x hx y hy => ?_⟩
    rintro rfl
    exact keyTaken_eq_false hmc.free (List.mem_singleton.1 hy ▸ hx)
  · rw [hnext]
    refine ids_add h.ids ?_
    rw [← hid, Keymap.ids, flatMap_append, flatMap_singleton, ← append_assoc, ← append_assoc,
      append_assoc [0, 1]]
    exact List.Perm.refl _

theorem Sound.reads (h : Sound s.next) (hr : Reads F s line s') : Sound s'.next := by
  cases hr with
  | skip => exact h
  | stick => exact ⟨h.keys, h.walk, h.ids, h.next⟩
  | walk hname hnew hscan hcode hradius hfree => exact ⟨h.keys, hfree, h.ids, h.next⟩
  | button hname hb => exact h.button hb
  | macro' hname hmc => exact h.macro' hmc

theorem Sound.run : ∀ {ps : List (List UInt8)} {s s' : Loading R}, Sound s.next → ps.foldlM (loadLine F) s = some s' →
    Sound s'.next
  | [], _, _, h, hrun => by
    cases hrun
    exact h
  | p :: ps, s, s', h, hrun => by
    rw [foldlM_cons] at hrun
    obtain ⟨s₁, hp, hrun⟩ := Option.bind_eq_some_iff.1 hrun
    exact Sound.run (h.reads (loadLine_reads hp)) hrun

theorem Sound.roles_iff (h : Sound m) (hwalk : m.walkKey = 0 ∨ m.walkKey ∉ m.buttons.map (·.key)) :
    m.keys.Nodup ↔ m.walkKey ≠ 0 → m.walkKey ∉ m.macros.map (·.key) := by
  rw [Keymap.keys]
  by_cases hzero : m.walkKey = 0
  · rw [if_pos hzero, append_nil]
    exact iff_of_true h.keys fun hne => absurd hzero hne
  · rw [if_neg hzero, append_assoc]
    have hbutton := hwalk.resolve_left hzero
    have hperm : (directions ++ ([m.walkKey] ++ (m.buttons.map (·.key) ++ m.macros.map (·.key)))).Perm
        (m.walkKey :: (directions ++ (m.buttons.map (·.key) ++ m.macros.map (·.key)))) := perm_middle
    rw [hperm.nodup_iff, nodup_cons, and_iff_left h.keys, mem_append, mem_append]
    exact ⟨fun hn _ hmem => hn (.inr (.inr hmem)), fun hn hmem => hmem.elim h.walk fun hmem => hmem.elim hbutton (hn hzero)⟩

end Contacts

/-! ### What stays -/

section Growth
variable {R : Type} {F : Floats R} {s s' s'' : Loading R} {line : List UInt8} {ps : List (List UInt8)}

/-- Lines add to a keymap: what is in it stays. -/
structure Grows (s s' : Loading R) : Prop where
  stick : s.stick = true → s'.stick = true ∧ s'.next.stickX = s.next.stickX ∧ s'.next.stickY = s.next.stickY ∧
    s'.next.radius = s.next.radius
  walk : s.next.walkKey ≠ 0 → s'.next.walkKey = s.next.walkKey ∧ s'.next.walkRadius = s.next.walkRadius
  buttons : s.next.buttons <+: s'.next.buttons
  macros : s.next.macros <+: s'.next.macros

theorem Grows.refl (s : Loading R) : Grows s s :=
  ⟨fun h => ⟨h, rfl, rfl, rfl⟩, fun _ => ⟨rfl, rfl⟩, prefix_refl _, prefix_refl _⟩

theorem Grows.trans (h : Grows s s') (h' : Grows s' s'') : Grows s s'' where
  stick hs := by
    obtain ⟨h₁, h₂, h₃, h₄⟩ := h.stick hs
    obtain ⟨h₁', h₂', h₃', h₄'⟩ := h'.stick h₁
    exact ⟨h₁', h₂'.trans h₂, h₃'.trans h₃, h₄'.trans h₄⟩
  walk hs := by
    obtain ⟨h₁, h₂⟩ := h.walk hs
    obtain ⟨h₁', h₂'⟩ := h'.walk (h₁ ▸ hs)
    exact ⟨h₁'.trans h₁, h₂'.trans h₂⟩
  buttons := h.buttons.trans h'.buttons
  macros := h.macros.trans h'.macros

theorem Reads.grows (h : Reads F s line s') : Grows s s' := by
  cases h with
  | skip => exact .refl s
  | stick hname hnew =>
    exact ⟨fun h => (nomatch h.symm.trans hnew), fun _ => ⟨rfl, rfl⟩, prefix_refl _, prefix_refl _⟩
  | walk hname hnew =>
    exact ⟨fun h => ⟨h, rfl, rfl, rfl⟩, fun h => absurd hnew h, prefix_refl _, prefix_refl _⟩
  | button => exact ⟨fun h => ⟨h, rfl, rfl, rfl⟩, fun _ => ⟨rfl, rfl⟩, prefix_append _ _, prefix_refl _⟩
  | macro' => exact ⟨fun h => ⟨h, rfl, rfl, rfl⟩, fun _ => ⟨rfl, rfl⟩, prefix_refl _, prefix_append _ _⟩

variable {p : List UInt8}

theorem run_cons : (p :: ps).foldlM (loadLine F) s = some s'' ↔
    ∃ s', loadLine F s p = some s' ∧ ps.foldlM (loadLine F) s' = some s'' := by
  rw [foldlM_cons]
  exact Option.bind_eq_some_iff

theorem run_append {qs : List (List UInt8)} : (ps ++ qs).foldlM (loadLine F) s = some s'' ↔
    ∃ s', ps.foldlM (loadLine F) s = some s' ∧ qs.foldlM (loadLine F) s' = some s'' := by
  rw [foldlM_append]
  exact Option.bind_eq_some_iff

theorem run_grows : ∀ {ps : List (List UInt8)} {s s' : Loading R}, ps.foldlM (loadLine F) s = some s' → Grows s s'
  | [], s, _, h => by
    cases h
    exact .refl s
  | p :: ps, s, s', h => by
    obtain ⟨s₁, hp, h⟩ := run_cons.1 h
    exact (loadLine_reads hp).grows.trans (run_grows h)

theorem run_mem : ∀ {ps : List (List UInt8)} {s s' : Loading R}, ps.foldlM (loadLine F) s = some s' → ∀ p ∈ ps,
    ∃ s₁ s₂, Reads F s₁ p s₂ ∧ Grows s s₁ ∧ Grows s₂ s'
  | [], _, _, _, p, hp => nomatch hp
  | q :: ps, s, s', h, p, hp => by
    obtain ⟨s₁, hq, hps⟩ := run_cons.1 h
    rcases List.mem_cons.1 hp with rfl | hp
    · exact ⟨s, s₁, loadLine_reads hq, .refl s, run_grows hps⟩
    · obtain ⟨s₂, s₃, hr, hg, hg'⟩ := run_mem hps p hp
      exact ⟨s₂, s₃, hr, (loadLine_reads hq).grows.trans hg, hg'⟩

theorem scanWalk_key {key : List UInt8} {radius : R} {text : List UInt8} (h : scanWalk F text = some (key, radius)) :
    key = (firstWord (skipWord text)).take 31 := by
  unfold scanWalk at h
  dsimp only at h
  obtain ⟨-, h⟩ := guard_bind.1 h
  obtain ⟨⟨radius', r⟩, -, h⟩ := Option.bind_eq_some_iff.1 h
  obtain ⟨-, h⟩ := guard_bind.1 h
  exact (Prod.mk.inj (Option.some.inj h)).1.symm

theorem getD_split {n : Nat} (hn : 1 < n) : (split line n).getD 1 [] = (tokens blank (cstr line)).getD 1 [] := by
  rw [split, getD_eq_getElem?_getD, getD_eq_getElem?_getD, getElem?_take, if_pos hn]

/-- The keys of the lines that were read are those of the keymap. -/
structure KeysOf (ps : List (List UInt8)) (m : Keymap R) : Prop where
  walk : m.walkKey ≠ 0 → ∃ p ∈ ps, WalkKey p m.walkKey
  macros : ∀ mc ∈ m.macros, ∃ p ∈ ps, MacroKey p mc.key

theorem KeysOf.reads (h : KeysOf ps s.next) (hr : Reads F s line s') : KeysOf (ps ++ [line]) s'.next := by
  have hold : (∀ code, (∃ p ∈ ps, WalkKey p code) → ∃ p ∈ ps ++ [line], WalkKey p code) ∧
      ∀ code, (∃ p ∈ ps, MacroKey p code) → ∃ p ∈ ps ++ [line], MacroKey p code :=
    ⟨fun _ ⟨p, hp, hk⟩ => ⟨p, mem_append_left _ hp, hk⟩, fun _ ⟨p, hp, hk⟩ => ⟨p, mem_append_left _ hp, hk⟩⟩
  have hnew : line ∈ ps ++ [line] := mem_append_right _ (mem_singleton_self _)
  have hmacros : ∀ mc ∈ s.next.macros, ∃ p ∈ ps ++ [line], MacroKey p mc.key := fun mc hmc => hold.2 _ (h.macros mc hmc)
  cases hr with
  | skip => exact ⟨fun hne => hold.1 _ (h.walk hne), hmacros⟩
  | stick => exact ⟨fun hne => hold.1 _ (h.walk hne), hmacros⟩
  | walk hname _ hscan hcode =>
    refine ⟨fun _ => ⟨line, hnew, hname, ?_⟩, hmacros⟩
    rw [← scanWalk_key hscan]
    exact hcode
  | button => exact ⟨fun hne => hold.1 _ (h.walk hne), hmacros⟩
  | macro' hname hmc =>
    refine ⟨fun hne => hold.1 _ (h.walk hne), fun mc' hmem => ?_⟩
    rcases List.mem_append.1 hmem with hmem | hmem
    · exact hmacros mc' hmem
    · obtain rfl := List.mem_singleton.1 hmem
      refine ⟨line, hnew, hname, ?_⟩
      rw [← getD_split (n := 2 + macroSteps + 1) (by decide)]
      exact hmc.key

theorem KeysOf.run : ∀ {ps qs : List (List UInt8)} {s s' : Loading R}, KeysOf qs s.next →
    ps.foldlM (loadLine F) s = some s' → KeysOf (qs ++ ps) s'.next
  | [], qs, _, _, h, hrun => by
    cases hrun
    rwa [append_nil]
  | p :: ps, qs, s, s', h, hrun => by
    obtain ⟨s₁, hp, hrun⟩ := run_cons.1 hrun
    have hkeys := KeysOf.run (h.reads (loadLine_reads hp)) hrun
    rwa [append_assoc, singleton_append] at hkeys

theorem run_walkKey {code : Nat} (h : ps.foldlM (loadLine F) s = some s') (hp : p ∈ ps) (hk : WalkKey p code)
    (hcode : code ≠ 0) : s'.next.walkKey = code := by
  obtain ⟨s₁, s₂, hr, -, hg⟩ := run_mem h p hp
  have hname := hk.1
  cases hr with
  | skip h => exact absurd h (by rw [hname]; decide)
  | stick h => exact absurd (hname.symm.trans h) (by decide)
  | button h => exact absurd (hname.symm.trans h) (by decide)
  | macro' h => exact absurd (hname.symm.trans h) (by decide)
  | walk _ _ hscan hcode' =>
    rw [scanWalk_key hscan, hk.2] at hcode'
    cases hcode'
    exact (hg.walk hcode).1

theorem run_macroKey {code : Nat} (h : ps.foldlM (loadLine F) s = some s') (hp : p ∈ ps) (hk : MacroKey p code) :
    code ∈ s'.next.macros.map (·.key) := by
  obtain ⟨s₁, s₂, hr, -, hg⟩ := run_mem h p hp
  have hname := hk.1
  cases hr with
  | skip h => exact absurd h (by rw [hname]; decide)
  | stick h => exact absurd (hname.symm.trans h) (by decide)
  | walk h => exact absurd (hname.symm.trans h) (by decide)
  | button h => exact absurd (hname.symm.trans h) (by decide)
  | @macro' mc _ hmc =>
    have hkey := hmc.key
    rw [getD_split (by decide), hk.2] at hkey
    cases hkey
    exact mem_map_of_mem (hg.macros.subset (mem_append_right _ (mem_singleton_self _)))

end Growth

/-! ### Characters that only names and comments have -/

section Markers
variable {R : Type} {F : Floats R} {w line : List UInt8} {m : Keymap R}

/-- A NUL, the sign of a comment, or a letter that is in every name and in nothing else. -/
def isMarker (c : UInt8) : Bool := c = 0 ∨ c ∈ lit "#suwm"

def Clean (w : List UInt8) : Prop := ∀ c ∈ w, isMarker c = false

/-- What the character tests say of one another. -/
theorem char_facts (c : UInt8) :
    (isSpace c = true ∨ numeralChar c = true ∨ isDigit c = true ∨ blank c = true ∨ c ∈ lit "+-@,/|=" →
      isMarker c = false) ∧
    ((0x41 ≤ c ∧ c ≤ 0x5a) ∨ (0x30 ≤ c ∧ c ≤ 0x39) → isMarker c = false) ∧ (blank c = true → isSpace c = true) ∧
    (isDigit c = true → isSpace c = false ∧ numeralChar c = true) := by
  revert c
  exact forall_byte (by decide +kernel)

theorem marker_facts {c : UInt8} (h : isSpace c = true ∨ numeralChar c = true ∨ isDigit c = true ∨ blank c = true ∨
    c ∈ lit "+-@,/|=") : isMarker c = false := (char_facts c).1 h

theorem number_eq_some {v : R} (h : number F w = some v) : w ≠ [] ∧ F.strtof w = (v, []) ∧ F.finite v = true := by
  dsimp only [number] at h
  split at h
  · next hr =>
    cases h
    refine ⟨?_, Prod.ext rfl hr.2.1, hr.2.2⟩
    rintro rfl
    exact hr.1 (congrArg List.length hr.2.1)
  · cases h

theorem number_clean (hF : F.Lawful) {v : R} (h : number F w = some v) : Clean w := by
  obtain ⟨hne, hread, hfinite⟩ := number_eq_some h
  intro c hc
  exact marker_facts ((hF.chars hne hread hfinite c hc).elim .inl fun h => .inr (.inl h))

variable {lo hi n : Int} {p : UInt8 → Bool} {args : List (List UInt8)}

theorem whole_eq_some (h : whole w lo hi = some n) : (∀ c ∈ digitsOf w, isDigit c = true) ∧ lo ≤ n ∧ n ≤ hi := by
  obtain ⟨hw, ⟨⟩⟩ := Option.ite_none_right_eq_some.1 h
  exact ⟨List.all_eq_true.1 hw.2.1, hw.2.2⟩

theorem whole_clean (h : whole w lo hi = some n) : Clean w := by
  have hdigits := (whole_eq_some h).1
  have hsplit := takeWhile_append_dropWhile (p := isSpace) (l := w)
  intro c hc
  rw [← hsplit] at hc
  rcases List.mem_append.1 hc with hc | hc
  · exact marker_facts (.inl (mem_takeWhile_imp hc))
  · rw [digitsOf] at hdigits
    generalize w.dropWhile isSpace = t at hc hdigits
    split at hdigits
    · next hsign =>
      cases t with
      | nil => cases hc
      | cons d t =>
        rcases List.mem_cons.1 hc with rfl | hc
        · rcases hsign with hsign | hsign
          · cases hsign
            decide
          · cases hsign
            decide
        · exact marker_facts (.inr (.inr (.inl (hdigits c hc))))
    · exact marker_facts (.inr (.inr (.inl (hdigits c hc))))

theorem keyCode_clean {code : Nat} (h : keyCode w = some code) : Clean w := by
  unfold keyCode at h
  iterate 3
    split at h
    · next hw => subst hw; exact forall_of_all (by decide)
  split at h
  · split at h
    · next hc =>
      intro d hd
      obtain rfl := List.mem_singleton.1 hd
      exact (char_facts d).2.1 hc
    · cases h
  · cases h

theorem Clean.append {w' : List UInt8} (h : Clean w) (h' : Clean w') : Clean (w ++ w') := fun c hc =>
  (List.mem_append.1 hc).elim (h c) (h' c)

theorem Clean.cons {c : UInt8} (hc : isMarker c = false) (h : Clean w) : Clean (c :: w) := List.forall_mem_cons.2 ⟨hc, h⟩

theorem clean_of_tokens (hp : ∀ c, p c = true → isMarker c = false) (h : ∀ t ∈ tokens p w, Clean t) : Clean w := by
  intro c hc
  by_contra hm
  have hsep : p c = false := Bool.eq_false_iff.2 fun hpc => hm (hp c hpc)
  have hmem : c ∈ (tokens p w).flatten := by
    rw [flatten_tokens]
    exact List.mem_filter.2 ⟨hc, by rw [hsep]; rfl⟩
  obtain ⟨t, ht, hct⟩ := List.mem_flatten.1 hmem
  exact hm (h t ht c hct)

theorem PointText.clean (hF : F.Lawful) {p : R × R} (h : PointText F w p) : Clean w := by
  obtain ⟨x, y, rfl, -, hx, hy⟩ := h
  exact (number_clean hF hx).append (.cons (by decide) (number_clean hF hy))

theorem forall_of_forall₂ {α β : Type} {r : α → β → Prop} {q : α → Prop} (hq : ∀ a b, r a b → q a) :
    ∀ {as : List α} {bs : List β}, Forall₂ r as bs → ∀ a ∈ as, q a
  | _, _, .nil, a, ha => nomatch ha
  | _, _, .cons h hs, a, ha => by
    rcases List.mem_cons.1 ha with rfl | ha
    · exact hq _ _ h
    · exact forall_of_forall₂ hq hs a ha

theorem StepText.clean (hF : F.Lawful) {st : Step R} (h : StepText F w st) : Clean w := by
  rcases h with ⟨t, rfl, ht, -⟩ | ⟨points, hold, rfl, -, hpoints, hhold⟩
  · exact .cons (by decide) (whole_clean ht)
  · have hclean : Clean points := by
      refine clean_of_tokens (p := fun c => decide (c = 0x7c)) (fun c hc => ?_)
        (forall_of_forall₂ (fun _ _ h => PointText.clean hF h) hpoints)
      obtain rfl := of_decide_eq_true hc
      decide
    rcases hhold with ⟨rfl, -⟩ | ⟨t, rfl, ht⟩
    · exact hclean.append nofun
    · exact hclean.append (.cons (by decide) (whole_clean ht))

theorem isRepeat_split (h : isRepeat w = true) : w = lit "repeat=" ++ w.drop 7 := by
  obtain ⟨t, rfl⟩ := of_decide_eq_true h
  rfl

theorem isHold_split (h : isHold w = true) : w = lit "hold=" ++ w.drop 5 := by
  obtain ⟨t, rfl⟩ := of_decide_eq_true h
  rfl

theorem ButtonWords.clean (hF : F.Lawful) {b : Button R} (h : ButtonWords F b args) :
    ∀ w ∈ args, Clean w := by
  intro w hw
  by_cases hr : isRepeat w = true
  · rw [isRepeat_split hr]
    exact Clean.append (forall_of_all (by decide)) (whole_clean (h.repeats w hw hr))
  by_cases hh : isHold w = true
  · rw [isHold_split hh]
    exact Clean.append (forall_of_all (by decide)) (whole_clean (h.holds w hw hh))
  refine forall_of_forall₂ (fun _ _ h => number_clean hF h) h.points w (List.mem_filter.2 ⟨hw, ?_⟩)
  rw [isOption, Bool.eq_false_iff.2 hr, Bool.eq_false_iff.2 hh]
  rfl

theorem MacroWords.clean (hF : F.Lawful) {mc : Macro R} (h : MacroWords F mc args) :
    ∀ w ∈ args, Clean w := by
  intro w hw
  by_cases hl : w = lit "loop"
  · subst hl
    exact forall_of_all (by decide)
  · exact forall_of_forall₂ (fun _ _ h => StepText.clean hF h) h.steps w (List.mem_filter.2 ⟨hw, decide_eq_true hl⟩)

def markers (line : List UInt8) : List UInt8 := line.filter isMarker

theorem markers_append (a b : List UInt8) : markers (a ++ b) = markers a ++ markers b := filter_append _ _

theorem markers_clean (h : Clean w) : markers w = [] :=
    List.filter_eq_nil_iff.2 fun c hc => by rw [h c hc]; exact Bool.false_ne_true

theorem markers_filter (hp : ∀ c, p c = true → isMarker c = false) (line : List UInt8) :
    markers (line.filter fun c => !p c) = markers line := by
  rw [markers, markers, filter_filter]
  refine filter_congr fun c _ => ?_
  cases hc : p c with
  | true => rw [hp c hc]; rfl
  | false => rw [Bool.not_false, Bool.and_true]

theorem markers_flatten {ws : List (List UInt8)} (h : ∀ w ∈ ws, Clean w) : markers ws.flatten = [] := by
  refine markers_clean fun c hc => ?_
  obtain ⟨w, hw, hcw⟩ := List.mem_flatten.1 hc
  exact h w hw c hcw

theorem LineOf.markers_eq {α : Type} {name : String} {l : List α} {key : α → Nat} {words : α → List (List UInt8) → Prop}
    (h : LineOf name l key words line) (hclean : ∀ b args, words b args → ∀ w ∈ args, Clean w) :
    markers line = markers (lit name) := by
  obtain ⟨⟨-, w, ws, hl, hw⟩, k, args, htail, b, -, hk, hargs⟩ := h
  rw [hl, tail_cons] at htail
  have hink : markers (ink w) = markers w := markers_filter (fun c hc => marker_facts (.inl hc)) w
  have hblank : markers (line.filter fun c => !blank c) = markers line :=
    markers_filter (fun c hc => marker_facts (.inr (.inr (.inr (.inl hc))))) line
  rw [← hblank, ← flatten_tokens, hl, htail, flatten_cons, markers_append,
    markers_flatten (List.forall_mem_cons.2 ⟨keyCode_clean hk, hclean b args hargs⟩), append_nil, ← hink, hw]

theorem Represented.markers (hF : F.Lawful) (h : Represented F m line) : ∃ c ≠ 0, markers line = [c] := by
  have hink : Input.markers (ink line) = Input.markers line := markers_filter (fun c hc => marker_facts (.inl hc)) line
  unfold Represented at h
  split at h
  · obtain ⟨x, y, radius, hl, hx, hy, hr⟩ := h
    have hclean := markers_clean ((number_clean hF hx).append ((number_clean hF hy).append (number_clean hF hr)))
    rw [← hink, hl, markers_append, hclean]
    exact ⟨_, by decide, rfl⟩
  split at h
  · obtain ⟨key, radius, hl, hk, hr⟩ := h
    have hclean := markers_clean ((keyCode_clean hk).append (number_clean hF hr))
    rw [← hink, hl, markers_append, hclean]
    exact ⟨_, by decide, rfl⟩
  split at h
  · exact ⟨_, by decide, (LineOf.markers_eq h fun _ _ hargs => hargs.clean hF).trans rfl⟩
  split at h
  · exact ⟨_, by decide, (LineOf.markers_eq h fun _ _ hargs => hargs.clean hF).trans rfl⟩
  · exact h.elim

end Markers

end Lunaria.Input
