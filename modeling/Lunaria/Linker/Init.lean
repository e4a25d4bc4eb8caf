import Lunaria.Linker.Scope

/-! `ln64_call_init`: the constructors of an image behind those of what it depends on. The calls are a stack of frames, so
    that a constructor may call it again. What a constructor does is not part of the program: it makes such calls, one after
    another, and reports success or failure. -/

namespace Lunaria.Linker
open BreadthFirst Function

/-- An entry: `DT_INIT`, or a place in `DT_INIT_ARRAY`. -/
inductive Entry where
  | init
  | slot (offset : Nat)
  deriving DecidableEq

/-- Where a call of `ln64_call_init` is: at a dependency or waiting for it, before `DT_INIT` or in it, before the array, at
    an offset of it or in the constructor there. -/
inductive Place where
  | deps (i : Nat)
  | dep (i : Nat)
  | init
  | initRunning
  | table
  | array (offset : Nat)
  | arrayRunning (offset : Nat)
  deriving DecidableEq

structure Frame where
  image : Nat
  place : Place
  deriving DecidableEq

/-- What is written down: calls of `ln64_call_init` and their results, constructors and theirs. -/
inductive Event where
  | called (m : Nat)
  | returned (m : Nat) (ok : Bool)
  | invoked (m : Nat) (e : Entry)
  | finished (m : Nat) (e : Entry) (ok : Bool)
  deriving DecidableEq

/-- The flags `init_called`, the calls that are going on, the result that one of them has just returned, and the events,
    the last first. -/
structure Calls where
  flags : Nat → Bool
  stack : List Frame
  result : Option Bool
  log : List Event

def Calls.start : Calls := ⟨fun _ => false, [], none, []⟩

/-- The next that happens: `ln64_call_init` is called from outside or by the constructor that runs, that constructor
    returns, or the program goes on. -/
inductive Action where
  | call (m : Nat)
  | finish (ok : Bool)
  | go

/-- The constructor that runs in a frame. -/
def Place.running : Place → Option Entry
  | .initRunning => some .init
  | .arrayRunning offset => some (.slot offset)
  | _ => none

/-- Nothing is going on, or a constructor. -/
def idle : List Frame → Bool
  | [] => true
  | f :: _ => f.place.running.isSome

/-- What an element of the array is: not there, nothing to call, or a constructor. -/
inductive Slot where
  | fail
  | skip
  | call
  deriving DecidableEq

def stride (m : Module) : Nat := if m.elf32 then 4 else 8

def slotAt (H : Host) (m : Module) (offset : Nat) : Slot :=
  if 0xffffffff - m.initArray.toNat < offset then .fail
  else match H.at? (m.initArray + .ofNat offset) (stride m) with
    | none => .fail
    | some p =>
      let fn := if m.elf32 then (H.u32 p).toUInt64 else H.u64 p
      if fn = 0 ∨ fn = noFunction m.elf32 then .skip else .call

section Step
variable (H : Host) (r : Registry)

/-- The head of `ln64_call_init`. -/
def enter (s : Calls) (m : Nat) : Calls :=
  if s.flags m then { s with result := some true, log := .returned m true :: .called m :: s.log }
  else { s with flags := update s.flags m true, stack := ⟨m, .deps 0⟩ :: s.stack, log := .called m :: s.log }

def leave (s : Calls) (m : Nat) (below : List Frame) (ok : Bool) : Calls :=
  { s with stack := below, result := some ok, log := .returned m ok :: s.log }

/-- Behind a constructor. -/
def Place.after (m : Module) : Place → Place
  | .initRunning => .table
  | .arrayRunning offset => .array (offset + stride m)
  | p => p

/-- The program goes on in the upper frame, with nothing returned. -/
def advance (s : Calls) (m : Nat) (place : Place) (below : List Frame) : Option Calls :=
  let image := r.module m
  match place with
  | .deps i =>
    match (r.deps m)[i]? with
    | some d => some (enter { s with stack := ⟨m, .dep i⟩ :: below } d)
    | none => some { s with stack := ⟨m, .init⟩ :: below }
  | .init =>
    if image.initFn ≠ 0 then some { s with stack := ⟨m, .initRunning⟩ :: below, log := .invoked m .init :: s.log }
    else some { s with stack := ⟨m, .table⟩ :: below }
  | .table =>
    if image.initArray = 0 then some (leave s m below true) else some { s with stack := ⟨m, .array 0⟩ :: below }
  | .array offset =>
    if offset + stride image ≤ image.initArraySize.toNat then
      match slotAt H image offset with
      | .fail => some (leave s m below false)
      | .skip => some { s with stack := ⟨m, .array (offset + stride image)⟩ :: below }
      | .call => some { s with
          stack := ⟨m, .arrayRunning offset⟩ :: below
          log := .invoked m (.slot offset) :: s.log }
    else some (leave s m below true)
  | _ => none

def step (s : Calls) : Action → Option Calls
  | .call m => if s.result = none ∧ idle s.stack then some (enter s m) else none
  | .finish ok =>
    match s.result, s.stack with
    | none, ⟨m, place⟩ :: below =>
      match place.running with
      | some e =>
        let s' := { s with log := .finished m e ok :: s.log }
        if ok then some { s' with stack := ⟨m, place.after (r.module m)⟩ :: below } else some (leave s' m below false)
      | none => none
    | _, _ => none
  | .go =>
    match s.result, s.stack with
    | some ok, ⟨m, .dep i⟩ :: below =>
      if ok then some { s with stack := ⟨m, .deps (i + 1)⟩ :: below, result := none }
      else some (leave s m below false)
    | some _, stack => if idle stack then some { s with result := none } else none
    | none, ⟨m, place⟩ :: below => advance H r s m place below
    | none, [] => none

/-- The states that runs get to, whose steps all meet a condition. -/
inductive Runs (ok : Calls → Action → Prop) : Calls → Prop
  | start : Runs ok .start
  | step {s s' : Calls} {a : Action} : Runs ok s → ok s a → step H r s a = some s' → Runs ok s'

/-- Steps that are checked one after another. -/
def steps (check : Calls → Action → Bool) (s : Calls) : List Action → Option Calls
  | [] => some s
  | a :: as => if check s a then (step H r s a).bind fun s' => steps check s' as else none

theorem Runs.steps {ok : Calls → Action → Prop} {check : Calls → Action → Bool} (hok : ∀ s a, check s a = true → ok s a) :
    ∀ {as : List Action} {s s' : Calls}, Runs H r ok s → Linker.steps H r check s as = some s' → Runs H r ok s'
  | [], s, s', hs, h => by
    cases h
    exact hs
  | a :: as, s, s', hs, h => by
    obtain ⟨hcheck, h⟩ := Option.ite_none_right_eq_some.1 h
    obtain ⟨t, ht, h⟩ := Option.bind_eq_some_iff.1 h
    exact Runs.steps hok (hs.step (hok s a hcheck) ht) h

/-- What a step can do. -/
inductive Move : Calls → Action → Calls → Prop
  | callAgain {fl st lg m} : idle st = true → fl m = true →
      Move ⟨fl, st, none, lg⟩ (.call m) ⟨fl, st, some true, .returned m true :: .called m :: lg⟩
  | call {fl st lg m} : idle st = true → fl m = false →
      Move ⟨fl, st, none, lg⟩ (.call m) ⟨update fl m true, ⟨m, .deps 0⟩ :: st, none, .called m :: lg⟩
  | depAgain {fl st lg m i d} : (r.deps m)[i]? = some d → fl d = true →
      Move ⟨fl, ⟨m, .deps i⟩ :: st, none, lg⟩ .go
        ⟨fl, ⟨m, .dep i⟩ :: st, some true, .returned d true :: .called d :: lg⟩
  | dep {fl st lg m i d} : (r.deps m)[i]? = some d → fl d = false →
      Move ⟨fl, ⟨m, .deps i⟩ :: st, none, lg⟩ .go
        ⟨update fl d true, ⟨d, .deps 0⟩ :: ⟨m, .dep i⟩ :: st, none, .called d :: lg⟩
  | depsOver {fl st lg m i} : (r.deps m)[i]? = none →
      Move ⟨fl, ⟨m, .deps i⟩ :: st, none, lg⟩ .go ⟨fl, ⟨m, .init⟩ :: st, none, lg⟩
  | depTrue {fl st lg m i} :
      Move ⟨fl, ⟨m, .dep i⟩ :: st, some true, lg⟩ .go ⟨fl, ⟨m, .deps (i + 1)⟩ :: st, none, lg⟩
  | depFalse {fl st lg m i} :
      Move ⟨fl, ⟨m, .dep i⟩ :: st, some false, lg⟩ .go ⟨fl, st, some false, .returned m false :: lg⟩
  | received {fl st lg b} : idle st = true → Move ⟨fl, st, some b, lg⟩ .go ⟨fl, st, none, lg⟩
  | invokeInit {fl st lg m} : (r.module m).initFn ≠ 0 →
      Move ⟨fl, ⟨m, .init⟩ :: st, none, lg⟩ .go ⟨fl, ⟨m, .initRunning⟩ :: st, none, .invoked m .init :: lg⟩
  | noInit {fl st lg m} : (r.module m).initFn = 0 →
      Move ⟨fl, ⟨m, .init⟩ :: st, none, lg⟩ .go ⟨fl, ⟨m, .table⟩ :: st, none, lg⟩
  | noArray {fl st lg m} : (r.module m).initArray = 0 →
      Move ⟨fl, ⟨m, .table⟩ :: st, none, lg⟩ .go ⟨fl, st, some true, .returned m true :: lg⟩
  | array {fl st lg m} : (r.module m).initArray ≠ 0 →
      Move ⟨fl, ⟨m, .table⟩ :: st, none, lg⟩ .go ⟨fl, ⟨m, .array 0⟩ :: st, none, lg⟩
  | arrayOver {fl st lg m o} : ¬ o + stride (r.module m) ≤ (r.module m).initArraySize.toNat →
      Move ⟨fl, ⟨m, .array o⟩ :: st, none, lg⟩ .go ⟨fl, st, some true, .returned m true :: lg⟩
  | slotFail {fl st lg m o} : o + stride (r.module m) ≤ (r.module m).initArraySize.toNat →
      slotAt H (r.module m) o = .fail →
      Move ⟨fl, ⟨m, .array o⟩ :: st, none, lg⟩ .go ⟨fl, st, some false, .returned m false :: lg⟩
  | slotSkip {fl st lg m o} : o + stride (r.module m) ≤ (r.module m).initArraySize.toNat →
      slotAt H (r.module m) o = .skip →
      Move ⟨fl, ⟨m, .array o⟩ :: st, none, lg⟩ .go ⟨fl, ⟨m, .array (o + stride (r.module m))⟩ :: st, none, lg⟩
  | invokeSlot {fl st lg m o} : o + stride (r.module m) ≤ (r.module m).initArraySize.toNat →
      slotAt H (r.module m) o = .call →
      Move ⟨fl, ⟨m, .array o⟩ :: st, none, lg⟩ .go ⟨fl, ⟨m, .arrayRunning o⟩ :: st, none, .invoked m (.slot o) :: lg⟩
  | finishTrue {fl st lg m p e} : Place.running p = some e →
      Move ⟨fl, ⟨m, p⟩ :: st, none, lg⟩ (.finish true)
        ⟨fl, ⟨m, p.after (r.module m)⟩ :: st, none, .finished m e true :: lg⟩
  | finishFalse {fl st lg m p e} : Place.running p = some e →
      Move ⟨fl, ⟨m, p⟩ :: st, none, lg⟩ (.finish false)
        ⟨fl, st, some false, .returned m false :: .finished m e false :: lg⟩

variable {H r}

variable {m : Nat} {s s' : Calls}

theorem enter_again {s : Calls} (h : s.flags m = true) :
    enter s m = { s with result := some true, log := .returned m true :: .called m :: s.log } := if_pos h

theorem enter_new {s : Calls} (h : s.flags m = false) : enter s m =
    { s with flags := update s.flags m true, stack := ⟨m, .deps 0⟩ :: s.stack, log := .called m :: s.log } :=
  if_neg (by rw [h]; exact Bool.false_ne_true)

theorem step_call (h : step H r s (.call m) = some s') : Move H r s (.call m) s' := by
  rcases s with ⟨fl, st, res, lg⟩
  simp only [step] at h
  split at h
  · rename_i hidle
    obtain ⟨rfl, hidle⟩ := hidle
    cases h
    cases hm : fl m with
    | true =>
      rw [enter_again hm]
      exact .callAgain hidle hm
    | false =>
      rw [enter_new hm]
      exact .call hidle hm
  · cases h

theorem step_finish {ok : Bool} (h : step H r s (.finish ok) = some s') : Move H r s (.finish ok) s' := by
  rcases s with ⟨fl, _ | ⟨⟨m, p⟩, st⟩, _ | b, lg⟩ <;> simp only [step, reduceCtorEq] at h
  cases hp : p.running with
  | none =>
    rw [hp] at h
    cases h
  | some e =>
    rw [hp] at h
    cases ok with
    | true =>
      cases h
      exact .finishTrue hp
    | false =>
      cases h
      exact .finishFalse hp

theorem advance_move {fl : Nat → Bool} {st : List Frame} {lg : List Event} {p : Place} {s' : Calls}
    (h : advance H r ⟨fl, ⟨m, p⟩ :: st, none, lg⟩ m p st = some s') : Move H r ⟨fl, ⟨m, p⟩ :: st, none, lg⟩ .go s' := by
  cases p with
  | deps i =>
    simp only [advance] at h
    cases hd : (r.deps m)[i]? with
    | none =>
      rw [hd] at h
      cases h
      exact .depsOver hd
    | some d =>
      rw [hd] at h
      cases h
      cases hfl : fl d with
      | true =>
        rw [enter_again hfl]
        exact .depAgain hd hfl
      | false =>
        rw [enter_new hfl]
        exact .dep hd hfl
  | init =>
    simp only [advance] at h
    split at h
    · rename_i hfn
      cases h
      exact .invokeInit hfn
    · rename_i hfn
      cases h
      exact .noInit (not_not.1 hfn)
  | table =>
    simp only [advance] at h
    split at h
    · rename_i harr
      cases h
      exact .noArray harr
    · rename_i harr
      cases h
      exact .array harr
  | array o =>
    simp only [advance] at h
    split at h
    · rename_i hin
      cases hs : slotAt H (r.module m) o with
      | fail =>
        rw [hs] at h
        cases h
        exact .slotFail hin hs
      | skip =>
        rw [hs] at h
        cases h
        exact .slotSkip hin hs
      | call =>
        rw [hs] at h
        cases h
        exact .invokeSlot hin hs
    · rename_i hin
      cases h
      exact .arrayOver hin
  | dep i => cases h
  | initRunning => cases h
  | arrayRunning o => cases h

theorem step_go (h : step H r s .go = some s') : Move H r s .go s' := by
  rcases s with ⟨fl, st, _ | b, lg⟩
  · rcases st with _ | ⟨⟨m, p⟩, st⟩
    · cases h
    · exact advance_move h
  · rcases st with _ | ⟨⟨m, p⟩, st⟩
    · cases h
      exact .received rfl
    · cases p with
      | dep i =>
        cases b with
        | true =>
          cases h
          exact .depTrue
        | false =>
          cases h
          exact .depFalse
      | initRunning =>
        cases h
        exact .received rfl
      | arrayRunning o =>
        cases h
        exact .received rfl
      | deps i => cases h
      | init => cases h
      | table => cases h
      | array o => cases h

theorem step_move {a : Action} (h : step H r s a = some s') : Move H r s a s' := by
  cases a with
  | call m => exact step_call h
  | finish ok => exact step_finish h
  | go => exact step_go h

end Step

end Lunaria.Linker
