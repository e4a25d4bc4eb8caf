import Mathlib
import Lunaria.Lib.CText

/-! `luna_keymap_load`: the lines of a keymap, its keys and its contacts. What the C library does to floating-point
    numbers is left to it. -/

namespace Lunaria.Input
open CText

/-- `float`, with the readers of the C library: `strtof`, which gives the number and where it ends, and `%f` of `sscanf`. -/
structure Floats (R : Type) where
  strtof : List UInt8 → R × List UInt8
  scan : List UInt8 → Option (R × List UInt8)
  finite : R → Bool
  le : R → R → Bool
  lt : R → R → Bool
  zero : R
  half : R
  one : R

/-- The characters of finite numbers: digits, a point, signs and the marks of exponents and hexadecimal numerals. -/
def numeralChar (c : UInt8) : Bool :=
  (0x30 ≤ c ∧ c ≤ 0x39) ∨ (0x61 ≤ c ∧ c ≤ 0x66) ∨ (0x41 ≤ c ∧ c ≤ 0x46) ∨ c ∈ lit ".+-xXpP"

/-- What is documented: `%f` reads what `strtof` would, and a finite number that is read whole is written in these
    characters, with white space before it at most. -/
structure Floats.Lawful {R : Type} (F : Floats R) : Prop where
  scan : ∀ {s v r}, F.scan s = some (v, r) → ∃ t, s.dropWhile isSpace = t ++ r ∧ t ≠ [] ∧ (∀ c ∈ t, isSpace c = false) ∧
    F.strtof t = (v, [])
  chars : ∀ {t v}, t ≠ [] → F.strtof t = (v, []) → F.finite v = true → ∀ c ∈ t, isSpace c = true ∨ numeralChar c = true

/-! ### Words -/

/-- `LUNA_KEYMAP_BUTTONS`, `LUNA_KEY_POINTS`, `LUNA_KEYMAP_MACROS` and `LUNA_MACRO_STEPS`. -/
def keymapButtons : Nat := 8
def keyPoints : Nat := 4
def keymapMacros : Nat := 8
def macroSteps : Nat := 24

/-- `key_code`. -/
def keyCode (s : List UInt8) : Option Nat :=
  if s = lit "SPACE" then some 32
  else if s = lit "SHIFT" then some 340
  else if s = lit "CTRL" then some 341
  else
    match s with
    | [c] => if (0x41 ≤ c ∧ c ≤ 0x5a) ∨ (0x30 ≤ c ∧ c ≤ 0x39) then some c.toNat else none
    | _ => none

/-- The characters between tokens. -/
def blank (c : UInt8) : Bool := c ∈ lit " \t\r\n"

/-- `split`. -/
def split (line : List UInt8) (max : Nat) : List (List UInt8) := (tokens blank (cstr line)).take max

def isDigit (c : UInt8) : Bool := 0x30 ≤ c ∧ c ≤ 0x39

/-- The number of decimal digits. -/
def digitsValue (s : List UInt8) : Int := s.foldl (fun n c => n * 10 + (c.toNat - 0x30 : Nat)) 0

/-- What `strtol` takes for digits: all behind white space and a sign. -/
def digitsOf (s : List UInt8) : List UInt8 :=
  let t := s.dropWhile isSpace
  if t.head? = some 0x2d ∨ t.head? = some 0x2b then t.tail else t

/-- The number with its sign. -/
def signedValue (s : List UInt8) : Int :=
  if (s.dropWhile isSpace).head? = some 0x2d then -digitsValue (digitsOf s) else digitsValue (digitsOf s)

/-- `whole`: a number that `strtol` reads whole. -/
def whole (s : List UInt8) (lo hi : Int) : Option Int :=
  if digitsOf s ≠ [] ∧ (digitsOf s).all isDigit ∧ lo ≤ signedValue s ∧
    signedValue s ≤ hi then some (signedValue s) else none

section Parse
variable {R : Type} (F : Floats R)

/-- `unit`. -/
def unit (v : R) : Bool := F.finite v ∧ F.le F.zero v ∧ F.le v F.one

/-- `number`. -/
def number (s : List UInt8) : Option R :=
  let r := F.strtof s
  if r.2.length ≠ s.length ∧ r.2 = [] ∧ F.finite r.1 then some r.1 else none

def inRadius (v : R) : Bool := F.finite v ∧ ¬ F.le v F.zero ∧ ¬ F.lt F.half v

/-- `luna_key_binding`. -/
structure Button (R : Type) where
  key : Nat
  id : Nat
  repeatMs : Int
  holdMs : Int
  points : List (R × R)
  deriving DecidableEq

/-- `luna_macro_step`. -/
structure Step (R : Type) where
  holdMs : Int
  waitMs : Int
  points : List (R × R)
  deriving DecidableEq

/-- `luna_macro`. -/
structure Macro (R : Type) where
  key : Nat
  id : Nat
  loop : Bool
  steps : List (Step R)
  deriving DecidableEq

/-- `luna_keymap`: 0 stands for no walk key. -/
structure Keymap (R : Type) where
  enabled : Bool
  stickX : R
  stickY : R
  radius : R
  walkKey : Nat
  walkRadius : R
  buttons : List (Button R)
  macros : List (Macro R)
  deriving DecidableEq

def Keymap.empty : Keymap R := ⟨false, F.zero, F.zero, F.zero, 0, F.zero, [], []⟩

/-- `claim_ids`. -/
def claimIds (m : Keymap R) (n : Nat) : Option Nat :=
  let next := 2 + (m.buttons.map fun b => b.points.length).sum + (m.macros.map fun _ => keyPoints).sum
  if next + n ≤ 32 then some next else none

/-- The codes of `W`, `A`, `S` and `D`. -/
def directions : List Nat := [0x57, 0x41, 0x53, 0x44]

/-- `key_taken`. -/
def keyTaken (m : Keymap R) (code : Nat) : Bool :=
  code ∈ directions ∨ code ∈ m.buttons.map (·.key) ∨ code ∈ m.macros.map (·.key)

/-! ### Buttons -/

def isRepeat (w : List UInt8) : Bool := lit "repeat=" <+: w

def isHold (w : List UInt8) : Bool := lit "hold=" <+: w

def repeatValue (w : List UInt8) : Option Int := whole (w.drop 7) 10 60000

def holdValue (w : List UInt8) : Option Int := whole (w.drop 5) 1 60000

/-- The variables of `parse_button`. -/
structure Args (R : Type) where
  values : List R
  repeatMs : Int
  holdMs : Int

def buttonWord (a : Args R) (w : List UInt8) : Option (Args R) :=
  if isRepeat w then (repeatValue w).map fun n => { a with repeatMs := n }
  else if isHold w then (holdValue w).map fun n => { a with holdMs := n }
  else if 2 * keyPoints ≤ a.values.length then none
  else (number F w).bind fun v => if unit F v then some { a with values := a.values ++ [v] } else none

def pairs : List R → List (R × R)
  | x :: y :: vs => (x, y) :: pairs vs
  | _ => []

/-- The time a tap lasts. -/
def holdTime (repeatMs holdMs : Int) : Int :=
  if holdMs = 0 then (if repeatMs ≠ 0 ∧ repeatMs / 2 < 30 then repeatMs / 2 else 30) else holdMs

/-- `parse_button`. -/
def parseButton (m : Keymap R) (line : List UInt8) : Option (Keymap R) := do
  let t := split line 16
  guard (4 ≤ t.length)
  let code ← keyCode (t.getD 1 [])
  guard (keyTaken m code = false)
  let a ← (t.drop 2).foldlM (buttonWord F) ⟨[], 0, 0⟩
  guard (2 ≤ a.values.length ∧ a.values.length % 2 = 0)
  let hold := holdTime a.repeatMs a.holdMs
  guard (a.repeatMs = 0 ∨ hold < a.repeatMs)
  let id ← claimIds m (a.values.length / 2)
  return { m with buttons := m.buttons ++ [⟨code, id, a.repeatMs, hold, pairs a.values⟩] }

/-! ### Macros -/

/-- The text up to a character, and the text after it. -/
def cut (c : UInt8) (s : List UInt8) : List UInt8 × List UInt8 := (s.takeWhile (· ≠ c), (s.dropWhile (· ≠ c)).tail)

/-- A point of a step, behind those before it. -/
def stepPoint (points : List (R × R)) (pt : List UInt8) : Option (List (R × R)) := do
  guard (0x2c ∈ pt ∧ points.length ≠ keyPoints)
  let x ← number F (cut 0x2c pt).1
  let y ← number F (cut 0x2c pt).2
  guard (unit F x ∧ unit F y)
  return points ++ [(x, y)]

/-- A step: a wait, or a tap with the points that the bars separate. -/
def parseStep (w : List UInt8) : Option (Step R) :=
  if w.head? = some 0x40 then (whole w.tail 1 600000).map fun n => ⟨0, n, []⟩
  else do
    let hold ← (if 0x2f ∈ w then whole (cut 0x2f w).2 1 60000 else some 30)
    let points ← (tokens (· = 0x7c) (cut 0x2f w).1).foldlM (stepPoint F) []
    guard (points ≠ [])
    return ⟨hold, 0, points⟩

def macroWord (mc : Macro R) (w : List UInt8) : Option (Macro R) :=
  if w = lit "loop" then some { mc with loop := true }
  else if mc.steps.length = macroSteps then none
  else (parseStep F w).map fun st => { mc with steps := mc.steps ++ [st] }

/-- `parse_macro`. -/
def parseMacro (m : Keymap R) (line : List UInt8) : Option (Keymap R) := do
  let t := split line (2 + macroSteps + 1)
  guard (3 ≤ t.length)
  let code ← keyCode (t.getD 1 [])
  guard (keyTaken m code = false)
  let id ← claimIds m keyPoints
  let mc ← (t.drop 2).foldlM (macroWord F) ⟨code, id, false, []⟩
  return { m with macros := m.macros ++ [mc] }

/-! ### The file -/

/-- `sscanf` with ` %*s %f %f %f %c`, where it returns 3. -/
def scanStick (s : List UInt8) : Option (R × R × R) := do
  let (x, s) ← F.scan (skipWord s)
  let (y, s) ← F.scan s
  let (radius, s) ← F.scan s
  guard (s.all isSpace)
  return (x, y, radius)

/-- `sscanf` with ` %*s %31s %f %c`, where it returns 2. -/
def scanWalk (s : List UInt8) : Option (List UInt8 × R) := do
  let s := skipWord s
  let key := (firstWord s).take 31
  guard (key ≠ [])
  let (radius, s) ← F.scan ((s.dropWhile isSpace).drop key.length)
  guard (s.all isSpace)
  return (key, radius)

/-- The variables of the loop: the keymap, and whether there was a stick. -/
structure Loading (R : Type) where
  next : Keymap R
  stick : Bool

def lineName (line : List UInt8) : List UInt8 := (firstWord (cstr line)).take 31

def loadLine (s : Loading R) (line : List UInt8) : Option (Loading R) :=
  let name := lineName line
  if name = [] ∨ name.head? = some 0x23 then some s
  else if name = lit "stick" then do
    guard (s.stick = false)
    let (x, y, radius) ← scanStick F (cstr line)
    guard (unit F x ∧ unit F y ∧ inRadius F radius)
    return ⟨{ s.next with stickX := x, stickY := y, radius := radius }, true⟩
  else if name = lit "walk" then do
    guard (s.next.walkKey = 0)
    let (key, radius) ← scanWalk F (cstr line)
    let code ← keyCode key
    guard (inRadius F radius ∧ code ∉ directions)
    return { s with next := { s.next with walkKey := code, walkRadius := radius } }
  else if name = lit "button" then do
    guard (s.next.buttons.length ≠ keymapButtons)
    let next ← parseButton F s.next line
    return { s with next := next }
  else if name = lit "macro" then do
    guard (s.next.macros.length ≠ keymapMacros)
    let next ← parseMacro F s.next line
    return { s with next := next }
  else none

def lineSize : Nat := 256

def loadText (data : List UInt8) : Option (Keymap R) := do
  let s ← (readLines lineSize data).foldlM (loadLine F) ⟨.empty F, false⟩
  guard (s.stick = true)
  guard (s.next.walkKey = 0 ∨ (F.le s.next.radius s.next.walkRadius = false ∧ s.next.walkKey ∉ s.next.buttons.map (·.key)))
  return { s.next with enabled := true }

/-- `luna_keymap_load`: whether it returns 1, and the keymap. The file is what `fopen` finds under a path, if there is one. -/
def keymapLoad (m : Keymap R) (path : Option (List UInt8)) (open' : List UInt8 → Option (List UInt8)) : Bool × Keymap R :=
  match path with
  | none => (true, .empty F)
  | some path =>
    if path = [] ∨ path = lit "off" then (true, .empty F)
    else
      match (open' path).bind (loadText F) with
      | some next => (true, next)
      | none => (false, m)

end Parse

end Lunaria.Input
