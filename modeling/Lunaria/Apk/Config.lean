import Mathlib.Data.List.DropRight
import Lunaria.Apk.Manifest

/-! The configuration file of `apk.c`: the reader that sets the environment, the reader of one setting, and the writer. Each
    reads lines with `fgets` into a buffer of 65536 bytes and takes what is in it for a string. -/

namespace Lunaria.Apk
open CText

/-! ### Lines -/

/-- There is no end of a line in the buffer, and the file does not end there. -/
def tooLong (line : List UInt8) : Bool := newline ∉ cstr line ∧ ¬ (newline ∉ line ∧ line.length < apkMeta - 1)

/-- `trim`. -/
def trim (s : List UInt8) : List UInt8 := (s.dropWhile isSpace).rdropWhile isSpace

/-- The text before the first equals sign, and the text after it. -/
def splitEq (s : List UInt8) : Option (List UInt8 × List UInt8) :=
  if ch '=' ∈ s then some (s.takeWhile fun c => c ≠ ch '=', (s.dropWhile fun c => c ≠ ch '=').tail) else none

/-- Two characters or more, with the same quotation mark at both ends: 34 is the double one and 39 the single one. -/
def quoted (s : List UInt8) : Bool :=
  2 ≤ s.length ∧ ((s.head? = some 34 ∧ s.getLast? = some 34) ∨ (s.head? = some 39 ∧ s.getLast? = some 39))

def unquote (s : List UInt8) : List UInt8 := if quoted s then s.tail.dropLast else s

/-! ### `config_load` -/

abbrev Environment := List UInt8 → Option (List UInt8)

/-- `env_default`. -/
def envDefault (env : Environment) (key value : List UInt8) : Environment :=
  if (env key).any (· ≠ []) then env else Function.update env key (some value)

def validKey (key : List UInt8) : Bool := bytes "LUNARIA_" <+: key ∧ key.all fun c => isAlnum c ∨ c = ch '_'

/-- The variables of `config_load`. -/
structure Loading where
  env : Environment
  inMatch : Bool
  inSection : Bool

/-- The first character is an opening bracket and the last a closing one. -/
def isHeader (p : List UInt8) : Bool := p.head? = some (ch '[') ∧ 2 ≤ p.length ∧ p.getLast? = some (ch ']')

def configLine (package : Option (List UInt8)) (line : List UInt8) (s : Loading) : Loading :=
  let p := trim (cstr line)
  if p = [] ∨ p.head? = some (ch '#') then s
  else if isHeader p then
    { s with inSection := true, inMatch := package.any fun name => trim p.tail.dropLast = name }
  else if s.inMatch = false ∨ (package = none ∧ s.inSection) then s
  else
    match splitEq p with
    | none => s
    | some (k, v) =>
      let key := trim k
      let value := trim v
      if validKey key then { s with env := envDefault s.env key (unquote value) } else s

/-- The loop, and whether all lines fit. -/
def configLoop (package : Option (List UInt8)) : List (List UInt8) → Loading → Loading × Bool
  | [], s => (s, true)
  | line :: lines, s => if tooLong line then (s, false) else configLoop package lines (configLine package line s)

/-- `config_load`: the environment, and whether it returns 0. A file that is not there is no error. -/
def configLoad (file : Option (List UInt8)) (package : Option (List UInt8)) (env : Environment) : Environment × Bool :=
  match file with
  | none => (env, true)
  | some data =>
    let r := configLoop package (readLines apkMeta data) ⟨env, package = none, false⟩
    (r.1.env, r.2)

/-! ### `conf_get` -/

/-- `conf_line_key`: the key and the value. -/
def confLineKey (line : List UInt8) : Option (List UInt8 × List UInt8) :=
  let p := trim line
  if p.head? = some (ch '#') ∨ p.head? = some (ch '[') ∨ p = [] then none
  else (splitEq p).map fun (k, v) => (trim k, trim v)

def lineValue (key line : List UInt8) : Option (List UInt8) :=
  (confLineKey line).bind fun (k, v) => if k = key then some (unquote v) else none

def bracket (line : List UInt8) : Bool := (trim line).head? = some (ch '[')

def confGetLoop (key : List UInt8) : List (List UInt8) → Option (List UInt8)
  | [] => none
  | line :: lines =>
    if bracket (cstr line) then none
    else
      match lineValue key (cstr line) with
      | some value => some value
      | none => confGetLoop key lines

/-- `conf_get`, into a buffer of some size. -/
def confGet (file : Option (List UInt8)) (key : List UInt8) (cap : Nat) : List UInt8 :=
  match file.bind fun data => confGetLoop key (readLines apkMeta data) with
  | some value => if value.length < cap then value else []
  | none => []

/-! ### `conf_set` -/

def stripEnd (line : List UInt8) : List UInt8 := line.rdropWhile fun c => c = ch '\n' ∨ c = ch '\r'

/-- The loop that looks for the first bracket and for the last line of the key before it. -/
def findLoop (key : List UInt8) : List (List UInt8) → Nat → Nat → Nat × Nat
  | [], i, found => (i, found)
  | line :: lines, i, found =>
    if bracket line then (i, found)
    else findLoop key lines (i + 1) (if (confLineKey line).any (fun p => p.1 = key) then i else found)

/-- The text of the new line, in its buffer. -/
def settingText (key value : List UInt8) : List UInt8 := (key ++ [ch '='] ++ value).take (apkMeta - 1)

def setLines (key value : List UInt8) (lines : List (List UInt8)) : List (List UInt8) :=
  let (section', found) := findLoop key lines 0 lines.length
  if found < lines.length then
    if value ≠ [] then lines.take found ++ settingText key value :: lines.drop (found + 1)
    else lines.take found ++ lines.drop (found + 1)
  else if value ≠ [] then lines.take section' ++ settingText key value :: lines.drop section'
  else lines

/-- The lines that `conf_set` reads. -/
def confLines (file : Option (List UInt8)) : List (List UInt8) :=
  match file with
  | none => []
  | some data => (readLines apkMeta data).map fun line => stripEnd (cstr line)

/-- `conf_set`, where nothing fails: the new file. -/
def confSet (file : Option (List UInt8)) (key value : List UInt8) : List UInt8 :=
  (setLines key value (confLines file)).flatMap fun line => line ++ [newline]

/-! ### What is asked of the three -/

/-- A text whose lines fit the buffer, with their ends and the end of the string. -/
def FitsLines (file : List UInt8) : Prop := 0 ∉ file ∧ ∀ line ∈ file.splitOn newline, line.length + 1 < apkMeta

structure PlainValue (value : List UInt8) : Prop where
  text : 0 ∉ value
  line : ch '\n' ∉ value ∧ ch '\r' ∉ value
  trimmed : trim value = value
  unquoted : quoted value = false

/-- The setting is read back, and nothing else changes. -/
structure ReadsBack (file : Option (List UInt8)) (key value : List UInt8) (cap : Nat) : Prop where
  get : confGet (some (confSet file key value)) key cap = value
  load : ∀ env : Environment, env key = none →
    (configLoad (some (confSet file key value)) none env).1 key = if value = [] then none else some value
  others : ∀ k ≠ key, confGet (some (confSet file key value)) k cap = confGet file k cap
  packages : ∀ package env, configLoad (some (confSet file key value))
    (some package) env = configLoad file (some package) env

def keyValues (key : List UInt8) (lines : List (List UInt8)) : List (List UInt8) := lines.filterMap (lineValue key)

def common (lines : List (List UInt8)) : List (List UInt8) := lines.takeWhile fun line => !bracket line

/-- The lines from the first bracket up to the first header of a section. -/
def unheaded (lines : List (List UInt8)) : List (List UInt8) :=
  (lines.dropWhile fun line => !bracket line).takeWhile fun line => !isHeader (trim line)

/-- A value is read back if it fits and the key has one line at most, or the first of its lines has the value already; a
    setting is gone if it had one line at most and none behind a bracket that begins no section. -/
def Effective (file : Option (List UInt8)) (key value : List UInt8) (cap : Nat) : Prop :=
  if value = [] then
    (keyValues key (common (confLines file))).length ≤ 1 ∧ keyValues key (unheaded (confLines file)) = []
  else
    value.length < cap ∧ key.length + value.length + 2 < apkMeta ∧
      ((keyValues key (common (confLines file))).length ≤ 1 ∨ (keyValues key (common (confLines file))).head? = some value)

instance (file : Option (List UInt8)) (key value : List UInt8) (cap : Nat) : Decidable (Effective file key value cap) :=
  inferInstanceAs (Decidable (ite _ _ _))

end Lunaria.Apk
