import Lunaria.Apk.Axml
import Lunaria.Apk.Install

/-! The manifest parser of `apk.c` for binary XML. The buffers of a fixed size are `Buf`: a write that leaves no room for
    the end of the string is a fault. -/

namespace Lunaria.Apk
open Checked CText

def apkMeta : Nat := 65536

instance : NeZero apkMeta := ⟨by decide⟩

/-! ### Text -/

/-- `append`. -/
def append {cap : Nat} (out : Buf cap) (value separator : List UInt8) : Checked (Buf cap) :=
  let s := if out.text = [] then [] else separator
  if cap ≤ out.text.length + s.length + value.length then .fail else Buf.write (out.text ++ s ++ value)

/-- `copy_text`. -/
def copyText {cap : Nat} (value : List UInt8) : Checked (Buf cap) := if cap ≤ value.length then .fail else Buf.write value

/-- `snprintf` where a text that is cut off is an error. -/
def format {cap : Nat} [NeZero cap] (text : List UInt8) : Checked (Buf cap) :=
  let out : Buf cap := Buf.snprintf text
  if cap ≤ text.length then .fail else .ok out

/-- `class_name`. -/
def className {cap : Nat} [NeZero cap] (pkg name : List UInt8) : Checked (Buf cap) :=
  if name = [] then .ok Buf.empty
  else
    format ((if name.head? = some (ch '.') ∨ ch '.' ∉ name then pkg else []) ++
      (if name.head? ≠ some (ch '.') ∧ ch '.' ∉ name then [ch '.'] else []) ++ name)

/-- `%u`. -/
def decimalText (n : Nat) : List UInt8 := (Nat.toDigits 10 n).map ch

/-- `%d`. -/
def intText (i : Int) : List UInt8 := if i < 0 then ch '-' :: decimalText (-i).toNat else decimalText i.toNat

def flag (b : Bool) : Int := if b then 1 else 0

/-! ### `strtol` -/

def digitValue (c : UInt8) : Nat :=
  if ch '0' ≤ c ∧ c ≤ ch '9' then (c - ch '0').toNat
  else if ch 'a' ≤ toLower c ∧ toLower c ≤ ch 'z' then (toLower c - ch 'a').toNat + 10
  else 36

/-- The digits at the start of a text as a number, with the one in front of them. -/
def digits (base : Nat) : Nat → List UInt8 → Nat
  | value, [] => value
  | value, c :: s => if digitValue c < base then digits base (value * base + digitValue c) s else value

/-- The base of a number, where it is not given, and the digits. -/
def numeralBase (base : Nat) (s : List UInt8) : Nat × List UInt8 :=
  match s with
  | c :: x :: s' =>
    if c = ch '0' ∧ toLower x = ch 'x' ∧ (base = 0 ∨ base = 16) then (16, s')
    else (if base ≠ 0 then base else if c = ch '0' then 8 else 10, s)
  | _ => (if base = 0 then 10 else base, s)

/-- `strtol`, whose result is a number of 64 bits. -/
def strtol (s : List UInt8) (base : Nat) : Int :=
  let s := s.dropWhile isSpace
  let (neg, s) := match s with
    | c :: s' => if c = ch '-' then (true, s') else if c = ch '+' then (false, s') else (false, s)
    | [] => (false, s)
  let (base, s) := numeralBase base s
  let value : Int := digits base 0 s
  if neg then max (-value) (-2 ^ 63) else min value (2 ^ 63 - 1)

/-- A number as an `int`. -/
def toInt32 (i : Int) : Int := i.bmod (2 ^ 32)

/-! ### Attributes -/

/-- `struct attr`. -/
structure Attr where
  key : List UInt8
  text : List UInt8
  type : Nat
  value : Nat
  deriving DecidableEq

/-- `attribute`. -/
def attribute' (a : List Attr) (key : String) : Option Attr := a.find? fun v => v.key = bytes key

/-- `attr_text`. -/
def attrText (a : List Attr) (key : String) : List UInt8 := ((attribute' a key).map Attr.text).getD []

/-- `attr_number`. -/
def attrNumber {cap : Nat} [NeZero cap] (a : List Attr) (key : String) : Checked (Buf cap) :=
  match attribute' a key with
  | none => .ok Buf.empty
  | some v => if v.type = 3 then copyText v.text else .ok (Buf.snprintf (decimalText v.value))

/-- `attr_boolean`. -/
def attrBoolean (v : Attr) : Bool := if v.type = 3 then v.text = bytes "true" ∨ v.text = bytes "1" else v.value ≠ 0

def booleanOr (a : List Attr) (key : String) (default : Bool) : Bool := ((attribute' a key).map attrBoolean).getD default

def isAlnum (c : UInt8) : Bool :=
  (ch '0' ≤ c ∧ c ≤ ch '9') ∨ (ch 'a' ≤ toLower c ∧ toLower c ≤ ch 'z')

/-- The loop of `package_valid`: no two dots together, and no other characters. -/
def packageChars : List UInt8 → Bool
  | [] => true
  | c :: s => (isAlnum c ∨ c = ch '_' ∨ c = ch '.') ∧ ¬ (c = ch '.' ∧ s.head? = some (ch '.')) ∧ packageChars s

/-- `package_valid`. -/
def packageValid (s : List UInt8) : Bool :=
  s ≠ [] ∧ s.length ≤ 255 ∧ s.head? ≠ some (ch '.') ∧ s.getLast? ≠ some (ch '.') ∧ packageChars s

/-! ### The parser -/

/-- `struct manifest`. -/
structure Manifest where
  package : Buf 256
  split : Buf 256
  activity : Buf 512
  application : Buf 512
  applicationProcess : Buf 512
  activityProcess : Buf 512
  orientation : Buf 32
  theme : Buf 32
  minSdk : Buf 32
  targetSdk : Buf 32
  configChanges : Buf 32
  cleartext : Buf 8
  networkSecurity : Buf 32
  receivers : Buf apkMeta
  services : Buf apkMeta
  activities : Buf apkMeta
  activityFilters : Buf apkMeta
  providers : Buf apkMeta
  permissions : Buf apkMeta
  queryActions : Buf apkMeta
  queryPackages : Buf apkMeta
  libraries : Buf apkMeta
  deriving DecidableEq, Inhabited

structure Application where
  depth : Int
  theme : Buf 32
  enabled : Bool
  boot : Bool
  permission : Buf 512
  process : Buf 512
  deriving Inhabited

structure Activity where
  depth : Int
  name : Buf 512
  target : Buf 512
  orient : Buf 32
  theme : Buf 32
  changes : Buf 32
  process : Buf 512
  enabled : Bool
  launch : Bool
  deriving Inhabited

/-- An intent filter of an activity. -/
structure Filter where
  depth : Int
  main : Bool
  launcher : Bool
  data : Bool
  priority : Int
  actions : Buf 2048
  categories : Buf 2048
  deriving Inhabited

structure Receiver where
  depth : Int
  name : Buf 512
  enabled : Bool
  exported : Int
  boot : Bool
  permission : Buf 512
  process : Buf 512
  filter : Bool
  deriving Inhabited

structure Service where
  depth : Int
  name : Buf 512
  enabled : Bool
  exported : Int
  process : Buf 512
  actions : Buf 2048
  deriving Inhabited

structure Provider where
  depth : Int
  text : Buf apkMeta
  process : Buf 512
  enabled : Bool
  order : Int
  grant : Bool
  multi : Bool
  deriving Inhabited

/-- The variables of `parse_manifest_events`. A depth that is -1 belongs to no element that is open. -/
structure Events where
  m : Manifest
  strings : List (List UInt8)
  depth : Int
  queriesDepth : Int
  application : Application
  activity : Activity
  filter : Filter
  receiver : Receiver
  service : Service
  provider : Provider

def Events.init (strings : List (List UInt8)) : Events where
  m := default
  strings := strings
  depth := 0
  queriesDepth := -1
  application := { (default : Application) with depth := -1, enabled := true, boot := false }
  activity := { (default : Activity) with depth := -1, enabled := true, launch := false }
  filter := { (default : Filter) with depth := -1, main := false, launcher := false, data := false, priority := 0 }
  receiver := { (default : Receiver) with depth := -1, enabled := true, exported := -1, boot := false, filter := false }
  service := { (default : Service) with depth := -1, enabled := true, exported := -1 }
  provider := { (default : Provider) with depth := -1, enabled := true, order := 0, grant := false, multi := false }

/-- A process name: one that starts with a colon belongs to the package. -/
def processName (pkg proc : List UInt8) : Checked (Buf 512) :=
  if proc.head? = some (ch ':') then format (pkg ++ proc) else copyText proc

/-- `v ? v->text : fallback`. -/
def textOr (a : List Attr) (key : String) (fallback : List UInt8) : List UInt8 :=
  ((attribute' a key).map Attr.text).getD fallback

/-! ### Elements that start -/

section Start
variable (a : List Attr) (s : Events)

def startManifest : Checked Events := do
  let package ← copyText (attrText a "package")
  let split ← copyText (attrText a "split")
  return { s with m := { s.m with package := package, split := split } }

def startApplication : Checked Events := do
  let name ← className s.m.package.text (attrText a "name")
  let theme ← attrNumber a "theme"
  let cleartext := match attribute' a "usesCleartextTraffic" with
    | some v => Buf.snprintf (intText (flag (attrBoolean v)))
    | none => s.m.cleartext
  let networkSecurity ← attrNumber a "networkSecurityConfig"
  let permission ← copyText (attrText a "permission")
  let process ← copyText (attrText a "process")
  let applicationProcess ←
    (if process.text = [] then copyText s.m.package.text else processName s.m.package.text process.text)
  return { s with
    m := { s.m with
      application := name, cleartext := cleartext, networkSecurity := networkSecurity,
      applicationProcess := applicationProcess }
    application := {
      depth := s.depth, theme := theme, enabled := booleanOr a "enabled" s.application.enabled,
      boot := booleanOr a "directBootAware" s.application.boot, permission := permission, process := process } }

/-- The process of a receiver or a service: an empty name is the package. -/
def componentProcess : Checked (Buf 512) :=
  let proc := textOr a "process" s.application.process.text
  processName s.m.package.text (if proc = [] then s.m.package.text else proc)

/-- `exported`, which is -1 where it is not said. -/
def exportedOf : Int := ((attribute' a "exported").map fun v => flag (attrBoolean v)).getD (-1)

def startReceiver : Checked Events := do
  let name ← className s.m.package.text (attrText a "name")
  let permission ← copyText (textOr a "permission" s.application.permission.text)
  let process ← componentProcess a s
  return { s with receiver := {
    depth := s.depth, name := name, enabled := booleanOr a "enabled" true, exported := exportedOf a,
    boot := booleanOr a "directBootAware" s.application.boot, permission := permission, process :=
      process, filter := false } }

def startService : Checked Events := do
  let name ← className s.m.package.text (attrText a "name")
  let process ← componentProcess a s
  return { s with service := {
    depth := s.depth, name := name, enabled := booleanOr a "enabled" true, exported := exportedOf a, process := process,
    actions := Buf.empty } }

def startActivity : Checked Events := do
  let process ← processName s.m.package.text (textOr a "process" s.m.applicationProcess.text)
  let changes ← attrNumber a "configChanges"
  let name ← copyText (attrText a "name")
  let target ← copyText (attrText a "targetActivity")
  let orient ← attrNumber a "screenOrientation"
  let theme ← attrNumber a "theme"
  return { s with activity := {
    depth := s.depth, name := name, target := target, orient := orient, theme := theme, changes := changes,
    process := process, enabled := s.application.enabled && booleanOr a "enabled" true, launch := false } }

def startFilter : Events :=
  { s with filter := {
      depth := s.depth, main := false, launcher := false, data := false,
      priority := ((attribute' a "priority").map fun v => toInt32 (strtol v.text 0)).getD 0,
      actions := Buf.empty, categories := Buf.empty } }

/-- `append` where the element belongs to one that is open. -/
def appendIf {cap : Nat} (c : Prop) [Decidable c] (out : Buf cap) (value separator : List UInt8) : Checked (Buf cap) :=
  if c then append out value separator else .ok out

def startAction : Checked Events := do
  let v := attrText a "name"
  let queryActions ← appendIf (0 ≤ s.queriesDepth) s.m.queryActions v [ch ',']
  let serviceActions ← appendIf (0 ≤ s.service.depth) s.service.actions v [ch ',']
  let actions ← appendIf (0 ≤ s.filter.depth) s.filter.actions v [ch ',']
  let main := if 0 ≤ s.filter.depth ∧ v = bytes "android.intent.action.MAIN" then true else s.filter.main
  return { s with
    m := { s.m with queryActions := queryActions }
    service := { s.service with actions := serviceActions }
    filter := { s.filter with actions := actions, main := main } }

def startCategory : Checked Events := do
  let v := attrText a "name"
  let categories ← append s.filter.categories v [ch ',']
  let launcher := if v = bytes "android.intent.category.LAUNCHER" then true else s.filter.launcher
  return { s with filter := { s.filter with categories := categories, launcher := launcher } }

def startPackage : Checked Events := do
  let queryPackages ← append s.m.queryPackages (attrText a "name") [ch ',']
  return { s with m := { s.m with queryPackages := queryPackages } }

/-- `initOrder`, which may be a text or a value. -/
def orderOf : Int :=
  ((attribute' a "initOrder").map fun v => toInt32 (if v.type = 3 then strtol v.text 10 else v.value)).getD 0

def startProvider : Checked Events := do
  let process ← processName s.m.package.text (textOr a "process" s.m.applicationProcess.text)
  let qualified : Buf 512 ← className s.m.package.text (attrText a "name")
  let text ← format (qualified.text ++ [ch '|'] ++ attrText a "authorities" ++ [ch '|'])
  return { s with provider := {
    depth := s.depth, text := text, process := process, enabled := s.application.enabled && booleanOr a "enabled" true,
    order := orderOf a, grant := booleanOr a "grantUriPermissions" false, multi := booleanOr a "multiprocess" false } }

def startMetaData : Checked Events :=
  match (attribute' a "resource").or (attribute' a "value") with
  | none => .ok s
  | some v => do
    let pair : Buf apkMeta ← format (attrText a "name" ++ [ch '~'] ++ v.text)
    let text ← appendIf (s.provider.text.text ≠ [] ∧ s.provider.text.text.getLast? ≠ some (ch '|')) s.provider.text
      [ch ','] []
    let text ← append text pair.text []
    return { s with provider := { s.provider with text := text } }

def startPermission : Checked Events := do
  let permissions ← append s.m.permissions (attrText a "name") [ch ',']
  return { s with m := { s.m with permissions := permissions } }

def startLibrary : Checked Events := do
  let name := attrText a "name"
  require (name ≠ [] ∧ ch '\n' ∉ name ∧ ch '\r' ∉ name)
  let libraries ← append s.m.libraries name [ch '\n']
  return { s with m := { s.m with libraries := libraries } }

def startSdk : Checked Events := do
  let minSdk ← attrNumber a "minSdkVersion"
  let targetSdk ← attrNumber a "targetSdkVersion"
  return { s with m := { s.m with minSdk := minSdk, targetSdk := targetSdk } }

/-- What an element means that starts. -/
def startTag (tag : List UInt8) : Checked Events :=
  if tag = bytes "manifest" then startManifest a s
  else if tag = bytes "application" then startApplication a s
  else if tag = bytes "receiver" then startReceiver a s
  else if tag = bytes "service" then startService a s
  else if tag = bytes "intent-filter" ∧ 0 ≤ s.receiver.depth then
    .ok { s with receiver := { s.receiver with filter := true } }
  else if tag = bytes "activity" ∨ tag = bytes "activity-alias" then startActivity a s
  else if tag = bytes "intent-filter" ∧ 0 ≤ s.activity.depth then .ok (startFilter a s)
  else if tag = bytes "action" then startAction a s
  else if tag = bytes "category" ∧ 0 ≤ s.filter.depth then startCategory a s
  else if tag = bytes "data" ∧ 0 ≤ s.filter.depth then .ok { s with filter := { s.filter with data := true } }
  else if tag = bytes "queries" then .ok { s with queriesDepth := s.depth }
  else if tag = bytes "package" ∧ 0 ≤ s.queriesDepth then startPackage a s
  else if tag = bytes "provider" then startProvider a s
  else if tag = bytes "meta-data" ∧ 0 ≤ s.provider.depth then startMetaData a s
  else if tag = bytes "uses-permission" then startPermission a s
  else if tag = bytes "uses-library" ∧ 0 ≤ s.application.depth ∧ s.depth = s.application.depth + 1 then startLibrary a s
  else if tag = bytes "uses-sdk" then startSdk a s
  else .ok s

end Start

/-! ### Elements that end -/

section End
variable (s : Events)

/-- A row of the table: texts with bars between them. -/
def row (parts : List (List UInt8)) : List UInt8 := [ch '|'].intercalate parts

def endFilter : Checked Events :=
  if s.depth = s.filter.depth then do
    let component : Buf 512 ← className s.m.package.text s.activity.name.text
    let line : Buf apkMeta ← format (row [component.text, s.filter.actions.text, s.filter.categories.text,
      intText (flag s.filter.data), intText s.filter.priority])
    let activityFilters ← append s.m.activityFilters line.text [ch '\n']
    return { s with
      m := { s.m with activityFilters := activityFilters }
      activity := { s.activity with
        launch := s.activity.launch || (s.filter.main && s.filter.launcher && !s.filter.data) }
      filter := { s.filter with depth := -1 } }
  else .ok s

/-- The first activity that can be launched is the one of the manifest. -/
def launchActivity (m : Manifest) : Checked Manifest :=
  if s.activity.launch ∧ s.activity.enabled ∧ m.activity.text = [] then do
    let configChanges ← copyText s.activity.changes.text
    let activityProcess ← copyText s.activity.process.text
    let activity ← className m.package.text
      (if s.activity.target.text ≠ [] then s.activity.target.text else s.activity.name.text)
    let orientation ← copyText s.activity.orient.text
    let theme ← copyText (if s.activity.theme.text ≠ [] then s.activity.theme.text else s.application.theme.text)
    return { m with
      configChanges := configChanges, activityProcess := activityProcess, activity := activity,
      orientation := orientation, theme := theme }
  else .ok m

def endActivity : Checked Events :=
  if s.depth = s.activity.depth then do
    let component : Buf 512 ← className s.m.package.text s.activity.name.text
    let target : Buf 512 ← className s.m.package.text s.activity.target.text
    let line : Buf apkMeta ← format (row [component.text, target.text, intText (flag s.activity.enabled)])
    let activities ← append s.m.activities line.text [ch '\n']
    let m ← launchActivity s { s.m with activities := activities }
    return { s with m := m, activity := { s.activity with depth := -1 } }
  else .ok s

def endReceiver : Checked Events :=
  if s.depth = s.receiver.depth then do
    let line : Buf apkMeta ← format (row [s.receiver.name.text, intText (flag s.receiver.enabled),
      intText (flag s.application.enabled),
      intText (if s.receiver.exported < 0 then flag s.receiver.filter else s.receiver.exported),
      intText (flag s.receiver.boot), s.receiver.permission.text, s.receiver.process.text])
    let receivers ← append s.m.receivers line.text [ch ';']
    return { s with m := { s.m with receivers := receivers }, receiver := { s.receiver with depth := -1 } }
  else .ok s

def endService : Checked Events :=
  if s.depth = s.service.depth then do
    let line : Buf apkMeta ← format (row [s.service.name.text, intText (flag (s.service.enabled && s.application.enabled)),
      intText s.service.exported, s.service.actions.text, s.service.process.text])
    let services ← append s.m.services line.text [ch ';']
    return { s with m := { s.m with services := services }, service := { s.service with depth := -1 } }
  else .ok s

def endProvider : Checked Events :=
  if s.depth = s.provider.depth then do
    let tail : Buf 640 ← format (ch '|' :: row [s.provider.process.text, intText (flag s.provider.enabled),
      intText s.provider.order, intText (flag s.provider.grant), intText (flag s.provider.multi)])
    let text ← append s.provider.text tail.text []
    let providers ← (if s.m.providers.text = [] then copyText (bytes "!2\n") else .ok s.m.providers)
    let providers ← append providers text.text (if providers.text = bytes "!2\n" then [] else [ch '\n'])
    return { s with
      m := { s.m with providers := providers }
      provider := { s.provider with text := text, depth := -1 } }
  else .ok s

def endElement (len : Nat) : Checked Events := do
  let s := if s.depth = s.application.depth then { s with application := { s.application with depth := -1 } } else s
  require (24 ≤ len ∧ 0 < s.depth)
  let s ← endFilter s
  let s ← endActivity s
  let s ← endReceiver s
  let s ← endService s
  let s ← endProvider s
  let s := if s.depth = s.queriesDepth then { s with queriesDepth := -1 } else s
  return { s with depth := s.depth - 1 }

end End

/-! ### The loop -/

section Loop
variable (data : List UInt8)

/-- An attribute, from its bytes. -/
def attrAt (strings : List (List UInt8)) (v : Nat) : Checked Attr := do
  let key ← read32 data (v + 4)
  let raw ← read32 data (v + 8)
  let value ← read32 data (v + 16)
  let type ← read data (v + 15)
  let size ← read16 data (v + 12)
  require (key < strings.length ∧ 8 ≤ size)
  let key ← axmlString strings key
  if type = 3 then do
    require (value < strings.length)
    let text ← axmlString strings value
    return ⟨key, text, type, value⟩
  else if raw < strings.length then do
    let text ← axmlString strings raw
    return ⟨key, text, type, value⟩
  else return ⟨key, (Buf.snprintf (decimalText value) : Buf 32).text, type, value⟩

/-- The loop over the attributes, which has room for 1024. -/
def attrsAt (strings : List (List UInt8)) (first stride : Nat) : Nat → Nat → Checked (List Attr)
  | 0, _ => return []
  | count + 1, i => do
    assert (i < 1024)
    let a ← attrAt data strings (first + i * stride)
    let rest ← attrsAt strings first stride count (i + 1)
    return a :: rest

def startElement (p len header : Nat) (s : Events) : Checked Events := do
  require (36 ≤ len ∧ 16 ≤ header)
  let s := { s with depth := s.depth + 1 }
  let name ← read32 data (p + 20)
  require (name < s.strings.length)
  let tag ← axmlString s.strings name
  let start ← read16 data (p + 24)
  let start := 16 + start
  let stride ← read16 data (p + 26)
  let count ← read16 data (p + 28)
  require (20 ≤ stride ∧ count ≤ 1024 ∧ start ≤ len)
  let room ← minus len start
  require (count ≤ room / stride)
  let a ← attrsAt data s.strings (p + start) stride count 0
  startTag a s tag

/-- One round of the loop: a chunk. The chunk ends where the next one starts. -/
def chunk (size at' : Nat) (s : Events) : Checked (Nat × Events) := do
  let left ← minus size at'
  require (8 ≤ left)
  let kind ← read16 data at'
  let header ← read16 data (at' + 2)
  let len ← read32 data (at' + 4)
  require (8 ≤ len ∧ 8 ≤ header ∧ header ≤ len ∧ len ≤ left)
  let s ← (if kind = 1 then do
      let strings ← axmlPool data at' len
      return { s with strings := strings }
    else if kind = 0x102 then startElement data at' len header s
    else if kind = 0x103 then endElement s len
    else .ok s)
  return (at' + len, s)

/-- The loop over the chunks. It faults where it does not come to an end. -/
def chunks (size : Nat) : Nat → Nat → Events → Checked Events
  | 0, at', s => if at' < size then .fault else .ok s
  | fuel + 1, at', s =>
    if at' < size then do
      let (at', s) ← chunk data size at' s
      chunks size fuel at' s
    else .ok s

/-- `parse_manifest_events`. -/
def parseManifestEvents (at' size : Nat) (strings : List (List UInt8)) : Checked Manifest := do
  let s ← chunks data (at' + size) size at' (Events.init strings)
  require (s.depth = 0 ∧ packageValid s.m.package.text)
  return s.m

/-- `parse_manifest`. -/
def parseManifest (size : Nat) : Checked Manifest := do
  require (8 ≤ size)
  let magic ← read32 data 0
  require (magic = 0x00080003)
  let len ← read32 data 4
  require (8 ≤ len ∧ len ≤ size)
  let events ← minus len 8
  parseManifestEvents data 8 events []

end Loop

end Lunaria.Apk
