import Lunaria.Apk.ManifestSafe

/-! The manifest of an App Bundle, which is translated from its protobuf to the events of a binary XML file. A message is a
    pointer into the data and a length; the parser moves both. -/

namespace Lunaria.Apk
open Checked

/-- `struct pb`. -/
structure Pb where
  at' : Nat
  n : Nat
  deriving DecidableEq, Inhabited

/-- `struct pb_field`. -/
structure PbField where
  number : Nat
  wire : Nat
  value : Nat
  bytes : Pb
  deriving DecidableEq

section Messages
variable (data : List UInt8)

/-- The loop of `pb_varint`, with the rounds that are left. -/
def pbVarintLoop : Nat → Nat → Nat → Pb → Checked (Nat × Pb)
  | 0, _, _, _ => .fail
  | rounds + 1, shift, v, p => do
    require (p.n ≠ 0)
    let c ← read data p.at'
    let p : Pb := ⟨p.at' + 1, p.n - 1⟩
    require (¬ (shift = 63 ∧ 1 < c))
    let v := v + c % 128 * 2 ^ shift
    if c < 128 then return (v, p) else pbVarintLoop rounds (shift + 7) v p

/-- `pb_varint`. -/
def pbVarint (p : Pb) : Checked (Nat × Pb) := pbVarintLoop data 10 0 0 p

/-- A field of some length. -/
def pbBytes (number wire len : Nat) (p : Pb) : Checked (PbField × Pb) := do
  require (len ≤ p.n)
  return (⟨number, wire, 0, ⟨p.at', len⟩⟩, ⟨p.at' + len, p.n - len⟩)

/-- `pb_next`. -/
def pbNext (p : Pb) : Checked (PbField × Pb) := do
  let (key, p) ← pbVarint data p
  let number := key / 8
  let wire := key % 8
  require (number ≠ 0 ∧ number ≤ 0x1fffffff)
  if wire = 0 then do
    let (value, p) ← pbVarint data p
    return (⟨number, wire, value, ⟨0, 0⟩⟩, p)
  else if wire = 2 then do
    let (len, p) ← pbVarint data p
    pbBytes number wire len p
  else if wire = 1 then pbBytes number wire 8 p
  else if wire = 5 then pbBytes number wire 4 p
  else .fail

/-- The loop over the fields of a message. It faults where it does not come to an end. -/
def pbLoop {σ : Type} (field : PbField → σ → Checked σ) : Nat → Pb → σ → Checked σ
  | 0, p, s => if p.n = 0 then .ok s else .fault
  | fuel + 1, p, s =>
    if p.n = 0 then .ok s
    else do
      let (f, p) ← pbNext data p
      let s ← field f s
      pbLoop field fuel p s

def pbFields {σ : Type} (field : PbField → σ → Checked σ) (p : Pb) (s : σ) : Checked σ := pbLoop data field p.n p s

end Messages

/-! ### The events -/

/-- `struct bundle_xml`. -/
structure BundleXml where
  strings : List (List UInt8)
  events : List UInt8
  cap : Nat
  deriving DecidableEq

def put32 (v : Nat) : List UInt8 :=
  [UInt8.ofNat v, UInt8.ofNat (v / 2 ^ 8), UInt8.ofNat (v / 2 ^ 16), UInt8.ofNat (v / 2 ^ 24)]

/-- `bundle_event`. -/
def bundleEvent (b : BundleXml) (event : List UInt8) : Checked BundleXml := do
  let room ← minus apkMaxManifest b.events.length
  require (event.length ≤ room)
  let cap := if b.cap < b.events.length + event.length then (b.events.length + event.length) * 2 else b.cap
  assert (b.events.length + event.length ≤ cap)
  return { b with events := b.events ++ event, cap := cap }

/-- An attribute as it is in the buffer of the start event. -/
structure BundleAttr where
  key : Nat
  text : Nat
  type : Nat
  value : Nat
  deriving DecidableEq

def BundleAttr.bytes (a : BundleAttr) : List UInt8 :=
  put32 uint32Max ++ put32 a.key ++ put32 a.text ++ [8, 0, 0, UInt8.ofNat a.type] ++ put32 a.value

def startEvent (name : Nat) (attrs : List BundleAttr) : List UInt8 :=
  [2, 1, 16, 0] ++ put32 (36 + attrs.length * 20) ++ [0, 0, 0, 0, 0, 0, 0, 0, 0, 0, 0, 0] ++ put32 name ++
    [20, 0, 20, 0, UInt8.ofNat attrs.length, UInt8.ofNat (attrs.length / 2 ^ 8), 0, 0, 0, 0, 0, 0] ++
    attrs.flatMap BundleAttr.bytes

def endEvent (name : Nat) : List UInt8 :=
  [3, 1, 16, 0, 24, 0, 0, 0, 0, 0, 0, 0, 0, 0, 0, 0, 0, 0, 0, 0] ++ put32 name

section Nodes
variable (data : List UInt8)

/-- `bundle_string`: the pool with the string, and its index. -/
def bundleString (b : BundleXml) (p : Pb) : Checked (BundleXml × Nat) := do
  require (p.n ≤ apkMaxManifest)
  let s ← readRange data p.at' p.n
  require (0 ∉ s ∧ b.strings.length < 65535)
  return ({ b with strings := b.strings ++ [s] }, b.strings.length)

/-- The parts of an attribute: its key, its text and its item. -/
structure AttrParts where
  key : Option Pb
  text : Pb
  item : Pb
  deriving Inhabited

def attrPart (f : PbField) (parts : AttrParts) : Checked AttrParts :=
  if f.wire ≠ 2 then .ok parts
  else if f.number = 2 then .ok { parts with key := some f.bytes }
  else if f.number = 3 then .ok { parts with text := f.bytes }
  else if f.number = 6 then .ok { parts with item := f.bytes }
  else .ok parts

/-- A number in a compiled value, which overrides the text. -/
def compiledNumber (kind : Nat) (f : PbField) (a : BundleAttr) : Checked BundleAttr :=
  if f.wire = 0 ∧ ((kind = 1 ∧ f.number = 2) ∨ (kind = 7 ∧ (f.number = 6 ∨ f.number = 7 ∨ f.number = 8))) then
    .ok { a with type := if kind = 1 then 1 else 0x10, value := f.value % 2 ^ 32 }
  else .ok a

def compiledItem (f : PbField) (a : BundleAttr) : Checked BundleAttr :=
  if f.wire ≠ 2 ∨ (f.number ≠ 1 ∧ f.number ≠ 7) then .ok a else pbFields data (compiledNumber f.number) f.bytes a

/-- What the loop over an element keeps: the index of its name, if it has one, and its attributes. -/
structure Element where
  b : BundleXml
  name : Option Nat
  attrs : List BundleAttr

def elementAttr (f : PbField) (s : Element) : Checked Element := do
  require (s.attrs.length < 1024)
  let parts ← pbFields data attrPart f.bytes default
  match parts.key with
  | none => .fail
  | some key => do
    let (b, ki) ← bundleString data s.b key
    let (b, vi) ← bundleString data b parts.text
    -- the buffer of the start event
    assert (36 + s.attrs.length * 20 + 20 ≤ 36 + 1024 * 20)
    let a ← pbFields data (compiledItem data) parts.item ⟨ki, vi, 3, vi⟩
    return { s with b := b, attrs := s.attrs ++ [a] }

def elementField (f : PbField) (s : Element) : Checked Element :=
  if f.number = 3 ∧ f.wire = 2 then do
    let (b, name) ← bundleString data s.b f.bytes
    return { s with b := b, name := some name }
  else if f.number = 4 ∧ f.wire = 2 then elementAttr data f s
  else .ok s

def nodeElement (f : PbField) (element : Option Pb) : Checked (Option Pb) :=
  .ok (if f.number = 1 ∧ f.wire = 2 then some f.bytes else element)

/-- `bundle_node`, with the levels that are left. -/
def bundleNode : Nat → Pb → BundleXml → Checked BundleXml
  | 0, _, _ => .fail
  | levels + 1, node, b => do
    let element ← pbFields data nodeElement node none
    match element with
    | none => .ok b
    | some element => do
      let s ← pbFields data (elementField data) element ⟨b, none, []⟩
      match s.name with
      | none => .fail
      | some name => do
        let b ← bundleEvent s.b (startEvent name s.attrs)
        let b ← pbFields data
          (fun f b => if f.number = 5 ∧ f.wire = 2 then bundleNode levels f.bytes b else .ok b) element b
        bundleEvent b (endEvent name)

/-- `parse_bundle_manifest`. -/
def parseBundleManifest (size : Nat) : Checked Manifest := do
  let b ← bundleNode data 129 ⟨0, size⟩ ⟨[], [], 0⟩
  parseManifestEvents b.events 0 b.events.length b.strings

end Nodes

/-! ### The bounds -/

section Bounds
variable {data : List UInt8} {p : Pb} {f : PbField}

/-- A message lies in the data. -/
def Pb.Inside (data : List UInt8) (p : Pb) : Prop := p.at' + p.n ≤ data.length

/-- A message is what is left of another one, after one byte or more. -/
structure Pb.After (p q : Pb) : Prop where
  less : q.n < p.n
  same : q.at' + q.n = p.at' + p.n

theorem Pb.After.inside {p q : Pb} (h : p.After q) (hp : p.Inside data) : q.Inside data := by
  have hsame := h.same
  unfold Pb.Inside at hp ⊢
  omega

theorem pbVarintLoop_sound : ∀ {rounds shift v : Nat} {p : Pb}, p.Inside data →
    (pbVarintLoop data rounds shift v p).Sound fun r => p.After r.2
  | 0, _, _, _, _ => trivial
  | rounds + 1, shift, v, p, hp => by
    rw [pbVarintLoop]
    have hin := hp
    unfold Pb.Inside at hin
    refine Sound.require fun hn => (read_sound (by omega)).bind fun c _ => Sound.require fun _ => ?_
    have hafter : p.After ⟨p.at' + 1, p.n - 1⟩ := ⟨by dsimp only; omega, by dsimp only; omega⟩
    refine Sound.ite (fun _ => hafter) fun _ => ?_
    refine (pbVarintLoop_sound (hafter.inside hp)).mono fun r hr => ⟨hr.less.trans hafter.less, hr.same.trans hafter.same⟩

theorem pbVarint_sound (hp : p.Inside data) : (pbVarint data p).Sound fun r => p.After r.2 :=
  pbVarintLoop_sound hp

/-- What a field is: it lies in the data, and what follows is shorter. -/
structure Pb.Next (data : List UInt8) (p : Pb) (r : PbField × Pb) : Prop where
  bytes : r.1.bytes.Inside data
  less : r.2.n < p.n
  inside : r.2.Inside data

theorem pbBytes_sound {p q : Pb} (hq : q.Inside data) (hless : q.n < p.n) (number wire len : Nat) :
    (pbBytes number wire len q).Sound (p.Next data) := by
  unfold pbBytes
  refine Sound.require fun hlen => ?_
  unfold Pb.Inside at hq
  rw [sound_pure]
  constructor
  · show q.at' + len ≤ data.length
    omega
  · show q.n - len < p.n
    omega
  · show q.at' + len + (q.n - len) ≤ data.length
    omega

theorem pbNext_sound (hp : p.Inside data) : (pbNext data p).Sound (p.Next data) := by
  unfold pbNext
  refine (pbVarint_sound hp).bind fun r hr => ?_
  obtain ⟨key, q⟩ := r
  dsimp only at hr ⊢
  have hq := hr.inside hp
  refine Sound.require fun _ => Sound.ite (fun _ => ?_) fun _ => Sound.ite (fun _ => ?_) fun _ => ?_
  · refine (pbVarint_sound hq).bind fun r' hr' => ?_
    rw [sound_pure]
    exact ⟨Nat.zero_le _, hr'.less.trans hr.less, hr'.inside hq⟩
  · exact (pbVarint_sound hq).bind fun r' hr' => pbBytes_sound (hr'.inside hq) (hr'.less.trans hr.less) _ _ _
  · exact Sound.ite (fun _ => pbBytes_sound hq hr.less _ _ _) fun _ =>
      Sound.ite (fun _ => pbBytes_sound hq hr.less _ _ _) fun _ => trivial

theorem pbLoop_sound {σ : Type} {I : σ → Prop} {field : PbField → σ → Checked σ}
    (hfield : ∀ f s, f.bytes.Inside data → I s → (field f s).Sound I) :
    ∀ {fuel : Nat} {p : Pb} {s : σ}, p.Inside data → p.n ≤ fuel → I s → (pbLoop data field fuel p s).Sound I
  | 0, p, s, _, hfuel, hs => by
    rw [pbLoop, if_pos (by omega)]
    exact hs
  | fuel + 1, p, s, hp, hfuel, hs => by
    rw [pbLoop]
    refine Sound.ite (fun _ => hs) fun _ => (pbNext_sound hp).bind fun r hr => ?_
    refine (hfield _ _ hr.bytes hs).bind fun s' hs' => ?_
    have hless := hr.less
    exact pbLoop_sound hfield hr.inside (by omega) hs'

theorem pbFields_sound {σ : Type} {I : σ → Prop} {field : PbField → σ → Checked σ} {s : σ}
    (hfield : ∀ f s, f.bytes.Inside data → I s → (field f s).Sound I) (hp : p.Inside data) (hs : I s) :
    (pbFields data field p s).Sound I :=
  pbLoop_sound hfield hp le_rfl hs

theorem bundleString_sound {b : BundleXml} (hp : p.Inside data) :
    (bundleString data b p).Sound fun r => r.1.events = b.events := by
  unfold bundleString
  exact Sound.require fun _ => (readRange_sound hp).bind fun s _ => Sound.require fun _ => rfl

/-- The events stay below the limit. -/
def BundleXml.Small (b : BundleXml) : Prop := b.events.length ≤ apkMaxManifest

theorem bundleEvent_sound {b : BundleXml} (hb : b.Small) (event : List UInt8) :
    (bundleEvent b event).Sound BundleXml.Small := by
  unfold bundleEvent
  unfold BundleXml.Small at hb
  refine (minus_sound hb).bind fun room hroom => Sound.require fun hlen => Sound.assert ?_ ?_
  · split <;> omega
  · rw [sound_pure]
    show (b.events ++ event).length ≤ apkMaxManifest
    rw [List.length_append]
    omega

structure AttrParts.Inside (data : List UInt8) (parts : AttrParts) : Prop where
  key : ∀ p, parts.key = some p → p.Inside data
  text : parts.text.Inside data
  item : parts.item.Inside data

theorem attrPart_sound {parts : AttrParts} (hf : f.bytes.Inside data) (h : parts.Inside data) :
    (attrPart f parts).Sound (AttrParts.Inside data) := by
  unfold attrPart
  refine Sound.ite (fun _ => h) fun _ => Sound.ite (fun _ => ?_) fun _ => Sound.ite (fun _ => ?_) fun _ =>
    Sound.ite (fun _ => ?_) fun _ => h
  · exact ⟨fun p hp => Option.some.inj hp ▸ hf, h.text, h.item⟩
  · exact ⟨h.key, hf, h.item⟩
  · exact ⟨h.key, h.text, hf⟩

theorem compiledItem_safe {a : BundleAttr} (hf : f.bytes.Inside data) : (compiledItem data f a).Safe := by
  unfold compiledItem
  refine Safe.ite safe_ok ?_
  refine (pbFields_sound (I := fun _ => True) (fun g a _ _ => ?_) hf trivial).safe
  exact Sound.ite (fun _ => trivial) fun _ => trivial

theorem elementAttr_sound {s : Element} (hf : f.bytes.Inside data) (hs : s.b.Small) :
    (elementAttr data f s).Sound fun t => t.b.Small := by
  unfold elementAttr
  have hdefault : AttrParts.Inside data default := ⟨nofun, Nat.zero_le _, Nat.zero_le _⟩
  refine Sound.require fun hroom => (pbFields_sound (fun g parts => attrPart_sound) hf hdefault).bind fun parts hparts => ?_
  split
  · trivial
  · rename_i key hkey
    refine (bundleString_sound (hparts.key key hkey)).bind fun r hr => (bundleString_sound hparts.text).bind
      fun r' hr' => ?_
    refine Sound.assert (by omega) ?_
    refine (pbFields_sound (I := fun _ => True) (fun g a hg _ => (compiledItem_safe hg).sound) hparts.item trivial).bind
      fun a _ => ?_
    rw [sound_pure]
    show r'.1.events.length ≤ apkMaxManifest
    rw [hr', hr]
    exact hs

theorem elementField_sound {s : Element} (hf : f.bytes.Inside data) (hs : s.b.Small) :
    (elementField data f s).Sound fun t => t.b.Small := by
  unfold elementField
  refine Sound.ite (fun _ => ?_) fun _ => Sound.ite (fun _ => elementAttr_sound hf hs) fun _ => hs
  refine (bundleString_sound hf).bind fun r hr => ?_
  rw [sound_pure]
  show r.1.events.length ≤ apkMaxManifest
  rw [hr]
  exact hs

theorem bundleNode_sound : ∀ {levels : Nat} {node : Pb} {b : BundleXml}, node.Inside data → b.Small →
    (bundleNode data levels node b).Sound BundleXml.Small
  | 0, _, _, _, _ => trivial
  | levels + 1, node, b, hnode, hb => by
    rw [bundleNode]
    have helement : (pbFields data nodeElement node none).Sound fun e => ∀ p, e = some p → p.Inside data := by
      refine pbFields_sound (fun f e hf he => ?_) hnode nofun
      rw [nodeElement, sound_ok]
      split
      · rintro p ⟨⟩
        exact hf
      · exact he
    refine helement.bind fun element helement => ?_
    split
    · exact hb
    · rename_i p
      have hp := helement p rfl
      refine (pbFields_sound (I := fun t : Element => t.b.Small) (fun f s => elementField_sound) hp hb).bind fun s hs => ?_
      split
      · trivial
      · rename_i name hname
        refine (bundleEvent_sound hs _).bind fun b₁ hb₁ => ?_
        refine (pbFields_sound (fun f b hf hb => ?_) hp hb₁).bind fun b₂ hb₂ => bundleEvent_sound hb₂ _
        exact Sound.ite (fun _ => bundleNode_sound hf hb) fun _ => hb

theorem parseBundleManifest_safe {size : Nat} (hsize : size ≤ data.length) : (parseBundleManifest data size).Safe := by
  unfold parseBundleManifest
  have hnode : Pb.Inside data ⟨0, size⟩ := by
    show 0 + size ≤ data.length
    omega
  refine ((bundleNode_sound hnode (Nat.zero_le _)).bind fun b hb => ?_).safe (P := fun _ => True)
  exact (parseManifestEvents_safe (Nat.le_of_eq (Nat.zero_add _))).sound

end Bounds

/-- Whatever bytes a manifest is, no parser reads outside them, uses an index that the pool does not have, writes past a
    buffer, or goes on for ever. -/
theorem manifest_parsers_safe (data : List UInt8) :
    (parseManifest data data.length).Safe ∧ (parseBundleManifest data data.length).Safe :=
  ⟨parseManifest_safe le_rfl, parseBundleManifest_safe le_rfl⟩

end Lunaria.Apk
