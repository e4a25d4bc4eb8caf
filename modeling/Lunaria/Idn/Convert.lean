import Lunaria.Idn.PunycodeRound

/-! Names of hosts and their ASCII form, label by label: `luna_idn_convert` of `luna_unicode.c`. The tables of `nameprep`
    and the normal form that it takes are parameters; memory is there. -/

namespace Lunaria.Idn
open List Nat
open CText (toLower)

/-! ### Text -/

/-- The first byte of a sequence: its bits, how many bytes follow, and the least point of so many. -/
def leadOf (b : UInt8) : Option (Nat × Nat × Nat) :=
  if 0xc2 ≤ b ∧ b ≤ 0xdf then some ((b &&& 31).toNat, 1, 0x80)
  else if 0xe0 ≤ b ∧ b ≤ 0xef then some ((b &&& 15).toNat, 2, 0x800)
  else if 0xf0 ≤ b ∧ b ≤ 0xf4 then some ((b &&& 7).toNat, 3, 0x10000)
  else if 0x80 ≤ b then none
  else some (b.toNat, 0, 0)

def follow : Nat → Nat → List UInt8 → Option (Nat × List UInt8)
  | 0, cp, s => some (cp, s)
  | _ + 1, _, [] => none
  | k + 1, cp, b :: s => if b &&& 0xc0 ≠ 0x80 then none else follow k (cp <<< 6 ||| (b &&& 63).toNat) s

/-- The loop of `decode`; every round takes a byte or more. -/
def decodeFrom : Nat → List UInt8 → Option (List Nat)
  | _, [] => some []
  | 0, _ :: _ => none
  | fuel + 1, b :: s => do
    let (cp, n, least) ← leadOf b
    let (cp, rest) ← follow n cp s
    if cp < least ∨ 0x10ffff < cp then none
    else
      let v ← decodeFrom fuel rest
      some (cp :: v)

/-- `decode` -/
def decodeUtf8 (s : List UInt8) : Option (List Nat) := decodeFrom s.length s

/-- The bytes that `encode` writes for a point. -/
def utf8Of (cp : Nat) : List UInt8 :=
  if cp < 0x80 then [UInt8.ofNat cp]
  else if cp < 0x800 then [UInt8.ofNat (0xc0 ||| cp >>> 6), UInt8.ofNat (0x80 ||| cp &&& 63)]
  else if cp < 0x10000 then
    [UInt8.ofNat (0xe0 ||| cp >>> 12), UInt8.ofNat (0x80 ||| cp >>> 6 &&& 63), UInt8.ofNat (0x80 ||| cp &&& 63)]
  else
    [UInt8.ofNat (0xf0 ||| cp >>> 18), UInt8.ofNat (0x80 ||| cp >>> 12 &&& 63), UInt8.ofNat (0x80 ||| cp >>> 6 &&& 63),
      UInt8.ofNat (0x80 ||| cp &&& 63)]

def encodeUtf8 (v : List Nat) : List UInt8 := v.flatMap utf8Of

/-- `encode` -/
def encode (v : List Nat) : CString := strdup (encodeUtf8 v)

/-! ### Labels -/

/-- The tables that `nameprep` looks into: what a point is mapped to, the flags of a point, and `normalize_points` for the
    form NFKC of the older Unicode. -/
structure PrepTables where
  maps : Nat → Option (List UInt32)
  flags : Nat → Nat
  normalize : List Nat → List UInt32

section
variable (t : PrepTables) (flags : UInt32)

def nameprep (v : List Nat) : Option (List Nat) :=
  let d := v.flatMap fun cp => match t.maps cp with
    | some mapped => mapped.map (·.toNat)
    | none => [cp]
  let d := (t.normalize d).map (·.toNat)
  let has (bit cp : Nat) : Bool := t.flags cp &&& bit ≠ 0
  if d = [] then none
  else if d.any fun cp => has 2 cp || (has 1 cp && flags &&& 1 = 0) then none
  -- right-to-left letters stand at both ends and have no left-to-right ones among them
  else if d.any (has 4) ∧ (d.any (has 8) ∨ ¬d.head?.any (has 4) ∨ ¬d.getLast?.any (has 4)) then none
  else some d

/-- A letter, a digit or a dash of ASCII. -/
def isLdh (c : Nat) : Bool := (0x61 ≤ c && c ≤ 0x7a) || (0x41 ≤ c && c ≤ 0x5a) || (0x30 ≤ c && c ≤ 0x39) || c = 0x2d

def isWide (c : Nat) : Bool := 0x80 ≤ c

/-- `label_ascii` -/
def labelAscii (label : List UInt8) : Option (List UInt8) := do
  let v ← decodeUtf8 label
  if v = [] then none
  else
    let v ← (if v.any isWide then nameprep t flags v else some v)
    if flags &&& 2 ≠ 0 ∧ v.any (fun c => !isWide c && !isLdh c) then none
    else if flags &&& 2 ≠ 0 ∧ (v.head? = some 0x2d ∨ v.getLast? = some 0x2d) then none
    else
      let r ←
        (if v.any isWide then
          if v.take 4 = [0x78, 0x6e, 0x2d, 0x2d] then none else punyEncode v
        else some (encode v))
      if r.bytes.length < 1 ∨ 63 < r.bytes.length then none else some r.bytes

/-- What `luna_idn_convert` makes of a label for the Unicode form: the text of its code, if that has the label for its code. -/
def labelUnicode (label : List UInt8) : List UInt8 :=
  if 4 < label.length ∧ (label.take 4).map toLower = xn then
    match punyDecode (strdup (label.drop 4)) with
    | none => label
    | some v =>
      let decoded := (encode v).bytes
      match labelAscii t flags decoded with
      | none => label
      | some check => if check.map toLower = label.map toLower then decoded else label
  else label

end

/-! ### Names -/

def dot : UInt8 := 0x2e

/-- The other characters that stand between labels. -/
def isSeparator (cp : Nat) : Bool := cp = 0x3002 || cp = 0xff0e || cp = 0xff61

/-- The loop over the labels. -/
def convertFrom (f : List UInt8 → Option (List UInt8)) : Nat → List UInt8 → Option (List UInt8)
  | 0, _ => none
  | fuel + 1, p => do
    let label ← f (p.takeWhile (· ≠ dot))
    match p.dropWhile (· ≠ dot) with
    | [] => some label
    | [_] => some (label ++ [dot])
    | _ :: rest =>
      let out ← convertFrom f fuel rest
      some (label ++ dot :: out)

/-- The names of the root. -/
def roots : List (List UInt8) := [[dot], [0xe3, 0x80, 0x82], [0xef, 0xbc, 0x8e], [0xef, 0xbd, 0xa1]]

/-- `luna_idn_convert` -/
def idnConvert (t : PrepTables) (flags : UInt32) (ascii : Bool) (input : CString) : Option CString :=
  if flags &&& ~~~3 ≠ 0 then none
  else if input.bytes = [] then some (strdup [])
  else if input.bytes ∈ roots then some (strdup [dot])
  else do
    let all ← decodeUtf8 input.bytes
    let s := encode (all.map fun p => if isSeparator p then 0x2e else p)
    let out ← convertFrom (fun p => if ascii then labelAscii t flags p else some (labelUnicode t flags p))
      (s.bytes.length + 1) s.bytes
    some (strdup out)

/-! ### Text there and back -/

variable {x : Nat} {b : UInt8} {v : List Nat}

theorem follow_tail (hx : x < 64) (k cp : Nat) (s : List UInt8) :
    follow (k + 1) cp (UInt8.ofNat (0x80 ||| x) :: s) = follow k (cp * 64 + x) s := by
  have hbits : ∀ x : Fin 64, UInt8.ofNat (0x80 ||| x.1) &&& 0xc0 = 0x80 ∧
      (UInt8.ofNat (0x80 ||| x.1) &&& 63).toNat = x.1 := by
    decide
  obtain ⟨htop, hlow⟩ := hbits ⟨x, hx⟩
  dsimp only at htop hlow
  rw [follow, if_neg (not_not_intro htop), hlow, ← shiftLeft_add_eq_or_of_lt (i := 6) hx, shiftLeft_eq]

theorem leadOf_two (hlow : 2 ≤ x) (hhigh : x < 32) : leadOf (UInt8.ofNat (0xc0 ||| x)) = some (x, 1, 0x80) := by
  have hall : ∀ x : Fin 32, 2 ≤ x.1 → leadOf (UInt8.ofNat (0xc0 ||| x.1)) = some (x.1, 1, 0x80) := by decide
  exact hall ⟨x, hhigh⟩ hlow

theorem leadOf_three (hx : x < 16) : leadOf (UInt8.ofNat (0xe0 ||| x)) = some (x, 2, 0x800) := by
  have hall : ∀ x : Fin 16, leadOf (UInt8.ofNat (0xe0 ||| x.1)) = some (x.1, 2, 0x800) := by decide
  exact hall ⟨x, hx⟩

theorem leadOf_four (hx : x < 5) : leadOf (UInt8.ofNat (0xf0 ||| x)) = some (x, 3, 0x10000) := by
  have hall : ∀ x : Fin 5, leadOf (UInt8.ofNat (0xf0 ||| x.1)) = some (x.1, 3, 0x10000) := by decide
  exact hall ⟨x, hx⟩

theorem leadOf_ascii (hx : x < 0x80) : leadOf (UInt8.ofNat x) = some (x, 0, 0) := by
  have hall : ∀ x : Fin 0x80, leadOf (UInt8.ofNat x.1) = some (x.1, 0, 0) := by decide +kernel
  exact hall ⟨x, hx⟩

theorem and_63 (x : Nat) : x &&& 63 = x % 64 := and_two_pow_sub_one_eq_mod x 6

theorem mod_64_lt (x : Nat) : x % 64 < 64 := mod_lt x (by decide)

theorem decodeFrom_step {s rest : List UInt8} {bits n least cp : Nat} (hlead : leadOf b = some (bits, n, least))
    (hfollow : follow n bits s = some (cp, rest)) (hleast : least ≤ cp) (hcp : cp ≤ 0x10ffff) (fuel : Nat) :
    decodeFrom (fuel + 1) (b :: s) = (decodeFrom fuel rest).map (cp :: ·) := by
  rw [decodeFrom, hlead]
  simp only [bind, Option.bind_some]
  rw [hfollow, Option.bind_some, if_neg (not_or.2 ⟨Nat.not_lt.2 hleast, Nat.not_lt.2 hcp⟩)]
  cases decodeFrom fuel rest <;> rfl

/-- A point is read back from its bytes. -/
theorem decodeFrom_utf8Of {cp : Nat} (hcp : cp ≤ 0x10ffff) (fuel : Nat) (rest : List UInt8) :
    decodeFrom (fuel + 1) (utf8Of cp ++ rest) = (decodeFrom fuel rest).map (cp :: ·) := by
  rw [utf8Of]
  simp only [and_63, shiftRight_eq_div_pow, reducePow]
  by_cases h1 : cp < 0x80
  · rw [if_pos h1]
    exact decodeFrom_step (leadOf_ascii h1) rfl (Nat.zero_le cp) hcp fuel
  by_cases h2 : cp < 0x800
  · rw [if_neg h1, if_pos h2, cons_append, singleton_append]
    refine decodeFrom_step (leadOf_two (x := cp / 64) (by omega) (by omega)) ?_ (Nat.not_lt.1 h1) hcp fuel
    rw [follow_tail (mod_64_lt cp), follow, div_add_mod']
  by_cases h3 : cp < 0x10000
  · have hjoin : (cp / 4096 * 64 + cp / 64 % 64) * 64 + cp % 64 = cp := by omega
    rw [if_neg h1, if_neg h2, if_pos h3, cons_append, cons_append, singleton_append]
    refine decodeFrom_step (leadOf_three (x := cp / 4096) (by omega)) ?_ (Nat.not_lt.1 h2) hcp fuel
    rw [follow_tail (mod_64_lt _), follow_tail (mod_64_lt cp), follow, hjoin]
  · have hjoin : ((cp / 262144 * 64 + cp / 4096 % 64) * 64 + cp / 64 % 64) * 64 + cp % 64 = cp := by omega
    rw [if_neg h1, if_neg h2, if_neg h3, cons_append, cons_append, cons_append, singleton_append]
    refine decodeFrom_step (leadOf_four (x := cp / 262144) (by omega)) ?_ (Nat.not_lt.1 h3) hcp fuel
    rw [follow_tail (mod_64_lt _), follow_tail (mod_64_lt _), follow_tail (mod_64_lt cp), follow, hjoin]

theorem utf8Of_ne_nil (cp : Nat) : utf8Of cp ≠ [] := by
  rw [utf8Of]
  iterate 3
    split
    · exact cons_ne_nil _ _
  · exact cons_ne_nil _ _

/-- What is written is read back. -/
theorem decodeFrom_encodeUtf8 : ∀ {v : List Nat} {fuel : Nat}, v.length ≤ fuel → (∀ p ∈ v, p ≤ 0x10ffff) →
    decodeFrom fuel (encodeUtf8 v) = some v
  | [], fuel, _, _ => by cases fuel <;> rfl
  | p :: v, fuel, hlen, hv => by
    obtain ⟨fuel, rfl⟩ := exists_eq_succ_of_ne_zero (Nat.ne_of_gt (zero_lt_of_lt hlen))
    rw [encodeUtf8, flatMap_cons, decodeFrom_utf8Of (hv p mem_cons_self)]
    change (decodeFrom fuel (encodeUtf8 v)).map (p :: ·) = _
    rw [decodeFrom_encodeUtf8 (le_of_succ_le_succ hlen) fun q hq => hv q (mem_cons_of_mem p hq)]
    rfl

theorem length_encodeUtf8 : ∀ v : List Nat, v.length ≤ (encodeUtf8 v).length
  | [] => Nat.le_refl 0
  | p :: v => by
    have hpos := length_pos_iff.2 (utf8Of_ne_nil p)
    have hrest := length_encodeUtf8 v
    rw [encodeUtf8, flatMap_cons, length_append, length_cons]
    change v.length + 1 ≤ _ + (encodeUtf8 v).length
    omega

theorem decodeUtf8_encodeUtf8 (hv : ∀ p ∈ v, p ≤ 0x10ffff) : decodeUtf8 (encodeUtf8 v) = some v :=
  decodeFrom_encodeUtf8 (length_encodeUtf8 v) hv

/-- The bytes of a point are the point, or none of ASCII. -/
theorem mem_utf8Of {cp : Nat} (hcp : cp ≤ 0x10ffff) (hb : b ∈ utf8Of cp) : (cp < 0x80 ∧ b = UInt8.ofNat cp) ∨ 0x80 ≤ b := by
  have htail : ∀ x, UInt8.ofNat (0x80 ||| x % 64) ≥ 0x80 := fun x => by
    have hall : ∀ x : Fin 64, UInt8.ofNat (0x80 ||| x.1) ≥ 0x80 := by decide
    exact hall ⟨_, mod_64_lt x⟩
  have htwo : ∀ x < 32, UInt8.ofNat (0xc0 ||| x) ≥ 0x80 := fun x hx => by
    have hall : ∀ x : Fin 32, UInt8.ofNat (0xc0 ||| x.1) ≥ 0x80 := by decide
    exact hall ⟨x, hx⟩
  have hthree : ∀ x < 16, UInt8.ofNat (0xe0 ||| x) ≥ 0x80 := fun x hx => by
    have hall : ∀ x : Fin 16, UInt8.ofNat (0xe0 ||| x.1) ≥ 0x80 := by decide
    exact hall ⟨x, hx⟩
  have hfour : ∀ x < 5, UInt8.ofNat (0xf0 ||| x) ≥ 0x80 := fun x hx => by
    have hall : ∀ x : Fin 5, UInt8.ofNat (0xf0 ||| x.1) ≥ 0x80 := by decide
    exact hall ⟨x, hx⟩
  rw [utf8Of] at hb
  simp only [and_63, shiftRight_eq_div_pow, reducePow] at hb
  split at hb
  · rename_i h1
    exact .inl ⟨h1, mem_singleton.1 hb⟩
  right
  split at hb
  · simp only [mem_cons, not_mem_nil, or_false] at hb
    rcases hb with rfl | rfl
    · exact htwo _ (by omega)
    · exact htail _
  split at hb
  · simp only [mem_cons, not_mem_nil, or_false] at hb
    rcases hb with rfl | rfl | rfl
    · exact hthree _ (by omega)
    · exact htail _
    · exact htail _
  · simp only [mem_cons, not_mem_nil, or_false] at hb
    rcases hb with rfl | rfl | rfl | rfl
    · exact hfour _ (by omega)
    · exact htail _
    · exact htail _
    · exact htail _

/-- A byte of ASCII is in a text as a point. -/
theorem mem_encodeUtf8 (hv : ∀ p ∈ v, p ≤ 0x10ffff) (hb : b ∈ encodeUtf8 v) (hascii : b < 0x80) :
    b.toNat ∈ v := by
  obtain ⟨p, hp, hmem⟩ := mem_flatMap.1 hb
  rcases mem_utf8Of (hv p hp) hmem with ⟨hlt, rfl⟩ | hge
  · have htoNat : (UInt8.ofNat p).toNat = p := UInt8.toNat_ofNat_of_lt (Nat.lt_trans hlt (by decide))
    rwa [htoNat]
  · exact absurd hascii (UInt8.not_lt.2 hge)

theorem encode_bytes (hv : ∀ p ∈ v, p ≤ 0x10ffff) (hnul : 0 ∉ v) : (encode v).bytes = encodeUtf8 v :=
  strdup_bytes fun hmem => hnul (mem_encodeUtf8 hv hmem (by decide))

theorem encodeUtf8_ascii : ∀ {l : List UInt8}, (∀ b ∈ l, b < 0x80) → encodeUtf8 (l.map (·.toNat)) = l
  | [], _ => rfl
  | b :: l, h => by
    have hb : b.toNat < 0x80 := UInt8.lt_iff_toNat_lt.1 (h b mem_cons_self)
    rw [map_cons, encodeUtf8, flatMap_cons, utf8Of, if_pos hb, UInt8.ofNat_toNat]
    change [b] ++ encodeUtf8 (l.map (·.toNat)) = _
    rw [encodeUtf8_ascii fun c hc => h c (mem_cons_of_mem b hc)]
    rfl

theorem decodeUtf8_ascii {l : List UInt8} (h : ∀ b ∈ l, b < 0x80) : decodeUtf8 l = some (l.map (·.toNat)) := by
  conv_lhs => rw [← encodeUtf8_ascii h]
  refine decodeUtf8_encodeUtf8 fun p hp => ?_
  obtain ⟨b, -, rfl⟩ := List.mem_map.1 hp
  exact Nat.le_trans (Nat.le_of_lt b.toNat_lt) (by decide)

end Lunaria.Idn
