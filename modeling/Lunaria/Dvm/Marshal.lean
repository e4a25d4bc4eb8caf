import Mathlib.Data.List.TakeDrop
import Mathlib.Tactic.IntervalCases

/-! Arguments between registers and values in `dvm.c`: the walkers over a method signature, `slots_to_values` and
    `values_to_slots`. A C string is the list of its characters, and a pointer into it is what is left from there on. -/

namespace Lunaria.Dvm.Marshal
open List Option

abbrev CStr := List Char

/-! ### Descriptors -/

def kindOf : CStr → Char
  | [] => 'V'
  | c :: _ => if c ∈ ['Z', 'B', 'C', 'S', 'I', 'J', 'F', 'D', 'V'] then c else 'L'

def isWide (kind : Char) : Bool := kind = 'J' ∨ kind = 'D'

def slotsOf (kind : Char) : Nat := if isWide kind then 2 else if kind = 'V' then 0 else 1

/-- What is left behind one type descriptor. -/
def descSkip (p : CStr) : CStr :=
  match p.dropWhile (· = '[') with
  | 'L' :: p => (p.dropWhile (· ≠ ';')).tail
  | _ :: p => p
  | [] => []

/-- Where the loop `for (p = sig + 1; *p && *p != ')'; p = desc_skip(p))` stands in each round. -/
def paramsFrom : Nat → CStr → List CStr
  | 0, _ => []
  | fuel + 1, p => if p = [] ∨ p.head? = some ')' then [] else p :: paramsFrom fuel (descSkip p)

/-- The rounds over a signature; there are no more than it has characters. Nothing for one without an opening bracket. -/
def params : CStr → Option (List CStr)
  | '(' :: p => some (paramsFrom p.length p)
  | _ => none

/-- A sum over the parameters, or -1. -/
def sumParams (f : CStr → Nat) : List CStr → Nat → Int
  | [], n => n
  | p :: ps, n => if descSkip p = p then -1 else sumParams f ps (n + f p)

def dvmSigArgSlots (sig : CStr) : Int := ((params sig).map fun ps => sumParams (fun p => slotsOf (kindOf p)) ps 0).getD (-1)

def dvmSigArgCount (sig : CStr) : Int := ((params sig).map fun ps => sumParams (fun _ => 1) ps 0).getD (-1)

/-- Parameter descriptor `idx`, for a buffer of this size. -/
def dvmSigParam (sig : CStr) (idx sz : Nat) : Option CStr := do
  let p ← (← params sig)[idx]?
  let l := p.length - (descSkip p).length
  if sz < l + 1 then none else some (p.take l)

/-! ### Arguments -/

/-- `v.u = x` of `union dvm_value`, which is 64 bits wide. -/
def setU (v : UInt64) (x : UInt32) : UInt64 := v >>> 32 <<< 32 ||| x.toUInt64

def joined (lo hi : UInt32) : UInt64 := lo.toUInt64 ||| hi.toUInt64 <<< 32

/-- The rounds of `slots_to_values`, with `n` values and `s` slots done. -/
def toValues (slots : List UInt32) (max : Nat) : List CStr → Nat → Nat → List UInt64 → Nat × List UInt64
  | [], n, _, out => (n, out)
  | p :: ps, n, s, out =>
    if max ≤ n then (n, out)
    else if isWide (kindOf p) then
      toValues slots max ps (n + 1) (s + 2) (out.set n (joined (slots[s]?.getD 0) (slots[s + 1]?.getD 0)))
    else toValues slots max ps (n + 1) (s + 1) (out.set n (setU (out[n]?.getD 0) (slots[s]?.getD 0)))

/-- The number of values and the buffer. -/
def slotsToValues (sig : CStr) (slots : List UInt32) (out : List UInt64) (max : Nat) : Nat × List UInt64 :=
  match params sig with
  | none => (0, out)
  | some ps => toValues slots max ps 0 0 out

/-- The rounds of `values_to_slots`, with `n` values done; `out` has the slots so far. -/
def toSlots (vals : List UInt64) (max : Nat) : List CStr → Nat → List UInt32 → List UInt32
  | [], _, out => out
  | p :: ps, n, out =>
    let v := vals[n]?.getD 0
    if isWide (kindOf p) then
      if max - 1 ≤ out.length then out else toSlots vals max ps (n + 1) (out ++ [v.toUInt32, (v >>> 32).toUInt32])
    else if max ≤ out.length then out
    else toSlots vals max ps (n + 1) (out ++ [v.toUInt32])

def valuesToSlots (sig : CStr) (vals : List UInt64) (max : Nat) : List UInt32 :=
  match params sig with
  | none => []
  | some ps => toSlots vals max ps 0 []

/-- The values that `invoke_body` gives to a builtin and `dvm__call_out` to the host; the buffer is not initialised. -/
def callArgs (sig : CStr) (slots : List UInt32) (buffer : List UInt64) : List UInt64 :=
  let (n, args) := slotsToValues sig slots buffer 64
  args.take n

/-- The slots that `dvm_call` makes of its arguments. -/
def callSlots (sig : CStr) (args : List UInt64) : List UInt32 := valuesToSlots sig args 256

/-! ### Well-formed signatures -/

inductive Prim where
  | boolean | byte | char | short | int | long | float | double
deriving DecidableEq

def Prim.letter : Prim → Char
  | boolean => 'Z'
  | byte => 'B'
  | char => 'C'
  | short => 'S'
  | int => 'I'
  | long => 'J'
  | float => 'F'
  | double => 'D'

/-- The type of a parameter. -/
inductive Desc where
  | prim (t : Prim)
  | object (name : CStr) (h : ';' ∉ name)
  | array (elem : Desc)

namespace Desc

def text : Desc → CStr
  | prim t => [t.letter]
  | object name _ => 'L' :: name ++ [';']
  | array elem => '[' :: elem.text

def wide : Desc → Bool
  | prim .long => true
  | prim .double => true
  | _ => false

def width (d : Desc) : Nat := if d.wide then 2 else 1

/-- The registers from the slot on hold this value of the type. -/
def Holds (d : Desc) (slots : List UInt32) (s : Nat) (v : UInt64) : Prop :=
  if d.wide then ∃ lo hi, slots[s]? = some lo ∧ slots[s + 1]? = some hi ∧ v.toNat = lo.toNat + hi.toNat * 2 ^ 32
  else slots[s]? = some v.toUInt32

end Desc

/-- The parameters in brackets and what is returned. -/
def signature (ds : List Desc) (ret : CStr) : CStr := '(' :: (ds.flatMap Desc.text ++ ')' :: ret)

/-- The slots before parameter `k`. -/
def offset (ds : List Desc) (k : Nat) : Nat := ((ds.take k).map Desc.width).sum

/-- Where the walkers stand over the parameters. -/
def starts : List Desc → CStr → List CStr
  | [], _ => []
  | d :: ds, rest => (d.text ++ (ds.flatMap Desc.text ++ rest)) :: starts ds rest

section Walk
variable {d : Desc} {ds : List Desc} {rest ret : CStr}

theorem letter_plain (t : Prim) : t.letter ≠ '[' ∧ t.letter ≠ 'L' ∧ t.letter ≠ ')' := by cases t <;> decide

theorem text_cons (d : Desc) : ∃ c p, d.text = c :: p ∧ c ≠ ')' := by
  cases d with
  | prim t => exact ⟨_, _, rfl, (letter_plain t).2.2⟩
  | object name h => exact ⟨_, _, rfl, by decide⟩
  | array elem => exact ⟨_, _, rfl, by decide⟩

theorem descSkip_text (d : Desc) (rest : CStr) : descSkip (d.text ++ rest) = rest := by
  induction d with
  | prim t =>
    obtain ⟨h1, h2, -⟩ := letter_plain t
    rw [descSkip, Desc.text, singleton_append, dropWhile_cons_of_neg (by simpa using h1)]
    split
    · rename_i heq
      exact absurd (List.cons.inj heq).1 h2
    · rename_i heq
      exact (List.cons.inj heq).2.symm
    · rename_i heq
      cases heq
  | object name h =>
    have hname : ∀ c ∈ name, decide (c ≠ ';') = true := fun c hc => decide_eq_true fun heq => h (heq ▸ hc)
    rw [descSkip, Desc.text, cons_append, cons_append, append_assoc, dropWhile_cons_of_neg (by decide)]
    change ((name ++ ([';'] ++ rest)).dropWhile (· ≠ ';')).tail = rest
    rw [dropWhile_append_of_pos hname, singleton_append, dropWhile_cons_of_neg (by decide), tail_cons]
  | array elem ih =>
    rw [descSkip, Desc.text, cons_append, dropWhile_cons_of_pos (by decide)]
    exact ih

theorem kindOf_text (d : Desc) (rest : CStr) : isWide (kindOf (d.text ++ rest)) = d.wide ∧
    slotsOf (kindOf (d.text ++ rest)) = d.width := by
  cases d with
  | prim t => cases t <;> exact ⟨rfl, rfl⟩
  | object name h => exact ⟨rfl, rfl⟩
  | array elem => exact ⟨rfl, rfl⟩

theorem paramsFrom_eq : ∀ {fuel : Nat}, (ds.flatMap Desc.text ++ ')' :: ret).length ≤ fuel →
    paramsFrom fuel (ds.flatMap Desc.text ++ ')' :: ret) = starts ds (')' :: ret) := by
  induction ds with
  | nil =>
    intro fuel _
    cases fuel <;> rfl
  | cons d ds ih =>
    intro fuel hfuel
    obtain ⟨c, p, hc, hne⟩ := text_cons d
    rw [flatMap_cons, append_assoc] at hfuel ⊢
    cases fuel with
    | zero => simp [hc] at hfuel
    | succ fuel =>
      rw [paramsFrom, if_neg (by simp [hc, hne]), descSkip_text, ih, starts]
      rw [hc] at hfuel
      simp only [cons_append, length_cons, length_append] at hfuel ⊢
      omega

theorem params_signature : params (signature ds ret) = some (starts ds (')' :: ret)) :=
  congrArg some (paramsFrom_eq le_rfl)

theorem sumParams_starts {f : CStr → Nat} {g : Desc → Nat} (h : ∀ d rest, f (d.text ++ rest) = g d) (n : Nat) :
    sumParams f (starts ds rest) n = (n + (ds.map g).sum : Nat) := by
  induction ds generalizing n with
  | nil => simp [starts, sumParams]
  | cons d ds ih =>
    have hmove : descSkip (d.text ++ (ds.flatMap Desc.text ++ rest)) ≠ d.text ++ (ds.flatMap Desc.text ++ rest) := by
      obtain ⟨c, p, hc, -⟩ := text_cons d
      rw [descSkip_text, hc]
      intro heq
      have := congrArg List.length heq
      simp only [length_append, length_cons] at this
      omega
    rw [starts, sumParams, if_neg hmove, ih, h, map_cons, sum_cons, Nat.add_assoc]

theorem sigArgSlots_eq : dvmSigArgSlots (signature ds ret) = ((ds.map Desc.width).sum : Nat) := by
  rw [dvmSigArgSlots, params_signature, map_some, getD_some,
    sumParams_starts (fun d rest => (kindOf_text d rest).2), Nat.zero_add]

theorem sigArgCount_eq : dvmSigArgCount (signature ds ret) = (ds.length : Nat) := by
  rw [dvmSigArgCount, params_signature, map_some, getD_some, sumParams_starts (g := fun _ => 1) (fun _ _ => rfl),
    map_const', sum_replicate_nat, Nat.zero_add, Nat.mul_one]

theorem starts_getElem {k : Nat} (h : ds[k]? = some d) : ∃ p, (starts ds rest)[k]? = some (d.text ++ p) := by
  induction ds generalizing k with
  | nil => cases h
  | cons e ds ih =>
    cases k with
    | zero =>
      cases h
      exact ⟨_, rfl⟩
    | succ k => exact ih h

theorem sigParam_eq {k sz : Nat} (h : ds[k]? = some d) (hsz : d.text.length < sz) :
    dvmSigParam (signature ds ret) k sz = some d.text := by
  obtain ⟨p, hp⟩ := @starts_getElem _ _ (')' :: ret) _ h
  rw [dvmSigParam, params_signature]
  simp only [bind_eq_bind, bind_some, hp, descSkip_text, length_append]
  rw [Nat.add_sub_cancel, if_neg (by omega), take_left']
  rfl

end Walk

/-! ### Values -/

section Values

theorem joined_low (lo hi : UInt32) : (joined lo hi).toUInt32 = lo := by
  rw [← UInt32.toBitVec_inj]
  ext i hi'
  simp [joined]

theorem joined_toNat (lo hi : UInt32) : (joined lo hi).toNat = lo.toNat + hi.toNat * 2 ^ 32 := by
  have h1 : lo.toNat < 2 ^ 32 := lo.toNat_lt
  have h2 : hi.toNat < 2 ^ 32 := hi.toNat_lt
  have hshift : (hi.toUInt64 <<< 32).toNat = hi.toNat <<< 32 := by
    rw [UInt64.toNat_shiftLeft, UInt32.toNat_toUInt64, show (32 : UInt64).toNat % 64 = 32 from rfl, Nat.shiftLeft_eq]
    exact Nat.mod_eq_of_lt (by omega)
  rw [joined, UInt64.toNat_or, UInt32.toNat_toUInt64, hshift, Nat.or_comm, ← Nat.shiftLeft_add_eq_or_of_lt h1,
    Nat.shiftLeft_eq, Nat.add_comm]

theorem joined_high (lo hi : UInt32) : (joined lo hi >>> 32).toUInt32 = hi := by
  have h1 : lo.toNat < 2 ^ 32 := lo.toNat_lt
  have h2 : hi.toNat < 2 ^ 32 := hi.toNat_lt
  rw [← UInt32.toNat_inj, UInt64.toNat_toUInt32, UInt64.toNat_shiftRight, joined_toNat,
    show (32 : UInt64).toNat % 64 = 32 from rfl, Nat.shiftRight_eq_div_pow]
  omega

theorem setU_low (v : UInt64) (x : UInt32) : (setU v x).toUInt32 = x := by
  rw [← UInt32.toBitVec_inj]
  ext i hi
  simp [setU]

variable {d : Desc} {ds : List Desc} {rest ret : CStr} {slots : List UInt32} {n s max : Nat}

theorem offset_succ (d : Desc) (ds : List Desc) (k : Nat) : offset (d :: ds) (k + 1) = d.width + offset ds k := by
  rw [offset, take_succ_cons, map_cons, sum_cons, offset]

theorem toValues_spec : ∀ {n s : Nat} {out : List UInt64}, n + ds.length ≤ max → max ≤ out.length →
    s + (ds.map Desc.width).sum ≤ slots.length →
      ∃ out', toValues slots max (starts ds rest) n s out = (n + ds.length, out') ∧
      out'.length = out.length ∧ (∀ i < n, out'[i]? = out[i]?) ∧
      ∀ k d, ds[k]? = some d → ∃ v, out'[n + k]? = some v ∧ d.Holds slots (s + offset ds k) v := by
  induction ds with
  | nil => exact fun _ _ _ => ⟨_, rfl, rfl, fun _ _ => rfl, fun k d h => by cases h⟩
  | cons d ds ih =>
    intro n s out hmax hout hslots
    rw [length_cons] at hmax
    rw [map_cons, sum_cons] at hslots
    obtain ⟨hwide, -⟩ := kindOf_text d (ds.flatMap Desc.text ++ rest)
    have hstep : ∃ v, d.Holds slots s v ∧ toValues slots max (starts (d :: ds) rest) n s out =
        toValues slots max (starts ds rest) (n + 1) (s + d.width) (out.set n v) := by
      rw [starts, toValues, if_neg (by omega), hwide]
      rw [Desc.width] at hslots ⊢
      cases hw : d.wide with
      | true =>
        rw [hw, if_pos rfl] at hslots
        have hlo : slots[s]? = some slots[s] := getElem?_eq_getElem (by omega)
        have hhi : slots[s + 1]? = some slots[s + 1] := getElem?_eq_getElem (by omega)
        refine ⟨joined slots[s] slots[s + 1], ?_, by rw [if_pos rfl, if_pos rfl, hlo, hhi]; rfl⟩
        rw [Desc.Holds, hw, if_pos rfl]
        exact ⟨_, _, hlo, hhi, joined_toNat _ _⟩
      | false =>
        rw [hw, if_neg (by decide)] at hslots
        have hlo : slots[s]? = some slots[s] := getElem?_eq_getElem (by omega)
        refine ⟨setU (out[n]?.getD 0) slots[s], ?_, by rw [if_neg (by decide), if_neg (by decide), hlo]; rfl⟩
        rw [Desc.Holds, hw, if_neg (by decide), setU_low, hlo]
    obtain ⟨v, hv, heq⟩ := hstep
    obtain ⟨out', hrun, hlen, hbefore, hvals⟩ := @ih (n + 1) (s + d.width) (out.set n v) (by omega)
      (by simpa using hout) (by omega)
    refine ⟨out', by rw [heq, hrun, length_cons]; congr 1; omega, by simpa using hlen, fun i hi => ?_, fun k e he => ?_⟩
    · rw [hbefore i (by omega), getElem?_set_ne (by omega)]
    · cases k with
      | zero =>
        cases he
        refine ⟨v, ?_, hv⟩
        rw [Nat.add_zero, hbefore n (by omega), getElem?_set_self (by omega)]
      | succ k =>
        obtain ⟨w, hw, hholds⟩ := hvals k e he
        refine ⟨w, by rw [← hw]; congr 1; omega, ?_⟩
        rwa [offset_succ, ← Nat.add_assoc]

theorem toValues_full : ∀ {n s : Nat} {out : List UInt64}, n ≤ max → max < n + ds.length →
    (toValues slots max (starts ds rest) n s out).1 = max := by
  induction ds with
  | nil =>
    intro n s out hn hmax
    rw [length_nil] at hmax
    omega
  | cons d ds ih =>
    intro n s out hn hmax
    rw [length_cons] at hmax
    rw [starts, toValues]
    split_ifs with hfull
    · omega
    · exact ih (by omega) (by omega)
    · exact ih (by omega) (by omega)

theorem toSlots_spec {vals : List UInt64} : ∀ {n s : Nat}, s + (ds.map Desc.width).sum ≤ max →
    s + (ds.map Desc.width).sum ≤ slots.length →
    (∀ k d, ds[k]? = some d → ∃ v, vals[n + k]? = some v ∧ d.Holds slots (s + offset ds k) v) →
    toSlots vals max (starts ds rest) n (slots.take s) = slots.take (s + (ds.map Desc.width).sum) := by
  induction ds with
  | nil => exact fun _ _ _ => rfl
  | cons d ds ih =>
    intro n s hmax hslots hvals
    rw [map_cons, sum_cons] at hmax hslots ⊢
    obtain ⟨hwide, -⟩ := kindOf_text d (ds.flatMap Desc.text ++ rest)
    obtain ⟨v, hv, hholds⟩ := hvals 0 d rfl
    rw [Nat.add_zero] at hv
    have hlen : (slots.take s).length = s := by rw [length_take]; omega
    have hrest : ∀ k e, ds[k]? = some e → ∃ v, vals[n + 1 + k]? = some v ∧ e.Holds slots (s + d.width + offset ds k) v := by
      intro k e he
      obtain ⟨w, hw, hh⟩ := hvals (k + 1) e he
      refine ⟨w, by rw [← hw]; congr 1; omega, ?_⟩
      rwa [offset_succ, ← Nat.add_assoc] at hh
    have hnext := @ih (n + 1) (s + d.width) (by omega) (by omega) hrest
    have hstep : toSlots vals max (starts (d :: ds) rest) n (slots.take s) =
        toSlots vals max (starts ds rest) (n + 1) (slots.take (s + d.width)) := by
      rw [starts, toSlots, hwide, hv, hlen]
      rw [Desc.width] at hmax ⊢
      rw [Desc.Holds, offset, take_zero, map_nil, sum_nil, Nat.add_zero] at hholds
      cases hw : d.wide with
      | true =>
        rw [hw, if_pos rfl] at hholds hmax
        obtain ⟨lo, hi, hlo, hhi, hnat⟩ := hholds
        obtain rfl : v = joined lo hi := UInt64.toNat_inj.1 (hnat.trans (joined_toNat lo hi).symm)
        rw [if_pos rfl, if_neg (by omega), if_pos rfl, getD_some, joined_low, joined_high, take_add_one, take_add_one,
          hlo, hhi, append_assoc]
        rfl
      | false =>
        rw [hw, if_neg (by decide)] at hholds hmax
        rw [if_neg (by decide), if_neg (by omega), if_neg (by decide), getD_some, take_add_one, hholds]
        rfl
    rw [hstep, hnext, Nat.add_assoc]

/-- Calls lose nothing just when there are no more than 64 parameters: the builtin or native method gets as many values as
    the signature declares, each is what the registers of its parameter hold, and they make the same slots again. -/
theorem arguments_kept_iff (ds : List Desc) (ret : CStr) (slots : List UInt32) (buffer : List UInt64)
    (hslots : dvmSigArgSlots (signature ds ret) = slots.length) (hfew : slots.length ≤ 255) (hbuffer : buffer.length = 64) :
    ((callArgs (signature ds ret) slots buffer).length = dvmSigArgCount (signature ds ret) ∧
      callSlots (signature ds ret) (callArgs (signature ds ret) slots buffer) = slots ∧
      ∀ k d, ds[k]? = some d → dvmSigParam (signature ds ret) k (d.text.length + 1) = some d.text ∧
        ∃ v, (callArgs (signature ds ret) slots buffer)[k]? = some v ∧ d.Holds slots (offset ds k) v) ↔
    dvmSigArgCount (signature ds ret) ≤ 64 := by
  rw [sigArgCount_eq]
  rw [sigArgSlots_eq, Int.natCast_inj] at hslots
  rw [callArgs, slotsToValues, params_signature]
  dsimp only
  constructor
  · rintro ⟨hcount, -⟩
    by_contra hmany
    have hfull := @toValues_full ds (')' :: ret) slots 64 0 0 buffer (by omega) (by omega)
    rw [hfull, length_take] at hcount
    omega
  · intro hmany
    obtain ⟨out, hrun, hlen, -, hvals⟩ := @toValues_spec ds (')' :: ret) slots 64 0 0 buffer (by omega)
      (by omega) (by omega)
    simp only [Nat.zero_add] at hrun hvals
    rw [hrun]
    dsimp only
    have htake : ∀ k (d : Desc), ds[k]? = some d → ∃ v, (out.take ds.length)[k]? = some v ∧
        d.Holds slots (offset ds k) v := by
      intro k d hk
      obtain ⟨v, hv, hholds⟩ := hvals k d hk
      have hlt := (List.getElem?_eq_some_iff.1 hk).1
      exact ⟨v, by rw [getElem?_take_of_lt hlt, hv], hholds⟩
    refine ⟨?_, ?_, fun k d hk => ⟨sigParam_eq hk (Nat.lt_succ_self _), htake k d hk⟩⟩
    · rw [length_take]
      omega
    · rw [callSlots, valuesToSlots, params_signature]
      have hback := @toSlots_spec ds (')' :: ret) slots 256 (out.take ds.length) 0 0 (by omega) (by omega)
        (by simpa only [Nat.zero_add] using htake)
      rw [take_zero, Nat.zero_add] at hback
      dsimp only
      rw [hback, take_of_length_le (by omega)]

end Values

/-- A long, an object and an integer. -/
theorem arguments_kept_mixed : (callArgs (signature [.prim .long, .object ['A'] (by decide), .prim .int] ['V'])
      [1, 2, 3, 4] (replicate 64 7)).length = 3 ∧
    callSlots (signature [.prim .long, .object ['A'] (by decide), .prim .int] ['V'])
      (callArgs (signature [.prim .long, .object ['A'] (by decide), .prim .int] ['V']) [1, 2, 3, 4] (replicate 64 7)) =
        [1, 2, 3, 4] := by
  obtain ⟨hcount, hback, -⟩ := (arguments_kept_iff [.prim .long, .object ['A'] (by decide), .prim .int] ['V'] [1, 2, 3, 4]
    (replicate 64 7) (by decide) (by decide) (by decide)).2 (by decide)
  exact ⟨by rw [← Int.natCast_inj, hcount]; decide, hback⟩

/-- The last of 65 integers does not arrive. -/
theorem last_argument_lost :
    dvmSigArgSlots (signature (replicate 65 (.prim .int)) ['V']) = (replicate 65 (1 : UInt32)).length ∧
    dvmSigArgCount (signature (replicate 65 (.prim .int)) ['V']) = 65 ∧
    (callArgs (signature (replicate 65 (.prim .int)) ['V']) (replicate 65 1) (replicate 64 0)).length = 64 := by
  refine ⟨?_, ?_, ?_⟩
  · rw [sigArgSlots_eq]
    decide
  · rw [sigArgCount_eq]
    decide
  · decide +kernel

end Lunaria.Dvm.Marshal
