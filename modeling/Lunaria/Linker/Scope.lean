import Mathlib.Data.List.Find
import Lunaria.Lib.BreadthFirst
import Lunaria.Linker.Find

/-! The registry of images and the lookup of a name in the scope of one of them: itself where it is linked symbolically,
    the main and the other global images, and what it depends on, breadth first. The dependencies are those of the last
    `ln64_link_deps`, which `ln64_remove` runs too. -/

namespace Lunaria.Linker
open BreadthFirst List Function

/-- `g_mods`, and the records at the pointers: the images, with their `deps`. A pointer is not given out twice. -/
structure Registry where
  mods : List Nat
  module : Nat → Module
  deps : Nat → List Nat
  next : Nat

namespace Registry
variable (H : Host) (r : Registry)

def empty : Registry := ⟨[], fun _ => default, fun _ => [], 0⟩

/-- `mods_push` of a new image. -/
def push (m : Module) : Registry :=
  ⟨r.mods ++ [r.next], update r.module r.next m, update r.deps r.next [], r.next + 1⟩

/-- An image goes by its soname or by the last part of its path. -/
def goesBy (want : List UInt8) (j : Nat) : Bool :=
  (r.module j).soname = want || basenameOf (r.module j).path = want

/-- The images, of a list, that the `DT_NEEDED` entries name: for each the first that goes by it. -/
def resolve (mods : List Nat) (i : Nat) : List Nat :=
  match (r.module i).strtab with
  | none => []
  | some t => (r.module i).neededOff.filterMap fun off => mods.find? (r.goesBy (H.str (t + off.toNat)))

/-- `ln64_link_deps`. What one image resolves to does not depend on what the others do. -/
def linkDeps : Registry :=
  { r with deps := fun i =>
      if i ∈ r.mods ∧ (r.module i).neededOff ≠ [] ∧ (r.module i).strtab.isSome then r.resolve H r.mods i else r.deps i }

/-- `ln64_remove` -/
def remove (i : Nat) : Registry :=
  if i ∈ r.mods then linkDeps H { r with mods := r.mods.erase i } else r

end Registry

/-- What calls of the three functions make of the registry, and the images there were at the last linking. -/
inductive Reachable (H : Host) : Registry → List Nat → Prop
  | empty : Reachable H .empty []
  | add {r : Registry} {k : List Nat} (path : List UInt8) (bias dynamicOff : UInt32) (elfClass : Nat)
      (isGlobal isMain : Bool) {m : Module} : Reachable H r k →
      addElf H path bias dynamicOff elfClass isGlobal isMain = some m → Reachable H (r.push m) k
  | link {r : Registry} {k : List Nat} : Reachable H r k → Reachable H (r.linkDeps H) r.mods
  | remove {r : Registry} {k : List Nat} (i : Nat) : Reachable H r k →
      Reachable H (r.remove H i) (if i ∈ r.mods then r.mods.erase i else k)

/-! The lookup. -/

/-- `struct ln64_sym` -/
structure LnSym where
  value : UInt32
  size : UInt32
  info : UInt8
  other : UInt8
  name : List UInt8
  owner : Nat
  deriving DecidableEq

/-- Goes on where the search before has found nothing. It stays in a search that does not end. -/
def orElse {β : Type} (x : Option (Option β)) (y : Unit → Option (Option β)) : Option (Option β) :=
  match x with
  | none => none
  | some (some b) => some (some b)
  | some none => y ()

section Lookup
variable (H : Host) (r : Registry)

/-- `take` -/
def take (name : List UInt8) (i : Nat) (n : UInt32) : LnSym :=
  let s := symbolAt H (r.module i) n
  ⟨(r.module i).bias + s.value.toUInt32, s.size.toUInt32, s.info, s.other, name, i⟩

/-- `mod_find` of a registered image, with the symbol it finds. -/
def searched (name : List UInt8) (want : Option (List UInt8)) (steps : Nat) (i : Nat) : Option (Option LnSym) :=
  (modFind H (r.module i) name want steps).found.map fun f => f.map (take H r name i)

variable (search : Nat → Option (Option LnSym))

/-- The inner loop over the registry: the global images that are main images, or those that are not. -/
def globalLoop (mainPass : Bool) : List Nat → Option (Option LnSym)
  | [] => some none
  | i :: l =>
    if !(r.module i).isGlobal || (r.module i).isMain != mainPass then globalLoop mainPass l
    else orElse (search i) fun _ => globalLoop mainPass l

/-- The dependencies go to the end of `g_bfs`, where they are not there yet and there is room for `g_mods_n + 1`. -/
def enqueue (q ds : List Nat) : List Nat :=
  ds.foldl (fun q d => if d ∈ q then q else if q.length < r.mods.length + 1 then q ++ [d] else q) q

/-- The loop over `g_bfs`. It is given a number of steps, and does not end where they run out. -/
def bfsLoop : Nat → Nat → List Nat → Option (Option LnSym)
  | 0, _, _ => none
  | k + 1, head, q =>
    match q[head]? with
    | none => some none
    | some m =>
      orElse (if (r.module m).isGlobal then some none else search m) fun _ =>
        bfsLoop k (head + 1) (enqueue r q (r.deps m))

/-- `ln64_lookup` -/
def lookup (ref : Option Nat) (name : List UInt8) (refSymIdx : UInt32) (steps : Nat) : Option (Option LnSym) :=
  if name = [] then some none
  else
    let want := ref.bind fun f => (refVersion H (r.module f) refSymIdx).map H.str
    let search := searched H r name want steps
    orElse (match ref with
      | some f => if (r.module f).symbolic then search f else some none
      | none => some none) fun _ =>
    orElse (globalLoop r search true r.mods) fun _ =>
    orElse (globalLoop r search false r.mods) fun _ =>
      match ref with
      | some f => bfsLoop r search (r.mods.length + 2) 0 [f]
      | none => some none

end Lookup

/-! What the registry keeps. -/

section Kept
variable {H : Host} {r : Registry} {k : List Nat}

/-- The images are distinct and were given out; the linked ones are among them, and the dependencies are what the
    `DT_NEEDED` entries named at the last linking, of the images that were linked then. -/
structure Linked (H : Host) (r : Registry) (k : List Nat) : Prop where
  nodup : r.mods.Nodup
  old : ∀ i ∈ r.mods, i < r.next
  sub : ∀ i ∈ k, i ∈ r.mods
  deps : ∀ i ∈ r.mods, r.deps i = if i ∈ k then r.resolve H k i else []

variable {mods : List Nat}

theorem resolve_sub {i d : Nat} (hd : d ∈ r.resolve H mods i) : d ∈ mods := by
  unfold Registry.resolve at hd
  split at hd
  · cases hd
  · obtain ⟨off, -, hoff⟩ := mem_filterMap.1 hd
    exact mem_of_find?_eq_some hoff

/-- Another image does not change what the old ones resolve to. -/
theorem resolve_push {m : Module} (hmods : ∀ j ∈ mods, j < r.next) {i : Nat} (hi : i < r.next) :
    (r.push m).resolve H mods i = r.resolve H mods i := by
  have hold : ∀ j, j < r.next → (r.push m).module j = r.module j := fun j hj => update_of_ne hj.ne _ _
  unfold Registry.resolve
  rw [hold i hi]
  split
  · rfl
  · refine filterMap_congr fun off _ => find?_congr fun j hj => ?_
    unfold Registry.goesBy
    rw [hold j (hmods j hj)]

/-- Linking makes the dependencies those of the images there are, where what has nothing to resolve had none. -/
theorem linkDeps_linked (hn : r.mods.Nodup) (ho : ∀ i ∈ r.mods, i < r.next)
    (hd : ∀ i ∈ r.mods, (∀ mods, r.resolve H mods i = []) → r.deps i = []) : Linked H (r.linkDeps H) r.mods where
  nodup := hn
  old := ho
  sub _ hi := hi
  deps i hi := by
    have hmem : i ∈ r.mods := hi
    rw [if_pos hmem]
    unfold Registry.linkDeps
    dsimp only
    split
    · rfl
    · rename_i hno
      have hnone : ∀ mods, r.resolve H mods i = [] := by
        intro mods
        unfold Registry.resolve
        split
        · rfl
        · rename_i t ht
          have hempty : (r.module i).neededOff = [] := by
            by_contra hne
            exact hno ⟨hmem, hne, by rw [ht]; rfl⟩
          rw [hempty]
          rfl
      exact (hd i hmem hnone).trans (hnone _).symm

theorem Linked.deps_nil (h : Linked H r k) {i : Nat} (hi : i ∈ r.mods) (hnone : ∀ mods, r.resolve H mods i = []) :
    r.deps i = [] := by
  rw [h.deps i hi, hnone, ite_self]

theorem Linked.link (h : Linked H r k) : Linked H (r.linkDeps H) r.mods :=
  linkDeps_linked h.nodup h.old fun _ => h.deps_nil

theorem Linked.push (h : Linked H r k) (m : Module) : Linked H (r.push m) k where
  nodup := nodup_append.2 ⟨h.nodup, nodup_singleton _, fun a ha b hb hab =>
    absurd (h.old a ha) (by rw [hab, mem_singleton.1 hb]; exact lt_irrefl _)⟩
  old i hi := by
    rcases mem_append.1 hi with hi | hi
    · exact Nat.lt_succ_of_lt (h.old i hi)
    · rw [mem_singleton.1 hi]
      exact Nat.lt_succ_self _
  sub i hi := mem_append_left _ (h.sub i hi)
  deps i hi := by
    have hk : ∀ j ∈ k, j < r.next := fun j hj => h.old j (h.sub j hj)
    rcases mem_append.1 hi with hi | hi
    · have hlt := h.old i hi
      rw [resolve_push hk hlt, ← h.deps i hi]
      exact update_of_ne hlt.ne _ _
    · rw [mem_singleton.1 hi, if_neg fun hin => lt_irrefl _ (hk _ hin)]
      exact update_self _ _ _

theorem Linked.remove (h : Linked H r k) (i : Nat) :
    Linked H (r.remove H i) (if i ∈ r.mods then r.mods.erase i else k) := by
  unfold Registry.remove
  split
  · exact linkDeps_linked (r := { r with mods := r.mods.erase i }) (h.nodup.erase i)
      (fun j hj => h.old j (mem_of_mem_erase hj)) fun j hj => h.deps_nil (mem_of_mem_erase hj)
  · exact h

theorem Reachable.linked (h : Reachable H r k) : Linked H r k := by
  induction h with
  | empty => exact ⟨nodup_nil, nofun, nofun, nofun⟩
  | add _ _ _ _ _ _ _ _ ih => exact ih.push _
  | link _ ih => exact ih.link
  | remove i _ ih => exact ih.remove i

end Kept

/-! The scope. -/

section Scope
variable {H : Host} {r : Registry} {k : List Nat}

/-- The images that a lookup asks, in order: the referring image where it is linked symbolically, the main images and the
    others of the global ones, and those of the local group that are not global. -/
def scope (r : Registry) (ref : Option Nat) (localGroup : List Nat) : List Nat :=
  (match ref with
    | some f => if (r.module f).symbolic then [f] else []
    | none => []) ++
  (r.mods.filter fun i => (r.module i).isGlobal && (r.module i).isMain) ++
  (r.mods.filter fun i => (r.module i).isGlobal && !(r.module i).isMain) ++
  localGroup.filter fun i => !(r.module i).isGlobal

variable {search : Nat → Option (Option LnSym)}

def firstIn (search : Nat → Option (Option LnSym)) : List Nat → Option (Option LnSym)
  | [] => some none
  | i :: l => orElse (search i) fun _ => firstIn search l

variable {β : Type} {x : Option (Option β)} {l : List Nat} {out : LnSym} {ref : Option Nat} {name : List UInt8}
  {localGroup : List Nat}

@[simp] theorem orElse_nothing {y : Unit → Option (Option β)} : orElse (some none) y = y () := rfl

theorem orElse_assoc {y z : Unit → Option (Option β)} :
    orElse (orElse x y) z = orElse x fun u => orElse (y u) z := by
  rcases x with _ | _ | b <;> rfl

theorem orElse_nothing_right : (orElse x fun _ => some none) = x := by
  rcases x with _ | _ | b <;> rfl

theorem firstIn_append {l l' : List Nat} :
    firstIn search (l ++ l') = orElse (firstIn search l) fun _ => firstIn search l' := by
  induction l with
  | nil => rfl
  | cons i l ih =>
    rw [cons_append, firstIn, firstIn, orElse_assoc]
    exact congrArg _ (funext fun _ => ih)

theorem firstIn_eq_some : firstIn search l = some (some out) ↔
    ∃ l₁ i l₂, l = l₁ ++ i :: l₂ ∧ (∀ j ∈ l₁, search j = some none) ∧ search i = some (some out) := by
  induction l with
  | nil => simp [firstIn]
  | cons i l ih =>
    rw [firstIn]
    constructor
    · intro h
      rcases hi : search i with _ | _ | b
      · rw [hi] at h
        cases h
      · rw [hi] at h
        obtain ⟨l₁, j, l₂, rfl, hbefore, hj⟩ := ih.1 h
        refine ⟨i :: l₁, j, l₂, rfl, fun a ha => ?_, hj⟩
        rcases mem_cons.1 ha with rfl | ha
        · exact hi
        · exact hbefore a ha
      · rw [hi] at h
        exact ⟨[], i, l, rfl, nofun, hi.trans h⟩
    · rintro ⟨l₁, j, l₂, hl, hbefore, hj⟩
      cases l₁ with
      | nil =>
        cases hl
        rw [hj]
        rfl
      | cons a l₁ =>
        cases hl
        rw [hbefore i mem_cons_self, orElse_nothing]
        exact ih.2 ⟨l₁, j, l₂, rfl, fun b hb => hbefore b (mem_cons_of_mem i hb), hj⟩

theorem firstIn_eq_none : firstIn search l = some none ↔ ∀ i ∈ l, search i = some none := by
  induction l with
  | nil => simp [firstIn]
  | cons i l ih =>
    rw [firstIn, forall_mem_cons, ← ih]
    rcases search i with _ | _ | b <;> simp [orElse]

theorem firstIn_ends (h : ∀ i ∈ l, search i ≠ none) : firstIn search l ≠ none := by
  induction l with
  | nil => nofun
  | cons i l ih =>
    rw [firstIn]
    rcases hi : search i with _ | _ | b
    · exact absurd hi (h i mem_cons_self)
    · exact ih fun j hj => h j (mem_cons_of_mem i hj)
    · nofun

/-- The loops of the lookup ask the images of the scope. -/
theorem globalLoop_eq {mainPass : Bool} : globalLoop r search mainPass l =
    firstIn search (l.filter fun i => (r.module i).isGlobal && (r.module i).isMain == mainPass) := by
  induction l with
  | nil => rfl
  | cons i l ih =>
    rw [globalLoop, filter_cons, ih]
    cases (r.module i).isGlobal <;> cases (r.module i).isMain <;> cases mainPass <;> rfl

/-- There is room for what is put into the queue. -/
theorem enqueue_eq {q ds : List Nat} (hroom : (add q ds).length ≤ r.mods.length) : enqueue r q ds = add q ds := by
  induction ds generalizing q with
  | nil => rfl
  | cons d ds ih =>
    rw [add_cons] at hroom ⊢
    have hstep : enqueue r q (d :: ds) =
        enqueue r (if d ∈ q then q else if q.length < r.mods.length + 1 then q ++ [d] else q) ds := rfl
    by_cases hd : d ∈ q
    · rw [if_pos hd] at hroom ⊢
      rw [hstep, if_pos hd]
      exact ih hroom
    · rw [if_neg hd] at hroom ⊢
      have hlen : (q ++ [d]).length ≤ r.mods.length := Nat.le_trans isPrefix_add.length_le hroom
      have hlt : q.length < r.mods.length + 1 := by
        rw [length_append] at hlen
        exact Nat.lt_succ_of_le (Nat.le_of_add_right_le hlen)
      rw [hstep, if_neg hd, if_pos hlt]
      exact ih hroom

theorem bfsLoop_eq (search : Nat → Option (Option LnSym)) {f : Nat} (hl : IsOrder r.deps f l)
    (hroom : l.length ≤ r.mods.length) :
    ∀ (n h : Nat), h ≤ l.length → l.length < n + h → bfsLoop r search n h (queue r.deps f l h) =
      firstIn search ((l.drop h).filter fun i => !(r.module i).isGlobal) := by
  intro n
  induction n with
  | zero => intro h hh hn; omega
  | succ n ih =>
    intro h hh hn
    rw [bfsLoop]
    rcases hh.lt_or_eq with hlt | rfl
    · rw [hl.queue_getElem? hlt, getElem?_eq_getElem hlt]
      have hnext : enqueue r (queue r.deps f l h) (r.deps l[h]) = queue r.deps f l (h + 1) := by
        rw [queue_succ (getElem?_eq_getElem hlt)]
        refine enqueue_eq ?_
        rw [← queue_succ (getElem?_eq_getElem hlt)]
        exact (hl.queue_isPrefix _).length_le.trans hroom
      dsimp only
      rw [hnext, ih (h + 1) hlt (by omega), drop_eq_getElem_cons hlt, filter_cons]
      cases (r.module l[h]).isGlobal <;> rfl
    · have hend : (queue r.deps f l l.length)[l.length]? = none := by
        rw [hl.queue_length, getElem?_length]
      rw [hend, drop_length]
      rfl

/-- What an image of the registry depends on is in the registry. -/
theorem Linked.reaches (h : Linked H r k) {f x : Nat} (hf : f ∈ r.mods) (hx : Reaches r.deps f x) : x ∈ r.mods := by
  refine Reaches.mem_of_closed (P := (· ∈ r.mods)) hf (fun a ha b hb => ?_) hx
  rw [h.deps a ha] at hb
  split at hb
  · exact h.sub b (resolve_sub hb)
  · cases hb

theorem lookup_eq (h : Linked H r k) (hreg : ∀ f, ref = some f → f ∈ r.mods)
    (hname : name ≠ []) (idx : UInt32) (steps : Nat)
    (hl : ∀ f, ref = some f → IsOrder r.deps f localGroup) (hnone : ref = none → localGroup = []) :
    lookup H r ref name idx steps =
      firstIn (searched H r name (ref.bind fun f => (refVersion H (r.module f) idx).map H.str) steps)
        (scope r ref localGroup) := by
  unfold lookup scope
  rw [if_neg hname]
  dsimp only
  rw [firstIn_append, firstIn_append, firstIn_append, orElse_assoc, orElse_assoc, globalLoop_eq, globalLoop_eq]
  simp only [beq_true, beq_false]
  cases ref with
  | none =>
    rw [hnone rfl]
    rfl
  | some f =>
    have hroom : localGroup.length ≤ r.mods.length :=
      (List.Nodup.subperm (hl f rfl).nodup fun x hx => h.reaches (hreg f rfl) (((hl f rfl).mem x).1 hx)).length_le
    have hbfs := bfsLoop_eq (searched H r name ((some f).bind fun f => (refVersion H (r.module f) idx).map H.str) steps)
      (hl f rfl) hroom (r.mods.length + 2) 0 (Nat.zero_le _) (by omega)
    rw [queue_zero, drop_zero] at hbfs
    dsimp only
    rw [hbfs]
    cases (r.module f).symbolic
    · rfl
    · simp only [if_true, firstIn, orElse_nothing_right]

theorem scope_sub (hreg : ∀ f, ref = some f → f ∈ r.mods)
    (hlocal : ∀ i ∈ localGroup, i ∈ r.mods) : ∀ i ∈ scope r ref localGroup, i ∈ r.mods := by
  intro i hi
  simp only [scope, mem_append, mem_filter] at hi
  rcases hi with ((hi | ⟨hi, -⟩) | ⟨hi, -⟩) | ⟨hi, -⟩
  · cases ref with
    | none => cases hi
    | some f =>
      dsimp only at hi
      split at hi
      · rw [mem_singleton.1 hi]
        exact hreg f rfl
      · cases hi
  · exact hi
  · exact hi
  · exact hlocal i hi

theorem searched_owner {want : Option (List UInt8)} {steps i : Nat}
    (h : searched H r name want steps i = some (some out)) : out.owner = i := by
  simp only [searched, Option.map_eq_some_iff] at h
  obtain ⟨f, -, n, -, rfl⟩ := h
  rfl

/-- A lookup answers with the first image of its scope that has the name, of the version asked for, and with nothing where
    none has it; it ends where the searches of the images do. The local group is the breadth-first order of what the
    referring image depends on, by what the `DT_NEEDED` entries named at the last linking, and no image of the scope or of
    that group has been removed. -/
theorem lookup_follows_scope (hr : Reachable H r k) {ref : Option Nat} (hreg : ∀ f, ref = some f → f ∈ r.mods)
    {name : List UInt8} (hname : name ≠ []) (idx : UInt32) (steps : Nat) :
    (∀ i ∈ r.mods, r.deps i = if i ∈ k then r.resolve H k i else []) ∧
    ∃ localGroup, (∀ f, ref = some f → IsOrder r.deps f localGroup) ∧ (ref = none → localGroup = []) ∧
      (∀ i ∈ localGroup, i ∈ r.mods) ∧
      let search := searched H r name (ref.bind fun f => (refVersion H (r.module f) idx).map H.str) steps
      (∀ out, lookup H r ref name idx steps = some (some out) ↔ ∃ l₁ i l₂, scope r ref localGroup = l₁ ++ i :: l₂ ∧
        (∀ j ∈ l₁, search j = some none) ∧ search i = some (some out)) ∧
      (lookup H r ref name idx steps = some none ↔ ∀ i ∈ scope r ref localGroup, search i = some none) ∧
      ((∀ i ∈ scope r ref localGroup, search i ≠ none) → lookup H r ref name idx steps ≠ none) ∧
      ∀ out, lookup H r ref name idx steps = some (some out) → out.owner ∈ r.mods := by
  have h := hr.linked
  have hgroup : ∃ localGroup, (∀ f, ref = some f → IsOrder r.deps f localGroup) ∧ (ref = none → localGroup = []) ∧
      ∀ i ∈ localGroup, i ∈ r.mods := by
    cases ref with
    | none => exact ⟨[], nofun, fun _ => rfl, nofun⟩
    | some f =>
      obtain ⟨l, hl⟩ := exists_order fun x => h.reaches (hreg f rfl)
      refine ⟨l, ?_, nofun, fun i hi => h.reaches (hreg f rfl) ((hl.mem i).1 hi)⟩
      rintro g hg
      cases hg
      exact hl
  obtain ⟨localGroup, hl, hnone, hlocal⟩ := hgroup
  refine ⟨h.deps, localGroup, hl, hnone, hlocal, ?_⟩
  dsimp only
  rw [lookup_eq h hreg hname idx steps hl hnone]
  refine ⟨fun out => firstIn_eq_some, firstIn_eq_none, firstIn_ends, fun out hout => ?_⟩
  obtain ⟨l₁, i, l₂, hscope, -, hi⟩ := firstIn_eq_some.1 hout
  rw [searched_owner hi]
  exact scope_sub hreg hlocal i (hscope ▸ mem_append_right _ mem_cons_self)

end Scope

/-! A library that needs `b`, and `b`, which has a symbol `f` and one without a name. -/

def twoLibraries : Host := .ofWords
  [0, 0, 0, 0,
    -- two dynamic segments: DT_STRTAB, DT_SYMTAB, DT_NEEDED; DT_STRTAB, DT_SYMTAB, DT_SONAME, DT_HASH
    5, 128, 6, 144, 1, 3, 0, 0, 5, 128, 6, 144, 14, 3, 4, 192, 0, 0, 0, 0, 0, 0, 0, 0, 0, 0, 0, 0,
    0x62006600, 0, 0, 0,
    0, 0, 0, 0, 1, 0x1000, 4, 0x10012, 0, 0x1010, 4, 0x10012,
    1, 3, 2, 0, 0, 1]

def library (dynamicOff : UInt32) : Option Module := addElf twoLibraries [] 0 dynamicOff 1 false false

theorem libraries_load : (library 16).isSome ∧ (library 48).isSome := by decide

/-- Both libraries registered, before anything is linked. -/
def registered : Registry :=
  (Registry.empty.push ((library 16).get libraries_load.1)).push ((library 48).get libraries_load.2)

theorem registered_reachable : Reachable twoLibraries registered [] :=
  .add [] 0 48 1 false false (.add [] 0 16 1 false false .empty (Option.some_get libraries_load.1).symm)
    (Option.some_get libraries_load.2).symm

theorem lookup_follows_scope_linked :
    (∀ i ∈ [0, 1], (registered.linkDeps twoLibraries).deps i =
      if i ∈ [0, 1] then (registered.linkDeps twoLibraries).resolve twoLibraries [0, 1] i else []) ∧
    ∃ localGroup, IsOrder (registered.linkDeps twoLibraries).deps 0 localGroup := by
  have hzero : ∀ f, some 0 = some f → f ∈ (registered.linkDeps twoLibraries).mods := by
    rintro f ⟨⟩
    decide
  obtain ⟨hdeps, l, hl, -⟩ := lookup_follows_scope (.link registered_reachable) hzero (by decide : [(102 : UInt8)] ≠ [])
    noVersion 3
  exact ⟨hdeps, l, hl 0 rfl⟩

/-- Before the libraries are linked, the one that needs `b` does not find what `b` defines; and an empty name is found by
    none, although `b` has a symbol of that name. -/
theorem lookup_before_linking : Reachable twoLibraries registered [] ∧
    1 ∈ registered.resolve twoLibraries registered.mods 0 ∧
    (searched twoLibraries registered [102] none 3 1).map (·.isSome) = some true ∧
    lookup twoLibraries registered (some 0) [102] noVersion 3 = some none ∧
    (lookup twoLibraries (registered.linkDeps twoLibraries) (some 0) [102] noVersion 3).map (·.isSome) = some true ∧
    (searched twoLibraries registered [] none 3 1).map (·.isSome) = some true ∧
    lookup twoLibraries (registered.linkDeps twoLibraries) (some 0) [] noVersion 3 = some none :=
  ⟨registered_reachable, by decide +kernel⟩

end Lunaria.Linker
