import Mathlib
import Lunaria.Dvm.Lookup

/-! What the caches of lookups answer. A table of methods and the targets beside a method never change what is found, so
    that a default method is bypassed just where the walk bypasses it. A place of a thread holds the field that was found
    for its class under some type, and the type is not part of what is compared: the place misleads a lookup if the field
    there fits it and an earlier field of the same name fits it too. -/

namespace Lunaria.Dvm.Lookup
open List Option Function
open Resolve (Method Hierarchy)
open Probing (insert find entryAt Reached)

/-! ### Methods -/

section
variable {Id : Type} {g : Hierarchy Id} {c : Id} {name : String} {sig : Option String} {m : Method Id} {t : Mcache Id}

/-- What a table may hold: the answers of the walk. -/
structure Mcache.Ok (g : Hierarchy Id) (c : Id) (t : Mcache Id) : Prop where
  reached : Reached mcacheHome t.slots
  len : t.slots.reduceOption.length = t.len
  room : t.len ≤ t.slots.length - t.slots.length / 4
  size : t.slots.length = 0 ∨ ∃ k, t.slots.length = 16 * 2 ^ k
  sound : ∀ s ∈ t.slots.reduceOption, ∀ name, s.name = some name → g.resolve name s.sig c = some s.m

theorem Mcache.ok_empty : Mcache.Ok g c ⟨[], 0⟩ where
  reached := Probing.reached_replicate 0
  len := rfl
  room := Nat.zero_le _
  size := .inl rfl
  sound _ h := absurd h not_mem_nil

theorem Mcache.Ok.get {h : UInt32} (ht : t.Ok g c) (hget : mcacheGet t h name sig = some m) :
    g.resolve name sig c = some m := by
  obtain ⟨s, hs, rfl⟩ := map_eq_some_iff.1 hget
  obtain ⟨p, hp, hat⟩ := bind_eq_some_iff.1 hs
  have hpasses := Probing.probe_stops hp
  rw [hat] at hpasses
  have hkey : s.hash = h ∧ s.name = some name ∧ s.sig = sig := by simpa [mcacheKeyEq] using hpasses
  rw [← hkey.2.2]
  exact ht.sound s (Probing.mem_reduceOption_iff_entryAt.2 ⟨p, hat⟩) name hkey.2.1

theorem Mcache.Ok.roomy (ht : t.Ok g c) : ∃ slots, mcacheRoom t = some slots ∧ Reached mcacheHome slots ∧
    slots.reduceOption.Perm t.slots.reduceOption ∧ t.len + 1 ≤ slots.length - slots.length / 4 ∧
    ∃ k, slots.length = 16 * 2 ^ k := by
  have hroom := ht.room
  rw [mcacheRoom]
  by_cases hfull : t.len + 1 > t.slots.length - t.slots.length / 4
  · have hlarge : ∀ k, 16 ≤ 16 * 2 ^ k := fun k => Nat.le_mul_of_pos_right 16 (Nat.two_pow_pos k)
    obtain ⟨k, hk⟩ : ∃ k, (if t.slots.length = 0 then 16 else t.slots.length * 2) = 16 * 2 ^ k := by
      rcases ht.size with h | ⟨k, h⟩
      · exact ⟨0, if_pos h⟩
      · refine ⟨k + 1, ?_⟩
        have := hlarge k
        rw [if_neg (by omega), h, Nat.pow_succ]
        omega
    have hnew : t.len + 1 ≤ 16 * 2 ^ k - 16 * 2 ^ k / 4 := by
      have := hlarge k
      split_ifs at hk <;> omega
    have hempty : ((replicate (16 * 2 ^ k) none : List (Option (McacheSlot Id)))).reduceOption = [] := by
      simp [List.reduceOption]
    obtain ⟨slots, hall, hlen, hperm, hreached⟩ := Probing.insertAll_spec t.slots.reduceOption
      (@Probing.reached_replicate _ mcacheHome (16 * 2 ^ k))
      (by rw [hempty, ht.len, length_nil, length_replicate]; omega)
    rw [length_replicate] at hlen
    rw [hempty, append_nil] at hperm
    refine ⟨slots, ?_, hreached, hperm, by rw [hlen]; exact hnew, k, hlen⟩
    rw [if_pos hfull, hk]
    exact hall
  · refine ⟨t.slots, if_neg hfull, ht.reached, .rfl, by omega, ?_⟩
    rcases ht.size with h | h
    · omega
    · exact h

theorem Mcache.Ok.put {h : UInt32} (ht : t.Ok g c) (hm : g.resolve name sig c = some m) :
    ∃ t', mcachePut t h sig m = some t' ∧ t'.Ok g c := by
  obtain ⟨hname, hsig⟩ := Hierarchy.resolve_matches hm
  rw [mcachePut]
  by_cases hskip : m.name = none ∨ (sig.isSome ∧ m.sig = none)
  · exact ⟨t, if_pos hskip, ht⟩
  · rw [if_neg hskip]
    obtain ⟨slots, hspace, hreached, hperm, hroom, k, hk⟩ := ht.roomy
    have hlen := hperm.length_eq
    rw [ht.len] at hlen
    obtain ⟨slots', hinsert, hlen', hperm', hreached'⟩ := Probing.insert_spec hreached
      (by have := Nat.two_pow_pos k; omega) ⟨h, m.name, if sig.isSome then m.sig else none, m⟩
    refine ⟨⟨slots', t.len + 1⟩, by rw [hspace]; exact congrArg (Option.bind · _) hinsert, hreached', ?_, ?_,
      .inr ⟨k, ?_⟩, ?_⟩
    · rw [hperm'.length_eq, length_cons, hlen]
    · rw [hlen']
      exact hroom
    · rw [hlen', hk]
    · intro s hs name' hname'
      rcases mem_cons.1 (hperm'.mem_iff.1 hs) with rfl | hold
      · obtain rfl : name = name' := some.inj (hname.symm.trans hname')
        cases sig with
        | none => exact hm
        | some u =>
          have hsome : m.sig = some u := by simp_all
          rwa [isSome_some, if_pos rfl, hsome]
      · exact ht.sound s (hperm.mem_iff.1 hold) name' hname'

end

section
variable {Id σ : Type} {g : Hierarchy Id} {c : Id} {name : String} {sig : Option String} {s : σ} {Inv : σ → Prop}

theorem ifaceLoop_spec {p : Id → σ → Option (Option (Method Id) × σ)} {f : Id → Option (Method Id)} :
    ∀ {l : List (Option Id)} {d : Option (Method Id)} {s : σ},
    (∀ i, some i ∈ l → ∀ s, Inv s → ∃ s', p i s = some (f i, s') ∧ Inv s') → Inv s →
    ∃ s', ifaceLoop p l d s = some ((((l.filterMap id).map f).find? fun v => v.any Method.concrete).getD
      (d.or (((l.filterMap id).map f).findSome? id)), s') ∧ Inv s'
  | [], d, s, _, hs => ⟨s, by simp [ifaceLoop], hs⟩
  | none :: rest, d, s, hfind, hs => by
    rw [ifaceLoop]
    exact ifaceLoop_spec (fun i hi => hfind i (mem_cons_of_mem _ hi)) hs
  | some i :: rest, d, s, hfind, hs => by
    obtain ⟨s', hcall, hs'⟩ := hfind i mem_cons_self s hs
    have hrest : ∀ i, some i ∈ rest → ∀ s, Inv s → ∃ s', p i s = some (f i, s') ∧ Inv s' :=
      fun i hi => hfind i (mem_cons_of_mem _ hi)
    rw [ifaceLoop, hcall]
    cases hf : f i with
    | none =>
      obtain ⟨s'', hval, hs''⟩ := ifaceLoop_spec (d := d) hrest hs'
      exact ⟨s'', by simpa [hf] using hval, hs''⟩
    | some m =>
      cases hm : m.concrete with
      | true => exact ⟨s', by simp [hf, hm], hs'⟩
      | false =>
        obtain ⟨s'', hval, hs''⟩ := ifaceLoop_spec (d := d.or (some m)) hrest hs'
        exact ⟨s'', by simpa [hf, hm] using hval, hs''⟩

/-- A lookup finds what the walk finds, whatever the table, if what is taken from a table is what the walk finds. -/
theorem findWith_spec {get : σ → Id → Option (Method Id)} {put : σ → Id → Method Id → Option σ}
    (hget : ∀ s c m, Inv s → get s c = some m → g.resolve name sig c = some m)
    (hput : ∀ s c m, Inv s → g.resolve name sig c = some m → ∃ s', put s c m = some s' ∧ Inv s') :
    ∀ {n : Nat} {c : Id} {s : σ}, g.level c < n → Inv s →
    ∃ s', findWith g get put name sig n c s = some (g.resolve name sig c, s') ∧ Inv s'
  | 0, _, _, hn, _ => absurd hn (Nat.not_lt_zero _)
  | n + 1, c, s, hn, hs => by
    have hfound : ∀ s m, Inv s → g.resolve name sig c = some m →
        ∃ s', (do return (some m, ← put s c m)) = some (g.resolve name sig c, s') ∧ Inv s' := by
      intro s m hs hm
      obtain ⟨s', hs', hinv⟩ := hput s c m hs hm
      exact ⟨s', by rw [hs', hm]; rfl, hinv⟩
    rw [findWith]
    cases htable : get s c with
    | some m => exact ⟨s, by rw [hget s c m hs htable], hs⟩
    | none =>
      dsimp only
      by_cases hname : Hierarchy.constructor name
      · have hres : g.resolve name sig c = g.classOwnMethod c name sig := if_pos hname
        cases hown : g.classOwnMethod c name sig with
        | some m => exact hfound s m hs (hres.trans hown)
        | none =>
          dsimp only
          rw [if_pos hname, hres, hown]
          exact ⟨s, rfl, hs⟩
      · have hres : g.resolve name sig c = _ := Hierarchy.resolve_unfold hname
        rw [Hierarchy.declared_eq] at hres
        cases hown : g.classOwnMethod c name sig with
        | some m =>
          rw [hown] at hres
          exact hfound s m hs hres
        | none =>
          dsimp only
          rw [if_neg hname]
          rw [hown, none_or] at hres
          cases hsuper : (g.chain c).tail.findSome? fun d => g.classOwnMethod d name sig with
          | some m =>
            rw [hsuper] at hres
            exact hfound s m hs hres
          | none =>
            rw [hsuper, none_or, Routes.choose] at hres
            have hlookup : ∀ i, some i ∈ g.listing c → ∀ s, Inv s →
                ∃ s', findWith g get put name sig n i s = some (g.resolve name sig i, s') ∧ Inv s' := fun i hi s hs =>
              findWith_spec hget hput (lt_of_lt_of_le (Hierarchy.level_lt_of_listing hi) (Nat.le_of_lt_succ hn)) hs
            obtain ⟨s', hloop, hs'⟩ := ifaceLoop_spec (d := none) hlookup hs
            rw [none_or, ← hres] at hloop
            dsimp only
            rw [hloop]
            cases hval : g.resolve name sig c with
            | none => exact ⟨s', rfl, hs'⟩
            | some m =>
              obtain ⟨s'', hs'', hinv⟩ := hput s' c m hs' hval
              exact ⟨s'', congrArg (Option.bind · _) hs'', hinv⟩

variable [DecidableEq Id] {tables : Tables Id} {vt : Targets Id}

omit [DecidableEq Id] in
theorem findUncached_eq : findUncached g c name sig = some (g.resolve name sig c) := by
  obtain ⟨s', h, -⟩ := @findWith_spec Id Unit g name sig (fun _ => True) (fun _ _ => none)
    (fun _ _ _ => some ()) (fun _ _ _ _ h => nomatch h) (fun _ _ _ _ _ => ⟨(), rfl, trivial⟩)
    (g.level c + 1) c () (Nat.lt_succ_self _) trivial
  rw [findUncached, h]
  rfl

theorem dvmFindMethod_spec (c : Id) (name : String) (sig : Option String) (h : ∀ c, (tables c).Ok g c) :
    ∃ tables', dvmFindMethod g tables c name sig = some (g.resolve name sig c, tables') ∧ ∀ c, (tables' c).Ok g c := by
  refine @findWith_spec Id (Tables Id) g name sig (fun tables => ∀ c, (tables c).Ok g c) _ _
    (fun tables c m h hget => (h c).get hget) ?_ (g.level c + 1) c tables (Nat.lt_succ_self _) h
  intro tables c m h hm
  obtain ⟨t, hput, ht⟩ := (h c).put (h := mcacheHash name sig) hm
  refine ⟨update tables c t, by rw [hput]; rfl, fun d => ?_⟩
  by_cases hd : d = c
  · subst hd
    rwa [update_self]
  · rw [update_of_ne hd]
    exact h d

/-- What is kept beside a method is what its receivers answer with. -/
def Answers (g : Hierarchy Id) (vt : Targets Id) : Prop :=
  ∀ decl, ∀ entry ∈ vt decl, entry.2 = (g.resolve (decl.name.getD "") decl.sig entry.1).getD decl

/-- A call goes to the method that is found in the class of the receiver, and to the one it names if there is none. -/
theorem virtualTarget_spec (rc : Option Id) (decl : Method Id) (h : ∀ c, (tables c).Ok g c) (hvt : Answers g vt) :
    ∃ tables' vt', virtualTarget g tables vt rc decl = some (match rc with
      | some rc => if rc = decl.cls then decl else (g.resolve (decl.name.getD "") decl.sig rc).getD decl
      | none => decl, tables', vt') ∧ (∀ c, (tables' c).Ok g c) ∧ Answers g vt' := by
  cases rc with
  | none => exact ⟨tables, vt, rfl, h, hvt⟩
  | some rc =>
    rw [virtualTarget]
    dsimp only
    by_cases hcls : rc = decl.cls
    · rw [if_pos hcls, if_pos hcls]
      exact ⟨tables, vt, rfl, h, hvt⟩
    · rw [if_neg hcls, if_neg hcls]
      cases hfind : (vt decl).find? fun entry => entry.1 = rc with
      | some entry =>
        obtain rfl : entry.1 = rc := by simpa using find?_some hfind
        exact ⟨tables, vt, by rw [← hvt decl entry (mem_of_find?_eq_some hfind)], h, hvt⟩
      | none =>
        obtain ⟨tables', hval, h'⟩ := dvmFindMethod_spec rc (decl.name.getD "") decl.sig h
        dsimp only
        rw [hval]
        refine ⟨tables', _, rfl, h', fun decl' entry hentry => ?_⟩
        by_cases hd : decl' = decl
        · subst hd
          rw [update_self] at hentry
          rcases mem_cons.1 hentry with rfl | hold
          · rfl
          · exact hvt decl' entry (mem_of_mem_take hold)
        · rw [update_of_ne hd] at hentry
          exact hvt decl' entry hentry

end

/-! ### Fields -/

namespace Vm
variable {Id : Type} (vm : Vm Id)

/-- The fields in the order in which they are searched, with the classes that have them and their places there; through `n`
    superclasses and interfaces. -/
def orderUpTo (statics : Bool) : Nat → Id → List ((Id × Nat) × Field)
  | 0, _ => []
  | n + 1, c =>
    (vm.fields statics c).zipIdx.map (fun x => ((c, x.2), x.1)) ++
      ((if statics then (vm.g.cls c).ifaces.flatMap fun i => i.elim [] (orderUpTo statics n) else []) ++
        (vm.g.cls c).super.elim [] (orderUpTo statics n))

def order (statics : Bool) (c : Id) : List ((Id × Nat) × Field) := vm.orderUpTo statics (vm.g.level c + 1) c

/-- Before it comes to the field at `p`, the search in `c` meets one that fits too. -/
def Shadowed [DecidableEq Id] (c : Id) (name : String) (type : Option String) (statics : Bool) (p : Id × Nat) : Prop :=
  ∃ x ∈ (vm.order statics c).takeWhile (fun x => decide (x.1 ≠ p)), x.2.is name type = true

/-- What lies at the place for `q` misleads: it was found for the same class, name address and list, it fits, and it is
    shadowed. -/
def Misled [DecidableEq Id] (t : FieldCache Id) (q : Ask Id) : Prop :=
  ∃ hit f, (vm.turn t).cache (vm.fieldKey q) = some hit ∧ hit.cls = vm.addr q.cls ∧ hit.name = q.name ∧
    hit.statics = q.statics ∧ (vm.fields q.statics hit.owner)[hit.index]? = some f ∧
    f.is q.nameText q.typeText = true ∧ vm.Shadowed q.cls q.nameText q.typeText q.statics (hit.owner, hit.index)

variable {vm} {name : String} {type : Option String} {statics : Bool} {c : Id} {p : Id × Nat} {f : Field}

theorem slowUpTo_eq : ∀ {n : Nat} {c : Id}, vm.slowUpTo name type statics n c =
    ((vm.orderUpTo statics n c).find? fun x => x.2.is name type).map Prod.fst
  | 0, _ => rfl
  | n + 1, c => by
    have hown : (((vm.fields statics c).zipIdx.map fun x => ((c, x.2), x.1)).find? fun x => x.2.is name type).map Prod.fst =
        ((vm.fields statics c).findIdx? fun f => f.is name type).map fun i => (c, i) := by
      rw [find?_map, findIdx?_eq_fst_find?_zipIdx, Option.map_map, Option.map_map]
      rfl
    have hifaces :
        (if statics then (vm.g.cls c).ifaces.findSome? fun i => i.bind (vm.slowUpTo name type statics n) else none) =
        ((if statics then (vm.g.cls c).ifaces.flatMap fun i => i.elim [] (vm.orderUpTo statics n) else []).find?
          fun x => x.2.is name type).map Prod.fst := by
      split_ifs
      · rw [find?_flatMap, map_findSome?]
        congr 1
        funext i
        cases i with
        | none => rfl
        | some i => exact slowUpTo_eq
      · rfl
    have hsuper : (vm.g.cls c).super.bind (vm.slowUpTo name type statics n) =
        (((vm.g.cls c).super.elim [] (vm.orderUpTo statics n)).find? fun x => x.2.is name type).map Prod.fst := by
      cases (vm.g.cls c).super with
      | none => rfl
      | some s => exact slowUpTo_eq
    rw [slowUpTo, orderUpTo, find?_append, find?_append, map_or, map_or, hown, ← hifaces, ← hsuper]
    cases (vm.fields statics c).findIdx? fun f => f.is name type <;> rfl

/-- The search without the places takes the first field that fits. -/
theorem classFindFieldSlow_eq : vm.classFindFieldSlow c name type statics =
    ((vm.order statics c).find? fun x => x.2.is name type).map Prod.fst := slowUpTo_eq

theorem fields_of_mem_orderUpTo : ∀ {n : Nat} {c : Id}, (p, f) ∈ vm.orderUpTo statics n c →
    (vm.fields statics p.1)[p.2]? = some f
  | 0, _, h => absurd h not_mem_nil
  | n + 1, c, h => by
    rcases mem_append.1 h with hown | h
    · obtain ⟨⟨f', i⟩, hi, ⟨⟩⟩ := List.mem_map.1 hown
      simpa using mem_zipIdx_iff_getElem?.1 hi
    · rcases mem_append.1 h with hiface | hsuper
      · split_ifs at hiface
        · obtain ⟨i, -, hi⟩ := mem_flatMap.1 hiface
          cases i with
          | none => exact absurd hi not_mem_nil
          | some i => exact fields_of_mem_orderUpTo hi
        · exact absurd hiface not_mem_nil
      · cases hs : (vm.g.cls c).super with
        | none => simp [hs] at hsuper
        | some s =>
          rw [hs] at hsuper
          exact fields_of_mem_orderUpTo hsuper

omit vm in
/-- The first entry that passes has a key just when no entry before that key passes. -/
theorem find?_fst_iff [DecidableEq Id] {l : List ((Id × Nat) × Field)} {test : Field → Bool} (hmem : ∃ f, (p, f) ∈ l)
    (hall : ∀ f, (p, f) ∈ l → test f = true) : (l.find? fun x => test x.2).map Prod.fst = some p ↔
    ¬ ∃ x ∈ l.takeWhile (fun x => decide (x.1 ≠ p)), test x.2 = true := by
  induction l with
  | nil =>
    obtain ⟨f, h⟩ := hmem
    exact absurd h not_mem_nil
  | cons x l ih =>
    rw [find?_cons, takeWhile_cons]
    by_cases hx : x.1 = p
    · have htest : test x.2 = true := hall x.2 (by rw [← hx]; exact mem_cons_self)
      simp [hx, htest]
    · have hmem' : ∃ f, (p, f) ∈ l := by
        obtain ⟨f, h⟩ := hmem
        rcases mem_cons.1 h with rfl | h
        · exact absurd rfl hx
        · exact ⟨f, h⟩
      have ih := ih hmem' fun f h => hall f (mem_cons_of_mem _ h)
      cases htest : test x.2 with
      | true => simp [hx, htest]
      | false => simpa [hx, htest] using ih

theorem slow_eq_some_iff [DecidableEq Id] (hp : ∃ f, (p, f) ∈ vm.order statics c)
    (hf : (vm.fields statics p.1)[p.2]? = some f) (hfits : f.is name type = true) :
    vm.classFindFieldSlow c name type statics = some p ↔ ¬ vm.Shadowed c name type statics p := by
  rw [classFindFieldSlow_eq, Shadowed]
  refine @find?_fst_iff _ p _ _ (fun f => f.is name type) hp fun f' h => ?_
  obtain rfl : f = f' := some.inj (hf.symm.trans (fields_of_mem_orderUpTo h))
  exact hfits

theorem mem_order_of_slow (h : vm.classFindFieldSlow c name type statics = some p) : ∃ f, (p, f) ∈ vm.order statics c ∧
    f.is name type = true := by
  rw [classFindFieldSlow_eq] at h
  obtain ⟨x, hx, rfl⟩ := map_eq_some_iff.1 h
  exact ⟨x.2, mem_of_find?_eq_some hx, by simpa using find?_some hx⟩

/-- What lies at a place was found by the search without the places, for some name and type. -/
def Kept (vm : Vm Id) (hit : FieldHit Id) : Prop :=
  ∃ c name type, hit.cls = vm.addr c ∧ vm.classFindFieldSlow c name type hit.statics = some (hit.owner, hit.index)

variable {V : Type} {w : World V Id} {v : V} {t : FieldCache Id} {q : Ask Id}

/-- What lies at the places of a thread is kept for the virtual machine it works for. -/
def Places (w : World V Id) (t : FieldCache Id) : Prop :=
  ∀ v, (w.vm v).fieldCacheGeneration = t.generation → ∀ k hit, t.cache k = some hit → (w.vm v).Kept hit

theorem turn_generation : (vm.turn t).generation = vm.fieldCacheGeneration := by
  rw [turn]
  split_ifs with h
  · rfl
  · exact not_not.1 h

theorem Places.turn (h : Places w t) (vm : Vm Id) : Places w (vm.turn t) := by
  rw [Vm.turn]
  split_ifs
  · intro v _ k hit hnone
    cases hnone
  · exact h

/-- A lookup finds what the search finds, just when the place does not mislead it. -/
theorem classFindField_iff [DecidableEq Id] (h : Places w t) : ((w.vm v).classFindField t q).1 =
    (w.vm v).classFindFieldSlow q.cls q.nameText q.typeText q.statics ↔ ¬ (w.vm v).Misled t q := by
  rw [classFindField]
  cases hfound : (((w.vm v).turn t).cache ((w.vm v).fieldKey q)).bind ((w.vm v).fieldHit q) with
  | some p =>
    obtain ⟨hit, hat, hfits⟩ := bind_eq_some_iff.1 hfound
    rw [fieldHit] at hfits
    split_ifs at hfits with hsame
    obtain ⟨hcls, hname, hstatics⟩ := hsame
    cases hf : ((w.vm v).fields q.statics hit.owner)[hit.index]? with
    | none => simp [hf] at hfits
    | some f =>
      rw [hf] at hfits
      dsimp only at hfits
      split_ifs at hfits with his
      cases hfits
      obtain ⟨c, name, type, haddr, hkept⟩ := h.turn _ v turn_generation.symm _ hit hat
      obtain rfl := (w.vm v).addr_inj (hcls.symm.trans haddr)
      rw [hstatics] at hkept
      obtain ⟨f', hmem, -⟩ := mem_order_of_slow hkept
      have hiff := slow_eq_some_iff ⟨f', hmem⟩ hf his
      rw [eq_comm, hiff]
      constructor
      · rintro hnot ⟨hit', f'', hat', -, -, -, -, -, hshadow⟩
        cases hat.symm.trans hat'
        exact hnot hshadow
      · exact fun hnot hshadow => hnot ⟨hit, f, hat, hcls, hname, hstatics, hf, his, hshadow⟩
  | none =>
    have hnot : ¬ (w.vm v).Misled t q := by
      rintro ⟨hit, f, hat, hcls, hname, hstatics, hf, his, -⟩
      rw [hat, bind_some, fieldHit, if_pos ⟨hcls, hname, hstatics⟩, hf] at hfound
      simp [his] at hfound
    refine iff_of_true ?_ hnot
    dsimp only
    split
    · rename_i hslow
      exact hslow.symm
    · rename_i hslow
      exact hslow.symm

theorem Places.field (h : Places w t) : Places w ((w.vm v).classFindField t q).2 := by
  have hturn := h.turn (w.vm v)
  rw [classFindField]
  split
  · exact hturn
  · split
    · rename_i owner index hslow
      intro v' hv k hit hat
      obtain rfl := w.generation_inj (hv.trans turn_generation)
      dsimp only at hat
      by_cases hk : k = (w.vm v').fieldKey q
      · rw [hk, update_self] at hat
        cases hat
        exact ⟨q.cls, q.nameText, q.typeText, rfl, hslow⟩
      · rw [update_of_ne hk] at hat
        exact hturn v' turn_generation.symm k hit hat
    · intro v' hv k hit hat
      dsimp only at hat
      by_cases hk : k = (w.vm v).fieldKey q
      · rw [hk, update_self] at hat
        cases hat
      · rw [update_of_ne hk] at hat
        exact hturn v' hv k hit hat

end Vm

/-! ### Runs -/

section
variable {V T Id : Type} [DecidableEq V] [DecidableEq T] [DecidableEq Id] {w : World V Id} {s : State V T Id}

theorem Reach.ok (h : Reach w s) : (∀ v c, (s.tables v c).Ok (w.vm v).g c) ∧ (∀ v, Answers (w.vm v).g (s.vt v)) ∧
    ∀ t, Vm.Places w (s.fields t) := by
  induction h with
  | init => exact ⟨fun _ _ => Mcache.ok_empty, fun _ _ _ h => absurd h not_mem_nil, fun _ _ _ _ _ h => nomatch h⟩
  | find v c name sig _ hfind ih =>
    obtain ⟨htables, hvt, hfields⟩ := ih
    obtain ⟨tables', hspec, h'⟩ := dvmFindMethod_spec c name sig (htables v)
    cases hspec.symm.trans hfind
    refine ⟨fun u => ?_, hvt, hfields⟩
    by_cases hu : u = v
    · subst hu
      simpa only [update_self] using h'
    · simpa only [update_of_ne hu] using htables u
  | call v rc decl _ hcall ih =>
    obtain ⟨htables, hvt, hfields⟩ := ih
    obtain ⟨tables', vt', hspec, h', hvt'⟩ := virtualTarget_spec rc decl (htables v) (hvt v)
    obtain ⟨-, ⟨⟩⟩ := Prod.mk.inj (some.inj (hspec.symm.trans hcall))
    refine ⟨fun u => ?_, fun u => ?_, hfields⟩
    all_goals by_cases hu : u = v
    · subst hu
      simpa only [update_self] using h'
    · simpa only [update_of_ne hu] using htables u
    · subst hu
      simpa only [update_self] using hvt'
    · simpa only [update_of_ne hu] using hvt u
  | field t v q _ ih =>
    obtain ⟨htables, hvt, hfields⟩ := ih
    refine ⟨htables, hvt, fun u => ?_⟩
    by_cases hu : u = t
    · subst hu
      simpa only [update_self] using (hfields u).field
    · simpa only [update_of_ne hu] using hfields u

/-- After any lookups and calls: a default method that is found for a class whose superclasses do not declare it is not
    overridden by another superinterface, just when the listings lead to one that is not overridden first. (If a superclass
    declares the method, the empty list of places leads to it.) -/
theorem default_not_bypassed_iff {v : V} {c : Id} {name : String} {sig : Option String} (hs : Reach w s)
    (hname : ¬ Hierarchy.constructor name) :
    (∀ m, (dvmFindMethod (w.vm v).g (s.tables v) c name sig).map Prod.fst = some (some m) → m.concrete = true →
      ¬ (w.vm v).g.Overridden c name sig m) ↔ (w.vm v).g.ListedFirst c name sig := by
  obtain ⟨tables', hfind, -⟩ := dvmFindMethod_spec c name sig (hs.ok.1 v)
  simp only [hfind, map_some, some.injEq]
  constructor
  · intro h p m hleads hover
    obtain ⟨m', hfound, hm'⟩ := hleads.resolve hname
    obtain ⟨q, hq, hfirst⟩ := Hierarchy.leads_of_resolve hname hfound hm'
    have hnot := h m' hfound hm'
    refine ⟨q, m', ?_, hq, hnot⟩
    rcases lt_trichotomy q p with hlt | rfl | hlt
    · exact hlt
    · exact absurd (hleads.unique hq ▸ hover) hnot
    · exact absurd hlt (hfirst p m hleads)
  · intro h m hfound hm hover
    obtain ⟨p, hp, hfirst⟩ := Hierarchy.leads_of_resolve hname hfound hm
    obtain ⟨q, m', hlt, hq, -⟩ := h p m hp hover
    exact hfirst q m' hq hlt

/-- After any lookups and calls: a method is found as without the tables, a call goes where that walk leads from the class
    of the receiver, and a field is found as without the places, just when the place does not mislead. -/
theorem lookups_transparent_iff (h : Reach w s) :
    (∀ v c name sig, ∃ found, findUncached (w.vm v).g c name sig = some found ∧
      (dvmFindMethod (w.vm v).g (s.tables v) c name sig).map Prod.fst = some found) ∧
    (∀ v rc decl, rc ≠ decl.cls → ∃ found, findUncached (w.vm v).g rc (decl.name.getD "") decl.sig = some found ∧
      (virtualTarget (w.vm v).g (s.tables v) (s.vt v) (some rc) decl).map Prod.fst = some (found.getD decl)) ∧
    ∀ v t q, ((w.vm v).classFindField (s.fields t) q).1 =
      (w.vm v).classFindFieldSlow q.cls q.nameText q.typeText q.statics ↔ ¬ (w.vm v).Misled (s.fields t) q := by
  obtain ⟨htables, hvt, hfields⟩ := h.ok
  refine ⟨fun v c name sig => ?_, fun v rc decl hrc => ?_, fun v t q => Vm.classFindField_iff (hfields t)⟩
  · obtain ⟨tables', hfind, -⟩ := dvmFindMethod_spec c name sig (htables v)
    exact ⟨_, findUncached_eq, by rw [hfind]; rfl⟩
  · obtain ⟨tables', vt', hcall, -⟩ := virtualTarget_spec (some rc) decl (htables v) (hvt v)
    refine ⟨_, findUncached_eq, ?_⟩
    rw [hcall]
    dsimp only
    rw [if_neg hrc]
    rfl

end

/-- A class that lists `Collection` and then `List`, which is built on it; both have a default `stream`. -/
def collectionList : Vm (Fin 3) where
  g :=
    { cls := fun c =>
        if c = 0 then ⟨none, [some 1, some 2], []⟩
        else if c = 1 then ⟨none, [], [⟨1, some "stream", some "()V", true, false⟩]⟩
        else ⟨none, [some 1], [⟨2, some "stream", some "()V", true, false⟩]⟩
      level := fun c => if c = 0 then 2 else if c = 1 then 0 else 1
      parent_lt := by decide
      owns := by decide }
  sfields _ := []
  ifields _ := []
  addr c := if c = 0 then 0x10000 else if c = 1 then 0x20000 else 0x30000
  addr_inj := by
    unfold Function.Injective
    decide
  fieldCacheGeneration := 1

def collectionWorld : World Unit (Fin 3) := ⟨fun _ => collectionList, fun _ _ _ => rfl⟩

/-- `stream` is looked up in `List` before. -/
def listAsked : State Unit Unit (Fin 3) :=
  let s : State Unit Unit (Fin 3) := .init
  { s with tables := update s.tables () (((dvmFindMethod collectionList.g (s.tables ()) 2 "stream" (some "()V")).map Prod.snd).getD
      (s.tables ())) }

theorem listAsked_reach : Reach collectionWorld listAsked := by
  have hempty : ∀ c, ((State.init : State Unit Unit (Fin 3)).tables () c).Ok collectionList.g c := fun _ => Mcache.ok_empty
  obtain ⟨tables, hfind, -⟩ := dvmFindMethod_spec 2 "stream" (some "()V") hempty
  have hreach := Reach.find (T := Unit) (w := collectionWorld) () 2 "stream" (some "()V") .init hfind
  unfold listAsked
  dsimp only
  rwa [hfind]

theorem default_not_bypassed_collection : Reach collectionWorld listAsked ∧ ¬ Hierarchy.constructor "stream" ∧
    ((∀ m, (dvmFindMethod collectionList.g (listAsked.tables ()) 0 "stream" (some "()V")).map Prod.fst = some (some m) →
      m.concrete = true → ¬ collectionList.g.Overridden 0 "stream" (some "()V") m) ↔
        collectionList.g.ListedFirst 0 "stream" (some "()V")) :=
  ⟨listAsked_reach, by decide, default_not_bypassed_iff (v := ()) listAsked_reach (by decide)⟩

/-- The default of `Collection` is found, though `List` overrides it. -/
theorem collection_bypasses_list : Reach collectionWorld listAsked ∧ ∃ m,
    (dvmFindMethod collectionList.g (listAsked.tables ()) 0 "stream" (some "()V")).map Prod.fst = some (some m) ∧
    m.concrete = true ∧ (∀ d ∈ collectionList.g.chain 0, collectionList.g.classOwnMethod d "stream" (some "()V") = none) ∧
    m.cls = 1 ∧ collectionList.g.Superinterface 0 1 ∧ collectionList.g.Superinterface 0 2 ∧
    collectionList.g.Superinterface 2 1 ∧ collectionList.g.classOwnMethod 2 "stream" (some "()V") ≠ none := by
  refine ⟨listAsked_reach, ⟨1, some "stream", some "()V", true, false⟩, by decide +kernel, by decide, by decide, rfl,
    ?_, ?_, ?_, by decide⟩
  iterate 3 exact .single (by decide)

/-- Class 0 extends class 1, and both have a field `x`, of different types. -/
def hidden : Vm (Fin 2) where
  g :=
    { cls := fun c => if c = 0 then ⟨some 1, [], []⟩ else ⟨none, [], []⟩
      level := fun c => if c = 0 then 1 else 0
      parent_lt := by decide
      owns := by decide }
  sfields _ := []
  ifields c := if c = 0 then [⟨some "x", some "I"⟩] else [⟨some "x", some "J"⟩]
  addr c := if c = 0 then 0x10000 else 0x20000
  addr_inj := by
    unfold Function.Injective
    decide
  fieldCacheGeneration := 1

def hiddenWorld : World Unit (Fin 2) := ⟨fun _ => hidden, fun _ _ _ => rfl⟩

/-- `x` is asked for in class 0, with the type whose text is at an address, or without one. -/
def askX (type : UInt64) : Ask (Fin 2) := ⟨0, 0x1000, type, false, fun a => if a = 0x1000 then "x" else "J"⟩

/-- The type of the field of class 1 lies where its address has no part in the choice of the place. -/
def hiddenAsked : State Unit Unit (Fin 2) :=
  let s : State Unit Unit (Fin 2) := .init
  { s with fields := update s.fields () (hidden.classFindField (s.fields ()) (askX 0x100000)).2 }

theorem hiddenAsked_reach : Reach hiddenWorld hiddenAsked :=
  Reach.field () () (askX 0x100000) .init

theorem lookups_transparent_hidden : Reach hiddenWorld hiddenAsked ∧
    ((hidden.classFindField (hiddenAsked.fields ()) (askX 0)).1 = hidden.classFindFieldSlow 0 "x" none false ↔
      ¬ hidden.Misled (hiddenAsked.fields ()) (askX 0)) :=
  ⟨hiddenAsked_reach, (lookups_transparent_iff hiddenAsked_reach).2.2 () () (askX 0)⟩

/-- Without a type, the field of class 1 is found in place of the one that hides it. -/
theorem hidden_field_found : Reach hiddenWorld hiddenAsked ∧
    (hidden.classFindField (hiddenAsked.fields ()) (askX 0)).1 = some (1, 0) ∧
    hidden.classFindFieldSlow 0 "x" none false = some (0, 0) :=
  ⟨hiddenAsked_reach, by decide +kernel, by decide +kernel⟩

end Lunaria.Dvm.Lookup
