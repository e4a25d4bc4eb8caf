import Lunaria.Dvm.Intern

/-! The table of `dvm__intern` has one entry for each string, in reach of its hash, as long as the table grows. -/

namespace Lunaria.Dvm.Intern
open List Option Function Nat

open Probing

/-! ### Objects -/

structure Vm.FreeOk (vm : Vm) : Prop where
  nodup : vm.free.Nodup
  free : ∀ r ∈ vm.free, 0 < r ∧ r ≤ vm.objects.length ∧ vm.obj r = none

section Objects
variable {vm vm' : Vm} {o o' : Object} {r q : Nat} {f : Nat → Nat}

theorem obj_pos (h : vm.obj r = some o) : 0 < r ∧ r ≤ vm.objects.length ∧ vm.objects[r - 1]? = some o ∧ o.live = true := by
  rw [Vm.obj] at h
  split_ifs at h with hr
  obtain ⟨hget, hlive⟩ := filter_eq_some_iff.1 h
  have hlt := (List.getElem?_eq_some_iff.1 hget).1
  exact ⟨by omega, by omega, hget, hlive⟩

theorem obj_set (hr : 0 < r) (hle : r ≤ vm.objects.length) {free : List Nat} (q : Nat) :
    ({ vm with objects := vm.objects.set (r - 1) o, free } : Vm).obj q = if q = r then some o |>.filter
    (·.live) else vm.obj q := by
  rw [Vm.obj, Vm.obj]
  split_ifs with hq hqr hqr
  · omega
  · rfl
  · subst hqr
    rw [getElem?_set_self (by omega)]
  · rw [getElem?_set_ne (by omega)]

theorem obj_append (q : Nat) : ({ vm with objects := vm.objects ++ [o] } : Vm).obj q =
    if q = vm.objects.length + 1 then some o |>.filter (·.live) else vm.obj q := by
  rw [Vm.obj, Vm.obj]
  split_ifs with hq hql hql
  · omega
  · rfl
  · subst hql
    simp
  · rcases Nat.lt_or_ge (q - 1) vm.objects.length with hlt | hge
    · rw [getElem?_append_left hlt]
    · rw [getElem?_eq_none (by simp; omega), getElem?_eq_none hge]

theorem heapAlloc_spec (hfree : vm.FreeOk) (hlive : o.live = true) (h : vm.heapAlloc o = some (vm', r)) :
    0 < r ∧ vm.obj r = none ∧ vm'.obj r = some o ∧ (∀ q ≠ r, vm'.obj q = vm.obj q) ∧ vm'.FreeOk ∧
      vm'.interns = vm.interns ∧ vm'.ninterns = vm.ninterns ∧ vm'.objects.length ≤ vm.objects.length + 1 := by
  have hown : (some o).filter (·.live) = some o := by simp [hlive]
  rw [Vm.heapAlloc] at h
  split at h
  · rename_i r' free heq
    obtain ⟨rfl, rfl⟩ := Prod.mk.inj (some.inj h)
    obtain ⟨hpos, hle, hdead⟩ := hfree.free r' (by rw [heq]; exact mem_cons_self)
    have hnodup := hfree.nodup
    rw [heq, nodup_cons] at hnodup
    refine ⟨hpos, hdead, by rw [obj_set hpos hle, if_pos rfl, hown], fun q hq => by rw [obj_set hpos hle, if_neg hq],
      ⟨hnodup.2, fun q hq => ?_⟩, rfl, rfl, by simp⟩
    obtain ⟨h1, h2, h3⟩ := hfree.free q (by rw [heq]; exact mem_cons_of_mem _ hq)
    have hne : q ≠ r' := fun heq => hnodup.1 (heq ▸ hq)
    exact ⟨h1, by simpa using h2, by rw [obj_set hpos hle, if_neg hne, h3]⟩
  · rename_i heq
    split_ifs at h with hroom
    cases h
    refine ⟨succ_pos _, ?_, by rw [obj_append, if_pos rfl, hown], fun q hq => by rw [obj_append, if_neg hq],
      ⟨hfree.nodup, fun q hq => ?_⟩, rfl, rfl, by simp⟩
    · rw [Vm.obj, if_neg (by omega), getElem?_eq_none (by simp)]
      rfl
    · rw [heq] at hq
      cases hq

theorem setPins_obj (q : Nat) : (vm.setPins r f).obj q =
    if q = r then (vm.obj r).map fun o => { o with pins := f o.pins } else vm.obj q := by
  rw [Vm.setPins]
  split
  · rename_i hnone
    split_ifs with hq
    · rw [hq, hnone]
      rfl
    · rfl
  · rename_i o hsome
    obtain ⟨hpos, hle, -, hlive⟩ := obj_pos hsome
    rw [obj_set hpos hle, hsome]
    split_ifs
    · simp [hlive]
    · rfl

theorem setPins_same : (vm.setPins r f).interns = vm.interns ∧ (vm.setPins r f).ninterns = vm.ninterns ∧
    (vm.setPins r f).free = vm.free ∧ (vm.setPins r f).objects.length = vm.objects.length := by
  rw [Vm.setPins]
  split
  · exact ⟨rfl, rfl, rfl, rfl⟩
  · exact ⟨rfl, rfl, rfl, by simp⟩

theorem dvmPin_same (vm : Vm) (r : Nat) : (vm.dvmPin r).interns = vm.interns ∧ (vm.dvmPin r).ninterns = vm.ninterns ∧
    (vm.dvmPin r).free = vm.free ∧ (vm.dvmPin r).objects.length = vm.objects.length := setPins_same

theorem Vm.FreeOk.setPins (h : vm.FreeOk) : (vm.setPins r f).FreeOk := by
  obtain ⟨-, -, hfree, hlen⟩ := @setPins_same vm r f
  refine ⟨hfree ▸ h.nodup, fun q hq => ?_⟩
  obtain ⟨h1, h2, h3⟩ := h.free q (hfree ▸ hq)
  refine ⟨h1, hlen ▸ h2, ?_⟩
  rw [setPins_obj]
  split_ifs with hqr
  · rw [← hqr, h3]
    rfl
  · exact h3

theorem Vm.FreeOk.dvmPin (h : vm.FreeOk) : (vm.dvmPin r).FreeOk := h.setPins

/-- Only an object that nobody has pinned is freed. -/
theorem heapFree_spec (h : vm.FreeOk) : (vm.heapFree r).FreeOk ∧ (vm.heapFree r).interns = vm.interns ∧
    (vm.heapFree r).ninterns = vm.ninterns ∧ ∀ q o, vm.obj q = some o → 0 < o.pins → (vm.heapFree r).obj q = some o := by
  rw [Vm.heapFree]
  split
  · exact ⟨h, rfl, rfl, fun q o hq _ => hq⟩
  · rename_i o hsome
    split_ifs with hpins
    · exact ⟨h, rfl, rfl, fun q o hq _ => hq⟩
    · obtain ⟨hpos, hle, -, hlive⟩ := obj_pos hsome
      have hnew : r ∉ vm.free := fun hr => by
        rw [(h.free r hr).2.2] at hsome
        cases hsome
      refine ⟨⟨nodup_cons.2 ⟨hnew, h.nodup⟩, fun q hq => ?_⟩, rfl, rfl, fun q o' hq hp => ?_⟩
      · rw [obj_set hpos hle]
        rcases mem_cons.1 hq with rfl | hq
        · exact ⟨hpos, by simpa using hle, if_pos rfl⟩
        · obtain ⟨h1, h2, h3⟩ := h.free q hq
          exact ⟨h1, by simpa using h2, by split_ifs; exacts [rfl, h3]⟩
      · rw [obj_set hpos hle, if_neg]
        · exact hq
        · rintro rfl
          cases hsome.symm.trans hq
          omega

end Objects

/-! ### The table -/

/-- Where the loops over the table start with an entry. -/
def Entry.home (e : Entry) : Nat := e.hash.toNat

/-- The most strings that the table has room for. -/
@[irreducible] def limit : Nat := 2 ^ 29

/-- The table of a VM: its size is a power of two and at most half of it is taken. -/
structure Vm.TableOk (vm : Vm) : Prop where
  size : vm.interns = [] ∨ ∃ k, 6 ≤ k ∧ k ≤ 30 ∧ vm.interns.length = 2 ^ k
  count : vm.interns.reduceOption.length = vm.ninterns
  load : 2 * vm.ninterns ≤ vm.interns.length
  reached : Reached Entry.home vm.interns

section Table
variable {vm : Vm} {t : List (Option Entry)} {k : Nat}

theorem slotFrom_eq (hk : t.length = 2 ^ k) (stop : Nat → Bool) (hash : UInt32) :
    slotFrom t stop hash = probe stop (fun i => (i + 1) % t.length) t.length (hash.toNat % t.length) := by
  rw [slotFrom, hk, and_two_pow_sub_one_eq_mod]
  simp only [and_two_pow_sub_one_eq_mod]

theorem internStore_eq (hk : t.length = 2 ^ k) (e : Entry) : internStore t e = insert Entry.home t e := by
  rw [internStore, slotFrom_eq hk]
  rfl

theorem foldlM_internStore (l : List Entry) : ∀ {t : List (Option Entry)}, t.length = 2 ^ k → Reached Entry.home t →
    t.reduceOption.length + l.length < t.length → ∃ t', l.foldlM internStore t = some t' ∧ t'.length = t.length ∧
      t'.reduceOption.Perm (l ++ t.reduceOption) ∧ Reached Entry.home t' := by
  intro t hk h hroom
  obtain ⟨t', hall, hrest⟩ := insertAll_spec l h hroom
  refine ⟨t', ?_, hrest⟩
  clear h hroom hrest
  induction l generalizing t with
  | nil => exact hall
  | cons e l ih =>
    rw [foldlM_cons] at hall ⊢
    rw [internStore_eq hk]
    cases hinsert : insert Entry.home t e with
    | none =>
      rw [hinsert] at hall
      cases hall
    | some t₁ =>
      rw [hinsert] at hall
      obtain ⟨p, -, rfl⟩ := map_eq_some_iff.1 hinsert
      exact ih (by rw [length_set, hk]) hall

theorem Vm.TableOk.room (h : vm.TableOk) (hne : vm.interns ≠ []) : vm.interns.reduceOption.length < vm.interns.length := by
  have hpos := length_pos_iff.2 hne
  have hload := h.load
  rw [h.count]
  omega

/-- The table has room for one more entry, or it has as many as it ever gets. -/
theorem Vm.TableOk.internRoom (h : vm.TableOk) : ∃ t room, vm.internRoom = some (t, room) ∧
    (room = false → t = vm.interns ∧ vm.ninterns = limit) ∧
    (room = true → t.reduceOption.Perm vm.interns.reduceOption ∧ Reached Entry.home t ∧ 2 * (vm.ninterns + 1) ≤ t.length ∧
      vm.ninterns < limit ∧ ∃ k, 6 ≤ k ∧ k ≤ 30 ∧ t.length = 2 ^ k) := by
  have hload := h.load
  have hcount := h.count
  have hlimit : limit = 536870912 := by norm_num [limit]
  rw [Vm.internRoom]
  dsimp only
  by_cases hfull : vm.interns.length / 2 ≤ vm.ninterns
  · rw [if_pos hfull]
    by_cases hmax : int32Max / 2 < vm.interns.length
    · rw [if_pos hmax]
      refine ⟨_, _, rfl, fun _ => ⟨rfl, ?_⟩, nofun⟩
      rw [int32Max] at hmax
      rcases h.size with hnil | ⟨k, hk6, hk, hlen⟩
      · simp [hnil] at hmax
      · have hle : 2 ^ k ≤ 2 ^ 30 := Nat.pow_le_pow_right (by omega) hk
        omega
    · rw [if_neg hmax]
      rw [int32Max] at hmax
      have hsize : ∃ k, 6 ≤ k ∧ k ≤ 30 ∧ (if vm.interns.length ≠ 0 then vm.interns.length * 2 else 64) = 2 ^ k := by
        rcases h.size with hnil | ⟨k, hk6, hk, hlen⟩
        · exact ⟨6, by omega, by omega, by simp [hnil]⟩
        · have hk29 : k ≤ 29 := by
            by_contra hlt
            have : 2 ^ 30 ≤ 2 ^ k := Nat.pow_le_pow_right (by omega) (by omega)
            omega
          have hpos : 0 < 2 ^ k := Nat.two_pow_pos k
          exact ⟨k + 1, by omega, by omega, by rw [if_pos (by omega), hlen, Nat.pow_succ]⟩
      obtain ⟨k, hk6, hk, hcap⟩ := hsize
      have hgrow : 2 * (vm.ninterns + 1) ≤ if vm.interns.length ≠ 0 then vm.interns.length * 2 else 64 := by
        split_ifs with hne
        · rcases h.size with hnil | ⟨k, hk6, -, hlen⟩
          · simp [hnil] at hne
          · have : 2 ^ 6 ≤ 2 ^ k := Nat.pow_le_pow_right (by omega) hk6
            omega
        · omega
      generalize (if vm.interns.length ≠ 0 then vm.interns.length * 2 else 64) = cap at hcap hgrow
      have hempty : (replicate cap (none : Option Entry)).reduceOption = [] := by simp [List.reduceOption]
      have hroom : (replicate cap (none : Option Entry)).reduceOption.length + vm.interns.reduceOption.length <
          (replicate cap (none : Option Entry)).length := by
        rw [hempty, length_replicate, length_nil]
        omega
      obtain ⟨t, hall, hlen, hperm, hreached⟩ := foldlM_internStore (k := k) vm.interns.reduceOption
        (by rw [length_replicate, hcap]) (reached_replicate cap) hroom
      rw [length_replicate] at hlen
      rw [hempty, append_nil] at hperm
      exact ⟨t, true, by rw [hall]; rfl, nofun, fun _ => ⟨hperm, hreached, by omega, by omega, k, hk6, hk, by omega⟩⟩
  · rw [if_neg hfull]
    have hne : vm.interns ≠ [] := by
      rintro hnil
      simp [hnil] at hfull
    obtain ⟨k, hk6, hk, hlen⟩ := h.size.resolve_left hne
    have hle : 2 ^ k ≤ 2 ^ 30 := Nat.pow_le_pow_right (by omega) hk
    exact ⟨_, _, rfl, nofun, fun _ => ⟨.rfl, h.reached, by omega, by omega, k, hk6, hk, hlen⟩⟩

def Vm.keyIs (vm : Vm) (s : Text) (e : Entry) : Bool := e.hash = strHash s ∧ vm.dvmStringUtf8 e.ref = some s

theorem Vm.TableOk.internFind (h : vm.TableOk)
    (hhash : ∀ e ∈ vm.interns.reduceOption, ∀ s, vm.dvmStringUtf8 e.ref = some s → e.hash = strHash s) (s : Text) :
    (∃ e ∈ vm.interns.reduceOption, vm.dvmStringUtf8 e.ref = some s ∧ vm.internFind s = some e.ref) ∨
      (∀ e ∈ vm.interns.reduceOption, vm.dvmStringUtf8 e.ref ≠ some s) ∧ vm.internFind s = some 0 := by
  rcases h.size with hnil | ⟨k, -, -, hlen⟩
  · exact .inr ⟨by simp [hnil], by simp [Vm.internFind, hnil]⟩
  have hpos : 0 < 2 ^ k := Nat.two_pow_pos k
  have hne : vm.interns ≠ [] := ne_nil_of_length_pos (by omega)
  have hcall : vm.internFind s =
      (find (vm.keyIs s) (strHash s).toNat vm.interns).map
        fun slot => ((entryAt vm.interns slot).map (·.ref)).getD 0 := by
    rw [Vm.internFind, if_neg (by omega), map_eq_bind]
    dsimp only
    rw [slotFrom_eq hlen]
    rfl
  have hkey : ∀ {e}, vm.keyIs s e = true ↔ e.hash = strHash s ∧ vm.dvmStringUtf8 e.ref = some s := decide_eq_true_iff
  by_cases hex : ∃ e ∈ vm.interns.reduceOption, vm.dvmStringUtf8 e.ref = some s
  · obtain ⟨e, he, hs⟩ := hex
    obtain ⟨p, b, hfind, hb, hpass⟩ := h.reached.find he (hkey.2 ⟨hhash e he s hs, hs⟩)
    rw [Entry.home, hhash e he s hs] at hfind
    exact .inl ⟨b, mem_reduceOption_iff_entryAt.2 ⟨p, hb⟩, (hkey.1 hpass).2, by rw [hcall, hfind]; simp [hb]⟩
  · push Not at hex
    obtain ⟨p, hfind, hends⟩ := @find_ends _ _ (vm.keyIs s) (h.room hne) (strHash s).toNat
    have hnone : entryAt vm.interns p = none := by
      rw [eq_none_iff_forall_not_mem]
      intro e he
      exact hex e (mem_reduceOption_iff_entryAt.2 ⟨p, he⟩) (hkey.1 (hends e he)).2
    exact .inr ⟨hex, by rw [hcall, hfind]; simp [hnone]⟩

end Table

/-! ### Runs -/

/-- The first different strings, as many as the table has room for. The last call stands first. -/
def kept (calls : List (Text × Nat)) : List Text := (calls.map Prod.fst).dedup.rtake limit

/-- The object is this string and has a pin more than others hold. -/
def World.Holds (w : World) (r : Nat) (s : Text) : Prop :=
  ∃ o, w.vm.obj r = some o ∧ o.kind = .string ∧ o.utf8 = s ∧ w.held r < o.pins

def Vm.texts (vm : Vm) : List Text := vm.interns.reduceOption.map fun e => (vm.dvmStringUtf8 e.ref).getD []

structure Inv (w : World) : Prop where
  free : w.vm.FreeOk
  table : w.vm.TableOk
  held : ∀ r, 0 < w.held r → ∃ o, w.vm.obj r = some o ∧ w.held r ≤ o.pins
  entries : ∀ e ∈ w.vm.interns.reduceOption, ∃ s, w.Holds e.ref s ∧ e.hash = strHash s
  texts : w.vm.texts.Perm (kept w.calls)
  calls : ∀ c ∈ w.calls, w.Holds c.2 c.1
  stored : ∀ c ∈ w.calls, c.1 ∈ kept w.calls → ∃ e ∈ w.vm.interns.reduceOption, e.ref = c.2
  same : w.calls.Pairwise fun c c' => c.2 = c'.2 ↔ c.1 = c'.1 ∧ c.1 ∈ kept w.calls

section Runs
variable {w w' : World} {vm vm' : Vm} {r q : Nat} {s u : Text} {calls : List (Text × Nat)}

theorem World.Holds.text (h : w.Holds r s) : w.vm.dvmStringUtf8 r = some s := by
  obtain ⟨o, ho, hkind, rfl, -⟩ := h
  simp [Vm.dvmStringUtf8, ho, hkind]

theorem World.Holds.unique (h : w.Holds r s) (h' : w.Holds r u) : s = u := some.inj (h.text.symm.trans h'.text)

theorem Inv.holds_of_text (h : Inv w) {e : Entry} (he : e ∈ w.vm.interns.reduceOption)
    (hs : w.vm.dvmStringUtf8 e.ref = some s) : w.Holds e.ref s := by
  obtain ⟨u, hu, -⟩ := h.entries e he
  rwa [← some.inj (hu.text.symm.trans hs)]

theorem Inv.mem_texts (h : Inv w) : s ∈ w.vm.texts ↔ ∃ e ∈ w.vm.interns.reduceOption, w.Holds e.ref s := by
  rw [Vm.texts, List.mem_map]
  constructor
  · rintro ⟨e, he, rfl⟩
    obtain ⟨u, hu, -⟩ := h.entries e he
    exact ⟨e, he, by rwa [hu.text]⟩
  · rintro ⟨e, he, hs⟩
    exact ⟨e, he, by rw [hs.text]; rfl⟩

theorem Inv.ref_unique (h : Inv w) {e e' : Entry} (he : e ∈ w.vm.interns.reduceOption)
    (he' : e' ∈ w.vm.interns.reduceOption) (hs : w.Holds e.ref s) (hs' : w.Holds e'.ref s) : e = e' := by
  have hnodup : w.vm.texts.Nodup :=
    h.texts.nodup_iff.2 ((nodup_dedup _).sublist (drop_sublist _ _))
  exact inj_on_of_nodup_map hnodup he he' (by rw [hs.text, hs'.text])

theorem kept_eq_dedup (h : (kept calls).length < limit) : kept calls = (calls.map Prod.fst).dedup := by
  rw [kept, rtake, length_drop] at h
  rw [kept, rtake, show (calls.map Prod.fst).dedup.length - limit = 0 by omega, drop_zero]

/-- A string that was interned before changes nothing. -/
theorem kept_cons_of_mem (h : s ∈ calls.map Prod.fst) : kept ((s, r) :: calls) = kept calls := by
  rw [kept, map_cons, dedup_cons_of_mem h, kept]

/-- A new string has a place as long as there is room. -/
theorem kept_cons (h : s ∉ calls.map Prod.fst) (hroom : (kept calls).length < limit) :
    kept ((s, r) :: calls) = s :: kept calls := by
  have hall := kept_eq_dedup hroom
  rw [hall] at hroom
  rw [hall, kept, map_cons, dedup_cons_of_notMem h, rtake, length_cons,
    show (calls.map Prod.fst).dedup.length + 1 - limit = 0 by omega, drop_zero]

theorem kept_cons_of_full (hfull : (kept calls).length = limit) : kept ((s, r) :: calls) = kept calls := by
  by_cases h : s ∈ calls.map Prod.fst
  · exact kept_cons_of_mem h
  · have hle : limit ≤ (calls.map Prod.fst).dedup.length := by
      rw [kept, rtake, length_drop] at hfull
      omega
    rw [kept, map_cons, dedup_cons_of_notMem h, kept, rtake, rtake, length_cons,
      show (calls.map Prod.fst).dedup.length + 1 - limit = (calls.map Prod.fst).dedup.length - limit + 1 by omega,
      drop_succ_cons]

section
variable (h : Inv w)
include h

theorem Inv.frame (hfree : w'.vm.FreeOk) (hinterns : w'.vm.interns = w.vm.interns)
    (hcount : w'.vm.ninterns = w.vm.ninterns) (hcalls : w'.calls = w.calls)
    (hheld : ∀ r, 0 < w'.held r → ∃ o, w'.vm.obj r = some o ∧ w'.held r ≤ o.pins)
    (hholds : ∀ r s, w.Holds r s → w'.Holds r s) : Inv w' := by
  have htexts : w'.vm.texts = w.vm.texts := by
    rw [Vm.texts, Vm.texts, hinterns]
    refine map_congr_left fun e he => ?_
    obtain ⟨s, hs, -⟩ := h.entries e he
    rw [hs.text, (hholds _ _ hs).text]
  obtain ⟨hsize, hlen, hload, hreached⟩ := h.table
  refine ⟨hfree, ⟨hinterns ▸ hsize, by rw [hinterns, hcount, hlen], by rw [hinterns, hcount]; exact hload,
    hinterns ▸ hreached⟩,
    hheld, fun e he => ?_, by rw [htexts, hcalls]; exact h.texts, fun c hc => hholds _ _ (h.calls c (hcalls ▸ hc)), ?_, ?_⟩
  · obtain ⟨s, hs, hhash⟩ := h.entries e (hinterns ▸ he)
    exact ⟨s, hholds _ _ hs, hhash⟩
  · rw [hinterns, hcalls]
    exact h.stored
  · rw [hcalls]
    exact h.same

theorem Inv.created {o : Object} (hlive : o.live = true) (halloc : w.vm.heapAlloc o = some (vm', r)) :
    Inv { w with vm := vm' } := by
  obtain ⟨-, hnew, -, hother, hfree, hinterns, hcount, -⟩ := heapAlloc_spec h.free hlive halloc
  have hkeep : ∀ q o, w.vm.obj q = some o → vm'.obj q = some o := fun q o hq => by
    rw [hother q ?_, hq]
    rintro rfl
    rw [hnew] at hq
    cases hq
  refine h.frame hfree hinterns hcount rfl (fun q hq => ?_) fun q s ⟨o, ho, hrest⟩ => ⟨o, hkeep q o ho, hrest⟩
  obtain ⟨o, ho, hle⟩ := h.held q hq
  exact ⟨o, hkeep q o ho, hle⟩

/-- A count of pins changes, and what the calls hold of it: they hold no more than there are, and fewer if they did. -/
theorem Inv.repinned {o : Object} {f : Nat → Nat} {n : Nat} (ho : w.vm.obj r = some o) (hle : n ≤ f o.pins)
    (hlt : w.held r < o.pins → n < f o.pins) : Inv { w with vm := w.vm.setPins r f, held := update w.held r n } := by
  obtain ⟨hinterns, hcount, -, -⟩ := @setPins_same w.vm r f
  have hobj : ∀ q, (w.vm.setPins r f).obj q = if q = r then some { o with pins := f o.pins } else w.vm.obj q := fun q => by
    rw [setPins_obj, ho]
    rfl
  refine h.frame h.free.setPins hinterns hcount rfl (fun q hq => ?_) fun q s hs => ?_
  · dsimp only at hq ⊢
    rw [hobj]
    by_cases hqr : q = r
    · subst hqr
      rw [if_pos rfl, update_self]
      exact ⟨_, rfl, hle⟩
    · rw [update_of_ne hqr] at hq ⊢
      rw [if_neg hqr]
      exact h.held q hq
  · obtain ⟨o', ho', hkind, hutf8, hheld⟩ := hs
    rw [World.Holds]
    dsimp only
    rw [hobj]
    by_cases hqr : q = r
    · subst hqr
      cases ho.symm.trans ho'
      rw [if_pos rfl, update_self]
      exact ⟨_, rfl, hkind, hutf8, hlt hheld⟩
    · rw [if_neg hqr, update_of_ne hqr]
      exact ⟨o', ho', hkind, hutf8, hheld⟩

theorem Inv.pinned {o : Object} (ho : w.vm.obj r = some o) (hpins : o.pins + 1 < 2 ^ 32) :
    Inv { w with vm := w.vm.dvmPin r, held := update w.held r (w.held r + 1) } := by
  have hmod := Nat.mod_eq_of_lt hpins
  refine h.repinned ho ?_ fun hlt => hmod.symm ▸ succ_lt_succ hlt
  rw [hmod]
  obtain hzero | hpos := Nat.eq_zero_or_pos (w.held r)
  · omega
  · obtain ⟨o', ho', hle⟩ := h.held r hpos
    cases ho.symm.trans ho'
    exact succ_le_succ hle

theorem Inv.unpinned (hr : w.held r ≠ 0) :
    Inv { w with vm := w.vm.dvmUnpin r, held := update w.held r (w.held r - 1) } := by
  obtain ⟨o, ho, hle⟩ := h.held r (Nat.pos_of_ne_zero hr)
  exact h.repinned ho (Nat.sub_le_sub_right hle 1) fun _ => by omega

theorem Inv.discarded : Inv { w with vm := w.vm.heapFree r } := by
  obtain ⟨hfree, hinterns, hcount, hkeep⟩ := heapFree_spec (r := r) h.free
  refine h.frame hfree hinterns hcount rfl (fun q hq => ?_) fun q s ⟨o, ho, hkind, hutf8, hlt⟩ =>
    ⟨o, hkeep q o ho (zero_lt_of_lt hlt), hkind, hutf8, hlt⟩
  obtain ⟨o, ho, hle⟩ := h.held q hq
  exact ⟨o, hkeep q o ho (Nat.lt_of_lt_of_le hq hle), hle⟩

/-- What a call does: it gives the reference of the string's entry, or a new object with a pin. The object gets an entry
    unless the table is full. -/
theorem Inv.dvmIntern (s : Text) :
    (∃ e ∈ w.vm.interns.reduceOption, w.Holds e.ref s ∧ w.vm.dvmIntern s = some (w.vm, e.ref)) ∨
    s ∉ w.vm.texts ∧ (w.vm.heapAlloc ⟨true, .string, s, 0⟩ = none ∧ w.vm.dvmIntern s = none ∨
      ∃ vm r, w.vm.heapAlloc ⟨true, .string, s, 0⟩ = some (vm, r) ∧
        (w.vm.ninterns = limit ∧ w.vm.dvmIntern s = some (vm.dvmPin r, r) ∨
        w.vm.ninterns < limit ∧ ∃ t, t.reduceOption.Perm (⟨r, strHash s⟩ :: w.vm.interns.reduceOption) ∧
          w.vm.dvmIntern s = some ({ vm.dvmPin r with interns := t, ninterns := w.vm.ninterns + 1 }, r) ∧
          ({ vm.dvmPin r with interns := t, ninterns := w.vm.ninterns + 1 } : Vm).TableOk)) := by
  have hhash : ∀ e ∈ w.vm.interns.reduceOption, ∀ u, w.vm.dvmStringUtf8 e.ref = some u → e.hash = strHash u := by
    intro e he u hu
    obtain ⟨u', hu', hh⟩ := h.entries e he
    rwa [← some.inj (hu'.text.symm.trans hu)]
  rw [Vm.dvmIntern]
  rcases h.table.internFind hhash s with ⟨e, he, hs, hfind⟩ | ⟨hno, hfind⟩
  · have hholds := h.holds_of_text he hs
    obtain ⟨o, ho, -⟩ := hholds
    have hpos := (obj_pos ho).1
    refine .inl ⟨e, he, h.holds_of_text he hs, ?_⟩
    rw [hfind, bind_eq_bind, bind_some, if_pos (by omega)]
  · refine .inr ⟨fun hs => ?_, ?_⟩
    · obtain ⟨e, he, hholds⟩ := h.mem_texts.1 hs
      exact hno e he hholds.text
    rw [hfind, bind_eq_bind, bind_some, if_neg (by simp), Vm.dvmNewString]
    rcases halloc : w.vm.heapAlloc ⟨true, .string, s, 0⟩ with _ | ⟨vm, r⟩
    · exact .inl ⟨rfl, rfl⟩
    refine .inr ⟨vm, r, rfl, ?_⟩
    obtain ⟨-, hnew, hown, -, -, hinterns, hcount, -⟩ := heapAlloc_spec h.free rfl halloc
    obtain ⟨hinterns', hcount', -, -⟩ := dvmPin_same vm r
    have htable : (vm.dvmPin r).TableOk := by
      obtain ⟨hsize, hlen, hload, hreached⟩ := h.table
      rw [← hinterns, ← hinterns'] at hsize hlen hload hreached
      rw [← hcount, ← hcount'] at hlen hload
      exact ⟨hsize, hlen, hload, hreached⟩
    have hutf8 : (vm.dvmPin r).dvmStringUtf8 r = some s := by
      rw [Vm.dvmStringUtf8, Vm.dvmPin, setPins_obj, if_pos rfl, hown]
      rfl
    obtain ⟨t, room, hroom, hfull, hfits⟩ := htable.internRoom
    simp only [bind_eq_bind, bind_some, hroom]
    cases room with
    | false =>
      obtain ⟨-, hlimit⟩ := hfull rfl
      exact .inl ⟨by rw [← hcount, ← hcount', hlimit], rfl⟩
    | true =>
      obtain ⟨hperm, hreached, hload, hlimit, k, hk6, hk, hlen⟩ := hfits rfl
      have hlen' : t.reduceOption.length = (vm.dvmPin r).ninterns := by rw [hperm.length_eq, htable.count]
      obtain ⟨t', hstore, hlength, hperm', hreached'⟩ := insert_spec hreached (by omega) (⟨r, strHash s⟩ : Entry)
      refine .inr ⟨by rw [← hcount, ← hcount']; exact hlimit, t', ?_, ?_, ?_⟩
      · rw [← hinterns, ← hinterns']
        exact hperm'.trans (hperm.cons _)
      · rw [if_neg (by simp), if_neg (by simp [hutf8]), internStore_eq hlen, hstore, bind_some, hcount', hcount]
      · rw [← hcount, ← hcount']
        refine ⟨.inr ⟨k, hk6, hk, hlength.trans hlen⟩, ?_, by rw [hlength]; exact hload, hreached'⟩
        rw [hperm'.length_eq, length_cons, hlen']

/-- A string that is new to the table and to the calls: its object has no reference of theirs. -/
theorem Inv.fresh (hnew : w.vm.obj r = none) : (∀ c ∈ w.calls, c.2 ≠ r) ∧
    ∀ e ∈ w.vm.interns.reduceOption, e.ref ≠ r := by
  constructor
  · rintro c hc rfl
    obtain ⟨o, ho, -⟩ := h.calls c hc
    rw [hnew] at ho
    cases ho
  · rintro e he rfl
    obtain ⟨s, ⟨o, ho, -⟩, -⟩ := h.entries e he
    rw [hnew] at ho
    cases ho

/-- A string that has an entry. -/
theorem Inv.again {e : Entry} (he : e ∈ w.vm.interns.reduceOption) (hs : w.Holds e.ref s) :
    Inv { w with calls := (s, e.ref) :: w.calls } := by
  have hin : s ∈ kept w.calls := h.texts.mem_iff.1 (h.mem_texts.2 ⟨e, he, hs⟩)
  have hkept : kept ((s, e.ref) :: w.calls) = kept w.calls :=
    kept_cons_of_mem (mem_dedup.1 (mem_of_mem_drop hin))
  refine ⟨h.free, h.table, h.held, h.entries, by rw [hkept]; exact h.texts, ?_, ?_, ?_⟩
  · rintro c (_ | ⟨_, hc⟩)
    · exact hs
    · exact h.calls c hc
  · dsimp only
    rw [hkept]
    rintro c (_ | ⟨_, hc⟩) hck
    · exact ⟨e, he, rfl⟩
    · exact h.stored c hc hck
  · dsimp only
    rw [hkept]
    refine pairwise_cons.2 ⟨fun c hc => ⟨fun heq => ⟨?_, hin⟩, fun ⟨heq, _⟩ => ?_⟩, h.same⟩
    · exact hs.unique (by rw [show e.ref = c.2 from heq]; exact h.calls c hc)
    · obtain ⟨e', he', href⟩ := h.stored c hc (by rw [← show s = c.1 from heq]; exact hin)
      have hc' := h.calls c hc
      rw [← href, ← show s = c.1 from heq] at hc'
      rw [← href, h.ref_unique he he' hs hc']

/-- The object that is made for a new string. -/
theorem Inv.allocated (halloc : w.vm.heapAlloc ⟨true, .string, s, 0⟩ = some (vm, r)) :
    Inv { w with vm := vm.dvmPin r } ∧ World.Holds { w with vm := vm.dvmPin r } r s := by
  obtain ⟨-, hnew, hown, hother, hfree, hinterns, hcount, -⟩ := heapAlloc_spec h.free rfl halloc
  obtain ⟨hinterns', hcount', -, -⟩ := dvmPin_same vm r
  have hobj : ∀ q, (vm.dvmPin r).obj q = if q = r then some ⟨true, .string, s, 1⟩ else w.vm.obj q := fun q => by
    rw [Vm.dvmPin, setPins_obj, hown]
    split_ifs with hq
    · rfl
    · exact hother q hq
  have hkeep : ∀ {q o}, w.vm.obj q = some o → (vm.dvmPin r).obj q = some o := fun {q o} hq => by
    rw [hobj, if_neg, hq]
    rintro rfl
    rw [hnew] at hq
    cases hq
  have hheld : ∀ q, 0 < w.held q → ∃ o, (vm.dvmPin r).obj q = some o ∧ w.held q ≤ o.pins := fun q hq => by
    obtain ⟨o, ho, hle⟩ := h.held q hq
    exact ⟨o, hkeep ho, hle⟩
  have hzero : w.held r = 0 := by
    by_contra hne
    obtain ⟨o, ho, -⟩ := h.held r (Nat.pos_of_ne_zero hne)
    rw [hnew] at ho
    cases ho
  refine ⟨h.frame hfree.dvmPin (hinterns'.trans hinterns) (hcount'.trans hcount) rfl hheld
    fun q u ⟨o, ho, hrest⟩ => ⟨o, hkeep ho, hrest⟩, ⟨true, .string, s, 1⟩, ?_, rfl, rfl, ?_⟩
  · dsimp only
    rw [hobj, if_pos rfl]
  · dsimp only
    rw [hzero]
    exact Nat.one_pos

/-- A new string that gets no entry. -/
theorem Inv.outside (hr : w.Holds r s) (hfresh : ∀ c ∈ w.calls, c.2 ≠ r) (hfull : (kept w.calls).length = limit)
    (hs : s ∉ kept w.calls) : Inv { w with calls := (s, r) :: w.calls } := by
  have hkept : kept ((s, r) :: w.calls) = kept w.calls := kept_cons_of_full hfull
  refine ⟨h.free, h.table, h.held, h.entries, by rw [hkept]; exact h.texts, ?_, ?_, ?_⟩
  · rintro c (_ | ⟨_, hc⟩)
    · exact hr
    · exact h.calls c hc
  · dsimp only
    rw [hkept]
    rintro c (_ | ⟨_, hc⟩) hck
    · exact absurd hck hs
    · exact h.stored c hc hck
  · dsimp only
    rw [hkept]
    exact pairwise_cons.2 ⟨fun c hc => ⟨fun heq => absurd heq.symm (hfresh c hc), fun ⟨_, hin⟩ => absurd hin hs⟩, h.same⟩

/-- A new string that gets an entry. -/
theorem Inv.inserted {t : List (Option Entry)} {n : Nat} (hr : w.Holds r s) (hfresh : ∀ c ∈ w.calls, c.2 ≠ r)
    (hroom : (kept w.calls).length < limit) (hs : s ∉ kept w.calls)
    (hperm : t.reduceOption.Perm (⟨r, strHash s⟩ :: w.vm.interns.reduceOption))
    (htable : ({ w.vm with interns := t, ninterns := n } : Vm).TableOk) :
    Inv { w with vm := { w.vm with interns := t, ninterns := n }, calls := (s, r) :: w.calls } := by
  have hnotin : s ∉ w.calls.map Prod.fst := fun hin => by
    rw [← mem_dedup, ← kept_eq_dedup hroom] at hin
    exact hs hin
  have hkept : kept ((s, r) :: w.calls) = s :: kept w.calls := kept_cons hnotin hroom
  refine ⟨⟨h.free.nodup, h.free.free⟩, htable, h.held, ?_, ?_, ?_, ?_, ?_⟩
  · intro e he
    rcases mem_cons.1 (hperm.subset he) with rfl | he
    · exact ⟨s, hr, rfl⟩
    · exact h.entries e he
  · dsimp only
    rw [hkept, Vm.texts]
    refine (hperm.map _).trans ?_
    have htext : (({ w.vm with interns := t, ninterns := n } : Vm).dvmStringUtf8 r).getD [] = s := by
      rw [show ({ w.vm with interns := t, ninterns := n } : Vm).dvmStringUtf8 r = some s from hr.text]
      rfl
    rw [map_cons, htext]
    exact h.texts.cons s
  · rintro c (_ | ⟨_, hc⟩)
    · exact hr
    · exact h.calls c hc
  · dsimp only
    rw [hkept]
    rintro c (_ | ⟨_, hc⟩) hck
    · exact ⟨_, hperm.symm.subset mem_cons_self, rfl⟩
    · rcases mem_cons.1 hck with heq | hck
      · exact absurd (List.mem_map.2 ⟨c, hc, heq⟩) hnotin
      · obtain ⟨e, he, href⟩ := h.stored c hc hck
        exact ⟨e, hperm.symm.subset (mem_cons_of_mem _ he), href⟩
  · dsimp only
    rw [hkept]
    refine pairwise_cons.2 ⟨fun c hc => ⟨fun heq => absurd heq.symm (hfresh c hc), fun ⟨heq, _⟩ => ?_⟩,
      h.same.imp_of_mem fun {c c'} hc _ hiff => ?_⟩
    · exact absurd (List.mem_map.2 ⟨c, hc, heq.symm⟩) hnotin
    · rw [hiff, mem_cons, or_iff_right]
      rintro heq
      exact hnotin (List.mem_map.2 ⟨c, hc, heq⟩)

theorem Inv.interned (hcall : w.vm.dvmIntern s = some (vm', r)) :
    Inv { w with vm := vm', calls := (s, r) :: w.calls } := by
  have hlen : (kept w.calls).length = w.vm.ninterns := by
    rw [← h.texts.length_eq, Vm.texts, length_map, h.table.count]
  rcases h.dvmIntern s with ⟨e, he, hs, hdone⟩ | ⟨hs, ⟨-, hdone⟩ | ⟨vm, r', halloc, hrest⟩⟩
  · cases hdone.symm.trans hcall
    exact h.again he hs
  · rw [hdone] at hcall
    cases hcall
  · obtain ⟨-, hnew, -, -, -, hinterns, -, -⟩ := heapAlloc_spec h.free rfl halloc
    obtain ⟨hkept, hholds⟩ := h.allocated halloc
    have hfresh := (h.fresh hnew).1
    have hout : s ∉ kept w.calls := fun hin => hs (h.texts.mem_iff.2 hin)
    rcases hrest with ⟨hlimit, hdone⟩ | ⟨hlimit, t, hperm, hdone, htable⟩
    · obtain ⟨rfl, rfl⟩ := Prod.mk.inj (some.inj (hdone.symm.trans hcall))
      exact hkept.outside hholds hfresh (hlen.trans hlimit) hout
    · obtain ⟨rfl, rfl⟩ := Prod.mk.inj (some.inj (hdone.symm.trans hcall))
      rw [← hinterns, ← (dvmPin_same vm r').1] at hperm
      exact hkept.inserted hholds hfresh (hlen.trans_lt hlimit) hout hperm htable

end

theorem Inv.start : Inv .start where
  free := ⟨nodup_nil, nofun⟩
  table := ⟨.inl rfl, rfl, Nat.le_refl 0, by intro p a h; simp [World.start, Vm.empty, entryAt] at h⟩
  held r h := absurd h (Nat.lt_irrefl 0)
  entries := nofun
  texts := by simp [Vm.texts, World.start, Vm.empty, kept, rtake, List.reduceOption]
  calls := nofun
  stored := nofun
  same := .nil

theorem Inv.step (h : Inv w) {a : Act} (hstep : w.step a = some w') : Inv w' := by
  cases a with
  | intern s =>
    obtain ⟨⟨vm, r⟩, hcall, rfl⟩ := map_eq_some_iff.1 hstep
    exact h.interned hcall
  | create kind utf8 =>
    obtain ⟨⟨vm, r⟩, halloc, rfl⟩ := map_eq_some_iff.1 hstep
    exact h.created rfl halloc
  | pin ref =>
    rw [World.step] at hstep
    split at hstep
    · cases hstep
      exact h
    · next o ho =>
      obtain ⟨hpins, hstep⟩ := Option.ite_none_right_eq_some.1 hstep
      cases hstep
      exact h.pinned ho hpins
  | unpin ref =>
    rw [World.step] at hstep
    split_ifs at hstep with hheld
    cases hstep
    exact h.unpinned hheld
  | discard ref =>
    cases hstep
    exact h.discarded

theorem Inv.foldlM (acts : List Act) : ∀ {w w' : World}, Inv w → acts.foldlM World.step w = some w' → Inv w' := by
  induction acts with
  | nil =>
    intro w w' h hrun
    rwa [← some.inj hrun]
  | cons a acts ih =>
    intro w w' h hrun
    rw [foldlM_cons] at hrun
    obtain ⟨w₁, hstep, hrest⟩ := bind_eq_some_iff.1 hrun
    exact ih (h.step hstep) hrest

theorem Inv.dvmIntern_isSome (h : Inv w) (hroom : (w.vm.heapAlloc ⟨true, .string, s, 0⟩).isSome = true) :
    (w.vm.dvmIntern s).isSome = true := by
  rcases h.dvmIntern s with ⟨e, -, -, hdone⟩ | ⟨-, ⟨hnone, -⟩ | ⟨vm, r, -, ⟨-, hdone⟩ | ⟨-, t, -, hdone, -⟩⟩⟩
  · rw [hdone, isSome_some]
  · rw [hnone] at hroom
    cases hroom
  · rw [hdone, isSome_some]
  · rw [hdone, isSome_some]

/-- In every run in which no count of pins wraps, two calls give the same reference if and only if their strings are equal
    and among those that have a place in the table. The table has a free slot, its entries are in reach of their hashes,
    the objects stay, and each call ends. -/
theorem interned_canonically {acts : List Act} (hrun : run acts = some w) :
    (w.calls.Pairwise fun c c' => c.2 = c'.2 ↔ c.1 = c'.1 ∧ c.1 ∈ kept w.calls) ∧
    (w.vm.interns ≠ [] → ∃ slot < w.vm.interns.length, vacant w.vm.interns slot = true) ∧
    Reached Entry.home w.vm.interns ∧
    (∀ e ∈ w.vm.interns.reduceOption, ∃ s, w.Holds e.ref s ∧ e.hash = strHash s) ∧
    (∀ c ∈ w.calls, w.Holds c.2 c.1) ∧
    ∀ s, (w.vm.heapAlloc ⟨true, .string, s, 0⟩).isSome = true → (w.vm.dvmIntern s).isSome = true := by
  have h : Inv w := Inv.start.foldlM acts hrun
  exact ⟨h.same, fun hne => exists_vacant (h.table.room hne), h.table.reached, h.entries, h.calls,
    fun s => h.dvmIntern_isSome⟩

/-- Two literals, one of them twice, with other objects between the calls. -/
theorem interned_canonically_twice : ∃ w, run [.intern [0x61], .create .string [0x61], .intern [0x62], .pin 1, .discard 1,
      .unpin 1, .discard 1, .discard 2, .intern [0x61]] = some w ∧ w.calls = [([0x61], 1), ([0x62], 3), ([0x61], 1)] ∧
    w.Holds 1 [0x61] := by
  obtain ⟨w, hrun, hcalls⟩ : ∃ w, run [.intern [0x61], .create .string [0x61], .intern [0x62], .pin 1, .discard 1, .unpin 1,
      .discard 1, .discard 2, .intern [0x61]] = some w ∧ w.calls = [([0x61], 1), ([0x62], 3), ([0x61], 1)] := ⟨_, rfl, rfl⟩
  obtain ⟨-, -, -, -, hholds, -⟩ := interned_canonically hrun
  exact ⟨w, hrun, hcalls, hholds ([0x61], 1) (by rw [hcalls]; exact mem_cons_self)⟩

/-! ### A full table -/

theorem Inv.foldlM_intern (l : List Text) : ∀ {w : World}, Inv w → w.vm.objects.length + l.length < 2 ^ 32 →
    ∃ w', (l.map Act.intern).foldlM World.step w = some w' ∧ w'.calls.map Prod.fst = l.reverse ++ w.calls.map Prod.fst := by
  induction l with
  | nil => exact fun {w} _ _ => ⟨w, rfl, rfl⟩
  | cons s l ih =>
    intro w h hroom
    rw [length_cons] at hroom
    have halloc : (w.vm.heapAlloc ⟨true, .string, s, 0⟩).isSome = true := by
      rw [Vm.heapAlloc]
      split
      · rfl
      · rw [if_pos (by omega)]
        rfl
    obtain ⟨⟨vm, r⟩, hcall⟩ := isSome_iff_exists.1 (h.dvmIntern_isSome halloc)
    have hgrow : vm.objects.length ≤ w.vm.objects.length + 1 := by
      rcases h.dvmIntern s with ⟨e, -, -, hdone⟩ | ⟨-, ⟨-, hdone⟩ | ⟨vm', r', halloc', hrest⟩⟩
      · cases hdone.symm.trans hcall
        omega
      · rw [hdone] at hcall
        cases hcall
      · obtain ⟨-, -, -, -, -, -, -, hlen⟩ := heapAlloc_spec h.free rfl halloc'
        obtain ⟨-, -, -, hpins⟩ := dvmPin_same vm' r'
        rcases hrest with ⟨-, hdone⟩ | ⟨-, t, -, hdone, -⟩
        · cases hdone.symm.trans hcall
          exact hpins.trans_le hlen
        · cases hdone.symm.trans hcall
          exact hpins.trans_le hlen
    obtain ⟨w', hrun, hcalls⟩ := ih (h.interned hcall) (by dsimp only; omega)
    refine ⟨w', ?_, by rw [hcalls]; simp⟩
    rw [map_cons, foldlM_cons, World.step, hcall]
    exact hrun

/-- The decimal digits of a number. -/
def label (i : Nat) : Text := (digits 10 i).map fun d => UInt8.ofNat (48 + d)

theorem label_digits (i : Nat) : (label i).map (fun b => b.toNat - 48) = digits 10 i := by
  rw [label, List.map_map]
  refine (map_congr_left fun d hd => ?_).trans (List.map_id _)
  have := digits_lt_base (by omega : 1 < 10) hd
  rw [comp_apply, UInt8.toNat_ofNat', id]
  omega

theorem label_injective : Function.Injective label := by
  intro i j h
  rw [← ofDigits_digits 10 i, ← ofDigits_digits 10 j, ← label_digits, ← label_digits, h]

/-- As many labels as the table has room for, and then a string that is interned twice. -/
def crowd : List Text := (List.range limit).map label ++ [[0x78], [0x78]]

theorem interned_apart : ∃ w r r' calls, run (crowd.map Act.intern) = some w ∧
    w.calls = ([0x78], r) :: ([0x78], r') :: calls ∧ r ≠ r' := by
  have hlimit : limit = 536870912 := by norm_num [limit]
  have hcrowd : crowd.length = limit + 2 := by simp [crowd]
  obtain ⟨w, hrun, hcalls⟩ := Inv.start.foldlM_intern crowd (by rw [hcrowd]; simp [World.start, Vm.empty]; omega)
  have hsame := (Inv.start.foldlM _ hrun).same
  have hnames : w.calls.map Prod.fst = [0x78] :: [0x78] :: ((List.range limit).map label).reverse := by
    rw [hcalls, crowd]
    simp [World.start]
  have hnodup : ((List.range limit).map label).reverse.Nodup :=
    nodup_reverse.2 (nodup_range.map label_injective)
  have hx : [0x78] ∉ ((List.range limit).map label).reverse := by
    rw [mem_reverse]
    rintro hmem
    obtain ⟨i, -, hi⟩ := List.mem_map.1 hmem
    have hdigits := label_digits i
    rw [hi] at hdigits
    have := digits_lt_base (by omega : 1 < 10) (hdigits ▸ mem_cons_self : 72 ∈ digits 10 i)
    omega
  have hout : [0x78] ∉ kept w.calls := by
    rw [kept, hnames, dedup_cons_of_mem mem_cons_self, dedup_cons_of_notMem hx, hnodup.dedup, rtake,
      length_cons, length_reverse, length_map, length_range,
      show limit + 1 - limit = 1 by omega, drop_one, tail_cons]
    exact hx
  obtain ⟨⟨s, r⟩, l, hw, hs, hl⟩ := map_eq_cons_iff.1 hnames
  obtain ⟨⟨s', r'⟩, calls, rfl, hs', -⟩ := map_eq_cons_iff.1 hl
  obtain rfl : s = [0x78] := hs
  obtain rfl : s' = [0x78] := hs'
  refine ⟨w, r, r', calls, hrun, hw, fun heq => hout ?_⟩
  rw [hw] at hsame ⊢
  exact ((pairwise_cons.1 hsame).1 _ mem_cons_self).1 heq |>.2

end Runs

end Lunaria.Dvm.Intern
