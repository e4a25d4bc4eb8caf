import Lunaria.Lib.Routes
import Mathlib.Data.List.Lex

/-! The classes of `dvm.c`. A class has its methods, a superclass and the interfaces it lists. A method is looked for in the
    class and its superclasses and then, depth first, in the interfaces that these list. -/

namespace Lunaria.Dvm.Resolve
open List Function Option

structure Method (Id : Type) where
  cls : Id
  name : Option String
  sig : Option String
  hasCode : Bool
  builtin : Bool
deriving DecidableEq

/-- A method that can be run: code of its own, or a builtin. -/
def Method.concrete {Id : Type} (m : Method Id) : Bool := m.hasCode || m.builtin

structure Class (Id : Type) where
  super : Option Id
  ifaces : List (Option Id)
  methods : List (Method Id)

def Class.parents {Id : Type} (c : Class Id) : List Id := c.super.toList ++ c.ifaces.filterMap id

/-- Classes and interfaces without a cycle: a class is above those it is built on. -/
structure Hierarchy (Id : Type) where
  cls : Id → Class Id
  level : Id → Nat
  parent_lt : ∀ c, ∀ p ∈ (cls c).parents, level p < level c
  owns : ∀ c, ∀ m ∈ (cls c).methods, m.cls = c

variable {Id : Type}

namespace Hierarchy
variable (g : Hierarchy Id)

def classOwnMethod (c : Id) (name : String) (sig : Option String) : Option (Method Id) :=
  (g.cls c).methods.find? fun m => m.name = some name ∧ (sig = none ∨ m.sig = none ∨ m.sig = sig)

/-- A class and its superclasses. -/
def chain (c : Id) : List Id := Routes.chain (fun c => (g.cls c).super) (g.level c + 1) c

/-- The interfaces that a class and its superclasses list, in the order of the search. -/
def listing (c : Id) : List (Option Id) := (g.chain c).flatMap fun d => (g.cls d).ifaces

def constructor (name : String) : Prop := name = "<init>" ∨ name = "<clinit>"

instance (name : String) : Decidable (constructor name) := inferInstanceAs (Decidable (_ ∨ _))

/-- What a class is built on, along its superclasses, is an interface of it; `Superinterface c i` takes any number of such
    steps. -/
def Superinterface : Id → Id → Prop := Relation.TransGen fun c i => some i ∈ g.listing c

/-- The method that a class has from itself or its superclasses. -/
def declared (name : String) (sig : Option String) (c : Id) : Option (Method Id) :=
  (g.chain c).findSome? fun d => g.classOwnMethod d name sig

/-- Another superinterface of `c` is built on the one that declares `m`, and declares the method too. -/
def Overridden (c : Id) (name : String) (sig : Option String) (m : Method Id) : Prop :=
  ∃ j, g.Superinterface c j ∧ g.Superinterface j m.cls ∧ g.classOwnMethod j name sig ≠ none

/-- `Leads c p m`: following the listings from `c` at the places `p`, through interfaces that do not have the method, leads
    to one that has `m`, and `m` can be run. -/
def Leads (name : String) (sig : Option String) (c : Id) (p : List Nat) (m : Method Id) : Prop :=
  ∃ i, Routes.Route (fun c => (g.listing c).filterMap id) (g.declared name sig) c p i ∧
    g.declared name sig i = some m ∧ m.concrete = true

/-- Where the listings lead to an overridden method, they lead to one that is not overridden at an earlier place. -/
def ListedFirst (c : Id) (name : String) (sig : Option String) : Prop :=
  ∀ p m, g.Leads name sig c p m → g.Overridden c name sig m →
    ∃ q m', q < p ∧ g.Leads name sig c q m' ∧ ¬ g.Overridden c name sig m'

variable {g : Hierarchy Id} {c : Id} {name : String} {sig : Option String} {m : Method Id}

theorem super_lt {s : Id} (h : (g.cls c).super = some s) : g.level s < g.level c :=
  g.parent_lt c s (mem_append_left _ (by simp [h]))

theorem iface_lt {i : Id} (h : some i ∈ (g.cls c).ifaces) : g.level i < g.level c :=
  g.parent_lt c i (mem_append_right _ (mem_filterMap.2 ⟨_, h, rfl⟩))

theorem chain_eq : g.chain c = c :: ((g.cls c).super.map g.chain).getD [] := Routes.chain_unfold fun _ _ => super_lt

theorem level_le_of_mem_chain {d : Id} (h : d ∈ g.chain c) : g.level d ≤ g.level c :=
  Routes.chain_induction (motive := fun c => g.level d ≤ g.level c) le_rfl (fun hs h => h.trans (super_lt hs).le) h

theorem level_lt_of_listing {i : Id} (h : some i ∈ g.listing c) : g.level i < g.level c := by
  obtain ⟨d, hd, hi⟩ := mem_flatMap.1 h
  exact lt_of_lt_of_le (iface_lt hi) (level_le_of_mem_chain hd)

theorem classOwnMethod_matches (h : g.classOwnMethod c name sig = some m) :
    m.name = some name ∧ (sig = none ∨ m.sig = none ∨ m.sig = sig) := by
  simpa using find?_some h

end Hierarchy

/-! ### Lookup without the tables -/

namespace Hierarchy
variable (g : Hierarchy Id)

/-- What a lookup finds if nothing was looked up before. -/
def resolve (name : String) (sig : Option String) (c : Id) : Option (Method Id) :=
  if constructor name then g.classOwnMethod c name sig
  else Routes.search (fun c => (g.listing c).filterMap id) (g.declared name sig) Method.concrete (g.level c + 1) c

variable {g : Hierarchy Id} {c : Id} {name : String} {sig : Option String} {m : Method Id}

theorem listing_lt : ∀ c, ∀ i ∈ (g.listing c).filterMap id, g.level i < g.level c := by
  intro c i hi
  obtain ⟨o, ho, rfl⟩ := mem_filterMap.1 hi
  exact level_lt_of_listing ho

theorem declared_matches (h : g.declared name sig c = some m) :
    m.name = some name ∧ (sig = none ∨ m.sig = none ∨ m.sig = sig) := by
  obtain ⟨d, -, hd⟩ := exists_of_findSome?_eq_some h
  exact classOwnMethod_matches hd

theorem search_matches : ∀ {n : Nat} {c : Id} {m : Method Id},
    Routes.search (fun c => (g.listing c).filterMap id) (g.declared name sig) Method.concrete n c = some m →
    m.name = some name ∧ (sig = none ∨ m.sig = none ∨ m.sig = sig)
  | 0, _, _, h => by simp [Routes.search] at h
  | n + 1, c, m, h => by
    rw [Routes.search] at h
    cases hd : g.declared name sig c with
    | some m' =>
      rw [hd] at h
      obtain rfl : m' = m := some.inj h
      exact declared_matches hd
    | none =>
      rw [hd] at h
      obtain ⟨i, -, hi⟩ := List.mem_map.1 (Routes.mem_of_choose h)
      exact search_matches hi

theorem resolve_matches (h : g.resolve name sig c = some m) :
    m.name = some name ∧ (sig = none ∨ m.sig = none ∨ m.sig = sig) := by
  rw [resolve] at h
  split at h
  · exact classOwnMethod_matches h
  · exact search_matches h

theorem resolve_of_not_constructor (hname : ¬ constructor name) : g.resolve name sig c =
    Routes.search (fun c => (g.listing c).filterMap id) (g.declared name sig) Method.concrete (g.level c + 1) c :=
  if_neg hname

/-- The class itself, then its superclasses, then the interfaces. -/
theorem resolve_unfold (hname : ¬ constructor name) : g.resolve name sig c =
    (g.declared name sig c).or (Routes.choose Method.concrete (((g.listing c).filterMap id).map (g.resolve name sig))) := by
  have hmap : ((g.listing c).filterMap id).map (g.resolve name sig) = ((g.listing c).filterMap id).map
      (Routes.search (fun c => (g.listing c).filterMap id) (g.declared name sig) Method.concrete (g.level c)) := by
    refine map_congr_left fun i hi => ?_
    rw [resolve_of_not_constructor hname]
    exact Routes.search_depth listing_lt (Nat.lt_succ_self _) (listing_lt c i hi)
  rw [resolve_of_not_constructor hname, Routes.search, hmap]
  cases g.declared name sig c <;> rfl

theorem declared_eq : g.declared name sig c =
    (g.classOwnMethod c name sig).or ((g.chain c).tail.findSome? fun d => g.classOwnMethod d name sig) := by
  rw [declared, chain_eq, findSome?_cons]
  cases g.classOwnMethod c name sig <;> rfl

end Hierarchy

/-! ### Overriding defaults -/

section
variable {g : Hierarchy Id} {c : Id} {name : String} {sig : Option String} {m : Method Id}

theorem Hierarchy.Leads.resolve (hname : ¬ constructor name) {p : List Nat} (h : g.Leads name sig c p m) :
    ∃ m', g.resolve name sig c = some m' ∧ m'.concrete = true := by
  obtain ⟨i, hroute, hi, hm⟩ := h
  rw [resolve_of_not_constructor hname]
  exact Routes.search_complete listing_lt hroute hi hm (Nat.lt_succ_self _)

/-- A method that can be run and is found is the first one that the listings lead to. -/
theorem Hierarchy.leads_of_resolve (hname : ¬ constructor name) (h : g.resolve name sig c = some m)
    (hm : m.concrete = true) : ∃ p, g.Leads name sig c p m ∧ ∀ q m', g.Leads name sig c q m' → ¬ q < p := by
  rw [resolve_of_not_constructor hname] at h
  obtain ⟨p, i, hroute, hi, hfirst⟩ := Routes.search_first listing_lt (Nat.lt_succ_self _) h hm
  refine ⟨p, ⟨i, hroute, hi, hm⟩, ?_⟩
  rintro q m' ⟨j, hroute', hj, hm'⟩
  exact hfirst q j m' hroute' hj hm'

theorem Hierarchy.Leads.unique {p : List Nat} {m' : Method Id} (h : g.Leads name sig c p m) (h' : g.Leads name sig c p m') :
    m = m' := by
  obtain ⟨i, hroute, hi, -⟩ := h
  obtain ⟨j, hroute', hj, -⟩ := h'
  obtain rfl := hroute.unique hroute'
  exact some.inj (hi.symm.trans hj)

end

end Lunaria.Dvm.Resolve
