import Lunaria.Lib.Routes

/-! Assignability of reference types in `dvm.c`: `class_assignable` walks the superclasses, the interfaces that these
    list, and the components of arrays. Casts, `instance-of` and the choice of a catch clause ask it. Classes are known by
    their descriptors, and one class is registered for each. -/

namespace Lunaria.Dvm.Assign

structure Class (Id : Type) where
  desc : String
  isArray : Bool
  isPrimitive : Bool
  elem : Option Id
  super : Option Id
  ifaces : List (Option Id)

def Class.parents {Id : Type} (c : Class Id) : List Id := c.super.toList ++ c.ifaces.filterMap id

def object : String := "Ljava/lang/Object;"

def arrayInterfaces : List String := ["Ljava/lang/Cloneable;", "Ljava/io/Serializable;"]

/-- The one letter of a primitive type. -/
def primitives : List String := ["Z", "B", "C", "S", "I", "J", "F", "D", "V"]

/-- Known classes, as `dvm__class_by_desc` makes them: a descriptor says whether a class is an array or primitive. They
    have no cycle: a class is above those it is built on and above its components. What a class is built on is a class or
    an interface, and `Object` and the interfaces of arrays are built on nothing else. -/
structure Graph (Id : Type) where
  cls : Id → Class Id
  level : Id → Nat
  parent_lt : ∀ c, ∀ p ∈ (cls c).parents, level p < level c
  elem_lt : ∀ c e, (cls c).elem = some e → level e < level c
  desc_inj : ∀ c d, (cls c).desc = (cls d).desc → c = d
  primitive : ∀ c, (cls c).isPrimitive = true ↔ (cls c).desc ∈ primitives
  primitive_parents : ∀ c, (cls c).isPrimitive = true → (cls c).parents = []
  array : ∀ c, (cls c).isArray = true ↔ (cls c).desc.toList.head? = some '['
  array_elem : ∀ c, (cls c).isArray = true → ∃ e, (cls c).elem = some e ∧ (cls c).desc.toList = '[' :: (cls e).desc.toList
  array_parents : ∀ c, (cls c).isArray = true → ∀ p ∈ (cls c).parents, (cls p).desc = object
  parents_plain : ∀ c, ∀ p ∈ (cls c).parents, (cls p).isArray = false ∧ (cls p).isPrimitive = false
  object_parents : ∀ c, (cls c).desc = object → (cls c).parents = []
  interface_parents : ∀ c, (cls c).desc ∈ arrayInterfaces → ∀ p ∈ (cls c).parents, (cls p).desc = object

namespace Graph
variable {Id : Type} [DecidableEq Id] (g : Graph Id)

/-- A class and its superclasses. -/
def chain (c : Id) : List Id := Routes.chain (fun c => (g.cls c).super) (g.level c + 1) c

/-- `iface_assignable`, with what asks the interfaces. -/
def ifaceAssignable (ask : Id → Bool) (a : Id) : Bool :=
  (g.chain a).any fun c => (g.cls c).ifaces.any fun i => i.any fun i => decide (i ≠ c ∧ i ≠ a) && ask i

/-- `class_assignable`, `n` calls deep. -/
def assignableUpTo : Nat → Option Id → Option Id → Bool
  | 0, _, _ => false
  | _ + 1, none, _ => true
  | _ + 1, _, none => true
  | n + 1, some a, some b =>
    if a = b ∨ (g.cls a).desc = (g.cls b).desc then true
    else if (g.cls a).isPrimitive ∨ (g.cls b).isPrimitive then false
    else if (g.cls b).desc = object then true
    else if (g.chain a).any (fun c => decide (c = b ∨ (g.cls c).desc = (g.cls b).desc)) then true
    else if g.ifaceAssignable (fun i => assignableUpTo n (some i) (some b)) a then true
    else if (g.cls a).isArray ∧ (g.cls b).isArray then assignableUpTo n (g.cls a).elem (g.cls b).elem
    else false

def classAssignable (a b : Option Id) : Bool := g.assignableUpTo ((a.map g.level).getD 0 + 1) a b

/-! ### Who asks -/

/-- `instance-of`, for the class of the object if there is one and the type if it is known. -/
def instanceOf (o : Option (Option Id)) (t : Option Id) : Bool :=
  match o, t with
  | some cls, some t => g.classAssignable cls (some t)
  | _, _ => false

/-- `check-cast` throws. -/
def checkCastThrows (o : Option (Option Id)) (t : Option Id) : Bool :=
  match o, t with
  | some cls, some t => !g.classAssignable cls (some t)
  | _, _ => false

/-- A try item: the range it covers, the types of its clauses, if they are known, with their addresses, and the address that
    catches all. -/
structure Try (Id : Type) where
  start : Nat
  count : Nat
  clauses : List (Option Id × Nat)
  all : Option Nat

def Try.covers (t : Try Id) (pc : Nat) : Bool := decide (t.start ≤ pc ∧ pc < t.start + t.count)

/-- `find_handler`. -/
def findHandler (exc : Option Id) (tries : List (Try Id)) (pc : Nat) : Option Nat :=
  (tries.filter fun t => t.covers pc).findSome? fun t =>
    ((t.clauses.find? fun c => c.1.isSome && g.classAssignable exc c.1).map Prod.snd).or t.all

/-! ### Java -/

/-- Subtypes: a class is one of what it is built on, a reference type one of `Object`, an array one of those of its
    component and of these interfaces. -/
inductive SubtypeBy (interfaces : List String) : Id → Id → Prop
  | refl (a : Id) : SubtypeBy interfaces a a
  | parent {a p b : Id} : p ∈ (g.cls a).parents → SubtypeBy interfaces p b → SubtypeBy interfaces a b
  | object {a b : Id} : (g.cls a).isPrimitive = false → (g.cls b).desc = object → SubtypeBy interfaces a b
  | component {a b x y : Id} : (g.cls a).isArray = true → (g.cls b).isArray = true → (g.cls a).elem = some x →
      (g.cls b).elem = some y → (g.cls x).isPrimitive = false → (g.cls y).isPrimitive = false →
      SubtypeBy interfaces x y → SubtypeBy interfaces a b
  | arrayInterface {a b : Id} : (g.cls a).isArray = true → (g.cls b).desc ∈ interfaces → SubtypeBy interfaces a b

abbrev Subtype : Id → Id → Prop := g.SubtypeBy arrayInterfaces

/-- At some depth, an array stands on one side and `Cloneable` or `Serializable` on the other. -/
inductive ArrayAsInterface : Id → Id → Prop
  | here {a b : Id} : (g.cls a).isArray = true → (g.cls b).desc ∈ arrayInterfaces → ArrayAsInterface a b
  | component {a b x y : Id} : (g.cls a).isArray = true → (g.cls b).isArray = true → (g.cls a).elem = some x →
      (g.cls b).elem = some y → ArrayAsInterface x y → ArrayAsInterface a b

end Graph

end Lunaria.Dvm.Assign
