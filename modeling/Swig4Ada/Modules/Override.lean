import Swig4Ada.Modules.Allocate

/-!
# When a class is abstract

An object of a class has a subobject for every way up to an ancestor; ways that end
alike from their last virtual base on are ways to the same subobject. A pure method of an
ancestor is left without an implementation in a subobject when no class before it on a
way to the subobject overrides it. Destructors are left out.
-/

namespace Swig4Ada.Modules

open Swig4Ada.Swig

namespace Hierarchy

variable {C : Type} (H : Hierarchy C)

/-- The second class is the first one or an ancestor of it. -/
def Ancestor : C → C → Prop := Relation.ReflTransGen fun c b => b ∈ H.allbases c

/-- A way from a class to an ancestor, with both. -/
inductive Way : C → List C → C → Prop
  | here (c : C) : Way c [c] c
  | down {c b a : C} {way : List C} : b ∈ H.allbases c → Way b way a → Way c (c :: way) a

/-- The part of a way that says which subobject it leads to, and whether a virtual base
comes first in it. -/
def trunk (virtualBase : C → C → Bool) : List C → Bool × List C
  | [] => (false, [])
  | [a] => (false, [a])
  | c :: b :: way =>
      match trunk virtualBase (b :: way) with
      | (true, rest) => (true, rest)
      | (false, _) => if virtualBase c b then (true, b :: way) else (false, c :: b :: way)

/-- The two functions have the same name and the same parameters, and the first one is an
implementation. -/
def Implements (k m : ClassMember) : Prop :=
  k.nodeType = .cdeclNode ∧ k.isFunction = true ∧ k.name = m.name ∧
    H.searchDecl k = H.searchDecl m ∧ k.isPure = false

/-- The class implements the method itself. -/
def ImplementedIn (c : C) (m : ClassMember) : Prop := ∃ k ∈ H.members c, H.Implements k m

/-- A pure method, and no destructor. -/
def PureMethod (a : C) (m : ClassMember) : Prop :=
  m ∈ H.pureAbstracts a ∧ m.name ≠ [] ∧ m.hasTilde = false

/-- A way to the subobject goes through a class before it that implements the method. -/
def Overridden (virtualBase : C → C → Bool) (n a : C) (way : List C) (m : ClassMember) : Prop :=
  ∃ way', H.Way n way' a ∧ trunk virtualBase way' = trunk virtualBase way ∧
    ∃ c ∈ way'.dropLast, H.ImplementedIn c m

/-- A pure method of an ancestor has no implementation. -/
def IsAbstract (virtualBase : C → C → Bool) (n : C) : Prop :=
  ∃ a way m, H.Way n way a ∧ H.PureMethod a m ∧ ¬ H.Overridden virtualBase n a way m

/-- A pure method that a class of the hierarchy implements is implemented on a way to its
subobject; or some pure method is implemented by no class of the hierarchy. -/
def ImplementedOnTheWay (virtualBase : C → C → Bool) (n : C) : Prop :=
  (∀ a way m, H.Way n way a → H.PureMethod a m →
      (∃ c, H.Ancestor n c ∧ H.ImplementedIn c m) → H.Overridden virtualBase n a way m) ∨
    ∃ a m, H.Ancestor n a ∧ H.PureMethod a m ∧ ∀ c, H.Ancestor n c → ¬ H.ImplementedIn c m

end Hierarchy

end Swig4Ada.Modules
