import Swig4Ada.Runtime.Module

/-!
# One type for each name

After any loads every name should have one `swig_type_info` that all modules share, and
the casts to a type should be in its list once each, with the shared structures as their
sources. The initialiser has no case for a cast whose both types are known already while
the cast itself is new.
-/

namespace Swig4Ada.Runtime

open Swig4Ada.Lib

variable {M Name D : Type} [DecidableEq M] [LinearOrder Name] (tables : M → TypeTable Name D)

/-- Some of the modules has the type in its table. -/
def Lists (modules : List M) (name : Name) : Prop :=
  ∃ m ∈ modules, ∃ i < (tables m).size, (tables m).name i = name

/-- Some of the modules has the conversion in its table. -/
def Declares (modules : List M) (source target : Name) : Prop :=
  ∃ m ∈ modules, ∃ i < (tables m).size, (tables m).name i = target ∧
    ∃ j ∈ (tables m).castInitial i, (tables m).name j = source

/-- The list of the casts to a type, with `next` and `prev` inverse to each other. -/
def CastList (s : Interpreter M D) (t : TypeInfo M) (l : List (CastInfo M)) : Prop :=
  s.links.head t = l.head? ∧ Chain s.links.next s.links.prev l

/-- What the types of the loaded modules should be like. -/
structure TypesRight (modules : List M) (s : Interpreter M D) : Prop where
  listed : ∀ m ∈ modules,
    (s.types m).map (nameOf tables) = (List.range (tables m).size).map (tables m).name
  shared : ∀ m ∈ modules, ∀ t ∈ s.types m, ∀ m' ∈ modules, ∀ t' ∈ s.types m',
    nameOf tables t = nameOf tables t' → t = t'
  cast : ∀ m ∈ modules, ∀ t ∈ s.types m, ∃ l, CastList s t l ∧
    (l.map fun c => nameOf tables (s.castType c)).Nodup ∧
    ∀ c ∈ l, ∃ m' ∈ modules, s.castType c ∈ s.types m'
  declared : ∀ m ∈ modules, ∀ i < (tables m).size, ∀ j ∈ (tables m).castInitial i,
    ∃ t l, (s.types m)[i]? = some t ∧ CastList s t l ∧
      ∃ c ∈ l, nameOf tables (s.castType c) = (tables m).name j
  agree : ∀ m ∈ modules, ∀ t ∈ s.types m, ∀ m' ∈ modules, ∀ source ∈ s.types m',
    (s.typeCheck tables (nameOf tables source) t).1.isSome =
      (s.typeCheckStruct tables source t).1.isSome

/-- The types of all modules are right after some events. -/
def ModulesRight (events : List (Event M Name)) : Prop :=
  TypesRight tables (loaded events) (Interpreter.run tables events)

/-- No module has a conversion between two types that are both known when it is loaded,
unless one of the modules before it has the conversion too. -/
def LinksKnown (events : List (Event M Name)) : Prop :=
  ∀ before m after, events = before ++ Event.load m :: after → m ∉ loaded before →
    ∀ i < (tables m).size, ∀ j ∈ (tables m).castInitial i,
      Lists tables (loaded before) ((tables m).name i) →
      Lists tables (loaded before) ((tables m).name j) →
      Declares tables (loaded before) ((tables m).name j) ((tables m).name i)

end Swig4Ada.Runtime
