import Swig4Ada.Swig.Symbol

/-!
# Abstract classes (`Allocate::is_abstract_inherit` in `allocate.cxx`)

A class that declares no pure method may be abstract by what it inherits. Each pure
method of an ancestor is looked for in the scope of the class with `check_implemented`,
which takes whatever the scope inherits; a base that has one left ends the search.
The attribute `abstracts` of a class is set by the parser and added to by the search.

The classes hold methods under unqualified names that are no templates, and no using
declarations; what the lookup does for those is left out. What `SwigType_pop_function`
gives for a declarator whose typedefs are resolved is a parameter.
-/

namespace Swig4Ada.Modules

open Swig4Ada.Swig

/-- A node in a class. -/
structure ClassMember extends Declaration where
  value : Option (List Char)
deriving DecidableEq, Repr

/-- A class hierarchy. The bases of a class come before it. -/
structure Hierarchy (C : Type) where
  members : C → List ClassMember
  /-- The attribute `allbases`. -/
  allbases : C → List C
  /-- `SwigType_pop_function(SwigType_typedef_resolve_all(decl))`. -/
  functionType : List Char → List Char
  rank : C → Nat
  acyclic : ∀ c, ∀ b ∈ allbases c, rank b < rank c

namespace ClassMember

def isDestructorNode (m : ClassMember) : Bool :=
  m.nodeType = .otherNode ['d', 'e', 's', 't', 'r', 'u', 'c', 't', 'o', 'r']

/-- `pure_abstracts` sets the flag `abstract` of the node. -/
def isPure (m : ClassMember) : Bool :=
  (m.nodeType = .cdeclNode && m.isFunction || m.isDestructorNode) && m.value = some ['0']

/-- `Strchr(name, '~')`. -/
def hasTilde (m : ClassMember) : Bool := m.name.contains '~'

end ClassMember

namespace Hierarchy

variable {C : Type} (H : Hierarchy C)

/-- `pure_abstracts`, the list of the pure methods that a class declares. -/
def pureAbstracts (c : C) : List ClassMember := (H.members c).filter (·.isPure)

def searchDecl (m : ClassMember) : List Char := H.functionType (m.decl.getD [])

/-- `check_implemented`, for the node and the siblings of its name behind it. -/
def checkImplemented (search_decl : List Char) : List ClassMember → Bool
  | [] => false
  | n :: rest =>
      if n.nodeType = .cdeclNode ∧ n.isFunction ∧ H.searchDecl n = search_decl ∧ !n.isPure then
        true
      else checkImplemented search_decl rest

/-- `Getattr(csymtab, name)` and its siblings. -/
def chain (c : C) (name : List Char) : List ClassMember :=
  (H.members c).filter (·.name = name)

variable [DecidableEq C]

/-- The attribute `inherit` of the scope of a class, from `Swig_symbol_inherit`. -/
def inherit (c : C) : List C :=
  (H.allbases c).foldl (fun inherit s => if s ∈ inherit then inherit else inherit ++ [s]) []

/-- The loop over the scopes that are inherited. -/
def lookupInherited (lookup : C → Option Bool) : List C → Option Bool
  | [] => some false
  | s :: rest =>
      match lookup s with
      | none => none
      | some true => some true
      | some false => lookupInherited lookup rest

/-- `_symbol_lookup`, with the scopes that are marked; whether a node is found. -/
def symbolLookup (check : List ClassMember → Bool) (name : List Char) :
    Nat → List C → C → Option Bool
  | 0, _, _ => none
  | fuel + 1, marked, c =>
      if c ∈ marked then some false
      else if check (H.chain c name) then some true
      else lookupInherited (symbolLookup check name fuel (c :: marked)) (H.inherit c)

/-- `Swig_symbol_clookup_local_check(name, 0, check_implemented)` in the scope of a class. -/
def clookupImplemented (n : C) (nn : ClassMember) : Option Bool :=
  H.symbolLookup (H.checkImplemented (H.searchDecl nn)) nn.name (H.rank n + 1) [] n

/-- The attributes `abstracts` and `abstracts:firstnode` of the classes. -/
structure Attributes (C : Type) where
  abstracts : C → Option (List ClassMember)
  firstnode : C → Option ClassMember

/-- As the parser leaves them. -/
def parsed : Attributes C where
  abstracts c := if H.pureAbstracts c = [] then none else some (H.pureAbstracts c)
  firstnode _ := none

/-- A method that is not implemented is saved. -/
def saveAbstract (n : C) (nn : ClassMember) (s : Attributes C) : Attributes C where
  abstracts := Function.update s.abstracts n (some ((s.abstracts n).getD [] ++ [nn]))
  firstnode :=
    if (s.firstnode n).isNone then Function.update s.firstnode n (some nn) else s.firstnode

/-- The loop over the pure methods of a base, with `dabstract`. -/
def abstractsLoop (n base : C) :
    List ClassMember → Attributes C → Bool → Option (Attributes C × Bool)
  | [], s, dabstract => some (s, dabstract)
  | nn :: rest, s, dabstract =>
      if nn.name = [] ∨ nn.hasTilde then abstractsLoop n base rest s dabstract
      else
        match H.clookupImplemented n nn with
        | none => none
        | some true => abstractsLoop n base rest s dabstract
        | some false => abstractsLoop n base rest (saveAbstract n nn s) (base ≠ n)

/-- The loop over the bases of a base. -/
def basesLoop (inherits : C → Attributes C → Option (Attributes C × Bool)) :
    List C → Attributes C → Option (Attributes C × Bool)
  | [], s => some (s, false)
  | b :: rest, s =>
      match inherits b s with
      | none => none
      | some (s, true) => some (s, true)
      | some (s, false) => basesLoop inherits rest s

/-- `is_abstract_inherit` with a base. -/
def isAbstractFrom (n : C) : Nat → Bool → C → Attributes C → Option (Attributes C × Bool)
  | 0, _, _, _ => none
  | fuel + 1, first, base, s =>
      if !first ∧ base = n then some (s, false)
      else
        match H.abstractsLoop n base ((s.abstracts base).getD []) s false with
        | none => none
        | some (s, true) => some (s, true)
        | some (s, false) => basesLoop (isAbstractFrom n fuel false) (H.allbases base) s

/-- `is_abstract_inherit`. -/
def isAbstractInherit (n : C) (s : Attributes C) : Option (Attributes C × Bool) :=
  H.isAbstractFrom n (H.rank n + 1) true n s

/-- What `classDeclaration` does about it for one class after the other. -/
def allocateClasses : List C → Attributes C → Option (Attributes C)
  | [], s => some s
  | n :: rest, s =>
      if (s.abstracts n).isSome then allocateClasses rest s
      else
        match H.isAbstractInherit n s with
        | none => none
        | some (s, _) => allocateClasses rest s

end Hierarchy

end Swig4Ada.Modules
