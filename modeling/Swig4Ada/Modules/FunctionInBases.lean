import Swig4Ada.Swig.TypeDefault
import Swig4Ada.Proofs.TypeParts

/-!
# Functions of the bases (`Allocate::function_is_defined_in_bases` in `allocate.cxx`)

A method is compared with each method of its name in the bases of its class, first those of
the classes in the list, with what they extend and use, then those of their own bases. It is
marked as overriding or hiding the ones that match, up to the first one with the same access.

A declaration of a function is kept in its parts; its declarator is written from them. Typedefs
are resolved by `resolveAll`, which keeps the form of a declarator and resolves the types of
its parameters.
-/

namespace Swig4Ada.Modules

open Swig4Ada.Swig

inductive RefQualifier
  | lvalue
  | rvalue
deriving DecidableEq, Repr

def RefQualifier.text : RefQualifier → List Char
  | lvalue => ['r', '.']
  | rvalue => ['z', '.']

/-- `q(...).`, where there are qualifiers. -/
def qualifierText (qualifier : List Char) : List Char :=
  if qualifier = [] then [] else ['q', '('] ++ qualifier ++ [')', '.']

/-- The parts of the attributes `decl`, `parms` and `type` of a function. The result is what
the declarator says of it in front of the type. -/
structure FunctionDecl where
  refQualifier : Option RefQualifier
  qualifier : List Char
  parms : List TypeParm
  result : List Char
  type : List Char
  qualifier_plain : ∀ c ∈ qualifier, c ≠ '.' ∧ c ≠ '(' ∧ c ≠ ')'
  parms_types : ∀ p ∈ parms, IsParameter p.type
  result_dot : result = [] ∨ result.getLast? = some '.'
  result_head : (result ++ type).head? ≠ some '.'

def FunctionDecl.refText (f : FunctionDecl) : List Char :=
  (f.refQualifier.map RefQualifier.text).getD []

/-- The attribute `decl`. -/
def FunctionDecl.decl (f : FunctionDecl) : List Char :=
  f.refText ++ (qualifierText f.qualifier ++ swigTypeAddFunction f.result f.parms)

/-- The attribute `decl` of a node, which is no function where it is kept as its text. -/
inductive Declarator
  | function (f : FunctionDecl)
  | other (text : List Char) (h : swigTypeIsfunction text = false)

inductive Access
  | publicAccess
  | protectedAccess
  | privateAccess
deriving DecidableEq, Repr

/-- The attribute `storage`. -/
inductive Storage
  | none
  | virtual
  | static
  | friend
  | typeDef
deriving DecidableEq, Repr

/-- A node in a class. -/
structure MemberNode where
  name : List Char
  decl : Option Declarator
  /-- Whether there is an attribute `type`. -/
  typed : Bool
  access : Access
  storage : Storage
  /-- `is_member_director_helper`. -/
  director : Bool
  covariant : Option (List Char)

def MemberNode.isVirtual (m : MemberNode) : Bool := decide (m.storage = .virtual)

/-- Friends and types are kept with the methods of a class. -/
structure MemberNode.IsMethod (m : MemberNode) : Prop where
  noFriend : m.storage ≠ .friend
  noTypedef : m.storage ≠ .typeDef

/-- The typedefs and classes that are known. -/
structure Typedefs where
  /-- `SwigType_typedef_resolve_all`. -/
  resolveAll : List Char → List Char
  /-- The table `subclass`: the classes derived from a class. -/
  subclass : List Char → List Char → Bool
  resolveAll_again : ∀ t, resolveAll (resolveAll t) = resolveAll t
  resolveAll_parameter : ∀ t, IsParameter t → IsParameter (resolveAll t)
  resolveAll_function : ∀ parms : List TypeParm, (∀ p ∈ parms, IsParameter p.type) →
    resolveAll (swigTypeAddFunction [] parms) =
      swigTypeAddFunction [] (parms.map fun p => { p with type := resolveAll p.type })
  resolveAll_decl : ∀ f : FunctionDecl, swigTypeIsfunction (resolveAll f.decl) = true ∧
    swigTypeIsqualifier (resolveAll f.decl) = swigTypeIsqualifier f.decl

section Types

variable (T : Typedefs)

/-- `SwigType_pop_function`: what is popped is left out. -/
def swigTypePopFunction (t : List Char) : Option (List Char) := do
  let t ← if ['r', '.'].isPrefixOf t ∨ ['z', '.'].isPrefixOf t then (swigTypePop t).map Prod.snd
    else some t
  let t ← if ['q', '('].isPrefixOf t then (swigTypePop t).map Prod.snd else some t
  if ['f', '('].isPrefixOf t then (swigTypePop t).map Prod.snd else none

/-- `function_return_type`, which aborts on what is no function. -/
def functionReturnType (decl type : List Char) (resolve : Bool) : Option (List Char) := do
  let ty := swigTypePush type decl
  let ty ← if swigTypeIsqualifier ty then (swigTypePop ty).map Prod.snd else some ty
  let ty ← swigTypePopFunction ty
  some (if resolve then T.resolveAll ty else ty)

/-- `SwigType_issubtype`. -/
def swigTypeIssubtype (t1 t2 : List Char) : Bool :=
  T.subclass (swigTypeBase (T.resolveAll t2)) (swigTypeBase (T.resolveAll t1))

/-- What `function_is_defined_in_bases_seek` finds of two functions. -/
structure Comparison where
  returntypeMatch : Bool
  declMatch : Bool
  covariantReturntype : Bool
deriving DecidableEq, Repr

/-- The comparison of the returned types: `returntype_match`, `covariant_returntype`. -/
def compareReturn (n base : FunctionDecl) : Option (Bool × Bool) :=
  if base.type = n.type then some (true, false)
  else do
    let this_returntype ← functionReturnType T n.decl n.type true
    let base_returntype ← functionReturnType T base.decl base.type true
    if this_returntype = base_returntype then some (true, false)
    else
      let covariant_returntype := swigTypeIssubtype T this_returntype base_returntype
      some (covariant_returntype, covariant_returntype)

/-- The comparison of the parameter lists and the qualifiers. -/
def compareParms (n base : FunctionDecl) : Bool :=
  if n.parms.length = base.parms.length then
    let base_fn := T.resolveAll (swigTypeAddFunction [] base.parms)
    let this_fn := T.resolveAll (swigTypeAddFunction [] n.parms)
    if base_fn = this_fn then
      let base_qualifier := swigTypeIsqualifier (T.resolveAll n.decl)
      let this_qualifier := swigTypeIsqualifier base.decl
      decide (base_qualifier = this_qualifier)
    else false
  else false

/-- The comparison in `function_is_defined_in_bases_seek`. -/
def compareFunctions (n base : FunctionDecl) : Option Comparison :=
  let decl_match := decide (base.decl = n.decl)
  if base.type = n.type ∧ decl_match then some ⟨true, true, false⟩
  else do
    let (returntype_match, covariant_returntype) ← compareReturn T n base
    some ⟨returntype_match,
      if returntype_match && !decl_match then compareParms T n base else decl_match,
      covariant_returntype⟩

end Types

/-! ## The search -/

/-- A child of a class: `%extend` and using declarations have methods of their own. -/
inductive ClassChild
  | extend (members : List MemberNode)
  | usingDecl (members : List MemberNode)
  | member (m : MemberNode)

/-- The nodes that are compared for a child. -/
def ClassChild.members : ClassChild → List MemberNode
  | extend ms => ms
  | usingDecl ms => ms
  | member m => [m]

/-- Classes with their bases, which come before them. -/
structure Classes (C : Type) where
  children : C → List ClassChild
  allbases : C → List C
  /-- `feature:ignore`. -/
  ignored : C → Bool
  /-- `feature:interface`. -/
  isInterface : C → Bool
  rank : C → Nat
  acyclic : ∀ c, ∀ b ∈ allbases c, rank b < rank c

/-- The method that is looked for, in `inclass`. -/
structure Method (C : Type) where
  node : MemberNode
  function : FunctionDecl
  decl : node.decl = some (.function function)
  method : node.IsMethod
  /-- `is_non_public_base(inclass, b)`. -/
  nonPublicBase : C → Bool
  /-- `virtual_elimination_mode`. -/
  eliminate : Bool
  /-- `Swig_symbol_isoverloaded`. -/
  overloaded : Bool

/-- The attributes of the method that the search sets. -/
structure Marks (C : Type) where
  isVirtual : Bool
  override : Option (C × MemberNode)
  hides : Option (C × MemberNode)
  covariant : Option (List Char)
  ignored : Bool

inductive Mark
  | override
  | hides
deriving DecidableEq, Repr

section Search

variable {C : Type} (T : Typedefs) (H : Classes C) (n : Method C)

/-- `is_member_director(n)`. -/
def wraps (m : MemberNode) (isVirtual : Bool) : Bool := isVirtual && m.director

def bothHave (access : Access) (m m' : MemberNode) : Bool :=
  decide (m.access = access) && decide (m'.access = access)

/-- What a method that matches is marked as, when the one of the base is virtual or is not. -/
def markOf (this_wrapping : Bool) (b : C) (base : MemberNode) : Option Mark :=
  let base_wrapping := wraps base base.isVirtual
  let both_have_public_access := bothHave .publicAccess n.node base
  let both_have_protected_access :=
    bothHave .protectedAccess n.node base && this_wrapping && base_wrapping
  let both_have_private_access := bothHave .privateAccess n.node base
  if base.isVirtual then
    if H.isInterface b then none
    else if both_have_public_access || both_have_protected_access then
      if n.nonPublicBase b then none else some .override
    else if !both_have_private_access then
      if (this_wrapping || base_wrapping) && !n.nonPublicBase b then some .hides else none
    else none
  else if both_have_public_access || both_have_protected_access then
    if n.nonPublicBase b then none else some .hides
  else none

/-- `function_is_defined_in_bases_seek` with a method that matches. -/
def seekMatch (b : C) (base : MemberNode) (g : FunctionDecl) (covariant_returntype : Bool)
    (s : Marks C) : Option (Marks C × Bool) := do
  let this_wrapping := wraps n.node s.isVirtual
  let both_have_public_access := bothHave .publicAccess n.node base
  let both_have_protected_access := bothHave .protectedAccess n.node base && this_wrapping &&
    wraps base base.isVirtual
  let mark := markOf H n this_wrapping b base
  let marked : Marks C := { s with
    override := if mark = some .override then some (b, base) else s.override
    hides := if mark = some .hides then some (b, base) else s.hides }
  let found := both_have_public_access || both_have_protected_access
  if base.isVirtual then
    let marked := { marked with isVirtual := true }
    let most_base_covariant_type ←
      if base.covariant.isNone && covariant_returntype then
        (functionReturnType T g.decl g.type false).map some
      else some base.covariant
    match most_base_covariant_type with
    | some covariant => some ({ marked with covariant := some covariant }, found)
    | none =>
        let eliminated := n.eliminate && !wraps n.node true && both_have_public_access &&
          !n.nonPublicBase b && !n.overloaded
        some ({ marked with ignored := marked.ignored || eliminated }, found)
  else some (marked, found)

/-- `function_is_defined_in_bases_seek`. -/
def seek (b : C) (base : MemberNode) (s : Marks C) : Option (Marks C × Bool) :=
  match base.decl with
  | some (.function g) =>
      if base.typed ∧ base.name = n.node.name ∧ !H.ignored b ∧
          swigTypeIsfunction (T.resolveAll n.function.decl) ∧ swigTypeIsfunction g.decl then do
        let c ← compareFunctions T n.function g
        if c.declMatch && c.returntypeMatch then seekMatch T H n b base g c.covariantReturntype s
        else some (s, false)
      else some (s, false)
  | _ => some (s, false)

/-- The loops over the children of a class, up to the first method that is found. -/
def seekMembers (b : C) : List MemberNode → Marks C → Option (Marks C × Bool)
  | [], s => some (s, false)
  | base :: rest, s => do
      let (s, found) ← seek T H n b base s
      if found then some (s, true) else seekMembers b rest s

def seekClasses : List C → Marks C → Option (Marks C × Bool)
  | [], s => some (s, false)
  | b :: rest, s => do
      let (s, found) ← seekMembers T H n b ((H.children b).flatMap ClassChild.members) s
      if found then some (s, true) else seekClasses rest s

/-- The loop over the bases of the bases. -/
def searchAbove (search : List C → Marks C → Option (Marks C × Bool)) :
    List C → Marks C → Option (Marks C × Bool)
  | [], s => some (s, false)
  | b :: rest, s => do
      let (s, found) ← search (H.allbases b) s
      if found then some (s, true) else searchAbove search rest s

/-- `function_is_defined_in_bases`. -/
def functionIsDefinedInBases : Nat → List C → Marks C → Option (Marks C × Bool)
  | 0, _, _ => none
  | fuel + 1, bases, s => do
      let (s, found) ← seekClasses T H n bases s
      if found then some (s, true)
      else searchAbove H (functionIsDefinedInBases fuel) bases s

/-- The nodes that the search of a list of bases compares, in its order. -/
def membersOf (bases : List C) : List (C × MemberNode) :=
  bases.flatMap fun b => ((H.children b).flatMap ClassChild.members).map (b, ·)

def compared : Nat → List C → List (C × MemberNode)
  | 0, _ => []
  | fuel + 1, bases =>
      membersOf H bases ++ bases.flatMap fun b => compared fuel (H.allbases b)

end Search

end Swig4Ada.Modules
