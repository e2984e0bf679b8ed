import Swig4Ada.Ada.DependsOn
import Swig4Ada.Ada.Identifier

/-!
# The context clause of a package (`ada_context.adb`)

A context keeps the types that a package requires in a hashed map whose keys are
addresses, each with a flag that tells whether it is only used as an access type.
`to_Source` goes over that map and gathers the packages of the types in a second one,
goes over the second map and divides the packages into those with a normal and those
with a limited `with`, and writes both lists. The order in which a hashed map is gone
over depends on the addresses, so that here it is any order of the entries of the map.
-/

namespace Swig4Ada.Ada

/-- The types and packages that a context is about. Every package but `standard` has a
parent that was there before it, and names are on one line. -/
structure ContextObjects (T S P : Type) where
  type : T → AdaType T S
  declarationPackage : T → P
  name : P → List Char
  parent : P → Option P
  isCore : P → Bool
  /-- `p.depends_on (own_Package, depth => 0)`. -/
  dependsOn : P → P → Bool
  depth : P → Nat
  parent_lt : ∀ {p q}, parent p = some q → depth q < depth p
  name_line : ∀ p, '\n' ∉ name p

variable {T S P : Type} [DecidableEq T] [DecidableEq P] (M : ContextObjects T S P)

/-- The identifiers of `is_an_ada_Standard_Package_Identifier`. -/
def standardIdentifiers : List String :=
  ["boolean", "integer", "natural", "positive", "float", "character", "wide_character",
    "wide_wide_character", "ascii", "string", "wide_string", "wide_wide_string", "duration",
    "constraint_error", "program_error", "storage_error", "tasking_error"]

def isStandardIdentifier (self : List Char) : Bool :=
  standardIdentifiers.any fun w => lowered self = w.toList

def standardName : List Char := "standard".toList

namespace ContextObjects

def qualifiedFrom : Nat → P → List Char
  | 0, p => M.name p
  | n + 1, p =>
      if M.name p = standardName then M.name p
      else
        match M.parent p with
        | none => M.name p
        | some q =>
            if M.name q = standardName then
              -- Prevents a clash.
              if isReservedWord (M.name p) || isStandardIdentifier (M.name p) then
                ['c', '_'] ++ M.name p
              else M.name p
            else qualifiedFrom n q ++ '.' :: M.name p

/-- `qualified_Name`. -/
def qualifiedName (p : P) : List Char := M.qualifiedFrom (M.depth p + 1) p

def ancestorFrom (possibleAncestor : P) : Nat → P → Bool
  | 0, _ => false
  | n + 1, p =>
      match M.parent p with
      | none => false
      | some q => q = possibleAncestor || ancestorFrom possibleAncestor n q

/-- `has_Ancestor`. The package `standard`, which has no parent, is not asked. -/
def hasAncestor (p possibleAncestor : P) : Bool :=
  M.ancestorFrom possibleAncestor (M.depth p + 1) p

/-- `is_access`, as `add` finds it of a type. -/
def isAccess (t : T) : Bool :=
  match M.type t with
  | .accessToType _ | .interfacesCPointer _ _ => true
  | .aSubtype baseType =>
      match M.type baseType with
      | .accessToType _ | .interfacesCPointer _ _ => true
      | _ => false
  | _ => false

end ContextObjects

/-! ## Adding -/

/-- The required types with `is_accessed`, and the packages whose requirements are known,
with `normal_With_is_required`. -/
structure AdaContext (T P : Type) where
  aRequiredTypes : AList fun _ : T => Bool
  packageRequirements : AList fun _ : P => Bool

/-- `to_Context`. -/
def toContext : AdaContext T P := ⟨∅, ∅⟩

namespace AdaContext

/-- `add`, of a type with `is_access`. -/
def addAccess (c : AdaContext T P) (use : T × Bool) : AdaContext T P :=
  if M.qualifiedName (M.declarationPackage use.1) = standardName then c
  else
    match c.aRequiredTypes.lookup use.1 with
    | some isAccessed =>
        if isAccessed && !use.2 then
          { c with aRequiredTypes := c.aRequiredTypes.insert use.1 false }
        else c
    | none => { c with aRequiredTypes := c.aRequiredTypes.insert use.1 use.2 }

/-- `add`, of a type. -/
def add (c : AdaContext T P) (t : T) : AdaContext T P := c.addAccess M (t, M.isAccess t)

/-- `add`, of some types. -/
def addTypes (c : AdaContext T P) (ts : List T) : AdaContext T P := ts.foldl (add M) c

/-- Some uses of types, one after the other, in a new context. -/
def added (uses : List (T × Bool)) : AdaContext T P := uses.foldl (addAccess M) toContext

end AdaContext

/-! ## The source -/

/-- What one required type adds to the requirements of the packages. -/
def requirePackage (own : P) (m : AList fun _ : P => Bool) (info : Σ _ : T, Bool) :
    AList fun _ : P => Bool :=
  let p := M.declarationPackage info.1
  if p = own then m
  else
    let normal := (m.lookup p).getD false
    m.insert p (normal || (!info.2 || !M.dependsOn p own))

/-- The first loop of `to_Source`, over the required types in some order. -/
def packageRequirements (own : P) (m : AList fun _ : P => Bool) (types : List (Σ _ : T, Bool)) :
    AList fun _ : P => Bool :=
  types.foldl (requirePackage M own) m

/-- A package that is not the own package or one of its ancestors. -/
def ContextObjects.external (own p : P) : Bool := p ≠ own && !M.hasAncestor own p

/-- The packages of the second loop, over the requirements in some order, that get a
normal `with`. -/
def normalWiths (own : P) (packages : List (Σ _ : P, Bool)) : List P :=
  (packages.filter fun e => M.external own e.1 && (e.2 || M.isCore e.1)).map Sigma.fst

def limitedWiths (own : P) (packages : List (Σ _ : P, Bool)) : List P :=
  (packages.filter fun e => M.external own e.1 && !(e.2 || M.isCore e.1)).map Sigma.fst

/-- `Sorter.sort`. Packages of one name give the same text in either order. -/
def sortPackages (l : List P) : List P :=
  l.mergeSort fun p q => decide (M.qualifiedName p ≤ M.qualifiedName q)

def withClause (p : P) : List Char :=
  "with ".toList ++ M.qualifiedName p ++ [';', '\n']

def limitedWithClause (p : P) : List Char :=
  "limited with ".toList ++ M.qualifiedName p ++ [';', '\n']

/-- The text of `to_Source`. In front of the limited clauses the list of the normal ones
is sorted a second time. -/
def contextText (own : P) (packages : List (Σ _ : P, Bool)) : List Char :=
  (sortPackages M (normalWiths M own packages)).flatMap (withClause M) ++
    (limitedWiths M own packages).flatMap (limitedWithClause M)

/-- The order in which `to_Source` may go over the packages of a context. -/
def PackageOrder (own : P) (c : AdaContext T P) (packages : List (Σ _ : P, Bool)) : Prop :=
  ∃ types, types.Perm c.aRequiredTypes.entries ∧
    packages.Perm (packageRequirements M own c.packageRequirements types).entries

/-! ## What a context clause should be -/

/-- The packages that some uses of types require, other than the own package and its
ancestors. -/
def Required (own : P) (uses : List (T × Bool)) (p : P) : Prop :=
  M.qualifiedName p ≠ standardName ∧ M.external own p = true ∧
    ∃ u ∈ uses, M.declarationPackage u.1 = p

/-- One text whatever the order and the addresses; each package once, and with a normal
`with` when a use of it is not through an access type. -/
structure ContextRight (own : P) (uses : List (T × Bool)) : Prop where
  text : ∀ l l' packages packages', (∀ u, u ∈ l ↔ u ∈ uses) → (∀ u, u ∈ l' ↔ u ∈ uses) →
    PackageOrder M own (AdaContext.added M l) packages →
    PackageOrder M own (AdaContext.added M l') packages' →
    contextText M own packages = contextText M own packages'
  once : ∀ l packages, (∀ u, u ∈ l ↔ u ∈ uses) →
    PackageOrder M own (AdaContext.added M l) packages → ∀ p, Required M own uses p →
      ((normalWiths M own packages ++ limitedWiths M own packages).map M.qualifiedName).count
        (M.qualifiedName p) = 1
  normal : ∀ l packages, (∀ u, u ∈ l ↔ u ∈ uses) →
    PackageOrder M own (AdaContext.added M l) packages → ∀ p, Required M own uses p →
      (∃ u ∈ uses, M.declarationPackage u.1 = p ∧ u.2 = false) →
      p ∈ normalWiths M own packages

/-- A required package that depends on the own package, is no core package and is only
used through access types. -/
def LimitedRequired (own : P) (uses : List (T × Bool)) (p : P) : Prop :=
  Required M own uses p ∧ M.dependsOn p own = true ∧ M.isCore p = false ∧
    ∀ u ∈ uses, M.declarationPackage u.1 = p → u.2 = true

/-- The required packages differ in their names, and there is at most one limited one. -/
structure OneLimited (own : P) (uses : List (T × Bool)) : Prop where
  names : ∀ p q, Required M own uses p → Required M own uses q →
    M.qualifiedName p = M.qualifiedName q → p = q
  limited : ∀ p q, LimitedRequired M own uses p → LimitedRequired M own uses q → p = q

end Swig4Ada.Ada
