import Swig4Ada.Lib.Search

/-!
# Dependencies between types and packages (`depends_on`)

Whether an Ada type depends on a type or on a package is asked of the type, and each
kind of type asks the types it is made of: a record its components, a subtype its base
type, a pointer what it points to, an access to a subprogram the return type and the
parameters. No search knows where it has been. A record that is asked for a package at
a depth of more than ten answers that it does depend on it.

Types, subprograms and packages are objects, which are compared by their addresses.
Tasks and protected types, of which the translator makes none, are left out.
-/

namespace Swig4Ada.Ada

open Swig4Ada.Lib

/-- What a type is made of. A record has the types of its components. -/
inductive AdaType (T S : Type)
  | aRecord (components : List T)
  | aSubtype (baseType : T)
  | anArray (elementType : T)
  | accessToType (accessedType : T)
  | interfacesCPointer (accessedType : T) (associatedArrayType : Option T)
  | accessToSubprogram (accessedSubprogram : S)
  | scalar
deriving DecidableEq, Repr

structure AdaSubprogram (T : Type) where
  isFunction : Bool
  returnType : T
  parameters : List T
deriving DecidableEq, Repr

structure AdaPackage (T S : Type) where
  aSubprograms : List S
  aVariables : List T
  aTypes : List T
deriving DecidableEq, Repr

/-- The objects of a translation. A subtype is made of a base type that is already
there. -/
structure AdaObjects (T S P : Type) where
  type : T → AdaType T S
  declarationPackage : T → Option P
  subprogram : S → AdaSubprogram T
  package : P → AdaPackage T S
  order : T → Nat
  baseType_lt : ∀ {t base}, type t = .aSubtype base → order base < order t

variable {T S P : Type} [DecidableEq T] [DecidableEq P] (M : AdaObjects T S P)

namespace AdaObjects

def resolvedFrom : Nat → T → T
  | 0, t => t
  | n + 1, t =>
      match M.type t with
      | .aSubtype baseType => resolvedFrom n baseType
      | _ => t

/-- `resolved_Type`. -/
def resolvedType (t : T) : T := M.resolvedFrom (M.order t) t

/-- The type of a component is a subtype of a pointer to the record itself. -/
def isSelfReference (self component : T) : Bool :=
  match M.type component with
  | .aSubtype baseType =>
      match M.type baseType with
      | .accessToType accessedType => accessedType = self
      | .interfacesCPointer accessedType _ => accessedType = self
      | _ => false
  | _ => false

end AdaObjects

/-! ## Parameters and subprograms -/

/-- `ada_Parameter.depends_on`, with the test of a type at a depth. -/
def parametersDependOn (test : T → Nat → Option Bool) (parameters : List T) (depth : Nat) :
    Option Bool :=
  firstTrue (fun t => test t (depth + 1)) parameters

/-- `ada_Subprogram.depends_on`, with the tests of the return type and of a parameter. -/
def AdaSubprogram.dependsOn (test parameterTest : T → Nat → Option Bool)
    (s : AdaSubprogram T) (depth : Nat) : Option Bool :=
  match (if s.isFunction then test s.returnType (depth + 1) else some false) with
  | some false => parametersDependOn parameterTest s.parameters (depth + 1)
  | answer => answer

/-! ## The dependency on a type -/

/-- `depends_on (Self, a_Type)`. The depth is only passed on. -/
def dependsOnType (aType : T) : Nat → T → Option Bool
  | 0, _ => none
  | fuel + 1, self =>
      let test := fun t => if t = aType then some true else dependsOnType aType fuel t
      match M.type self with
      | .aRecord components =>
          firstTrue (fun t => if M.isSelfReference self t then some false else test t) components
      | .aSubtype baseType => test baseType
      | .anArray elementType => test elementType
      | .accessToType accessedType => test accessedType
      | .interfacesCPointer accessedType associatedArrayType =>
          firstTrue test (accessedType :: associatedArrayType.toList)
      | .accessToSubprogram s =>
          (M.subprogram s).dependsOn (fun t _ => test t) (fun t _ => test t) 0
      | .scalar => some false

/-! ## The dependency on a package -/

/-- `depends_on (Self, a_Package, Depth)`. A pointer of `Interfaces.C.Pointers` does what
other pointers do; parameters are resolved. -/
def dependsOnPackage (aPackage : P) : Nat → T → Nat → Option Bool
  | 0, _, _ => none
  | fuel + 1, self, depth =>
      let test := fun t depth =>
        if M.declarationPackage t = some aPackage then some true
        else dependsOnPackage aPackage fuel t depth
      match M.type self with
      | .aRecord components =>
          if 10 < depth then some true
          else
            firstTrue
              (fun t => if M.isSelfReference self t then some false else test t (depth + 1))
              components
      | .aSubtype baseType => test baseType (depth + 1)
      | .anArray elementType => test elementType (depth + 1)
      | .accessToType accessedType => test accessedType (depth + 1)
      | .interfacesCPointer accessedType _ => test accessedType (depth + 1)
      | .accessToSubprogram s =>
          (M.subprogram s).dependsOn test (fun t => test (M.resolvedType t)) (depth + 1)
      | .scalar => some false

/-- The part of `ada_Package.Depends_on` for one subprogram: the parameters, and the
return type but for its own package. -/
def packageSubprogramDependsOn (other : P) (fuel : Nat) (depth : Nat) (s : S) : Option Bool :=
  let test := fun t depth =>
    if M.declarationPackage t = some other then some true
    else dependsOnPackage M other fuel t depth
  match parametersDependOn (fun t => test (M.resolvedType t)) (M.subprogram s).parameters
      (depth + 1) with
  | some false => dependsOnPackage M other fuel (M.subprogram s).returnType (depth + 1)
  | answer => answer

/-- `ada_Package.Depends_on`: the subprograms, then the variables and the declared types,
but for their own packages. -/
def packageDependsOn (other : P) (fuel : Nat) (self : P) (depth : Nat) : Option Bool :=
  match firstTrue (packageSubprogramDependsOn M other fuel depth)
      (M.package self).aSubprograms with
  | some false =>
      firstTrue (fun t => dependsOnPackage M other fuel t (depth + 1))
        ((M.package self).aVariables ++ (M.package self).aTypes)
  | answer => answer

/-! ## What the answers should be -/

namespace AdaObjects

/-- The types of which a type is made, in the order in which they are asked; pointers of
a record to itself are ignored. -/
def components (self : T) : List T :=
  match M.type self with
  | .aRecord components => components.filter fun t => !M.isSelfReference self t
  | .aSubtype baseType => [baseType]
  | .anArray elementType => [elementType]
  | .accessToType accessedType => [accessedType]
  | .interfacesCPointer accessedType associatedArrayType =>
      accessedType :: associatedArrayType.toList
  | .accessToSubprogram s =>
      (if (M.subprogram s).isFunction then [(M.subprogram s).returnType] else []) ++
        (M.subprogram s).parameters
  | .scalar => []

/-- The types that the declarations of a package name. -/
def declaredWith (q : P) : List T :=
  ((M.package q).aSubprograms.flatMap fun s =>
      (M.subprogram s).parameters ++ [(M.subprogram s).returnType]) ++
    ((M.package q).aVariables ++ (M.package q).aTypes)

/-- A component of a type, a component of that, and so on. -/
def Reachable (self t : T) : Prop :=
  Relation.TransGen (fun a b => b ∈ M.components a) self t

/-- Some type that is reachable is declared in the package. -/
def ReachesPackage (self : T) (p : P) : Prop :=
  ∃ t, M.Reachable self t ∧ M.declarationPackage t = some p

/-- A type that a package names, or some type reachable from it, is declared in another
package. -/
def UsesPackage (q p : P) : Prop :=
  ∃ t ∈ M.declaredWith q, M.declarationPackage t = some p ∨ M.ReachesPackage t p

end AdaObjects

/-- A function on fuel ends with an answer. -/
def EndsWith (f : Nat → Option Bool) (b : Bool) : Prop := ∃ n, ∀ fuel ≥ n, f fuel = some b

/-- The question about a type is answered, rightly. -/
def TypeRight (self t : T) : Prop :=
  ∃ b, EndsWith (fun fuel => dependsOnType M t fuel self) b ∧ (b = true ↔ M.Reachable self t)

/-- The question about a package is answered, rightly. -/
def PackageRight (self : T) (p : P) (depth : Nat) : Prop :=
  ∃ b, EndsWith (fun fuel => dependsOnPackage M p fuel self depth) b ∧
    (b = true ↔ M.ReachesPackage self p)

/-- The question about a package is answered rightly for a package. -/
def PackagesRight (q p : P) (depth : Nat) : Prop :=
  ∃ b, EndsWith (fun fuel => packageDependsOn M p fuel q depth) b ∧
    (b = true ↔ M.UsesPackage q p)

/-! ## The searches -/

/-- The search for a type. -/
def AdaObjects.typeSearch (t : T) : Search T where
  children := M.components
  hit a := a = t
  stop _ := false

/-- A type that is asked for a package at a depth, and before that for its own package or
not. -/
structure Visit (T : Type) where
  type : T
  depth : Nat
  own : Bool
deriving DecidableEq, Repr

namespace AdaObjects

/-- What is visited from a type. -/
def visits (v : Visit T) : List (Visit T) :=
  match M.type v.type with
  | .aRecord components =>
      (components.filter fun t => !M.isSelfReference v.type t).map (⟨·, v.depth + 1, true⟩)
  | .aSubtype baseType => [⟨baseType, v.depth + 1, true⟩]
  | .anArray elementType => [⟨elementType, v.depth + 1, true⟩]
  | .accessToType accessedType => [⟨accessedType, v.depth + 1, true⟩]
  | .interfacesCPointer accessedType _ => [⟨accessedType, v.depth + 1, true⟩]
  | .accessToSubprogram s =>
      (if (M.subprogram s).isFunction then [⟨(M.subprogram s).returnType, v.depth + 2, true⟩]
        else []) ++
        (M.subprogram s).parameters.map fun t => ⟨M.resolvedType t, v.depth + 3, true⟩
  | .scalar => []

/-- What is visited from a package. -/
def packageVisits (q : P) (depth : Nat) : List (Visit T) :=
  ((M.package q).aSubprograms.flatMap fun s =>
      ((M.subprogram s).parameters.map fun t => ⟨M.resolvedType t, depth + 2, true⟩) ++
        [⟨(M.subprogram s).returnType, depth + 1, false⟩]) ++
    ((M.package q).aVariables ++ (M.package q).aTypes).map (⟨·, depth + 1, false⟩)

def isRecord (t : T) : Bool :=
  match M.type t with
  | .aRecord _ => true
  | _ => false

/-- The search for a package, which is cut off at a record of a depth of more than ten. -/
def packageSearch (p : P) : Search (Visit T) where
  children := M.visits
  hit v := v.own && decide (M.declarationPackage v.type = some p)
  stop v := M.isRecord v.type && decide (10 < v.depth)

/-- The visits are without endless paths, or something is met before them; and when a
record is visited at a depth of more than ten there is a type declared in the package,
and the other way round such a type is visited, or a record at such a depth. -/
def VisitsWell (p : P) (l : List (Visit T)) (reaches : Prop) : Prop :=
  ((∀ v ∈ l, (M.packageSearch p).Bounded v) ∨ (M.packageSearch p).MetAmong l) ∧
    ((∃ v, (M.packageSearch p).Below l v ∧ (M.packageSearch p).stop v = true) → reaches) ∧
    (reaches → ∃ v, (M.packageSearch p).Below l v ∧
      ((M.packageSearch p).hit v = true ∨ (M.packageSearch p).stop v = true))

end AdaObjects

end Swig4Ada.Ada
