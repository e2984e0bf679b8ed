import Mathlib

/-!
# C declarations as the Ada back end holds them (`c_type.ads`, `c_function.ads`)

The back end keeps C declarations in objects that refer to each other through
access values. Here an access value is a name: `τ` names a `c_Type.Item`, `φ` a
`c_Function.Item`, and a `Heap` says what each name holds. Only what the
dependency functions read is kept of an object: its kind, and for each kind the
objects that the variant part points to.
-/

namespace Swig4Ada.Ada

/-- `c_Type.Item_mutable`: the kind of a C type with the access values of its
variant part. A class has the types of its components, in order. -/
inductive CType (τ φ : Type)
  | unknown
  | arrayType (elementType : τ)
  | opaqueStruct
  | incompleteClass
  | cClass (componentTypes : List τ)
  | enum
  | standardCType
  | functionPointer (accessedFunction : φ)
  | typedefFunction (typedFunction : φ)
  | typePointer (accessedType : τ)
  | typedef (baseType : τ)
  | virtualClassPointer (pointeeType : τ)
deriving DecidableEq, Repr

/-- `c_Declarable.View`: the access values that a dependency is asked about. -/
inductive Declarable (τ φ : Type)
  | type (view : τ)
  | function (view : φ)
deriving DecidableEq, Repr

/-- The objects behind the access values to C types. -/
abbrev Heap (τ φ : Type) := τ → CType τ φ

variable {τ φ : Type} [DecidableEq τ] [DecidableEq φ]

def isUnknown (heap : Heap τ φ) (self : τ) : Bool :=
  match heap self with
  | .unknown => true
  | _ => false

/-- Detects a component that is a pointer to its own class. -/
def isSelfPointer (heap : Heap τ φ) (self component : τ) : Bool :=
  match heap component with
  | .typePointer accessed => accessed = self
  | _ => false

/-- `c_Type.depends_directly_on`. -/
def dependsDirectlyOn (heap : Heap τ φ) (self : τ) (aDeclarable : Declarable τ φ) :
    Bool :=
  match heap self with
  | .arrayType elementType => .type elementType = aDeclarable
  | .cClass componentTypes =>
      componentTypes.any fun component =>
        !isSelfPointer heap self component && .type component = aDeclarable
  | .opaqueStruct | .incompleteClass | .enum | .standardCType | .unknown => false
  | .functionPointer accessedFunction => .function accessedFunction = aDeclarable
  | .typedefFunction typedFunction => .function typedFunction = aDeclarable
  | .typePointer accessedType => .type accessedType = aDeclarable
  | .typedef baseType => .type baseType = aDeclarable
  | .virtualClassPointer _ => false

/-- `c_Parameter.Item` and `c_Variable.Item`: a name with a type. -/
structure Typed (τ : Type) where
  name : String
  myType : τ
deriving DecidableEq, Repr

/-- `c_Function.Item`. -/
structure CFunction (τ : Type) where
  name : String
  parameters : List (Typed τ)
  returnType : τ
deriving DecidableEq, Repr

/-- `c_Module.Item`, without the list of all declarations, which the pruning
neither reads nor writes. -/
structure CModule (τ : Type) where
  newCTypes : List τ
  newCVariables : List (Typed τ)
  newCFunctions : List (CFunction τ)
deriving DecidableEq, Repr

end Swig4Ada.Ada
