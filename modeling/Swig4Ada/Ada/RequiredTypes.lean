import Swig4Ada.Ada.CType
import Swig4Ada.Ada.DependsOn

/-!
# The types that a type requires (`c_type.adb`, `ada_type-composite-a_record.adb`)

Both functions go over the components of a class or record and gather types in an array
with a place for each component, of which they return the first `Count`. A place of the
array that is not set is `none`, the null access value.
-/

namespace Swig4Ada.Ada

/-! ## C types -/

/-- What `required_Types` reads of a `c_Function.Item`. -/
structure CSubprogram (τ : Type) where
  isFunction : Bool
  returnType : τ
  parameterTypes : List τ
deriving DecidableEq, Repr

/-- The C types and functions of a translation. A type is made of types that are already
there, but for the components of a class, of which none has the class as its type. -/
structure CObjects (τ φ : Type) where
  heap : Heap τ φ
  /-- `nameSpace.Kind = header_Import`. -/
  headerImport : τ → Bool
  function : φ → CSubprogram τ
  order : τ → Nat
  elementType_lt : ∀ {t made}, heap t = .arrayType made → order made < order t
  accessedType_lt : ∀ {t made}, heap t = .typePointer made → order made < order t
  baseType_lt : ∀ {t made}, heap t = .typedef made → order made < order t
  pointeeType_lt : ∀ {t made}, heap t = .virtualClassPointer made → order made < order t
  component_ne : ∀ {t components}, heap t = .cClass components → t ∉ components

variable {τ φ : Type} [DecidableEq τ]

namespace CObjects

variable (C : CObjects τ φ)

def resolvedFrom : Nat → τ → τ
  | 0, t => t
  | n + 1, t =>
      if C.headerImport t then
        match C.heap t with
        | .typePointer accessedType => resolvedFrom n accessedType
        | .arrayType elementType => resolvedFrom n elementType
        | .typedef baseType => resolvedFrom n baseType
        | .virtualClassPointer pointeeType => resolvedFrom n pointeeType
        | _ => t
      else t

/-- `resolved_Type`. -/
def resolvedType (t : τ) : τ := C.resolvedFrom (C.order t) t

/-- The loop of `required_Types` over the components of a class. -/
def classTypesLoop (self : τ) : List τ → List (Option τ) → Nat → List (Option τ) × Nat
  | [], theTypes, count => (theTypes, count)
  | component :: components, theTypes, count =>
      if isSelfPointer C.heap self component then
        classTypesLoop self components (theTypes.set count (some (C.resolvedType component)))
          (count + 1)
      else classTypesLoop self components theTypes count

/-- `required_Types` of a function. -/
def functionRequiredTypes (f : φ) : List (Option τ) :=
  let parameters := (C.function f).parameterTypes.map fun t => some (C.resolvedType t)
  if (C.function f).isFunction then some (C.function f).returnType :: parameters else parameters

/-- `required_Types` of a type. -/
def requiredTypes (self : τ) : List (Option τ) :=
  match C.heap self with
  | .arrayType elementType => [some elementType]
  | .cClass components =>
      let result := C.classTypesLoop self components (List.replicate components.length none) 0
      result.1.take result.2
  | .opaqueStruct | .incompleteClass | .enum | .standardCType | .unknown => []
  | .functionPointer accessedFunction => C.functionRequiredTypes accessedFunction
  | .typedefFunction typedFunction => C.functionRequiredTypes typedFunction
  | .typePointer accessedType => [some accessedType]
  | .typedef baseType => [some baseType]
  | .virtualClassPointer _ => []

end CObjects

/-! ## Ada records -/

namespace AdaObjects

variable {T S P : Type} [DecidableEq T] (M : AdaObjects T S P)

/-- The loop of `context_required_Types`, at the component `each`. -/
def recordTypesLoop (self : T) : Nat → List T → List (Option T) → Nat → List (Option T) × Nat
  | _, [], theTypes, count => (theTypes, count)
  | each, component :: components, theTypes, count =>
      if M.isSelfReference self component then
        recordTypesLoop self (each + 1) components theTypes count
      else
        recordTypesLoop self (each + 1) components (theTypes.set each (some component)) (count + 1)

/-- `context_required_Types` of a record with these components. -/
def recordRequiredTypes (self : T) (components : List T) : List (Option T) :=
  let result := M.recordTypesLoop self 0 components (List.replicate components.length none) 0
  result.1.take result.2

end AdaObjects

/-! ## What they are for -/

/-- The types of the components but for the ones that are left out, in their order. -/
def otherTypes {α : Type} (leftOut : α → Bool) (components : List α) : List (Option α) :=
  (components.filter fun t => !leftOut t).map some

/-- No component that is left out stands before one that is not. -/
def LeftOutLast {α : Type} (leftOut : α → Bool) (components : List α) : Prop :=
  components.Pairwise fun t t' => leftOut t = true → leftOut t' = true

end Swig4Ada.Ada
