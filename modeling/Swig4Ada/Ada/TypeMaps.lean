import Swig4Ada.Ada.ExpressionResolver
import Swig4Ada.Lib.Table
import Swig4Ada.Swig.TypeObj

/-!
# The maps of C types (`register`, `register_Mirror` and `demand_c_Type_for` in
`ada_language.adb`)

The back end finds a C type by the text of its swig type and by its C name, in two
hashed maps. Registering a type puts it there with the array, pointer and reference
types that are made from it, one insertion after another; `Insert` raises
`Constraint_Error` for a key that is in the map. A text that is asked for and not
found is registered as the name of an unknown type.

Both procedures are kept as the list of their steps. An access value to a type is kept
as what it was made from, and the dimensions of the array types, which are all
unconstrained, are left out.
-/

namespace Swig4Ada.Ada

open Swig4Ada.Lib
open Swig4Ada.Swig

inductive TypeFault
  | aborted
  | constraintError
deriving DecidableEq, Repr

/-- A `c_Type.View`: a type that a handler has made, or one that is made here. -/
inductive CTypeView (δ : Type)
  | declared (type : δ) (nameSpace name : List Char)
  | unknown (nameSpace name : List Char)
  | array (nameSpace name : List Char) (elementType : CTypeView δ)
  | pointer (nameSpace name : List Char) (accessedType : CTypeView δ)
deriving DecidableEq, Repr

variable {δ : Type}

namespace CTypeView

def nameSpace : CTypeView δ → List Char
  | declared _ nameSpace _ => nameSpace
  | unknown nameSpace _ => nameSpace
  | array nameSpace _ _ => nameSpace
  | pointer nameSpace _ _ => nameSpace

def name : CTypeView δ → List Char
  | declared _ _ name => name
  | unknown _ name => name
  | array _ name _ => name
  | pointer _ name _ => name

end CTypeView

/-! ## Texts -/

/-- `rid`: the token is taken out as long as there is one. -/
def rid (token : List Char) : Nat → List Char → List Char
  | 0, pad => pad
  | fuel + 1, pad =>
      match index token pad with
      | none => pad
      | some i => rid token fuel (pad.take i ++ pad.drop (i + token.length))

/-- `strip_all_qualifiers`. -/
def stripAllQualifiers (self : List Char) : List Char :=
  ["q(const).", "q(volatile).", "struct ", "enum "].foldl
    (fun pad token => rid token.toList (pad.length + 1) pad) self

/-- `SwigType_add_qualifier` of `const`. -/
def addConst (t : List Char) : List Char := swigTypeAddQualifier t ['c', 'o', 'n', 's', 't']

/-! ## The maps -/

structure TypeMaps (δ : Type) where
  swigTypeMapOfCType : List Char → Option (CTypeView δ)
  nameMapOfCType : List Char → Option (CTypeView δ)
  /-- The new types of the current module, in order. -/
  newCTypes : List (CTypeView δ)

/-- A key of one of the two maps. -/
inductive MapKey
  | swigType (text : List Char)
  | name (text : List Char)
deriving DecidableEq, Repr

/-- An insertion into one of the maps, an insertion of what the map of names has for a
name, under several keys, or `add_new_c_Type`. -/
inductive MapStep (δ : Type)
  | insert (key : MapKey) (cType : CTypeView δ)
  | insertNamed (name : List Char) (keys : List MapKey)
  | newType (cType : CTypeView δ)
deriving DecidableEq, Repr

namespace TypeMaps

def find (self : TypeMaps δ) : MapKey → Option (CTypeView δ)
  | .swigType text => self.swigTypeMapOfCType text
  | .name text => self.nameMapOfCType text

/-- `Insert`. -/
def insert (self : TypeMaps δ) (key : MapKey) (cType : CTypeView δ) :
    Except TypeFault (TypeMaps δ) :=
  if (self.find key).isSome then .error .constraintError
  else
    match key with
    | .swigType text =>
        .ok { self with
          swigTypeMapOfCType := Function.update self.swigTypeMapOfCType text (some cType) }
    | .name text =>
        .ok { self with nameMapOfCType := Function.update self.nameMapOfCType text (some cType) }

/-- `name_Map_of_c_type.Element`. -/
def namedElement (self : TypeMaps δ) (name : List Char) : Except TypeFault (CTypeView δ) :=
  match self.nameMapOfCType name with
  | none => .error .constraintError
  | some cType => .ok cType

def step (self : TypeMaps δ) : MapStep δ → Except TypeFault (TypeMaps δ)
  | .insert key cType => self.insert key cType
  | .insertNamed name keys => do
      let cType ← self.namedElement name
      keys.foldlM (fun self key => self.insert key cType) self
  | .newType cType => .ok { self with newCTypes := self.newCTypes ++ [cType] }

end TypeMaps

/-! ## Registering a type -/

/-- The arguments of `register`. -/
structure Registration (δ : Type) where
  cType : CTypeView δ
  toSwigType : List Char
  isCoreCType : Bool
  createArrayType : Bool
  addLevel3Indirection : Bool
deriving DecidableEq, Repr

namespace Registration

variable (r : Registration δ)

def swigType : List Char := stripAllQualifiers r.toSwigType

/-- One type under its swig type, under the text that is made from the C name where
that is not the swig type itself, and under its C name. -/
def enter (swigKey cKey name : List Char) (cType : CTypeView δ) : List (MapStep δ) :=
  MapStep.insert (.swigType swigKey) cType ::
    ((if r.swigType ≠ r.cType.name then [.insert (.swigType cKey) cType] else []) ++
      [.insert (.name name) cType])

def addNew (cType : CTypeView δ) : List (MapStep δ) :=
  if r.isCoreCType then [] else [.newType cType]

def arrayType : CTypeView δ := .array r.cType.nameSpace (r.cType.name ++ ['[', ']']) r.cType

def pointerType : CTypeView δ := .pointer r.cType.nameSpace (r.cType.name ++ ['*']) r.cType

def pointerArray : CTypeView δ :=
  .array r.cType.nameSpace (r.cType.name ++ ['*', '[', ']']) r.pointerType

def pointerPointer : CTypeView δ :=
  .pointer r.cType.nameSpace (r.cType.name ++ ['*', '*']) r.pointerType

def pointerPointerArray : CTypeView δ :=
  .array r.cType.nameSpace (r.cType.name ++ ['*', '*', '[', ']']) r.pointerPointer

def pointerPointerPointer : CTypeView δ :=
  .pointer r.cType.nameSpace (r.cType.name ++ ['*', '*', '*']) r.pointerPointer

def constName : List Char := ['c', 'o', 'n', 's', 't', ' '] ++ r.cType.name

def level1 : List (MapStep δ) :=
  (if r.createArrayType then
    r.enter (['a', '.'] ++ r.swigType) (['a', '.'] ++ r.cType.name) r.arrayType.name
      r.arrayType ++ r.addNew r.arrayType
  else []) ++
  r.enter (swigTypeAddPointer r.swigType) (['p', '.'] ++ r.cType.name) r.pointerType.name
    r.pointerType ++
  r.enter (swigTypeAddPointer (addConst r.swigType)) ("p.q(const).".toList ++ r.cType.name)
    (r.constName ++ ['*']) r.pointerType ++
  r.addNew r.pointerType ++
  r.enter (swigTypeAddReference r.swigType) (['r', '.'] ++ r.cType.name)
    (r.cType.name ++ ['&']) r.pointerType ++
  -- The text from the C name ends in `&` here, which no swig type does.
  r.enter (swigTypeAddReference (addConst r.swigType))
    ("r.q(const).".toList ++ r.cType.name ++ ['&']) (r.constName ++ ['&']) r.pointerType

def level2 : List (MapStep δ) :=
  r.enter (['a', '.'] ++ swigTypeAddPointer r.swigType) (['a', '.', 'p', '.'] ++ r.cType.name)
    r.pointerArray.name r.pointerArray ++
  r.addNew r.pointerArray ++
  r.enter (swigTypeAddPointer (swigTypeAddPointer r.swigType))
    (['p', '.', 'p', '.'] ++ r.cType.name) r.pointerPointer.name r.pointerPointer ++
  r.enter (swigTypeAddPointer (swigTypeAddPointer (addConst r.swigType)))
    ("p.p.q(const).".toList ++ r.cType.name) (r.constName ++ ['*', '*']) r.pointerPointer ++
  r.addNew r.pointerPointer

/-- The texts from the C name lack a dot here. -/
def level3 : List (MapStep δ) :=
  r.enter (['a', '.'] ++ swigTypeAddPointer (swigTypeAddPointer r.swigType))
    (['a', '.', 'p', '.', 'p'] ++ r.cType.name) r.pointerPointerArray.name
    r.pointerPointerArray ++
  r.addNew r.pointerPointerArray ++
  r.enter (swigTypeAddPointer (swigTypeAddPointer (swigTypeAddPointer r.swigType)))
    (['p', '.', 'p', '.', 'p'] ++ r.cType.name) r.pointerPointerPointer.name
    r.pointerPointerPointer ++
  r.addNew r.pointerPointerPointer

/-- What `register` does, in order. -/
def steps : List (MapStep δ) :=
  r.enter r.swigType r.cType.name r.cType.name r.cType ++ r.addNew r.cType ++ r.level1 ++
    r.level2 ++ if r.addLevel3Indirection then r.level3 else []

end Registration

def register (self : TypeMaps δ) (r : Registration δ) : Except TypeFault (TypeMaps δ) :=
  if (self.swigTypeMapOfCType r.swigType).isSome then .error .aborted
  else r.steps.foldlM TypeMaps.step self

/-! ## Mirroring a type under the name of a typedef -/

/-- A name that a C declaration can have. -/
abbrev CIdentifier := {name : List Char // ∀ c ∈ name, c.isAlphanum ∨ c = '_'}

/-- The arguments of `register_Mirror`. -/
structure Mirror (δ : Type) where
  proxyName : CIdentifier
  cType : CTypeView δ
  swigType : List Char
  createArrayType : Bool

/-- What `register_Mirror` does, in order. -/
def Mirror.steps (r : Mirror δ) : List (MapStep δ) :=
  [MapStep.insert (.swigType r.swigType) r.cType, MapStep.insert (.name r.proxyName) r.cType] ++
  (if r.createArrayType then
    [MapStep.insertNamed (r.cType.name ++ ['[', ']'])
      [.swigType (['a', '.'] ++ r.swigType), .name (r.proxyName ++ ['[', ']'])]]
  else []) ++
  [MapStep.insertNamed (r.cType.name ++ ['*'])
    [.swigType (swigTypeAddPointer r.swigType), .name (r.proxyName ++ ['*']),
      .swigType (swigTypeAddPointer (addConst r.swigType)),
      .name ("const ".toList ++ r.proxyName ++ ['*']),
      .swigType (swigTypeAddReference r.swigType), .name (r.proxyName ++ ['&']),
      .swigType (swigTypeAddReference (addConst r.swigType)),
      .name ("const ".toList ++ r.proxyName ++ ['&'])]] ++
  (if r.createArrayType then
    [MapStep.insertNamed (r.cType.name ++ ['*', '[', ']'])
      [.swigType (['a', '.'] ++ swigTypeAddPointer r.swigType)]]
  else []) ++
  [MapStep.insertNamed (r.cType.name ++ ['*', '*'])
    [.swigType (swigTypeAddPointer (swigTypeAddPointer r.swigType))]]

def registerMirror (self : TypeMaps δ) (r : Mirror δ) : Except TypeFault (TypeMaps δ) :=
  r.steps.foldlM TypeMaps.step self

/-! ## Asking for a type -/

/-- The unknown type of a text. -/
def unknownType (nameSpace swigType : List Char) : Registration δ where
  cType := .unknown nameSpace swigType
  toSwigType := swigType
  isCoreCType := false
  createArrayType := true
  addLevel3Indirection := false

def demandCTypeFor (nameSpace : List Char) (self : TypeMaps δ) (swigType : List Char) :
    Except TypeFault (TypeMaps δ × CTypeView δ) :=
  match self.swigTypeMapOfCType swigType with
  | some cType => .ok (self, cType)
  | none => do
      let self ← register self (unknownType nameSpace swigType)
      return (self, .unknown nameSpace swigType)

/-! ## Orders -/

/-- How the name comes into the maps. -/
inductive BaseDeclaration (δ : Type)
  | register (r : Registration δ)
  | mirror (r : Mirror δ)

def BaseDeclaration.run (base : BaseDeclaration δ) (self : TypeMaps δ) :
    Except TypeFault (TypeMaps δ) :=
  match base with
  | .register r => Ada.register self r
  | .mirror r => Ada.registerMirror self r

/-- The name is declared, or a spelling is asked for. -/
def runTypeOp (nameSpace : List Char) (base : BaseDeclaration δ) (self : TypeMaps δ) :
    TableOp (List Char) → Except TypeFault (TypeMaps δ)
  | .declare => base.run self
  | .demand spelling => (demandCTypeFor nameSpace self spelling).map Prod.fst

/-- Every order of the declaration and the demands ends without an exception, and with
the same two maps. -/
def OrderIndependent (nameSpace : List Char) (self : TypeMaps δ) (base : BaseDeclaration δ)
    (spellings : List (List Char)) : Prop :=
  ∃ maps : TypeMaps δ, ∀ ops : List (TableOp (List Char)),
    ops.Perm (.declare :: spellings.map .demand) →
      ∃ self', ops.foldlM (runTypeOp nameSpace base) self = .ok self' ∧
        self'.swigTypeMapOfCType = maps.swigTypeMapOfCType ∧
        self'.nameMapOfCType = maps.nameMapOfCType

end Swig4Ada.Ada
