import Swig4Ada.Lib.Bisect
import Swig4Ada.Lib.LinkedLists

/-!
# The type tables of the modules (`swiginit.swg`, `swigrun.swg`)

Every generated module comes with a static array of `swig_type_info` structures and, for
each of them, a static array of `swig_cast_info` structures. When the module is loaded,
`SWIG_InitializeModule` fills the array `types` of the module, with the structure of
another module where the type is already known, and strings the casts to the lists of
these structures. The structures are named by the place in the arrays that they come from,
and the pointers in them are functions from such places.
-/

namespace Swig4Ada.Runtime

open Swig4Ada.Lib

/-- `swig_type_initial` and `swig_cast_initial` as they are generated: the types sorted by
their mangled names, and in the row of each type the indices of the types it is cast from,
each once. -/
structure TypeTable (Name D : Type) [LinearOrder Name] where
  size : Nat
  name : Nat → Name
  clientdata : Nat → Option D
  castInitial : Nat → List Nat
  sorted : ∀ i j, i < j → j < size → name i < name j
  castInitial_lt : ∀ i < size, ∀ j ∈ castInitial i, j < size
  castInitial_nodup : ∀ i < size, (castInitial i).Nodup

/-- The address of a `swig_type_info`: its module and the index in `swig_type_initial`. -/
structure TypeInfo (M : Type) where
  module : M
  index : Nat
  deriving DecidableEq

/-- The address of a `swig_cast_info`: its module, row and column in `swig_cast_initial`. -/
structure CastInfo (M : Type) where
  module : M
  row : Nat
  column : Nat
  deriving DecidableEq

variable {M Name D : Type} [DecidableEq M] [LinearOrder Name]

/-- The state of the interpreter. The circular list of the modules is the list from its
head on. -/
structure Interpreter (M D : Type) where
  ring : List M
  types : M → List (TypeInfo M)
  /-- `cast` of the types, `next` and `prev` of the casts. -/
  links : Links (TypeInfo M) (CastInfo M)
  /-- `type` of the casts. -/
  castType : CastInfo M → TypeInfo M
  clientdata : TypeInfo M → Option D

variable (tables : M → TypeTable Name D)

/-- `type->name`. -/
def nameOf (t : TypeInfo M) : Name := (tables t.module).name t.index

/-- The index of the type that a cast of the table is from. -/
def castSource (c : CastInfo M) : Nat := ((tables c.module).castInitial c.row).getD c.column 0

/-- What the generated code has before a module is loaded. -/
def Interpreter.initial : Interpreter M D where
  ring := []
  types _ := []
  links := Links.empty
  castType c := ⟨c.module, castSource tables c⟩
  clientdata t := (tables t.module).clientdata t.index

/-! ## Casts -/

/-- The `swig_cast_info` structures of some modules. -/
def casts (modules : List M) : List (CastInfo M) :=
  modules.flatMap fun m => (List.range (tables m).size).flatMap fun i =>
    (List.range ((tables m).castInitial i).length).map fun column => ⟨m, i, column⟩

namespace Interpreter

variable (s : Interpreter M D)

/-- The loop of `SWIG_TypeCheck` and of `SWIG_TypeCheckStruct`, which differ in the test. No
list is longer than there are casts of the loaded modules. -/
def typeCheckBy (test : TypeInfo M → Bool) (ty : TypeInfo M) :
    Option (CastInfo M) × Interpreter M D :=
  let answer :=
    s.links.check (fun c => test (s.castType c)) ((casts tables s.ring).length + 1) ty
  (answer.1, { s with links := answer.2 })

/-- `SWIG_TypeCheck`, of the mangled name. -/
def typeCheck (c : Name) (ty : TypeInfo M) : Option (CastInfo M) × Interpreter M D :=
  s.typeCheckBy tables (fun iterType => nameOf tables iterType = c) ty

/-- `SWIG_TypeCheckStruct`, of the structure. -/
def typeCheckStruct (source ty : TypeInfo M) : Option (CastInfo M) × Interpreter M D :=
  s.typeCheckBy tables (fun iterType => iterType = source) ty

/-! ## Types -/

/-- The binary search of `SWIG_MangledTypeQueryModule` in one module. -/
def queryTypes (name : Name) (iter : M) : Option (TypeInfo M) :=
  (bisect (fun i => ((s.types iter)[i]?.map (nameOf tables)).getD name) name
    (tables iter).size).bind fun i => (s.types iter)[i]?

/-- `SWIG_MangledTypeQueryModule` in the modules from `start` to before `end`. -/
def mangledTypeQueryModule (modules : List M) (name : Name) : Option (TypeInfo M) :=
  modules.findSome? (s.queryTypes tables name)

/-- A cast is put into the list of the type. -/
def addCast (type : TypeInfo M) (cast : CastInfo M) : Interpreter M D :=
  { s with links := s.links.push type cast }

/-- One turn of the loop over the casts of a row. `others` are the modules of the ring from
the next one on to before this one. -/
def insertCast (others : List M) (type : TypeInfo M) (cast : CastInfo M) : Interpreter M D :=
  match s.mangledTypeQueryModule tables others (nameOf tables (s.castType cast)) with
  | some ret =>
      if type = ⟨cast.module, cast.row⟩ then
        -- The type is of this module, and `cast->type` has already been loaded.
        { s with castType := Function.update s.castType cast ret }.addCast type cast
      else
        match s.typeCheck tables (nameOf tables ret) type with
        | (some _, s) => s
        | (none, s) => s.addCast type cast
  | none => s.addCast type cast

/-- The loop over the casts of the row, from a column on. -/
def insertCasts (others : List M) (type : TypeInfo M) (m : M) (row : Nat) :
    List Nat → Nat → Interpreter M D → Interpreter M D
  | [], _, s => s
  | _ :: sources, column, s =>
      insertCasts others type m row sources (column + 1)
        (s.insertCast tables others type ⟨m, row, column⟩)

/-- One turn of the loop over the types of the module. -/
def insertType (others : List M) (m : M) (i : Nat) : Interpreter M D :=
  let known := s.mangledTypeQueryModule tables others ((tables m).name i)
  let type := known.getD ⟨m, i⟩
  let s :=
    match known, (tables m).clientdata i with
    | some type, some clientdata =>
        { s with clientdata := Function.update s.clientdata type (some clientdata) }
    | _, _ => s
  let s := insertCasts tables others type m i ((tables m).castInitial i) 0 s
  { s with types := Function.update s.types m (s.types m ++ [type]) }

/-- `SWIG_InitializeModule`. -/
def initializeModule (m : M) : Interpreter M D :=
  if m ∈ s.ring then s
  else
    match s.ring with
    | [] =>
        (List.range (tables m).size).foldl (fun s i => s.insertType tables [] m i)
          { s with ring := [m] }
    | head :: rest =>
        (List.range (tables m).size).foldl
          (fun s i => s.insertType tables (rest ++ [head]) m i)
          { s with ring := head :: m :: rest }

end Interpreter

/-! ## Runs -/

/-- What happens in the interpreter: a module is loaded, or a conversion is asked for. -/
inductive Event (M Name : Type)
  | load (m : M)
  | typeCheck (c : Name) (ty : TypeInfo M)
  | typeCheckStruct (source ty : TypeInfo M)

/-- One event. -/
def Interpreter.event (s : Interpreter M D) : Event M Name → Interpreter M D
  | .load m => s.initializeModule tables m
  | .typeCheck c ty => (s.typeCheck tables c ty).2
  | .typeCheckStruct source ty => (s.typeCheckStruct tables source ty).2

/-- The state after some events. -/
def Interpreter.run (events : List (Event M Name)) : Interpreter M D :=
  events.foldl (fun s e => s.event tables e) (Interpreter.initial tables)

/-- The modules that some events load. -/
def loaded (events : List (Event M Name)) : List M :=
  events.filterMap fun e =>
    match e with
    | .load m => some m
    | .typeCheck _ _ | .typeCheckStruct _ _ => none

end Swig4Ada.Runtime
