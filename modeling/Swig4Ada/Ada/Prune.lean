import Swig4Ada.Ada.CType

/-!
# Pruning declarations of unknown type (`ada_language.adb`)

`prune_unknown_C_Types` runs between the front end and the transformation to
Ada. It saturates a list of the C types that are unknown or lead to an unknown
one, then deletes those types from the top module and with them the variables
and the functions that mention them.

The two vector operations it uses are Ada's: `element` raises
`Constraint_Error` outside the vector, and `delete` raises it beyond the
position after the last, while at that position it deletes nothing.
-/

namespace Swig4Ada.Ada

/-- The exceptions a run of the back end can raise. -/
inductive AdaException
  | constraintError
deriving DecidableEq, Repr

/-- `ada.Containers.Vectors.Element`, with the index counted from one. -/
def vectorElement {α : Type} (v : List α) (index : Nat) : Except AdaException α :=
  match index with
  | 0 => .error .constraintError
  | i + 1 =>
      match v[i]? with
      | some x => .ok x
      | none => .error .constraintError

/-- `ada.Containers.Vectors.Delete` of one element. -/
def vectorDelete {α : Type} (v : List α) (index : Nat) :
    Except AdaException (List α) :=
  if 1 ≤ index ∧ index ≤ v.length + 1 then .ok (v.eraseIdx (index - 1))
  else .error .constraintError

/-- `ada.Containers.Vectors.find_Index`, where zero is `no_Index`. -/
def vectorFindIndex {α : Type} [DecidableEq α] (v : List α) (x : α) : Nat :=
  if x ∈ v then v.idxOf x + 1 else 0

variable {τ φ : Type} [DecidableEq τ] [DecidableEq φ]

/-- What the sweep does with one type `each` of the name map: unless the list
has it already, it is appended once for every known entry it depends on. The
bound of the inner loop is the length the list had when that loop began. -/
def examine (heap : Heap τ φ) (state : Nat × List τ) (each : τ) : Nat × List τ :=
  if each ∈ state.2 then state
  else
    state.2.foldl
      (fun acc known =>
        if dependsDirectlyOn heap each (.type known) then
          (acc.1 + 1, acc.2 ++ [each])
        else acc)
      state

/-- One turn of the `while` loop: `Count` is reset and the name map swept. -/
def sweep (heap : Heap τ φ) (types known : List τ) : Nat × List τ :=
  types.foldl (examine heap) (0, known)

/-- The `while Count /= 0` loop. `none` is a loop that is still running when the
fuel is gone. -/
def saturate (heap : Heap τ φ) (types : List τ) :
    Nat → Nat × List τ → Option (List τ)
  | _, (0, known) => some known
  | 0, (_ + 1, _) => none
  | fuel + 1, (_ + 1, known) => saturate heap types fuel (sweep heap types known)

/-- `not_fully_known_Types` after the loop. -/
def notFullyKnownTypes (heap : Heap τ φ) (types : List τ) : Option (List τ) :=
  let unknown := types.filter (isUnknown heap)
  saturate heap types (types.length + 1) (unknown.length, unknown)

/-- Rids the not fully known types from the module. -/
def pruneTypes (notFullyKnown : List τ) (newCTypes : List τ) :
    Except AdaException (List τ) :=
  notFullyKnown.foldlM
    (fun types each =>
      let i := vectorFindIndex types each
      if i ≠ 0 then vectorDelete types i else .ok types)
    newCTypes

/-- Rids the variables, from the last index down to `1`. -/
def pruneVariables (notFullyKnown : List τ) :
    Nat → List (Typed τ) → Except AdaException (List (Typed τ))
  | 0, vars => .ok vars
  | i + 1, vars => do
      let theVariable ← vectorElement vars (i + 1)
      let vars ←
        if theVariable.myType ∈ notFullyKnown then vectorDelete vars (i + 1)
        else .ok vars
      pruneVariables notFullyKnown i vars

/-- The body of the loop over the functions: the return type is a reason to
delete at index `i`, and then so is every parameter. -/
def pruneFunction (notFullyKnown : List τ) (i : Nat) (theFunction : CFunction τ)
    (functions : List (CFunction τ)) : Except AdaException (List (CFunction τ)) := do
  let functions ←
    if theFunction.returnType ∈ notFullyKnown then vectorDelete functions i
    else .ok functions
  theFunction.parameters.foldlM
    (fun functions each =>
      if each.myType ∈ notFullyKnown then vectorDelete functions i
      else .ok functions)
    functions

/-- Rids the functions, from the last index down to `1`. -/
def pruneFunctions (notFullyKnown : List τ) :
    Nat → List (CFunction τ) → Except AdaException (List (CFunction τ))
  | 0, functions => .ok functions
  | i + 1, functions => do
      let theFunction ← vectorElement functions (i + 1)
      let functions ← pruneFunction notFullyKnown (i + 1) theFunction functions
      pruneFunctions notFullyKnown i functions

/-- `prune_unknown_C_Types` on the types of `name_Map_of_c_type`, in the map's
iteration order, and the top module. -/
def pruneUnknownCTypes (heap : Heap τ φ) (types : List τ) (moduleTop : CModule τ) :
    Option (Except AdaException (CModule τ)) :=
  (notFullyKnownTypes heap types).map fun notFullyKnown => do
    let newCTypes ← pruneTypes notFullyKnown moduleTop.newCTypes
    let newCVariables ←
      pruneVariables notFullyKnown moduleTop.newCVariables.length
        moduleTop.newCVariables
    let newCFunctions ←
      pruneFunctions notFullyKnown moduleTop.newCFunctions.length
        moduleTop.newCFunctions
    return { newCTypes, newCVariables, newCFunctions }

end Swig4Ada.Ada
