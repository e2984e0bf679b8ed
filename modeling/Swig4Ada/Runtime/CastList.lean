import Swig4Ada.Lib.LinkedLists

/-!
# Looking for a cast (`swigrun.swg`)

The casts of a type are a doubly linked list, from `cast` of the type on. The entry that is
found is moved to its top. A null pointer that is read through is `none`, and so is a loop
that has not come to its end.
-/

namespace Swig4Ada.Runtime

open Swig4Ada.Lib

variable {T C Name : Type} [DecidableEq T] [DecidableEq C] [DecidableEq Name]

/-- The loop of `SWIG_TypeCheck` and `SWIG_TypeCheckStruct`, which differ in the test. -/
def castLoop (next : C → Option C) (test : C → Bool) : Nat → Option C → Option (Option C)
  | 0, _ => none
  | _ + 1, none => some none
  | fuel + 1, some iter => if test iter then some (some iter) else castLoop next test fuel (next iter)

/-- `Move iter to the top of the linked list`. -/
def moveToTop (s : Links T C) (ty : T) (iter : C) : Option (Links T C) := do
  let p ← s.prev iter
  let next := Function.update s.next p (s.next iter)
  let prev :=
    match next iter with
    | some n => Function.update s.prev n (s.prev iter)
    | none => s.prev
  let next := Function.update next iter (s.head ty)
  let prev := Function.update prev iter none
  let prev :=
    match s.head ty with
    | some top => Function.update prev top (some iter)
    | none => prev
  return { head := Function.update s.head ty (some iter), next := next, prev := prev }

def typeCheckBy (test : C → Bool) (fuel : Nat) (s : Links T C) (ty : Option T) :
    Option (Option C × Links T C) :=
  match ty with
  | none => some (none, s)
  | some ty => do
      match ← castLoop s.next test fuel (s.head ty) with
      | none => return (none, s)
      | some iter =>
          if s.head ty = some iter then return (some iter, s)
          else return (some iter, ← moveToTop s ty iter)

section Entries

variable (castType : C → T) (name : T → Name)

/-- `SWIG_TypeCheck`. -/
def swigTypeCheck (c : Name) : Nat → Links T C → Option T → Option (Option C × Links T C) :=
  typeCheckBy fun iter => name (castType iter) = c

/-- `SWIG_TypeCheckStruct`. -/
def swigTypeCheckStruct (source : T) : Nat → Links T C → Option T → Option (Option C × Links T C) :=
  typeCheckBy fun iter => castType iter = source

/-- One of the two functions is called. -/
inductive CastQuery (T Name : Type)
  | typeCheck (c : Name)
  | typeCheckStruct (source : T)

/-- The entry is of the type that is asked for. -/
def CastQuery.Asks (q : CastQuery T Name) (iter : C) : Prop :=
  match q with
  | .typeCheck c => name (castType iter) = c
  | .typeCheckStruct source => castType iter = source

def CastQuery.answer (q : CastQuery T Name) : Nat → Links T C → Option T →
    Option (Option C × Links T C) :=
  match q with
  | .typeCheck c => swigTypeCheck castType name c
  | .typeCheckStruct source => swigTypeCheckStruct castType source

/-- The answers to some queries, one after the other. -/
def answerAll (fuel : Nat) (ty : Option T) :
    List (CastQuery T Name) → Links T C → Option (List (Option C) × Links T C)
  | [], s => some ([], s)
  | q :: queries, s => do
      let (found, s) ← q.answer castType name fuel s ty
      let (answers, s) ← answerAll fuel ty queries s
      return (found :: answers, s)

end Entries

end Swig4Ada.Runtime
