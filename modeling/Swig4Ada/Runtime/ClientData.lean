import Mathlib

/-!
# The client data of the types (`swigrun.swg`)

`SWIG_TypeClientData` goes down along the casts without a converter, to types that have no
client data yet. Nothing else says where it has been. A null pointer is `none`, and so is a
call that is not done.
-/

namespace Swig4Ada.Runtime

/-- `type` of a `swig_cast_info`, and whether `converter` is not null. -/
structure TypeCast (T : Type) where
  type : T
  converter : Bool

/-- `clientdata` and `owndata` of the types. -/
@[ext] structure TypeData (T D : Type) where
  clientdata : T → Option D
  owndata : T → Bool

variable {T D : Type} [DecidableEq T]

def TypeData.setClientdata (s : TypeData T D) (ti : T) (clientdata : Option D) : TypeData T D :=
  { s with clientdata := Function.update s.clientdata ti clientdata }

/-- `SWIG_TypeClientData`, with a bound on how deep it is called. -/
def swigTypeClientData (cast : T → List (TypeCast T)) (clientdata : Option D) :
    Nat → T → TypeData T D → Option (TypeData T D)
  | 0, _, _ => none
  | fuel + 1, ti, s =>
      (cast ti).foldlM (fun s iter =>
        if iter.converter then some s
        else if (s.clientdata iter.type).isNone then
          swigTypeClientData cast clientdata fuel iter.type s
        else some s) (s.setClientdata ti clientdata)

/-- `SWIG_TypeNewClientData`. -/
def swigTypeNewClientData (cast : T → List (TypeCast T)) (clientdata : Option D) (fuel : Nat)
    (ti : T) (s : TypeData T D) : Option (TypeData T D) :=
  (swigTypeClientData cast clientdata fuel ti s).map fun s =>
    { s with owndata := Function.update s.owndata ti true }

end Swig4Ada.Runtime
