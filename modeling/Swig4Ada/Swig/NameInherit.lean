import Swig4Ada.Doh.HashTable
import Swig4Ada.Lib.CText

/-!
# Inheriting the entries of a class (`Swig_name_object_inherit` in `Source/Swig/naming.c`)

A rename or feature table has a hash of declarators for each name. The hashes are finite maps
here, and the order in which a loop goes through one of them is given apart.
-/

namespace Swig4Ada.Swig

open Doh

/-- The orders in which the loops go through the hashes of names and of declarators. -/
structure IterOrder (V : Type) where
  names : HashOrder (HashTable V)
  decls : List Char → HashOrder V

variable {V : Type}

/-- `for (oi = First(n); oi.key; oi = Next(oi))`. -/
def copyMissing (n : HashTable V) (keys : List (List Char)) (newh : HashTable V) : HashTable V :=
  keys.foldl
    (fun newh key =>
      match n.lookup key with
      | none => newh
      | some item =>
          match newh.lookup key with
          | some _ => newh
          | none => newh.insert key item)
    newh

/-- `nkey`. -/
def derivedKey (bPrefix dPrefix key : List Char) : List Char := dPrefix ++ key.drop bPrefix.length

/-- One turn of the first loop: an entry of the derived class that is there is changed in
place, one that is not is collected apart. -/
def inheritTurn (order : IterOrder V) (bPrefix dPrefix : List Char)
    (state : HashTable (HashTable V) × HashTable (HashTable V)) (key : List Char) :
    HashTable (HashTable V) × HashTable (HashTable V) :=
  let (namehash, derh) := state
  if bPrefix.isPrefixOf key then
    match namehash.lookup key with
    | none => state
    | some n =>
        let nkey := derivedKey bPrefix dPrefix key
        match namehash.lookup nkey with
        | some newh => (namehash.insert nkey (copyMissing n ((order.decls key).keys n) newh), derh)
        | none => (namehash, derh.insert nkey (copyMissing n ((order.decls key).keys n) ∅))
  else state

/-- `Swig_name_object_inherit`. -/
def swigNameObjectInherit (order : IterOrder V) (namehash : HashTable (HashTable V))
    (base derived : List Char) : HashTable (HashTable V) :=
  let bPrefix := base ++ [':', ':']
  let dPrefix := derived ++ [':', ':']
  let state := (order.names.keys namehash).foldl (inheritTurn order bPrefix dPrefix) (namehash, ∅)
  setAll (order.names.keys state.2) state.2 state.1

end Swig4Ada.Swig
