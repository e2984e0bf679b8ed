import Swig4Ada.Doh.Hash
import Swig4Ada.Lib.Cursor

/-!
# Going through a hash (`Hash_firstiter`, `Hash_nextiter` in `Source/DOH/hash.c`)

An iterator has the key and the value of the node that was returned, and a pointer to the
node behind it in its bucket. A pointer to a node is here the key of the node, of which a
bucket has no two; following the pointer to a node that is not there any more ends in `none`.
-/

namespace Swig4Ada.Doh

open Lib

variable {V : Type}

structure DohIterator (V : Type) where
  key : Option StringObject
  item : Option V
  current : Option StringObject
  index : Nat

/-- An iterator that has returned the first node of a chain, or has come to its end. -/
def iterAt (index : Nat) : List (HashNode V) → DohIterator V
  | [] => ⟨none, none, none, index⟩
  | n :: next => ⟨some n.key, some n.object, next.head?.map HashNode.key, index⟩

/-- `Hash_firstiter`. -/
def hashFirstiter (h : Hash V) : DohIterator V :=
  let index := nextSlot h.hashtable 0
  iterAt index (bucket h.hashtable index)

/-- `Hash_nextiter`. -/
def hashNextiter (h : Hash V) (iter : DohIterator V) : Option (DohIterator V) :=
  match iter.current with
  | none =>
      let index := nextSlot h.hashtable (iter.index + 1)
      some (iterAt index (bucket h.hashtable index))
  | some k =>
      match fromKey HashNode.key k (bucket h.hashtable iter.index) with
      | [] => none
      | n :: next => some (iterAt iter.index (n :: next))

/-! ## The loop `for (i = First(h); i.key; i = Next(i))` -/

/-- What is done with the hash in one turn: values are set for keys, and the entry that was
just returned is deleted or kept. -/
structure Turn (V : Type) where
  before : List (StringObject × V)
  delete : Bool
  after : List (StringObject × V)

variable [DecidableEq V]

/-- `Setattr` for a key that the hash has. -/
def replaceValue (h : Hash V) (entry : StringObject × V) : Hash V :=
  match hashSetNode h entry.1 entry.2 with
  | some (h, 1) => h
  | _ => h

def takeTurn (h : Hash V) (k : StringObject) (turn : Turn V) : Hash V :=
  let h := turn.before.foldl replaceValue h
  let h := if turn.delete then (hashDelattr h k).1 else h
  turn.after.foldl replaceValue h

/-- The loop, with the entries that are returned. -/
def hashLoop (turns : Nat → Turn V) :
    Nat → Nat → Hash V → DohIterator V → Option (List (StringObject × V) × Hash V)
  | 0, _, _, _ => none
  | fuel + 1, j, h, iter =>
      match iter.key, iter.item with
      | some k, some obj =>
          let h := takeTurn h k (turns j)
          (hashNextiter h iter).bind fun iter =>
            (hashLoop turns fuel (j + 1) h iter).map fun r => ((k, obj) :: r.1, r.2)
      | _, _ => some ([], h)

end Swig4Ada.Doh
