import Swig4Ada.Doh.Hash

/-!
# Who owns what (`Source/DOH/list.c`, `hash.c`, `base.c`, `memory.c`)

Objects are strings, lists and hashes, with a reference count each. The lists and
hashes are in a table by their number; a string is its own identity. Every operation
counts up and down as the code does. Two parts of the state are not in the code.
`outside` says how many references are held by others than the slots of containers; an
operation that takes a reference over from its caller counts it down, and the one with
which a string is interned stays with the table of interned keys. `ignored` says how often
`Delete` was called for an interned string, which it does not count down.

A failed assertion and the use of an object that has been freed are `none`. Files,
metadata and the sizes of allocated arrays are left out.
-/

namespace Swig4Ada.Doh

open Lib

abbrev Obj := Value Nat

inductive Container
  | list (items : List Obj)
  | hash (h : Hash Obj)

def nodeRefs (n : HashNode Obj) : List Obj := [.string n.key, n.object]

/-- The slots of a container, in the order in which they are given up. -/
def Container.held : Container → List Obj
  | .list items => items
  | .hash h => h.nodes.flatMap nodeRefs

structure Memory where
  refcount : Obj → Nat
  interned : Obj → Bool
  freed : List Obj
  containers : List Container
  root : KeyTree
  serial : Nat
  outside : Obj → Nat
  ignored : Obj → Nat

def Memory.empty : Memory where
  refcount := fun _ => 0
  interned := fun _ => false
  freed := []
  containers := []
  root := .none
  serial := 0
  outside := fun _ => 0
  ignored := fun _ => 0

/-- What a count of 28 bits cannot be. -/
def countLimit : Nat := 2 ^ 28

/-- `Incref`. -/
def incref (m : Memory) (x : Obj) : Memory :=
  { m with refcount := Function.update m.refcount x ((m.refcount x + 1) % countLimit) }

/-- `Decref`. -/
def decref (m : Memory) (x : Obj) : Memory :=
  { m with refcount := Function.update m.refcount x (m.refcount x - 1) }

/-- One more reference is held outside. -/
def holdOutside (m : Memory) (x : Obj) : Memory :=
  { m with outside := Function.update m.outside x (m.outside x + 1) }

/-- `Delete` of an interned string comes to nothing. -/
def ignore (m : Memory) (x : Obj) : Memory :=
  { m with ignored := Function.update m.ignored x (m.ignored x + 1) }

/-- `DohObjFree`. -/
def objFree (m : Memory) (x : Obj) : Memory :=
  { m with refcount := Function.update m.refcount x 0, freed := x :: m.freed }

/-- What `doh_del` goes through. -/
def refsOf (m : Memory) : Obj → List Obj
  | .string _ => []
  | .object id => ((m.containers[id]?).map Container.held).getD []

/-- `Delete`, with a bound on how deep the calls are nested. -/
def deleteIn : Nat → Memory → Obj → Option Memory
  | 0, _, _ => none
  | depth + 1, m, x =>
      if m.interned x then some (ignore m x)
      else if m.refcount x = 0 then none
      else
        let m := decref m x
        if m.refcount x = 0 then
          match (refsOf m x).foldlM (deleteIn depth) m with
          | none => none
          | some m => some (objFree m x)
        else some m

/-- `Delete`. The calls are never nested deeper than there are containers. -/
def delete (m : Memory) (x : Obj) : Option Memory := deleteIn (m.containers.length + 1) m x

/-- `Delete` of a reference that was held outside. -/
def deleteOutside (m : Memory) (x : Obj) : Option Memory :=
  delete { m with outside := Function.update m.outside x (m.outside x - 1) } x

/-- `ObjData` of a list. -/
def getList (m : Memory) (lo : Nat) : Option (List Obj) :=
  if .object lo ∈ m.freed then none
  else
    match m.containers[lo]? with
    | some (.list items) => some items
    | _ => none

/-- `ObjData` of a hash. -/
def getHash (m : Memory) (ho : Nat) : Option (Hash Obj) :=
  if .object ho ∈ m.freed then none
  else
    match m.containers[ho]? with
    | some (.hash h) => some h
    | _ => none

def setContainer (m : Memory) (id : Nat) (c : Container) : Memory :=
  { m with containers := m.containers.set id c }

/-! ## New objects -/

/-- `NewString` of a C string, without the reference that it returns. -/
def allocString (m : Memory) (c : List Char) : Memory × Obj :=
  let x := .string (newString m.serial c)
  ({ incref m x with serial := m.serial + 1 }, x)

/-- `DohObjMalloc` for a container, of which the caller has the one reference. -/
def allocContainer (m : Memory) (c : Container) : Memory :=
  let x := .object m.containers.length
  { holdOutside (incref m x) x with containers := m.containers ++ [c] }

/-- `find_key`. A string that is made here is marked as interned; its reference stays
with the tree. -/
def internKey (m : Memory) (c : List Char) : Memory × StringObject :=
  let found := findKey m.serial c m.root
  let x := .string found.2
  if found.2.serial = m.serial then
    ({ holdOutside (incref m x) x with
       interned := Function.update m.interned x true
       root := found.1
       serial := m.serial + 1 }, found.2)
  else (m, found.2)

/-- `DohCheck(k) ? k : find_key(k)`. -/
def keyOf (m : Memory) : KeyArg → Memory × StringObject
  | .object k => (m, k)
  | .cstring c => internKey m c

/-- `if (!DohCheck(obj)) { obj = NewString(obj); Decref(obj); }`. -/
def valueOf (m : Memory) : ValueArg Nat → Memory × Option Obj
  | .null => (m, none)
  | .object x => (m, some x)
  | .cstring c =>
      let made := allocString m c
      (decref made.1 made.2, some made.2)

/-! ## Lists -/

/-- The position at which `List_insert` inserts. -/
def insertPos (pos : Int) (nitems : Nat) : Nat :=
  if pos = -2 then nitems else min pos.toNat nitems

/-- The index that `List_remove` and its assertion come to. -/
def removePos (pos : Int) (nitems : Nat) : Option Nat :=
  let pos := if pos = -2 then (nitems : Int) - 1 else pos
  let pos := if pos = -1 then 0 else pos
  if pos < 0 ∨ nitems ≤ pos then none else some pos.toNat

/-- `List_insert`. -/
def listInsert (m : Memory) (lo : Nat) (pos : Int) (item : ValueArg Nat) : Option Memory := do
  let items ← getList m lo
  match valueOf m item with
  | (m, none) => return m
  | (m, some x) =>
      return incref (setContainer m lo (.list (items.insertIdx (insertPos pos items.length) x))) x

/-- `List_remove`. -/
def listRemove (m : Memory) (lo : Nat) (pos : Int) : Option Memory := do
  let items ← getList m lo
  let pos ← removePos pos items.length
  let x ← items[pos]?
  let m ← delete m x
  let items ← getList m lo
  return setContainer m lo (.list (items.eraseIdx pos))

/-- `List_set`. -/
def listSet (m : Memory) (lo : Nat) (n : Int) (val : ValueArg Nat) : Option Memory := do
  let items ← getList m lo
  match valueOf m val with
  | (m, none) => return m
  | (m, some val) =>
      if n < 0 ∨ (items.length : Int) ≤ n then none
      else
        let old ← items[n.toNat]?
        let m ← delete m old
        let items ← getList m lo
        let m := incref (setContainer m lo (.list (items.set n.toNat val))) val
        deleteOutside m val

/-- `List_clear`. -/
def listClear (m : Memory) (lo : Nat) : Option Memory := do
  let items ← getList m lo
  let m ← items.foldlM delete m
  let _ ← getList m lo
  return setContainer m lo (.list [])

/-- `CopyList`. -/
def listCopy (m : Memory) (lo : Nat) : Option Memory := do
  let items ← getList m lo
  return items.foldl incref (allocContainer m (.list items))

/-! ## Hashes -/

/-- `Hash_delattr`. The node is taken out before `DelNode`, and counted down after it. -/
def hashDelete (m : Memory) (ho : Nat) (k : KeyArg) : Option Memory := do
  let h ← getHash m ho
  let (m, k) := keyOf m k
  match findNode h k with
  | none => return m
  | some n =>
      let m := setContainer m ho (.hash (hashDelattr h k).1)
      let m ← (nodeRefs n).foldlM delete m
      let _ ← getHash m ho
      return m

/-- `Hash_setattr` from the walk down the chain. -/
def setNode (m : Memory) (ho : Nat) (h : Hash Obj) (k : StringObject) (obj : Obj) :
    Option Memory :=
  match findNode h k with
  | some n =>
      if n.object = obj then some m
      else do
        let m ← delete m n.object
        let h ← getHash m ho
        let h ← hashSetNode h k obj
        return incref (setContainer m ho (.hash h.1)) obj
  | none => do
      let h ← hashSetNode h k obj
      return incref (incref (setContainer m ho (.hash h.1)) (.string k)) obj

/-- `Hash_setattr`. -/
def hashSet (m : Memory) (ho : Nat) (k : KeyArg) (obj : ValueArg Nat) : Option Memory :=
  match obj with
  | .null => hashDelete m ho k
  | obj => do
      let h ← getHash m ho
      let (m, k) := keyOf m k
      let made := valueOf m obj
      match made.2 with
      | none => return made.1
      | some obj => setNode made.1 ho h k obj

/-- `Hash_clear`. -/
def hashClearAll (m : Memory) (ho : Nat) : Option Memory := do
  let h ← getHash m ho
  let m ← (h.nodes.flatMap nodeRefs).foldlM delete m
  let h ← getHash m ho
  return setContainer m ho (.hash (hashClear h))

/-- `CopyHash`. -/
def hashCopy (m : Memory) (ho : Nat) : Option Memory := do
  let h ← getHash m ho
  let nho := m.containers.length
  h.nodes.foldlM
    (fun m n => do
      let nh ← getHash m nho
      setNode m nho nh n.key n.object)
    (allocContainer m (.hash { hashtable := List.replicate h.hashsize [], nitems := 0 }))

/-! ## Sequences of operations -/

/-- The operations of the two kinds of container, and what a caller does with
references of its own: it makes objects, takes a further reference to one, gives one
up. -/
inductive MemoryOp
  | newString (c : List Char)
  | newList
  | newHash
  | incref (x : Obj)
  | delete (x : Obj)
  | listInsert (lo : Nat) (pos : Int) (item : ValueArg Nat)
  | listSet (lo : Nat) (n : Int) (val : ValueArg Nat)
  | listRemove (lo : Nat) (pos : Int)
  | listClear (lo : Nat)
  | listCopy (lo : Nat)
  | hashSet (ho : Nat) (k : KeyArg) (obj : ValueArg Nat)
  | hashDelete (ho : Nat) (k : KeyArg)
  | hashClear (ho : Nat)
  | hashCopy (ho : Nat)

def memoryStep (m : Memory) : MemoryOp → Option Memory
  | .newString c => some (holdOutside (allocString m c).1 (allocString m c).2)
  | .newList => some (allocContainer m (.list []))
  | .newHash => some (allocContainer m (.hash newHash))
  | .incref x => some (holdOutside (incref m x) x)
  | .delete x => deleteOutside m x
  | .listInsert lo pos item => listInsert m lo pos item
  | .listSet lo n val => listSet m lo n val
  | .listRemove lo pos => listRemove m lo pos
  | .listClear lo => listClear m lo
  | .listCopy lo => listCopy m lo
  | .hashSet ho k obj => hashSet m ho k obj
  | .hashDelete ho k => hashDelete m ho k
  | .hashClear ho => hashClearAll m ho
  | .hashCopy ho => hashCopy m ho

end Swig4Ada.Doh
