import Swig4Ada.Lib.Buckets

/-!
# Hashes (`Source/DOH/hash.c`, and the strings in `Source/DOH/string.c`)

A hash is a table of chained buckets. Its keys are string objects; a key that is given
as a C string is first turned into a string object by way of a tree that all hashes
share, `root`. `Hash_setattr` and `Hash_delattr` compare keys with `Cmp`,
`Hash_getattr` with the function for equality.

`DohNone` as a value, the file and the line of a hash and what is only printed are
left out, and so are object keys of other types.
-/

namespace Swig4Ada.Doh

open Lib

/-! ## Keys -/

/-- What `*c` counts for in an unsigned sum: a `char` has a sign. -/
def charValue (c : Char) : UInt32 :=
  let byte := c.toNat % 256
  if byte < 128 then UInt32.ofNat byte else UInt32.ofNat (byte + 0xffffff00)

/-- The number that `String_hash` makes from a text. -/
def hashText (text : List Char) : Nat :=
  let h := (text.take 50).foldl (fun (h : UInt32) c => (h <<< 5) + charValue c) 0
  (h &&& 0x7fffffff).toNat

/-- A string object. `hashkey` is kept from one call of `String_hash` to the next; the copy that
`NewString` makes of a string object takes it over. -/
structure StringObject where
  serial : Nat
  text : List Char
  hashkey : Option Nat
  deriving DecidableEq

/-- `NewString` of a C string. -/
def newString (serial : Nat) (text : List Char) : StringObject where
  serial := serial
  text := text
  hashkey := none

/-- `String_hash`. -/
def stringHash (s : StringObject) : Nat :=
  match s.hashkey with
  | some h => h
  | none => hashText s.text

/-- `String_cmp` on the two texts: the first difference, else the lengths. -/
def cmpText (lessChar : Char → Char → Bool) : List Char → List Char → Int
  | [], [] => 0
  | [], _ :: _ => -1
  | _ :: _, [] => 1
  | c₁ :: s₁, c₂ :: s₂ =>
      if c₁ ≠ c₂ then (if lessChar c₁ c₂ then -1 else 1) else cmpText lessChar s₁ s₂

/-- `*c1 < *c2`. -/
def lessChar (c₁ c₂ : Char) : Bool := (charValue c₁).toInt32 < (charValue c₂).toInt32

def stringCmp (s₁ s₂ : StringObject) : Int := cmpText lessChar s₁.text s₂.text

/-- `String_equal`. -/
def stringEqual (s₁ s₂ : StringObject) : Bool :=
  if s₁.text.length ≠ s₂.text.length then false
  else (s₁.text.zip s₂.text).all fun c => c.1 == c.2

/-- `strcmp`, which takes characters without a sign; the end of a text is the least. -/
def strcmp (s₁ s₂ : List Char) : Int := cmpText (fun c₁ c₂ => c₁ < c₂) s₁ s₂

/-- The tree of interned keys. -/
inductive KeyTree
  | none
  | node (cstr : List Char) (sstr : StringObject) (left right : KeyTree)

/-- `find_key`; `serial` is what makes a new string object different from all others. -/
def findKey (serial : Nat) (c : List Char) : KeyTree → KeyTree × StringObject
  | .none => (.node c (newString serial c) .none .none, newString serial c)
  | .node cstr sstr left right =>
      let d := strcmp cstr c
      if d = 0 then (.node cstr sstr left right, sstr)
      else if d < 0 then
        let found := findKey serial c left
        (.node cstr sstr found.1 right, found.2)
      else
        let found := findKey serial c right
        (.node cstr sstr left found.1, found.2)

/-! ## The table -/

structure HashNode (V : Type) where
  key : StringObject
  object : V

structure Hash (V : Type) where
  hashtable : List (List (HashNode V))
  nitems : Nat

variable {V : Type}

def Hash.hashsize (h : Hash V) : Nat := h.hashtable.length

/-- All nodes, bucket by bucket. -/
def Hash.nodes (h : Hash V) : List (HashNode V) := h.hashtable.flatten

/-- `NewHash`. -/
def newHash : Hash V where
  hashtable := List.replicate 7 []
  nitems := 0

/-- `Hash_clear`. -/
def hashClear (h : Hash V) : Hash V where
  hashtable := List.replicate h.hashsize []
  nitems := 0

/-- `while (p < (newsize >> 1))`. -/
def newSize : Nat → Nat → Nat → Option Nat
  | 0, _, _ => none
  | fuel + 1, newsize, p =>
      if p < newsize / 2 then
        if newsize / p * p = newsize then newSize fuel (newsize + 2) 3
        else newSize fuel newsize (p + 2)
      else some newsize

/-- What the search for a size of at least `newsize` can take. -/
def newSizeFuel (newsize : Nat) : Nat := 2 * newsize * (2 * newsize + 1) + 1

def nodeSlot (size : Nat) (n : HashNode V) : Nat := stringHash n.key % size

/-- `resize`. -/
def resize (h : Hash V) : Option (Hash V) :=
  if h.nitems < 2 * h.hashsize then some h
  else
    match newSize (newSizeFuel (2 * h.hashsize + 1)) (2 * h.hashsize + 1) 3 with
    | none => none
    | some newsize =>
        some { h with hashtable := scatter (nodeSlot newsize) newsize h.nodes }

/-- The walk of `Hash_setattr` down a chain, when it finds the key. -/
def setChain [DecidableEq V] (k : StringObject) (obj : V) :
    List (HashNode V) → Option (List (HashNode V))
  | [] => none
  | n :: next =>
      if stringCmp n.key k = 0 then
        if n.object = obj then some (n :: next) else some ({ n with object := obj } :: next)
      else (setChain k obj next).map (n :: ·)

/-- The walk of `Hash_delattr` down a chain, when it finds the key. -/
def delChain (k : StringObject) : List (HashNode V) → Option (List (HashNode V))
  | [] => none
  | n :: next =>
      if stringCmp n.key k = 0 then some next else (delChain k next).map (n :: ·)

/-- `Hash_delattr`, with the value that it returns. -/
def hashDelattr (h : Hash V) (k : StringObject) : Hash V × Nat :=
  let hv := stringHash k % h.hashsize
  match delChain k (bucket h.hashtable hv) with
  | some chain => ({ hashtable := h.hashtable.set hv chain, nitems := h.nitems - 1 }, 1)
  | none => (h, 0)

/-- `Hash_setattr` from the first use of the hash value, with what it returns. -/
def hashSetNode [DecidableEq V] (h : Hash V) (k : StringObject) (obj : V) :
    Option (Hash V × Nat) :=
  let hv := stringHash k % h.hashsize
  let chain := bucket h.hashtable hv
  match setChain k obj chain with
  | some chain => some ({ h with hashtable := h.hashtable.set hv chain }, 1)
  | none =>
      (resize { hashtable := h.hashtable.set hv (chain ++ [⟨k, obj⟩]),
                nitems := h.nitems + 1 }).map (·, 0)

/-- `Hash_setattr`; no object is `NULL`. -/
def hashSetattr [DecidableEq V] (h : Hash V) (k : StringObject) (obj : Option V) :
    Option (Hash V × Nat) :=
  match obj with
  | none => some (hashDelattr h k)
  | some obj => hashSetNode h k obj

/-- `Hash_getattr`; the walk goes to the end of the chain. -/
def hashGetattr (h : Hash V) (ko : StringObject) : Option V :=
  (bucket h.hashtable (stringHash ko % h.hashsize)).foldl
    (fun obj n => if stringEqual ko n.key then some n.object else obj) none

/-- The node at which a walk with `Cmp` stops. -/
def findNode (h : Hash V) (k : StringObject) : Option (HashNode V) :=
  (bucket h.hashtable (stringHash k % h.hashsize)).find? fun n => stringCmp n.key k = 0

/-- `CopyHash`. -/
def copyHash [DecidableEq V] (h : Hash V) : Option (Hash V) :=
  h.nodes.foldlM (fun nh n => (hashSetNode nh n.key n.object).map (·.1))
    { hashtable := List.replicate h.hashsize [], nitems := 0 }

/-! ## Keys and values as they are given -/

inductive KeyArg
  | object (k : StringObject)
  | cstring (c : List Char)

/-- A value: some object, or a string object made from a C string. -/
inductive Value (V : Type)
  | object (v : V)
  | string (s : StringObject)
  deriving DecidableEq

inductive ValueArg (V : Type)
  | null
  | object (v : Value V)
  | cstring (c : List Char)

/-- The hashes, and what they share. -/
structure Hashes (V : Type) where
  root : KeyTree
  serial : Nat
  hashes : List (Hash (Value V))

def Hashes.empty : Hashes V := ⟨.none, 0, []⟩

/-- `DohCheck(k) ? k : find_key(k)`. -/
def checkKey (w : Hashes V) : KeyArg → Hashes V × StringObject
  | .object k => (w, k)
  | .cstring c =>
      let found := findKey w.serial c w.root
      ({ w with root := found.1, serial := w.serial + 1 }, found.2)

/-- `if (!DohCheck(obj)) obj = NewString(obj)`. -/
def checkValue (w : Hashes V) : ValueArg V → Hashes V × Option (Value V)
  | .null => (w, none)
  | .object v => (w, some v)
  | .cstring c => ({ w with serial := w.serial + 1 }, some (.string (newString w.serial c)))

inductive HashOp (V : Type)
  | new
  | set (i : Nat) (k : KeyArg) (obj : ValueArg V)
  | get (i : Nat) (k : KeyArg)
  | delete (i : Nat) (k : KeyArg)
  | clear (i : Nat)
  | copy (i : Nat)

/-- What an operation returns. -/
inductive HashAnswer (V : Type)
  | nothing
  | number (n : Nat)
  | object (obj : Option (Value V))

/-- One operation on the hash `i`; there is nothing to do for a hash that is not there. -/
def hashStep [DecidableEq V] (w : Hashes V) : HashOp V → Option (Hashes V × HashAnswer V)
  | .new => some ({ w with hashes := w.hashes ++ [newHash] }, .nothing)
  | .set i k obj =>
      match w.hashes[i]? with
      | none => some (w, .nothing)
      | some h =>
          let (w, k) := checkKey w k
          let (w, obj) := checkValue w obj
          match hashSetattr h k obj with
          | none => none
          | some (h, r) => some ({ w with hashes := w.hashes.set i h }, .number r)
  | .get i k =>
      match w.hashes[i]? with
      | none => some (w, .nothing)
      | some h =>
          let (w, k) := checkKey w k
          some (w, .object (hashGetattr h k))
  | .delete i k =>
      match w.hashes[i]? with
      | none => some (w, .nothing)
      | some h =>
          let (w, k) := checkKey w k
          let (h, r) := hashDelattr h k
          some ({ w with hashes := w.hashes.set i h }, .number r)
  | .clear i =>
      match w.hashes[i]? with
      | none => some (w, .nothing)
      | some h => some ({ w with hashes := w.hashes.set i (hashClear h) }, .nothing)
  | .copy i =>
      match w.hashes[i]? with
      | none => some (w, .nothing)
      | some h => (copyHash h).map fun nh => ({ w with hashes := w.hashes ++ [nh] }, .nothing)

/-- A run, with the answers in their order. -/
def hashRun [DecidableEq V] (w : Hashes V) : List (HashOp V) →
    Option (Hashes V × List (HashAnswer V))
  | [] => some (w, [])
  | op :: ops => do
      let (w, answer) ← hashStep w op
      let (w, answers) ← hashRun w ops
      return (w, answer :: answers)

end Swig4Ada.Doh
