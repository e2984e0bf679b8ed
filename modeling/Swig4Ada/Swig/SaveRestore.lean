import Swig4Ada.Doh.HashTable
import Swig4Ada.Lib.CText

/-!
# Saving and restoring attributes (`Swig_require`, `Swig_save`, `Swig_restore` in
`Source/Swig/tree.c`)

The values that are saved stand in the attribute table of the node itself, under names that
begin with a namespace. An attribute is a pointer to an object, and what is saved is the
pointer. The objects are strings here.
-/

namespace Swig4Ada.Swig

open Doh

/-- The attributes of a node and the strings they point to. `none` as an attribute is
`DohNone`, which `Getattr` does not tell from an attribute that is not there. -/
structure ViewNode where
  attributes : HashTable (Option Nat)
  contents : Nat → List Char
  next : Nat

namespace ViewNode

/-- `Getattr`. -/
def getattr (n : ViewNode) (key : List Char) : Option Nat := (n.attributes.lookup key).join

/-- `Setattr` with an object that is not null. -/
def setattr (n : ViewNode) (key : List Char) (obj : Option Nat) : ViewNode :=
  { n with attributes := n.attributes.insert key obj }

/-- `Delattr`. -/
def delattr (n : ViewNode) (key : List Char) : ViewNode :=
  { n with attributes := n.attributes.erase key }

/-- `Setattr(n, key, NewString(text))`. -/
def setNew (n : ViewNode) (key text : List Char) : ViewNode :=
  { attributes := n.attributes.insert key (some n.next)
    contents := Function.update n.contents n.next text
    next := n.next + 1 }

end ViewNode

def viewName : List Char := ['v', 'i', 'e', 'w']

/-- `NewStringf("%s:%s", ns, name)`. -/
def savedName (ns name : List Char) : List Char := ns ++ ':' :: name

/-- `Save the view`, the end of both functions. -/
def saveView (ns : List Char) (n : ViewNode) : ViewNode :=
  match n.getattr viewName with
  | some view =>
      if n.contents view ≠ ns then
        (n.setattr (savedName ns viewName) (some view)).setNew viewName ns
      else n
  | none => n.setNew viewName ns

/-- One turn of the loop of `Swig_require`: an attribute without a mark must be there and is
not saved. -/
def requireName (ns : List Char) (n : ViewNode) : List Char → Option ViewNode
  | '*' :: name => (n.getattr name).map fun obj => n.setattr (savedName ns name) (some obj)
  | '?' :: name => some (n.setattr (savedName ns name) (n.getattr name))
  | name => (n.getattr name).map fun _ => n

/-- `Swig_require`; it is nothing when the assertion fails. -/
def swigRequire (ns : List Char) (names : List (List Char)) (n : ViewNode) : Option ViewNode :=
  (names.foldlM (requireName ns) n).map (saveView ns)

/-- A name without its mark. -/
def unmarkedName : List Char → List Char
  | '*' :: name => name
  | '?' :: name => name
  | name => name

/-- One turn of the loop of `Swig_save`. -/
def saveName (ns : List Char) (n : ViewNode) (name : List Char) : ViewNode :=
  n.setattr (savedName ns (unmarkedName name)) (n.getattr (unmarkedName name))

/-- `Swig_save`. -/
def swigSave (ns : List Char) (names : List (List Char)) (n : ViewNode) : ViewNode :=
  saveView ns (names.foldl (saveName ns) n)

/-- One turn of the second loop of `Swig_restore`. -/
def restoreKey (len : Nat) (n : ViewNode) (key : List Char) : ViewNode :=
  let n :=
    match n.getattr key with
    | some obj => n.setattr (key.drop len) (some obj)
    | none => n.delattr (key.drop len)
  n.delattr key

/-- `Swig_restore`; it is nothing when the assertion fails. -/
def swigRestore (order : HashOrder (Option Nat)) (n : ViewNode) : Option ViewNode :=
  (n.getattr viewName).map fun view =>
    let temp := n.contents view ++ [':']
    let l := (order.keys n.attributes).filter temp.isPrefixOf
    l.foldl (restoreKey temp.length) n

/-! ## Calls and changes -/

/-- What is done with a node. -/
inductive NodeAction
  | save (ns : List Char) (names : List (List Char))
  | require (ns : List Char) (names : List (List Char))
  | restore (order : HashOrder (Option Nat))
  | setNew (key text : List Char)
  | setObject (key : List Char) (obj : Nat)
  | delete (key : List Char)
  /-- A string is changed in place. -/
  | write (obj : Nat) (text : List Char)

/-- A call that has not been matched yet: what it saved, and what every attribute was. -/
structure SavedFrame where
  ns : List Char
  names : List (List Char)
  before : List Char → Option (List Char)

def ViewNode.value (n : ViewNode) (key : List Char) : Option (List Char) :=
  (n.getattr key).map n.contents

/-- A name that `Swig_require` saves, without its mark. -/
def requiredName : List Char → Option (List Char)
  | '*' :: name => some name
  | '?' :: name => some name
  | _ => none

/-- A node with the calls that have not been matched, the last first. -/
abbrev NestedNode := ViewNode × List SavedFrame

/-- A step of a properly nested sequence. -/
def nodeStep : NodeAction → NestedNode → Option NestedNode
  | .save ns names, (n, frames) =>
      some (swigSave ns names n, ⟨ns, names.map unmarkedName, n.value⟩ :: frames)
  | .require ns names, (n, frames) =>
      (swigRequire ns names n).map fun n' => (n', ⟨ns, names.filterMap requiredName, n.value⟩ :: frames)
  | .restore _, (_, []) => none
  | .restore order, (n, _ :: frames) => (swigRestore order n).map fun n' => (n', frames)
  | .setNew key text, (n, frames) => some (n.setNew key text, frames)
  | .setObject key obj, (n, frames) =>
      if obj < n.next then some (n.setattr key (some obj), frames) else none
  | .delete key, (n, frames) => some (n.delattr key, frames)
  | .write obj text, (n, frames) =>
      some ({ n with contents := Function.update n.contents obj text }, frames)

end Swig4Ada.Swig
