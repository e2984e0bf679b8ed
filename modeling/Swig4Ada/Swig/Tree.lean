import Swig4Ada.Lib.Chain

/-!
# Parse trees (`Source/Swig/tree.c`)

A node of a parse tree is a hash. Five of its attributes link it into the tree:
`parentNode`, `previousSibling`, `nextSibling`, `firstChild` and `lastChild`. A
tree is kept here as these attributes, each a table over the nodes, where `none`
is an attribute that is not there; `Setattr` with a null value deletes the
attribute. The walks along siblings run on fuel, as in a tree whose links are
wrong they need not end.
-/

namespace Swig4Ada.Swig

open Swig4Ada.Lib

variable {N : Type} [DecidableEq N]

structure Tree (N : Type) where
  parentNode : N → Option N
  previousSibling : N → Option N
  nextSibling : N → Option N
  firstChild : N → Option N
  lastChild : N → Option N

namespace Tree

def setParentNode (t : Tree N) (x : N) (v : Option N) : Tree N :=
  { t with parentNode := Function.update t.parentNode x v }

def setPreviousSibling (t : Tree N) (x : N) (v : Option N) : Tree N :=
  { t with previousSibling := Function.update t.previousSibling x v }

def setNextSibling (t : Tree N) (x : N) (v : Option N) : Tree N :=
  { t with nextSibling := Function.update t.nextSibling x v }

def setFirstChild (t : Tree N) (x : N) (v : Option N) : Tree N :=
  { t with firstChild := Function.update t.firstChild x v }

def setLastChild (t : Tree N) (x : N) (v : Option N) : Tree N :=
  { t with lastChild := Function.update t.lastChild x v }

end Tree

/-- `while (chd) { lc = chd; set_parentNode(chd, node); chd = nextSibling(chd); }`,
with the last node of the chain. -/
def setParents (node : N) : Nat → Tree N → Option N → Option N → Option (Tree N × Option N)
  | 0, _, _, _ => none
  | _ + 1, t, none, lc => some (t, lc)
  | fuel + 1, t, some chd, _ =>
      setParents node fuel (t.setParentNode chd (some node)) (t.nextSibling chd) (some chd)

def appendChild (fuel : Nat) (t : Tree N) (node : N) : Option N → Option (Tree N)
  | none => some t
  | some chd => do
      let lc := t.lastChild node
      let t :=
        match lc with
        | none => t.setFirstChild node (some chd)
        | some lc => (t.setNextSibling lc (some chd)).setPreviousSibling chd (some lc)
      let (t, lc) ← setParents node fuel t (some chd) lc
      return t.setLastChild node lc

def prependChild (fuel : Nat) (t : Tree N) (node : N) : Option N → Option (Tree N)
  | none => some t
  | some chd => do
      let t :=
        match t.firstChild node with
        | none => t
        | some fc => (t.setNextSibling chd (some fc)).setPreviousSibling fc (some chd)
      let t := t.setFirstChild node (some chd)
      let (t, _) ← setParents node fuel t (some chd) none
      return t

/-- `while (nextSibling(lc)) lc = nextSibling(lc);`. -/
def lastSibling : Nat → Tree N → N → Option N
  | 0, _, _ => none
  | fuel + 1, t, lc =>
      match t.nextSibling lc with
      | none => some lc
      | some next => lastSibling fuel t next

def appendSibling (fuel : Nat) (t : Tree N) (node chd : N) : Option (Tree N) := do
  let lc ← lastSibling fuel t node
  let t := (t.setNextSibling lc (some chd)).setPreviousSibling chd (some lc)
  match t.parentNode node with
  | none => return t
  | some parent =>
      let (t, lc) ← setParents parent fuel t (some chd) (some lc)
      return t.setLastChild parent lc

/-- The last statement of the C function deletes an attribute `prevSibling`, which
is not one of the links. -/
def removeNode (t : Tree N) (n : N) : Tree N :=
  match t.parentNode n with
  | none => t
  | some parent =>
      let prev := t.previousSibling n
      let next := t.nextSibling n
      let t :=
        match prev with
        | some prev => t.setNextSibling prev next
        | none => t.setFirstChild parent next
      let t :=
        match next with
        | some next => t.setPreviousSibling next prev
        | none => t.setLastChild parent prev
      (t.setParentNode n none).setNextSibling n none

/-! ## Sequences of operations -/

inductive TreeOp (N : Type)
  | appendChild (node : N) (chd : Option N)
  | prependChild (node : N) (chd : Option N)
  | appendSibling (node chd : N)
  | removeNode (n : N)
deriving DecidableEq, Repr

def TreeOp.run (fuel : Nat) (t : Tree N) : TreeOp N → Option (Tree N)
  | .appendChild node chd => Swig.appendChild fuel t node chd
  | .prependChild node chd => Swig.prependChild fuel t node chd
  | .appendSibling node chd => Swig.appendSibling fuel t node chd
  | .removeNode n => some (Swig.removeNode t n)

/-- The operation ends, in the tree `t'`. -/
def TreeOp.Ends (t : Tree N) (op : TreeOp N) (t' : Tree N) : Prop :=
  ∃ steps, ∀ fuel ≥ steps, op.run fuel t = some t'

/-! ## Well linked trees -/

/-- The node is detached, or it is the first of a detached chain of siblings. -/
def Detached (t : Tree N) (c : N) : Prop :=
  t.parentNode c = none ∧ t.previousSibling c = none

/-- The node is in the list of children that starts at `firstChild`. -/
def Below (t : Tree N) (parent n : N) : Prop :=
  ∃ first, t.firstChild parent = some first ∧ Reaches t.nextSibling first n

structure WellLinked (t : Tree N) : Prop where
  /-- The children of a node are one chain between its `firstChild` and its
  `lastChild`. -/
  children : ∀ p, ∃ l, Chain t.nextSibling t.previousSibling l ∧ t.firstChild p = l.head? ∧
    t.lastChild p = l.getLast? ∧ ∀ n, n ∈ l ↔ t.parentNode n = some p
  /-- A node without a parent is in a chain of such nodes, or on its own. -/
  detached : ∀ n, t.parentNode n = none → ∃ l, Chain t.nextSibling t.previousSibling l ∧
    n ∈ l ∧ ∀ m ∈ l, t.parentNode m = none

/-- A parse tree, with the nodes that are not in it. -/
structure ParseTree (N : Type) where
  tree : Tree N
  linked : WellLinked tree

/-- No node is lost: who was among the children of a node, or behind a sibling,
still is, and the inserted nodes have become children or siblings. -/
def NothingLost (t t' : Tree N) : TreeOp N → Prop
  | .appendChild node chd | .prependChild node chd =>
      (∀ p n, Below t p n → Below t' p n) ∧
        ∀ c, chd = some c → ∀ n, Reaches t.nextSibling c n → Below t' node n
  | .appendSibling node chd =>
      (∀ p n, Below t p n → Below t' p n) ∧
        ∀ n, Reaches t.nextSibling node n ∨ Reaches t.nextSibling chd n →
          Reaches t'.nextSibling node n
  | .removeNode _ => True

/-- A removed node carries no link back into the tree. -/
def RemovedClean (t t' : Tree N) : TreeOp N → Prop
  | .removeNode n => t.parentNode n ≠ none →
      t'.parentNode n = none ∧ t'.previousSibling n = none ∧ t'.nextSibling n = none
  | _ => True

/-- What an insertion may be given: a detached node or chain, which for
`appendSibling` is not the chain of the node itself. -/
def Allowed (t : Tree N) : TreeOp N → Prop
  | .appendChild _ chd | .prependChild _ chd => ∀ c, chd = some c → Detached t c
  | .appendSibling node chd => Detached t chd ∧ ¬ Reaches t.nextSibling chd node
  | .removeNode _ => True

/-- Every operation of the sequence ends in a well linked tree, has lost no node
and has left no link on a removed one. -/
def StaysLinked : Tree N → List (TreeOp N) → Prop
  | _, [] => True
  | t, op :: ops => Allowed t op →
      ∃ t', op.Ends t t' ∧ WellLinked t' ∧ NothingLost t t' op ∧ RemovedClean t t' op ∧
        StaysLinked t' ops

end Swig4Ada.Swig
