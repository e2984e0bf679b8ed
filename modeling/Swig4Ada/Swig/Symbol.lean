import Swig4Ada.Lib.Chain
import Swig4Ada.Swig.TypeObj

/-!
# Symbol tables (`Source/Swig/symbol.c`)

A scope has two tables, one by the names of the target language (`current`) and one
by C names (`ccurrent`). Each holds the first node of a chain: overloaded symbols
are linked both ways by `sym:nextSibling` and `sym:previousSibling`, entries of the
C table one way by `csym:nextSibling`. The attributes that adding and removing write
are kept as tables over the nodes, where `none` is an attribute that is not there;
those that are only read are in a `Declaration`. The walks along the links run on
fuel, and a failed assertion ends in `none` as they do.
-/

namespace Swig4Ada.Swig

open Swig4Ada.Doh
open Swig4Ada.Lib

/-! ## Nodes -/

inductive NodeType
  | cdeclNode
  | classNode
  | classforwardNode
  | namespaceNode
  | usingNode
  | templateNode
  | templateparmNode
  | otherNode (nodeType : List Char)
deriving DecidableEq, Repr

/-- The attributes of a node that are read here; the name is empty when there is none. -/
structure Declaration where
  name : List Char
  nodeType : NodeType
  templatetype : Option NodeType
  /-- The node is an instance of a template. -/
  template : Bool
  allowsTypedef : Bool
  storage : Option (List Char)
  decl : Option (List Char)
  ignore : Bool
  weak : Bool
  typename : Bool
deriving DecidableEq, Repr

namespace Declaration

/-- `SwigType_isfunction(Getattr(n, "decl"))`. -/
def isFunction (d : Declaration) : Bool :=
  match d.decl with
  | none => false
  | some c =>
      -- A ref-qualifier and a cv-qualifier are skipped over.
      let c := if ['r', '.'].isPrefixOf c || ['z', '.'].isPrefixOf c then c.drop 2 else c
      let c := if ['q', '('].isPrefixOf c then (c.dropWhile (· ≠ '.')).drop 1 else c
      ['f', '('].isPrefixOf c

/-- The kind of node, or of what a template is of. -/
def declaredType (d : Declaration) : Option NodeType :=
  if d.nodeType = .templateNode then d.templatetype else some d.nodeType

def isUsing (d : Declaration) : Bool := d.declaredType = some .usingNode

def isTemplatedCdecl (d : Declaration) : Bool :=
  d.nodeType = .templateNode && d.templatetype = some .cdeclNode

def isTypedef (d : Declaration) : Bool := d.storage = some ['t', 'y', 'p', 'e', 'd', 'e', 'f']

/-- A declarator conflict: the same declarator, unless one of the two is a plain
function and the other a function template. -/
def conflicts (n cn : Declaration) : Bool :=
  n.decl = cn.decl && !(n.isTemplatedCdecl && cn.nodeType = .cdeclNode ||
    cn.isTemplatedCdecl && n.nodeType = .cdeclNode)

end Declaration

/-- `SwigType_istemplate`. -/
def swigTypeIstemplate (t : List Char) : Bool :=
  match strstr ['<', '('] t with
  | none => false
  | some i => (strstr [')', '>'] (t.drop (i + 2))).isSome

/-- The nodes of a run, and what `Swig_symbol_template_deftype` says of template
names in its scope. The default type it finds is its own default type. -/
structure Declarations (N : Type) where
  node : N → Declaration
  deftype : List Char → List Char
  settled : ∀ name, deftype (deftype name) = deftype name

/-- `"__SWIG_%d"`. -/
def overname (pn : Nat) : List Char := "__SWIG_".toList ++ (toString pn).toList

/-! ## The state of a scope -/

structure Symbols (N : Type) where
  current : List Char → Option N
  ccurrent : List Char → Option N
  /-- Whether `sym:symtab` is set, to the scope. -/
  symtab : N → Bool
  symName : N → Option (List Char)
  symOvername : N → Option (List Char)
  nextSibling : N → Option N
  previousSibling : N → Option N
  overloaded : N → Option N
  cnextSibling : N → Option N
  /-- The template parameters with their default values. -/
  templateparms : N → List (List Char × Option (List Char))
  /-- The names whose declaration was found to shadow a template parameter. -/
  shadowed : List (List Char)

variable {N : Type} [DecidableEq N]

namespace Symbols

/-- `Swig_symbol_newscope`, with nodes that have none of the attributes. -/
def empty : Symbols N where
  current _ := none
  ccurrent _ := none
  symtab _ := false
  symName _ := none
  symOvername _ := none
  nextSibling _ := none
  previousSibling _ := none
  overloaded _ := none
  cnextSibling _ := none
  templateparms _ := []
  shadowed := []

def setCurrent (s : Symbols N) (symname : List Char) (v : Option N) : Symbols N :=
  { s with current := Function.update s.current symname v }

def setCcurrent (s : Symbols N) (name : List Char) (n : N) : Symbols N :=
  { s with ccurrent := Function.update s.ccurrent name (some n) }

def setCnextSibling (s : Symbols N) (n : N) (v : Option N) : Symbols N :=
  { s with cnextSibling := Function.update s.cnextSibling n v }

/-- `Setattr(n, "sym:symtab", current_symtab); Setattr(n, "sym:name", symname);`. -/
def setSymname (s : Symbols N) (n : N) (symname : List Char) : Symbols N :=
  { s with
    symtab := Function.update s.symtab n true
    symName := Function.update s.symName n (some symname) }

def setOvername (s : Symbols N) (n : N) (pn : Nat) : Symbols N :=
  { s with symOvername := Function.update s.symOvername n (some (overname pn)) }

def setNextSibling (s : Symbols N) (n : N) (v : Option N) : Symbols N :=
  { s with nextSibling := Function.update s.nextSibling n v }

def setPreviousSibling (s : Symbols N) (n : N) (v : Option N) : Symbols N :=
  { s with previousSibling := Function.update s.previousSibling n v }

def setOverloaded (s : Symbols N) (n c : N) : Symbols N :=
  { s with overloaded := Function.update s.overloaded n (some c) }

/-- The symbol is the first of its name. -/
def putFirst (s : Symbols N) (symname : List Char) (n : N) : Symbols N :=
  ((s.setSymname n symname).setOvername n 0).setCurrent symname (some n)

/-- The symbol goes behind the last one `cl` of its name, of which the first is `c`. -/
def putBehind (s : Symbols N) (symname : List Char) (n : N) (pn : Nat) (cl c : N) : Symbols N :=
  (((((s.setSymname n symname).setOvername n pn).setNextSibling cl (some n)).setPreviousSibling n
    (some cl)).setOverloaded cl c).setOverloaded n c

end Symbols

/-! ## The C table -/

/-- The walk along `csym:nextSibling`: the last entry, or nothing when `append` is
met on the way. -/
def lastEntry (cnextSibling : N → Option N) (append : N) : Nat → N → Option (Option N)
  | 0, _ => none
  | fuel + 1, fn =>
      if fn = append then some none
      else
        match cnextSibling fn with
        | none => some (some fn)
        | some next => lastEntry cnextSibling append fuel next

def appendEntry (fuel : Nat) (s : Symbols N) (first append : N) : Option (Symbols N) :=
  match lastEntry s.cnextSibling append fuel first with
  | none => none
  | some none => some s
  | some (some pn) => some (s.setCnextSibling pn (some append))

/-- `Swig_symbol_cadd` behind its first step. The default values of a forward
declared template are written into a list of parameters that is then replaced. -/
def enterCsymbol (D : Declarations N) (fuel : Nat) (s : Symbols N) (name : List Char) (n : N) :
    Option (Symbols N) :=
  match s.ccurrent name with
  | none => some (s.setCcurrent name n)
  | some cn =>
      if (D.node cn).typename then appendEntry fuel s cn n
      else if (D.node cn).weak then
        let s :=
          if (D.node cn).nodeType = .templateNode ∧
              (D.node cn).templatetype = some .classforwardNode then
            { s with templateparms := Function.update s.templateparms n (s.templateparms cn) }
          else s
        some (s.setCcurrent name n)
      else if (D.node n).weak then some s
      else if (D.node n).typename then appendEntry fuel (s.setCcurrent name n) n cn
      else if (D.node cn).nodeType = .templateparmNode then
        some { s with shadowed := s.shadowed ++ [name] }
      else appendEntry fuel s cn n

def symbolCadd (D : Declarations N) : Nat → Symbols N → List Char → N → Option (Symbols N)
  | 0, _, _, _ => none
  | fuel + 1, s, name, n => do
      let dname := D.deftype name
      let s ←
        if swigTypeIstemplate name ∧ dname ≠ name then symbolCadd D fuel s dname n else some s
      enterCsymbol D (fuel + 1) s name n

/-! ## Adding a symbol -/

/-- `while (cl) { pcl = cl; cl = Getattr(cl, "sym:nextSibling"); }`. -/
def lastSymbol (s : Symbols N) : Nat → N → Option N
  | 0, _ => none
  | fuel + 1, cl =>
      match s.nextSibling cl with
      | none => some cl
      | some next => lastSymbol s fuel next

/-- The walk down the list of symbols: one whose declarator conflicts, or the last
of the list and how many they are. -/
def walkOverloads (D : Declarations N) (s : Symbols N) (byUsing : Bool) (n : N) :
    Nat → Nat → N → Option (N ⊕ N × Nat)
  | 0, _, _ => none
  | fuel + 1, pn, cn =>
      if !byUsing && (D.node n).conflicts (D.node cn) then some (.inl cn)
      else
        match s.nextSibling cn with
        | none => some (.inr (cn, pn + 1))
        | some next => walkOverloads D s byUsing n fuel (pn + 1) next

/-- Two nodes of which one allows a typedef of its name. -/
def addBesideTypedef (D : Declarations N) (s : Symbols N) (symname : List Char) (c n : N) :
    Symbols N × N :=
  if (D.node n).allowsTypedef ∧ (D.node c).allowsTypedef then (s, c)
  else if (D.node n).allowsTypedef then
    if (D.node c).isTypedef then ((s.setCurrent symname (some n)).setSymname n symname, n)
    else (s, c)
  else if (D.node n).isTypedef then (s, n)
  else (s, c)

/-- The symbol goes behind the functions of its name. -/
def addOverload (D : Declarations N) (fuel : Nat) (s : Symbols N) (symname : List Char)
    (c n : N) : Option (Symbols N × N) :=
  match walkOverloads D s ((D.node n).isUsing || (D.node c).isUsing) n fuel 0 c with
  | none => none
  | some (.inl cn) => some (s, cn)
  | some (.inr (cl, pn)) =>
      if s.symOvername n ≠ none then none
      else some (s.putBehind symname n pn cl c, n)

/-- There is a symbol `c` of that name, which is not weak. -/
def addConflict (D : Declarations N) (fuel : Nat) (s : Symbols N) (symname : List Char)
    (c n : N) : Option (Symbols N × N) :=
  if (D.node n).nodeType = (D.node c).nodeType ∧ (D.node n).nodeType = .namespaceNode then do
    let pcl ← lastSymbol s fuel c
    return (((s.setNextSibling pcl (some n)).setSymname n symname).setPreviousSibling n
      (some pcl), n)
  else if (D.node c).nodeType = .templateNode ∧ (D.node c).templatetype = some .classNode ∧
      (D.node n).nodeType = .classNode ∧ (D.node n).template ∧ s.nextSibling c = none then
    some (((s.setNextSibling c (some n)).setSymname n symname).setPreviousSibling n (some c), n)
  else if (D.node n).allowsTypedef ∨ (D.node c).allowsTypedef then
    some (addBesideTypedef D s symname c n)
  else if (D.node n).declaredType ≠ (D.node c).declaredType ∧
      ¬ ((D.node n).isUsing ∨ (D.node c).isUsing) then
    some (s, c)
  else if ¬ ((D.node n).isUsing ∨ (D.node c).isUsing) ∧
      ¬ ((D.node c).isFunction ∧ (D.node n).isFunction) then
    some (s, c)
  else if (D.node c).isTypedef ∨ (D.node n).isTypedef then some (s, c)
  else addOverload D fuel s symname c n

/-- `Swig_symbol_add`: the node itself when it was added, otherwise the one it is in
conflict with. -/
def symbolAdd (D : Declarations N) (fuel : Nat) (s : Symbols N) (symname : Option (List Char))
    (n : N) : Option (Symbols N × N) := do
  let s ← if (D.node n).name ≠ [] then symbolCadd D fuel s (D.node n).name n else some s
  match symname with
  | none => return ({ s with symtab := Function.update s.symtab n true }, n)
  | some symname =>
      if (D.node n).ignore then return (s, n)
      -- A weak symbol is silently overwritten.
      match (s.current symname).filter fun c => !(D.node c).weak with
      | none => return (s.putFirst symname n, n)
      | some c => addConflict D fuel s symname c n

/-! ## Removing a symbol -/

/-- `while (nn) { head = nn; nn = Getattr(nn, "sym:previousSibling"); }`. -/
def firstSymbol (s : Symbols N) : Nat → N → Option N
  | 0, _ => none
  | fuel + 1, nn =>
      match s.previousSibling nn with
      | none => some nn
      | some previous => firstSymbol s fuel previous

/-- The `sym:overname` of the list are made to start from 0; each node must have one. -/
def renumber : Nat → Nat → Symbols N → Option N → Option (Symbols N)
  | 0, _, _, _ => none
  | _ + 1, _, s, none => some s
  | fuel + 1, pn, s, some nn =>
      if s.symOvername nn = none then none
      else renumber fuel (pn + 1) (s.setOvername nn pn) (s.nextSibling nn)

/-- The attributes that `Swig_symbol_remove` deletes. -/
def Symbols.detach (s : Symbols N) (n : N) : Symbols N :=
  { s with
    symtab := Function.update s.symtab n false
    previousSibling := Function.update s.previousSibling n none
    nextSibling := Function.update s.nextSibling n none
    cnextSibling := Function.update s.cnextSibling n none
    symOvername := Function.update s.symOvername n none
    overloaded := Function.update s.overloaded n none }

/-- What comes before the node, a symbol or the entry of the table, is linked to what
comes behind it. -/
def unlinkBefore (s : Symbols N) (n : N) : Symbols N :=
  match s.previousSibling n with
  | some symprev => s.setNextSibling symprev (s.nextSibling n)
  | none =>
      match s.symtab n, s.symName n with
      | true, some symname => s.setCurrent symname (s.nextSibling n)
      | _, _ => s

def unlinkSymbol (s : Symbols N) (n : N) : Symbols N :=
  match s.nextSibling n with
  | some symnext => (unlinkBefore s n).setPreviousSibling symnext (s.previousSibling n)
  | none => unlinkBefore s n

def symbolRemove (fuel : Nat) (s : Symbols N) (n : N) : Option (Symbols N) :=
  let s' := (unlinkSymbol s n).detach n
  match s.nextSibling n with
  | none => some s'
  | some symnext => do
      let head ← firstSymbol s' fuel ((s.previousSibling n).getD symnext)
      renumber fuel 0 s' (some head)

/-! ## Sequences of operations -/

/-- The state of a scope, with a record of the symbols that were added, each under
its name in the target language, and not removed. -/
structure ScopeRun (N : Type) where
  symbols : Symbols N
  added : N → Option (List Char)

/-- A new scope. -/
def ScopeRun.start : ScopeRun N := ⟨Symbols.empty, fun _ => none⟩

inductive SymbolOp (N : Type)
  | add (symname : List Char) (n : N)
  | remove (n : N)
deriving DecidableEq, Repr

/-- A symbol was added when `Swig_symbol_add` returns it. -/
def SymbolOp.run (D : Declarations N) (fuel : Nat) (r : ScopeRun N) :
    SymbolOp N → Option (ScopeRun N)
  | .add symname n => do
      let (s, m) ← symbolAdd D fuel r.symbols (some symname) n
      return ⟨s, if m = n then Function.update r.added n (some symname) else r.added⟩
  | .remove n => do
      let s ← symbolRemove fuel r.symbols n
      return ⟨s, Function.update r.added n none⟩

/-- The operation ends, in the state `r'`. -/
def SymbolOp.Ends (D : Declarations N) (r : ScopeRun N) (op : SymbolOp N) (r' : ScopeRun N) :
    Prop :=
  ∃ steps, ∀ fuel ≥ steps, op.run D fuel r = some r'

/-- A node to which the rules of overloading apply, and none of the rules for
namespaces, instances of class templates, nodes that allow a typedef of their name,
parameters of templates, weak nodes and ignored ones. -/
structure Declaration.Overloadable (d : Declaration) : Prop where
  named : d.name ≠ []
  considered : d.ignore = false
  strong : d.weak = false
  no_typedef : d.allowsTypedef = false
  no_namespace : d.nodeType ≠ .namespaceNode
  no_templateparm : d.nodeType ≠ .templateparmNode
  no_instance : d.nodeType = .classNode → d.template = false

/-- A symbol is added when it is not in the scope, and removed when it is. -/
def SymbolAllowed (D : Declarations N) (r : ScopeRun N) : SymbolOp N → Prop
  | .add _ n => r.added n = none ∧ (D.node n).Overloadable
  | .remove n => r.added n ≠ none

/-- The node is met on the way from the entry of the name in the C table. -/
def OnEntry (ccurrent : List Char → Option N) (cnextSibling : N → Option N) (name : List Char)
    (n : N) : Prop :=
  ∃ first, ccurrent name = some first ∧ Reaches cnextSibling first n

/-- The two tables of a scope hold what was added and not removed. -/
structure WellOverloaded (D : Declarations N) (r : ScopeRun N) : Prop where
  /-- The symbols of a name are one chain that starts in the table, numbered from 0;
  when they are two or more, each knows the first one. -/
  chains : ∀ symname, ∃ l, Chain r.symbols.nextSibling r.symbols.previousSibling l ∧
    r.symbols.current symname = l.head? ∧ (∀ n, n ∈ l ↔ r.added n = some symname) ∧
    (∀ i n, l[i]? = some n → r.symbols.symOvername n = some (overname i)) ∧
    (2 ≤ l.length → ∀ n ∈ l, r.symbols.overloaded n = l.head?)
  entries : ∀ n, r.added n ≠ none →
    OnEntry r.symbols.ccurrent r.symbols.cnextSibling (D.node n).name n

/-- Every operation of the sequence ends with the two tables in order, as long as
the operations are those of which `fits` speaks. -/
def StaysOverloaded (D : Declarations N) (fits : ScopeRun N → SymbolOp N → Prop) :
    ScopeRun N → List (SymbolOp N) → Prop
  | _, [] => True
  | r, op :: ops => SymbolAllowed D r op → fits r op →
      ∃ r', op.Ends D r r' ∧ WellOverloaded D r' ∧ StaysOverloaded D fits r' ops

end Swig4Ada.Swig
