import Swig4Ada.Doh.Replace
import Swig4Ada.Lib.Words
import Swig4Ada.Swig.Symbol

/-!
# Default arguments of templates (`Swig_symbol_template_defargs` in `symbol.c`)

The arguments of an instantiation that are missing are added from the parameters of
the template. Each default is qualified, and the names of the parameters are replaced
in it one after the other. Whether anything is added is decided from the number of
attributes of two nodes, the first argument and the first parameter, which `Len`
gives.

What the symbol table answers in the two scopes is the parameter `DefargsScopes`.
-/

namespace Swig4Ada.Swig

open Swig4Ada.Doh Swig4Ada.Lib

/-- A `Parm` node: the attributes that are read, and the number of the others, but for
the link to its next sibling. -/
structure Parm where
  name : Option (List Char)
  type : Option (List Char)
  value : Option (List Char)
  others : Nat
deriving DecidableEq, Repr

def Parm.attributes (p : Parm) : Nat :=
  p.name.toList.length + p.type.toList.length + p.value.toList.length + p.others

/-- `Len` of a list of siblings, which is the first of them or a null pointer. -/
def nodeLen : List Parm → Nat
  | [] => 0
  | p :: rest => p.attributes + if rest = [] then 0 else 1

/-- `pvalue ? pvalue : Getattr(p, "type")`. -/
def Parm.text (p : Parm) : List Char := p.value.getD (p.type.getD [])

/-- `NewParmWithoutFileLineInfo(type, 0)`. Its other attribute is `nodeType`. -/
def newParm (type : List Char) : Parm := ⟨none, some type, none, 1⟩

structure DefargsScopes where
  /-- `Swig_symbol_string_qualify(value, tsdecl)`. -/
  stringQualify : List Char → List Char
  /-- `Swig_symbol_type_qualify(value, tscope)`. -/
  argumentQualify : List Char → List Char
  /-- `Swig_symbol_type_qualify(nt, tsdecl)`. -/
  typeQualify : List Char → List Char
  /-- `Swig_symbol_template_deftype(ntq, tscope)`. -/
  templateDeftype : List Char → List Char

section Defargs

variable (S : DefargsScopes)

/-- The loop over the arguments and the parameters: `Replaceid(nt, name, ttq)`, which
does nothing when there is no name. -/
def replaceParms : List Parm → List Parm → List Char → List Char
  | p :: ps, ta :: targs, nt =>
      match ta.name with
      | none => replaceParms ps targs nt
      | some name =>
          replaceParms ps targs
            (((replaceId nt name (S.argumentQualify p.text)).map Prod.fst).getD nt)
  | _, _, nt => nt

/-- The new parm of a default in which the names have been replaced. -/
def defaultParm (nt : List Char) : Parm :=
  let ntq := S.typeQualify nt
  newParm (if swigTypeIstemplate ntq then S.templateDeftype ntq else ntq)

/-- `while (tp)`, with the arguments so far. The inner loop goes over the list that was
given, which is extended by the new ones unless it was empty. -/
def addDefaults (given : Bool) (targs : List Parm) : List Parm → List Parm → List Parm
  | expandedparms, [] => expandedparms
  | expandedparms, tp :: rest =>
      match tp.value with
      | none => expandedparms
      | some value =>
          let parms := if given then expandedparms else []
          addDefaults given targs
            (expandedparms ++ [defaultParm S (replaceParms S parms targs (S.stringQualify value))])
            rest

def templateDefargs (parms targs : List Parm) : List Parm :=
  if nodeLen parms < nodeLen targs then
    addDefaults S (parms ≠ []) targs parms (targs.drop parms.length)
  else parms

/-! ## What is wanted -/

/-- The names of the parameters with the arguments, qualified. -/
def namedArguments (parms targs : List Parm) : List (List Char × List Char) :=
  (parms.zip targs).filterMap fun p => p.2.name.map fun name => (name, S.argumentQualify p.1.text)

/-- A default in which all names are replaced at once. -/
def wantedDefault (parms targs : List Parm) (value : List Char) : Parm :=
  defaultParm S
    (replaceAtOnce isIdentifierChar (namedArguments S parms targs) (S.stringQualify value))

/-- The arguments with the defaults of the parameters that are left. -/
def wantedFrom (targs : List Parm) : List Parm → List Parm → List Parm
  | parms, [] => parms
  | parms, tp :: rest =>
      wantedFrom targs (parms ++ [wantedDefault S parms targs (tp.value.getD [])]) rest

end Defargs

end Swig4Ada.Swig
