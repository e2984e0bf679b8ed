import Swig4Ada.Doh.HashTable
import Swig4Ada.Doh.Replace
import Swig4Ada.Swig.ScopeName
import Swig4Ada.Swig.Symbol
import Swig4Ada.Swig.TypeObj

/-!
# Features of a declaration (`Swig_features_get` in `Source/Swig/naming.c`)

The features table has for each name a hash of declarators, and for each of these a hash of
features; `start` stands for no declarator. Every hash that fits a declaration is merged into
its node, and the last one that has a feature gives its value.
-/

namespace Swig4Ada.Swig

open Doh

/-- The features table. -/
abbrev FeatureTable (V : Type) := HashTable (HashTable (HashTable V))

/-- What is read of a node, and the attributes that features set. -/
structure FeatureNode (V : Type) where
  nodeType : Option (List Char)
  features : HashTable V

variable {V : Type}

/-- `get_object`. -/
def getObject (n : HashTable (HashTable V)) (decl : Option (List Char)) : Option (HashTable V) :=
  match decl with
  | some decl => n.lookup decl
  | none => n.lookup ['s', 't', 'a', 'r', 't']

/-- `merge_features`. -/
def mergeFeatures (order : HashOrder V) (features : Option (HashTable V)) (n : HashTable V) :
    HashTable V :=
  match features with
  | none => n
  | some features => setAll (order.keys features) features n

/-- `features_get`; `ncdecl` is null in all calls. -/
def featuresGet (order : HashOrder V) (features : FeatureTable V) (tname : List Char)
    (decl : Option (List Char)) (node : HashTable V) : HashTable V :=
  match features.lookup tname with
  | none => node
  | some n => mergeFeatures order (getObject n decl) (mergeFeatures order (getObject n none) node)

/-- `SwigType_istemplate_templateprefix`. -/
def istemplateTemplatePrefix (t : List Char) : Option (List Char) :=
  (strstr ['<', '('] t).map t.take

/-- The hack for template constructors and destructors: `rname`. -/
def constructorName (nodeType : Option (List Char)) (name : List Char) : Option (List Char) :=
  if swigTypeIstemplate name ∧
      (nodeType = some "constructor".toList ∨ nodeType = some "destructor".toList) then
    let (nPrefix, nlast) := scopenameSplit name
    let tPrefix := swigTypeTemplateprefix nlast
    match nPrefix with
    | some (c :: cs) => some ((c :: cs) ++ [':', ':'] ++ tPrefix)
    | _ => some tPrefix
  else none

/-- The name and the declarator that are looked up. -/
def lookedUp (nodeType : Option (List Char)) (name : List Char) (decl : Option (List Char)) :
    Option (List Char × Option (List Char)) :=
  match constructorName nodeType name with
  | none => some (name, decl)
  | some rname =>
      match decl with
      | none => some (rname, none)
      | some decl => (replaceAny decl name rname).map fun rdecl => (rname, some rdecl)

/-- The lookups for one name. -/
def featuresGetName (order : HashOrder V) (features : FeatureTable V)
    (enclosing : Option (List Char)) (name : List Char) (decl : Option (List Char))
    (node : HashTable V) : HashTable V :=
  let node :=
    match istemplateTemplatePrefix name with
    | some dname => featuresGet order features dname decl node
    | none => node
  let node := featuresGet order features name decl node
  match enclosing with
  | some enclosing =>
      let node :=
        if enclosing ≠ [] then featuresGet order features (enclosing ++ [':', ':']) decl node
        else node
      let node := featuresGet order features (['*', ':', ':'] ++ name) decl node
      if enclosing ≠ [] then
        let node :=
          match istemplateTemplatePrefix enclosing with
          | some tPrefix => featuresGet order features (tPrefix ++ [':', ':'] ++ name) decl node
          | none => node
        featuresGet order features (enclosing ++ [':', ':'] ++ name) decl node
      else node
  | none => featuresGet order features ([':', ':'] ++ name) decl node

/-- `Swig_features_get`. `deftype` is `Swig_symbol_template_deftype` in the current scope. It is
nothing when the fuel is used up. -/
def swigFeaturesGet (order : HashOrder V) (deftype : List Char → List Char)
    (features : FeatureTable V) (enclosing : Option (List Char)) : Nat → Option (List Char) →
    Option (List Char) → FeatureNode V → Option (FeatureNode V)
  | 0, _, _, _ => none
  | _ + 1, none, _, node =>
      some { node with features := featuresGet order features [] none node.features }
  | fuel + 1, some name, decl, node =>
      match lookedUp node.nodeType name decl with
      | none => none
      | some (name, decl) =>
          let found := featuresGet order features [] none node.features
          let found := featuresGetName order features enclosing name decl found
          let node := { node with features := found }
          if swigTypeIstemplate name then
            let dname := deftype name
            if dname ≠ name then
              swigFeaturesGet order deftype features enclosing fuel (some dname) decl node
            else some node
          else some node

end Swig4Ada.Swig
