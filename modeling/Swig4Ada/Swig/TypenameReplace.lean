import Swig4Ada.Doh.Replace
import Swig4Ada.Swig.ScopeName
import Swig4Ada.Swig.Symbol
import Swig4Ada.Swig.TypeDefault
import Swig4Ada.Swig.TypeParts

/-!
# Replacing a name in a type (`Source/Swig/stype.c`)

`SwigType_typename_replace` takes a type apart, replaces the name in its elements and in what
is inside of them, and puts it together again.
-/

namespace Swig4Ada.Swig

open Doh

/-- The loop of `SwigType_issimple`: the number of angle brackets that are open, and the text.
Where they are not closed the last character is looked at as well. -/
def issimpleLoop : Nat → List Char → Bool
  | _, [] => true
  | 0, x :: c =>
      if x = '<' then issimpleLoop 1 c else if x = '.' then false else issimpleLoop 0 c
  | nest + 1, x :: c =>
      if c = [] ∧ x = '.' then false else issimpleLoop (angleLevel (nest + 1) x) c

/-- `SwigType_issimple`. -/
def swigTypeIssimple (t : List Char) : Bool := issimpleLoop 0 t

/-- The text of a list with commas between its items. -/
def commaText (items : List (List Char)) : List Char := [','].intercalate items

section Replace

variable (pat rep : List Char)

/-- The branch for `pat<args>`. The name before the arguments would be replaced if the element
was `pat`, but then it is none with arguments, and the branch before this one was taken. -/
def replaceTemplate (typenameReplace : List Char → Option (List Char)) (e : List Char) :
    Option (List Char) := do
  let tparms ← swigTypeParmlist e
  let tparms ← (tparms.getD []).mapM typenameReplace
  let tsuffix ← typenameReplace (swigTypeTemplatesuffix e)
  return swigTypeTemplateprefix e ++ ['<', '('] ++ commaText tparms ++ [')', '>'] ++ tsuffix

/-- The branch for a qualified name. The assertion is that there is nothing before two colons
that the last name begins with. -/
def replaceScoped (typenameReplace : List Char → Option (List Char)) (e : List Char) :
    Option (List Char) := do
  let (scope, rest) := scopenameSplit e
  if [':', ':'].isPrefixOf rest then
    if scope.isSome then none
    else
      let rest ← typenameReplace (rest.drop 2)
      return [':', ':'] ++ rest
  else
    let scope ← (scope.map typenameReplace).getD (some [])
    let rest ← typenameReplace rest
    return scope ++ [':', ':'] ++ rest

/-- What becomes of an element. -/
def replaceElement (typenameReplace : List Char → Option (List Char)) (e : List Char) :
    Option (List Char) :=
  if swigTypeIssimple e then
    if e = pat then replaceAny e pat rep
    else if swigTypeIstemplate e then replaceTemplate typenameReplace e
    else if scopenameCheck e then replaceScoped typenameReplace e
    else some e
  else if swigTypeIsfunction e then do
    let fparms ← swigTypeParmlist e
    let fparms ← (fparms.getD []).mapM typenameReplace
    return ['f', '('] ++ commaText fparms ++ [')', '.']
  else if swigTypeIsarray e then (replaceId e pat rep).map Prod.fst
  else some e

/-- `SwigType_typename_replace`, with a bound on how deep it is called. -/
def typenameReplace : Nat → List Char → Option (List Char)
  | 0, _ => none
  | fuel + 1, t =>
      if strstr pat t = none then some t
      else if t = pat then replaceAny t pat rep
      else
        ((swigTypeSplit t.length t).mapM (replaceElement pat rep (typenameReplace fuel))).map
          List.flatten

/-- `SwigType_typename_replace`. Each call is for a shorter text. -/
def swigTypeTypenameReplace (t : List Char) : Option (List Char) :=
  typenameReplace pat rep (t.length + 1) t

end Replace

end Swig4Ada.Swig
