import Swig4Ada.Swig.TypeObj

/-!
# The elements of a type (`Source/Swig/typeobj.c`, `stype.c`)

Elements are pushed in front of a type and popped from it, the parameters of a function or
a template are written into one element and read from it, and the dimensions of an array are
looked for one element after the other. What a function leaves in its argument is part of
its result.
-/

namespace Swig4Ada.Swig

open Swig4Ada.Doh

/-! ## Pushing and popping -/

/-- `SwigType_push`. -/
def swigTypePush (t cons : List Char) : List Char :=
  if cons = [] then t
  else if t ≠ [] ∧ cons.getLast? ≠ some '.' then cons ++ '.' :: t
  else cons ++ t

/-- What `element_size` leaves behind the element. -/
def afterElement (t : List Char) : List Char := delElement (t.length + 1) t

/-- `SwigType_pop`: the element, and the type without it. -/
def swigTypePop (t : List Char) : Option (List Char × List Char) :=
  if t = [] then none
  else
    let rest := afterElement t
    some (t.take (t.length - rest.length), if rest.head? = some '.' then rest.tail else rest)

/-- `SwigType_parm`. -/
def swigTypeParm (t : List Char) : Option (List Char) :=
  match t.dropWhile fun x => x ≠ '(' && x ≠ '.' with
  | [] => none
  | x :: c => if x = '.' then none else some (parmText 0 c)

/-! ## Lists of parameters -/

/-- The loop of `SwigType_parmlist`: the number of open parentheses and the text from
`itemstart` on. -/
def parmlistLoop : Nat → List Char → List Char → List (List Char)
  | _, item, [] => if item = [] then [] else [item]
  | 0, item, x :: c =>
      if x = ',' then item :: parmlistLoop 0 [] c
      else if x = '(' then parmlistLoop 1 (item ++ [x]) c
      else if x = ')' then if item = [] then [] else [item]
      else parmlistLoop 0 (item ++ [x]) c
  | n + 1, item, x :: c =>
      parmlistLoop (if x = '(' then n + 2 else if x = ')' then n else n + 1) (item ++ [x]) c

/-- `SwigType_parmlist`: nothing where its assertion fails, and a null pointer, which is
`some none`, where there are no parentheses. -/
def swigTypeParmlist (p : List Char) : Option (Option (List (List Char))) :=
  match p.dropWhile fun x => x ≠ '(' && x ≠ '.' with
  | [] => some none
  | x :: c => if x = '.' then none else some (some (parmlistLoop 0 [] c))

/-- The attributes of a parameter that are written into a type. -/
structure TypeParm where
  type : List Char
  value : Option (List Char)
  default : Option (List Char)
deriving DecidableEq, Repr

/-- The types of the parameters, with the commas of `SwigType_add_function`. -/
def functionParms : List TypeParm → List Char
  | [] => []
  | [p] => p.type
  | p :: q :: ps => p.type ++ ',' :: functionParms (q :: ps)

/-- `SwigType_add_function`. -/
def swigTypeAddFunction (t : List Char) (parms : List TypeParm) : List Char :=
  ['f', '('] ++ functionParms parms ++ ([')', '.'] ++ t)

/-- `v ? v : Getattr(p, "type")`. -/
def TypeParm.argument (p : TypeParm) : List Char := p.value.getD p.type

/-- The loop of `SwigType_add_template`; `first` is `p == parms`. -/
def templateParms (first : Bool) : List TypeParm → List Char
  | [] => []
  | p :: ps =>
      if p.default.isSome then templateParms false ps
      else (if first then [] else [',']) ++ p.argument ++ templateParms false ps

/-- `SwigType_add_template`. -/
def swigTypeAddTemplate (t : List Char) (parms : List TypeParm) : List Char :=
  t ++ (['<', '('] ++ templateParms true parms ++ [')', '>'])

/-! ## Arrays -/

/-- `SwigType_isarray`. -/
def swigTypeIsarray (t : List Char) : Bool := ['a', '('].isPrefixOf t

/-- `strchr(c, '.')` and `c++`: what is behind the first dot. -/
def afterDot : List Char → Option (List Char)
  | [] => none
  | x :: c => if x = '.' then some c else afterDot c

end Swig4Ada.Swig
