import Swig4Ada.Swig.TypeParts

/-!
# Default types (`SwigType_default_create`, `SwigType_default_deduce` in `stype.c`)

The typemap search begins with the default type of a type and goes on with what is deduced
from it, until nothing is. A result of `none` stands for an assertion that fails, and
`some none` for a null pointer. Typedefs are resolved by `typedefResolveAll`.
-/

namespace Swig4Ada.Swig

/-- `SwigType_isvarargs`. -/
def swigTypeIsvarargs (t : List Char) : Bool := t = ['v', '(', '.', '.', '.', ')']

/-- `SwigType_isenum`. -/
def swigTypeIsenum (t : List Char) : Bool := ['e', 'n', 'u', 'm', ' '].isPrefixOf t

/-- `SwigType_ismemberpointer`. -/
def swigTypeIsmemberpointer (t : List Char) : Bool := ['m', '('].isPrefixOf t

/-- `SwigType_isfunction`. Behind a qualifier the text goes on at the first dot. -/
def swigTypeIsfunction (t : List Char) : Bool :=
  let reference := ['r', '.'].isPrefixOf t || ['z', '.'].isPrefixOf t
  let c := if reference then t.drop 2 else t
  if ['q', '('].isPrefixOf c then ((afterDot c).map (['f', '('].isPrefixOf ·)).getD false
  else ['f', '('].isPrefixOf c

/-- `a().`. -/
def arrayText : List Char := ['a', '(', ')', '.']

/-- `a(ANY).`. -/
def arrayAnyText : List Char := ['a', '(', 'A', 'N', 'Y', ')', '.']

/-- `p.`. -/
def pointerText : List Char := ['p', '.']

/-- `SWIGTYPE`. -/
def swigtypeText : List Char := ['S', 'W', 'I', 'G', 'T', 'Y', 'P', 'E']

/-- `enum SWIGTYPE`. -/
def enumText : List Char := ['e', 'n', 'u', 'm', ' '] ++ swigtypeText

/-- `f(ANY).SWIGTYPE`. -/
def functionText : List Char := ['f', '(', 'A', 'N', 'Y', ')', '.'] ++ swigtypeText

/-- `m(CLASS).SWIGTYPE`. -/
def memberText : List Char := ['m', '(', 'C', 'L', 'A', 'S', 'S', ')', '.'] ++ swigtypeText

/-- The loop of `SwigType_default_create`. -/
def createLoop : List (List Char) → List Char
  | [] => []
  | subtype :: l =>
      if swigTypeIsarray subtype then
        (if subtype = arrayText then arrayText else arrayAnyText) ++ createLoop l
      else if swigTypeIsfunction subtype then functionText
      else if swigTypeIsmemberpointer subtype then memberText
      else subtype ++ createLoop l

/-- `SwigType_default_create`. -/
def swigTypeDefaultCreate (typedefResolveAll : List Char → List Char) (ty : List Char) :
    Option (List Char) :=
  if swigTypeIsvarargs ty then none
  else
    let t := typedefResolveAll ty
    let l := swigTypeSplit t.length t
    some (createLoop (match l.getLast? with
      | none => l
      | some lastSubtype =>
          l.dropLast ++ [if swigTypeIsenum lastSubtype then enumText else swigtypeText]))

/-- `SwigType_default_deduce`. The items of the list are taken from its end. -/
def swigTypeDefaultDeduce (t : List Char) : Option (Option (List Char)) :=
  let result := fun l : List (List Char) =>
    some (if l.flatten = [] then none else some l.flatten)
  match (swigTypeSplit t.length t).reverse with
  | [] => none
  | [lastSubtype] => if swigTypeIsenum lastSubtype then result [swigtypeText] else result []
  | lastSubtype :: subtype :: front =>
      let front := front.reverse
      if swigTypeIsarray subtype then
        if swigTypeIsenum lastSubtype then result (front ++ [subtype, swigtypeText])
        else if subtype = arrayText then result (front ++ [pointerText, lastSubtype])
        else if subtype = arrayAnyText then result (front ++ [arrayText, lastSubtype])
        else none
      else if swigTypeIsmemberpointer subtype then result (front ++ [pointerText, lastSubtype])
      else if swigTypeIsenum lastSubtype && !swigTypeIsqualifier subtype then
        result (front ++ [subtype, swigtypeText])
      else result (front ++ [lastSubtype])

end Swig4Ada.Swig
