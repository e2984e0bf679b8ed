import Swig4Ada.Doh.Position
import Swig4Ada.Swig.Symbol
import Swig4Ada.Swig.TypeDefault

/-!
# Types as C text (`SwigType_namestr`, `SwigType_str` in `stype.c`)

The two functions call each other on parts of the type; the turns they may take are counted.
`SwigType_array_getdim` writes a dimension in this way when it is a template, and the three
functions for the dimensions of an array look for the next element behind the first dot.
-/

namespace Swig4Ada.Swig

open Swig4Ada.Doh

/-! ## Writing types -/

/-- `Chop`. -/
def chop (t : List Char) : List Char := t.rdropWhile Doh.isSpace

/-- The list of `SwigType_parmlist`, which is a null pointer of length 0 where there is none. -/
def parmlistItems (p : List Char) : List (List Char) := ((swigTypeParmlist p).bind id).getD []

/-- `SwigType_pop_function_qualifiers`, without what it leaves in the type. -/
def functionQualifiers (t : List Char) : Option (List Char) :=
  let reference := if ['r', '.'].isPrefixOf t || ['z', '.'].isPrefixOf t then swigTypePop t else none
  let t := (reference.map Prod.snd).getD t
  if swigTypeIsqualifier t then
    (swigTypePop t).map fun qual =>
      match reference with
      | some r => swigTypePush qual.1 r.1
      | none => qual.1
  else reference.map Prod.fst

/-- The text in parentheses, when there is a function or an array in front. -/
def parenthesized (forwardelement : Option (List Char)) (result : List Char) : List Char :=
  if (forwardelement.map fun e => swigTypeIsfunction e || swigTypeIsarray e).getD false then
    '(' :: result ++ [')']
  else result

section Elements

variable (namestr str : List Char → List Char)

/-- The loop of `SwigType_str` over the elements: the member function qualifiers, and the
result. -/
def strElements : List (List Char) → Option (List Char) → List Char → List Char
  | [], _, result => result
  | element :: elements, qualifiers, result =>
      let forwardelement :=
        match elements with
        | nextelement :: forwardelement :: _ =>
            some (if swigTypeIsqualifier nextelement then forwardelement else nextelement)
        | _ => elements.head?
      if swigTypeIsqualifier element then
        strElements elements qualifiers
          (if qualifiers.isNone then (swigTypeParm element).getD [] ++ ' ' :: result else result)
      else if ['p', '.'].isPrefixOf element then
        strElements elements qualifiers (parenthesized forwardelement ('*' :: result))
      else if swigTypeIsmemberpointer element then
        let next3elements := (elements.take 3).flatten
        strElements elements
          (if swigTypeIsfunction next3elements then functionQualifiers next3elements
            else qualifiers)
          (parenthesized forwardelement
            ((swigTypeParm element).getD [] ++ [':', ':', '*'] ++ result))
      else if ['r', '.'].isPrefixOf element then
        strElements elements qualifiers
          (parenthesized forwardelement (if qualifiers.isNone then '&' :: result else result))
      else if ['z', '.'].isPrefixOf element then
        strElements elements qualifiers
          (parenthesized forwardelement (if qualifiers.isNone then '&' :: '&' :: result else result))
      else if swigTypeIsarray element then
        strElements elements qualifiers (result ++ '[' :: (swigTypeParm element).getD [] ++ [']'])
      else if swigTypeIsfunction element then
        let parms := [','].intercalate ((parmlistItems element).map str)
        strElements elements none (result ++ '(' :: parms ++ [')'] ++
          (match qualifiers with
            | some q => ' ' :: str q
            | none => []))
      else if swigTypeIsvarargs element then
        strElements elements qualifiers (['.', '.', '.'] ++ result)
      else strElements elements qualifiers (namestr element ++ ' ' :: result)

end Elements

mutual

/-- `SwigType_namestr`. -/
def namestrLoop : Nat → List Char → List Char
  | 0, _ => []
  | fuel + 1, t =>
      match strstr ['<', '('] t with
      | none => t
      | some i =>
          if !swigTypeIstemplate t then t
          else
            let name := t.take i
            let strs := (parmlistItems (t.drop (i + 1))).map (strLoop fuel)
            let suffix := swigTypeTemplatesuffix t
            name ++ (if name.getLast? = some '<' then [' '] else []) ++ ['<'] ++
              (if (strs.head?.getD []) = [] then [] else [' ']) ++ [','].intercalate strs ++
              [' ', '>'] ++ (if suffix = [] then [] else namestrLoop fuel suffix)

/-- `SwigType_str` without an identifier. -/
def strLoop : Nat → List Char → List Char
  | 0, _ => []
  | fuel + 1, s =>
      chop (strElements (namestrLoop fuel) (strLoop fuel) (swigTypeSplit s.length s) none [])

end

/-- A call of one of the two is on a shorter text than the last call of it but one. -/
def swigTypeNamestr (t : List Char) : List Char := namestrLoop (2 * t.length + 2) t

/-! ## Dimensions -/

/-- The loop of `SwigType_array_ndim`. A dimension has two characters at least. -/
def arrayNdimLoop : Nat → List Char → Nat
  | 0, _ => 0
  | fuel + 1, c =>
      if swigTypeIsarray c then
        match afterDot c with
        | none => 0
        | some c => arrayNdimLoop fuel c + 1
      else 0

/-- `SwigType_array_ndim`. -/
def swigTypeArrayNdim (t : List Char) : Nat := arrayNdimLoop (t.length + 1) t

/-- `while (c && (strncmp(c, "a(", 2) == 0) && (n > 0))`: the elements that are left to be gone
past, and the text from `c` on, unless `c` is a null pointer. -/
def arrayStep : Nat → List Char → Nat × Option (List Char)
  | 0, c => (0, some c)
  | n + 1, c =>
      if swigTypeIsarray c then
        match afterDot c with
        | none => (n + 1, none)
        | some c => arrayStep n c
      else (n + 1, some c)

/-- `SwigType_array_getdim`: nothing where `SwigType_parm` is a null pointer, in which
`SwigType_istemplate` crashes, and a null pointer where there are not as many elements. -/
def swigTypeArrayGetdim (t : List Char) (n : Nat) : Option (Option (List Char)) :=
  match arrayStep n t with
  | (0, some c) =>
      (swigTypeParm c).map fun dim =>
        some (if swigTypeIstemplate dim then swigTypeNamestr dim else dim)
  | _ => some none

/-- `SwigType_array_setdim`: nothing where the program is aborted, or where it appends a null
pointer and crashes, which it does without an `n`-th element and without a dot behind it. -/
def swigTypeArraySetdim (t : List Char) (n : Nat) (rep : List Char) : Option (List Char) :=
  if swigTypeIsarray t then
    match arrayStep n t with
    | (0, some c) =>
        (afterDot c).map fun rest =>
          t.take (t.length - c.length) ++ (['a', '('] ++ rep ++ [')']) ++ '.' :: rest
    | _ => none
  else none

end Swig4Ada.Swig
