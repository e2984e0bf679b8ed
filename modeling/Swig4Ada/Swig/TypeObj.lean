import Swig4Ada.Doh.Replace

/-!
# Taking a type apart (`Source/Swig/typeobj.c`)

A type is a text: a sequence of type constructors, each ended by a dot, and a base
name, which may be a template instance. `SwigType_base` reads it from the left and
`SwigType_prefix` from the right; each counts brackets of its own, one kind at a
time. A pointer into the text is the part of the text that it leaves to be read.
-/

namespace Swig4Ada.Swig

open Swig4Ada.Doh

/-! ## From the left -/

/-- `while ((*c) && (n > 0))`: the count of open brackets at the end, and the text
behind it. -/
def skipNested (opening closing : Char) : Nat → List Char → Nat × List Char
  | 0, c => (0, c)
  | n + 1, [] => (n + 1, [])
  | n + 1, x :: c =>
      if x = closing then skipNested opening closing n c
      else if x = opening then skipNested opening closing (n + 2) c
      else skipNested opening closing (n + 1) c

/-- The loop of `SwigType_base`, with the text behind the last separator. -/
def baseLoop : Nat → List Char → List Char → List Char
  | 0, _, lastop => lastop
  | _ + 1, [], lastop => lastop
  | fuel + 1, x :: c, lastop =>
      if x = '.' then baseLoop fuel c (if c = [] then lastop else c)
      else if x = '<' then
        let skipped := skipNested '<' '>' 1 c
        if skipped.1 = 0 then baseLoop fuel skipped.2 lastop else lastop
      else if x = '(' then
        let skipped := skipNested '(' ')' 1 c
        if skipped.1 = 0 then baseLoop fuel skipped.2 lastop else lastop
      else baseLoop fuel c lastop

/-- `SwigType_base`. -/
def swigTypeBase (t : List Char) : List Char := baseLoop (t.length + 1) t t

/-! ## From the right

A pointer `d` is here the text up to and with `*d`, backwards: its head is `*d`, and
`d > c` when something is behind the head. A step before the first character, which
would be read next, leaves the empty list. -/

/-- `while ((d > c) && (nest))`, in which both kinds of bracket are counted after
each other. -/
def skipNestedBack (opening closing : Char) : Nat → List Char → List Char
  | 0, d => d
  | _ + 1, [] => []
  | _ + 1, [x] => [x]
  | nest + 1, x :: y :: d =>
      let nest := if x = closing then nest + 2 else nest + 1
      let nest := if x = opening then nest - 1 else nest
      skipNestedBack opening closing nest (y :: d)

/-- The loop of `SwigType_prefix`: the characters before `d`, backwards. A read
before the beginning of the text is `none`. -/
def prefixLoop : Nat → List Char → Option (List Char)
  | 0, _ => some []
  | _ + 1, [] => some []
  | fuel + 1, x :: before =>
      let d := if x = '>' then skipNestedBack '<' '>' 1 before else x :: before
      let d := if d.head? = some ')' then skipNestedBack '(' ')' 1 d.tail else d
      match d with
      | [] => none
      | y :: before => if y = '.' then some (y :: before).reverse else prefixLoop fuel before

/-- `SwigType_prefix`. A dot at the end of the type is not looked at. -/
def swigTypePrefix (t : List Char) : Option (List Char) :=
  let d := t.reverse
  prefixLoop (t.length + 1) (if d.head? = some '.' then d.tail else d)

/-! ## Template arguments -/

/-- `while (*c && nest)`: what is gone past, and what is left. -/
def closeAngles : Nat → List Char → List Char × List Char
  | 0, c => ([], c)
  | _ + 1, [] => ([], [])
  | nest + 1, x :: c =>
      let nest := if x = '<' then nest + 2 else nest + 1
      let nest := if x = '>' then nest - 1 else nest
      let rest := closeAngles nest c
      (x :: rest.1, rest.2)

/-- `SwigType_templateprefix`. -/
def swigTypeTemplateprefix (t : List Char) : List Char :=
  match strstr ['<', '('] t with
  | some i => t.take i
  | none => t

/-- `SwigType_templatesuffix`. -/
def swigTypeTemplatesuffix (t : List Char) : List Char :=
  match strstr ['<', '('] t with
  | some i => (closeAngles 1 (t.drop (i + 1))).2
  | none => []

/-- `SwigType_templateargs`. -/
def swigTypeTemplateargs (t : List Char) : Option (List Char) :=
  match strstr ['<', '('] t with
  | some i => some ('<' :: (closeAngles 1 (t.drop (i + 1))).1)
  | none => none

/-! ## Putting constructors in front -/

/-- `SwigType_add_pointer`. -/
def swigTypeAddPointer (t : List Char) : List Char := 'p' :: '.' :: t

/-- `SwigType_add_reference`. -/
def swigTypeAddReference (t : List Char) : List Char := 'r' :: '.' :: t

/-- The text in brackets that `SwigType_parm` takes, with the number of brackets that
are open inside. -/
def parmText : Nat → List Char → List Char
  | _, [] => []
  | 0, x :: c => if x = ')' then [] else x :: parmText (if x = '(' then 1 else 0) c
  | n + 1, x :: c =>
      if x = ')' then x :: parmText n c
      else x :: parmText (if x = '(' then n + 2 else n + 1) c

/-- `SwigType_del_element`. -/
def delElement : Nat → List Char → List Char
  | 0, c => c
  | _ + 1, [] => []
  | fuel + 1, x :: c =>
      if x = '.' then c
      else if x = '(' then delElement fuel (skipNested '(' ')' 1 c).2
      else delElement fuel c

/-- The loop of `DohSplit` with `INT_MAX` splits, which no text has room for. The string that
is being read is `none` while separators are skipped; one that is begun at the end of the input
is put into the list empty. -/
def dohSplitLoop (ch : Char) : Option (List Char) → List Char → List (List Char)
  | none, [] => [[]]
  | none, c :: rest =>
      if c = ch then dohSplitLoop ch none rest else dohSplitLoop ch (some [c]) rest
  | some str, [] => [str]
  | some str, c :: rest =>
      if c = ch then str :: dohSplitLoop ch none rest
      else dohSplitLoop ch (some (str ++ [c])) rest

/-- `DohSplit`. -/
def dohSplit (ch : Char) (text : List Char) : List (List Char) := dohSplitLoop ch none text

/-- `SwigType_add_qualifier`: a single qualifier goes in front of a type that has none;
otherwise all of them are sorted, each once, in one list. -/
def swigTypeAddQualifier (t qual : List Char) : List Char :=
  let qualified := ['q', '('].isPrefixOf t
  if !qualified && !qual.contains ' ' then ['q', '('] ++ qual ++ [')', '.'] ++ t
  else
    let allq := if qualified then parmText 0 (t.drop 2) ++ ' ' :: qual else qual
    let qlist := (dohSplit ' ' allq).mergeSort fun a b => !(b < a)
    let rest := if qualified then delElement (t.length + 1) t else t
    ['q', '('] ++ [' '].intercalate qlist.eraseReps ++ [')', '.'] ++ rest

/-! ## Taking qualifiers away -/

/-- `SwigType_split`. Each turn takes an element that is not empty. -/
def swigTypeSplit : Nat → List Char → List (List Char)
  | 0, _ => []
  | _ + 1, [] => []
  | fuel + 1, x :: c =>
      let rest := delElement (c.length + 2) (x :: c)
      (x :: c).take ((x :: c).length - rest.length) ::
        swigTypeSplit fuel (if rest.head? = some '.' then rest.tail else rest)

/-- `SwigType_isqualifier`. -/
def swigTypeIsqualifier (t : List Char) : Bool := ['q', '('].isPrefixOf t

/-- `SwigType_strip_qualifiers`, without what it remembers. -/
def swigTypeStripQualifiers (t : List Char) : List Char :=
  ((swigTypeSplit t.length t).filter (!swigTypeIsqualifier ·)).flatten

end Swig4Ada.Swig
