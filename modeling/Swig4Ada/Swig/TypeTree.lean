import Swig4Ada.Lib.Unbroken
import Swig4Ada.Lib.Words
import Swig4Ada.Proofs.ReplaceWord
import Swig4Ada.Swig.ScopeName
import Swig4Ada.Swig.TypeObj

/-!
# Types as trees

A type is a sequence of elements in front of a base. A base is a name, with arguments where
it is a template instance, and with more of the name behind them; an argument is a type or an
expression. Names and expressions stand in a tree as texts, and a
`Writing` says in which of these places a name is replaced when the tree is written: in none
for the text itself, in all for what replacing a whole name should give. What stands in a
character literal or a string is no name.
-/

namespace Swig4Ada.Swig

open Lib Doh

/-! ## Trees -/

/-- What is between two colons in a name, which may be words like `unsigned int`. -/
structure ScopePart where
  text : List Char
  nonempty : text ≠ []
  chars : ∀ c ∈ text, isIdentifierChar c = true ∨ c = ' ' ∨ c = '~'
  notOperator : operatorAt text = none

/-- An expression: a value between commas that is no name, without colons, angle brackets and
dots. -/
structure ExprText where
  text : List Char
  unbroken : Unbroken ',' '(' ')' text
  chars : ∀ c ∈ text, c ∉ ['.', ':', '<', '>']
  notName : ∃ c ∈ text, isIdentifierChar c = false

/-- Any other expression, which is an argument as a whole. -/
structure OtherExpr where
  text : List Char
  unbroken : Unbroken ',' '(' ')' text
  notName : ∃ c ∈ text, isIdentifierChar c = false

/-- A dimension of an array. -/
structure Dimension where
  text : List Char
  balanced : Lib.Balanced '(' ')' text

/-- An element that no name stands in. -/
inductive FixedElement
  | pointer
  | reference
  | rvalueReference
  | qualifier (q : List Char) (h : ∀ c ∈ q, isIdentifierChar c = true ∨ c = ' ')

def FixedElement.text : FixedElement → List Char
  | .pointer => ['p']
  | .reference => ['r']
  | .rvalueReference => ['z']
  | .qualifier q _ => 'q' :: '(' :: (q ++ [')'])

mutual
/-- `leading` says whether a name begins with two colons. -/
inductive TypeTree
  | nil
  | varargs
  | expr (e : ExprText)
  | other (e : OtherExpr)
  | base (leading : Bool) (name : NameTree)
  | fixed (e : FixedElement) (t : TypeTree)
  | array (dim : Dimension) (t : TypeTree)
  | member (leading : Bool) (name : NameTree) (t : TypeTree)
  | function (parms : TypeTrees) (t : TypeTree)

inductive NameTree
  | path (first : ScopePart) (more : List ScopePart)
  | template (first : ScopePart) (more : List ScopePart) (args : TypeTrees)
  | nested (first : ScopePart) (more : List ScopePart) (args : TypeTrees) (suffix : NameTree)

inductive TypeTrees
  | nil
  | cons (t : TypeTree) (ts : TypeTrees)
end

/-- There is a type between two commas. -/
def TypeTree.IsNil : TypeTree → Prop
  | .nil => True
  | _ => False

def TypeTree.IsOther : TypeTree → Prop
  | .other _ => True
  | _ => False

mutual
def TypeTree.Wf : TypeTree → Prop
  | .nil | .varargs | .expr _ | .other _ => True
  | .base _ name => name.Wf
  | .fixed _ t => ¬ t.IsOther ∧ t.Wf
  | .array _ t => ¬ t.IsOther ∧ t.Wf
  | .member _ name t => name.Wf ∧ ¬ t.IsOther ∧ t.Wf
  | .function parms t => parms.Wf ∧ ¬ t.IsOther ∧ t.Wf

def NameTree.Wf : NameTree → Prop
  | .path _ _ => True
  | .template _ _ args => args.Wf
  | .nested _ _ args suffix => args.Wf ∧ suffix.Wf

def TypeTrees.Wf : TypeTrees → Prop
  | .nil => True
  | .cons t ts => ¬ t.IsNil ∧ t.Wf ∧ ts.Wf
end

/-! ## Literals -/

/-- The characters of a text, and whether they stand in a literal, quotes included. The state is
the quote of the literal and whether a backslash is in front of the character. -/
def markLiterals : Option (Char × Bool) → List Char → List (Char × Bool)
  | _, [] => []
  | none, c :: rest =>
      if c = '"' ∨ c = '\'' then (c, true) :: markLiterals (some (c, false)) rest
      else (c, false) :: markLiterals none rest
  | some (quote, escaped), c :: rest =>
      (c, true) :: markLiterals
        (if escaped then some (quote, false) else if c = quote then none
          else some (quote, c = '\\')) rest

/-- The words and single characters of a text, and whether they stand in a literal. -/
def literalWords (text : List Char) : List (List Char × Bool) :=
  (Lib.words (fun x => isIdentifierChar x.1) (markLiterals none text)).map fun w =>
    (w.map Prod.fst, w.head?.any Prod.snd)

example : literalWords "T+'T'".toList =
    [(['T'], false), (['+'], false), (['\''], true), (['T'], true), (['\''], true)] := by
  decide +kernel

/-! ## Texts -/

/-- A name and its replacement, and the places where it is replaced. Without any place it is
the text itself that is written. -/
structure Writing where
  pat : List Char
  rep : List Char
  paths : Bool
  /-- Names of templates before their arguments. -/
  templateNames : Bool
  exprs : Bool
  dims : Bool
  /-- The literals in dimensions. -/
  literals : Bool
  /-- The letter that an array begins with. -/
  letters : Bool
  /-- The classes of member pointers, and everything in them. -/
  classes : Bool

namespace Writing

def plain (pat rep : List Char) : Writing :=
  ⟨pat, rep, false, false, false, false, false, false, false⟩

/-- Every occurrence as a whole name is replaced, and nothing else. -/
def wholeNames (pat rep : List Char) : Writing :=
  ⟨pat, rep, true, true, true, true, false, false, true⟩

variable (w : Writing)

def inClass : Writing := if w.classes then w else plain w.pat w.rep

/-- The name is replaced in front of a path. -/
def IsName (leading : Bool) (first : ScopePart) : Prop := leading = false ∧ first.text = w.pat

instance (leading : Bool) (first : ScopePart) : Decidable (w.IsName leading first) :=
  inferInstanceAs (Decidable (_ ∧ _))

end Writing

def colonsIf (leading : Bool) : List Char := if leading then [':', ':'] else []

def moreText (more : List ScopePart) : List Char := more.flatMap fun p => ':' :: ':' :: p.text

def pathText (leading : Bool) (first : ScopePart) (more : List ScopePart) : List Char :=
  colonsIf leading ++ first.text ++ moreText more

namespace Writing

variable (w : Writing)

def path (leading : Bool) (first : ScopePart) (more : List ScopePart) : List Char :=
  if w.paths = true ∧ w.IsName leading first then w.rep ++ moreText more
  else pathText leading first more

/-- In front of arguments the replacement loses its own. -/
def templateName (leading : Bool) (first : ScopePart) (more : List ScopePart) : List Char :=
  if w.templateNames = true ∧ w.IsName leading first then
    (if more = [] then swigTypeTemplateprefix w.rep else w.rep) ++ moreText more
  else pathText leading first more

/-- A text with the name replaced, in literals or not. -/
def words (replaced inLiterals : Bool) (text : List Char) : List Char :=
  (literalWords text).flatMap fun x =>
    if (replaced = true ∧ (x.2 = true → inLiterals = true)) ∧ x.1 = w.pat then w.rep else x.1

def letter : List Char := if w.letters = true ∧ w.pat = ['a'] then w.rep else ['a']

end Writing

mutual
def TypeTree.write (w : Writing) : TypeTree → List Char
  | .nil => []
  | .varargs => "v(...)".toList
  | .expr e => w.words w.exprs false e.text
  | .other e => w.words w.exprs false e.text
  | .base leading name => name.write w leading
  | .fixed e t => e.text ++ '.' :: t.write w
  | .array dim t =>
      w.letter ++ '(' :: (w.words w.dims w.literals dim.text ++ ')' :: '.' :: t.write w)
  | .member leading name t =>
      'm' :: '(' :: (name.write w.inClass leading ++ ')' :: '.' :: t.write w)
  | .function parms t => 'f' :: '(' :: (parms.write w ++ ')' :: '.' :: t.write w)

def NameTree.write (w : Writing) (leading : Bool) : NameTree → List Char
  | .path first more => w.path leading first more
  | .template first more args =>
      w.templateName leading first more ++ '<' :: '(' :: (args.write w ++ [')', '>'])
  | .nested first more args suffix =>
      w.templateName leading first more ++
        '<' :: '(' :: (args.write w ++ ')' :: '>' :: suffix.write w true)

def TypeTrees.write (w : Writing) : TypeTrees → List Char
  | .nil => []
  | .cons t .nil => t.write w
  | .cons t (.cons u us) => t.write w ++ ',' :: (TypeTrees.cons u us).write w
end

/-- The text of a type. -/
def TypeTree.text (t : TypeTree) : List Char := t.write (.plain [] [])

def NameTree.text (leading : Bool) (n : NameTree) : List Char := n.write (.plain [] []) leading

def TypeTrees.text (ts : TypeTrees) : List Char := ts.write (.plain [] [])

/-! ## Conditions -/

mutual
/-- No name has `pat` behind two colons. -/
def TypeTree.Unqualified (pat : List Char) : TypeTree → Prop
  | .nil | .varargs | .expr _ | .other _ => True
  | .base leading name => name.Unqualified pat leading
  | .fixed _ t => t.Unqualified pat
  | .array _ t => t.Unqualified pat
  | .member leading name t => name.Unqualified pat leading ∧ t.Unqualified pat
  | .function parms t => parms.Unqualified pat ∧ t.Unqualified pat

def NameTree.Unqualified (pat : List Char) (leading : Bool) : NameTree → Prop
  | .path first more =>
      (leading = true → first.text ≠ pat) ∧ ∀ p ∈ more, p.text ≠ pat
  | .template first more args =>
      (leading = true → first.text ≠ pat) ∧ (∀ p ∈ more, p.text ≠ pat) ∧ args.Unqualified pat
  | .nested first more args suffix =>
      (leading = true → first.text ≠ pat) ∧ (∀ p ∈ more, p.text ≠ pat) ∧ args.Unqualified pat ∧
        suffix.Unqualified pat true

def TypeTrees.Unqualified (pat : List Char) : TypeTrees → Prop
  | .nil => True
  | .cons t ts => t.Unqualified pat ∧ ts.Unqualified pat
end

/-- In the arguments of a template the dimensions of arrays close no angle bracket, and leave
none open where there is more of the name behind the arguments. -/
def NameTree.Scanned : NameTree → Prop
  | .path _ _ => True
  | .template _ _ args => nesting '<' '>' 0 args.text ≠ none
  | .nested _ _ args suffix => Lib.Balanced '<' '>' args.text ∧ suffix.Scanned

mutual
/-- All names of the type can be scanned, but for those in types that the name which is looked
for does not occur in, and it does not occur in the other expressions. -/
def TypeTree.AnglesNest (pat : List Char) : TypeTree → Prop
  | .nil | .varargs | .expr _ => True
  | .other e => ¬ pat <:+: e.text
  | .base _ name => name.Scanned ∧ name.AnglesNest pat
  | .fixed _ t => t.AnglesNest pat
  | .array _ t => t.AnglesNest pat
  | .member _ _ t => t.AnglesNest pat
  | .function parms t => parms.AnglesNest pat ∧ t.AnglesNest pat

def NameTree.AnglesNest (pat : List Char) : NameTree → Prop
  | .path _ _ => True
  | .template _ _ args => args.AnglesNest pat
  | .nested _ _ args suffix =>
      args.AnglesNest pat ∧ (pat <:+: suffix.text true → suffix.AnglesNest pat)

def TypeTrees.AnglesNest (pat : List Char) : TypeTrees → Prop
  | .nil => True
  | .cons t ts => (pat <:+: t.text → t.AnglesNest pat) ∧ ts.AnglesNest pat
end

mutual
/-- The name is nowhere but in the places where it is replaced. -/
def TypeTree.Covered (w : Writing) : TypeTree → Prop
  | .nil | .varargs => True
  | .expr e => w.exprs = false → (w.pat, false) ∉ literalWords e.text
  | .other e => w.exprs = false → (w.pat, false) ∉ literalWords e.text
  | .base leading name => name.Covered w leading
  | .fixed _ t => t.Covered w
  | .array dim t =>
      (w.letters = true → w.pat ≠ ['a']) ∧
        (w.dims = false → (w.pat, false) ∉ literalWords dim.text) ∧
        (w.dims = true → w.literals = true → (w.pat, true) ∉ literalWords dim.text) ∧ t.Covered w
  | .member leading name t => name.Covered w.inClass leading ∧ t.Covered w
  | .function parms t => parms.Covered w ∧ t.Covered w

def NameTree.Covered (w : Writing) (leading : Bool) : NameTree → Prop
  | .path first _ => w.paths = false → ¬ w.IsName leading first
  | .template first _ args =>
      (w.templateNames = false → ¬ w.IsName leading first) ∧ args.Covered w
  | .nested first _ args suffix =>
      (w.templateNames = false → ¬ w.IsName leading first) ∧ args.Covered w ∧
        suffix.Covered w true

def TypeTrees.Covered (w : Writing) : TypeTrees → Prop
  | .nil => True
  | .cons t ts => t.Covered w ∧ ts.Covered w
end

end Swig4Ada.Swig
