import Swig4Ada.Preprocessor.Reading

/-!
# Conditional groups as in C

C joins spliced lines, ends a literal with its line, and has a directive behind a hash with
only blanks and comments before it on the line. Of a conditional group it passes the first
branch whose condition holds. A `Survey` is the machine beside such a reading of its file,
with the groups that are open; in a block of the machine the reading rests.
-/

namespace Swig4Ada.Preprocessor

/-! ## A text as C reads it -/

/-- Where a text is. A line is blank while it has had blanks and comments only. -/
inductive Place
  | line (blank : Bool)
  | slash (blank : Bool)
  | literal (quote : Char) (escaped : Bool)
  | lineComment
  | blockComment (blank star : Bool)
  | directive (part : DirectivePart)
deriving DecidableEq, Repr

namespace Place

def inDirective : Place → Bool
  | directive _ => true
  | _ => false

def inLiteral : Place → Bool
  | literal _ _ => true
  | _ => false

/-- A directive ends with a character. -/
def ends : Place → Char → Bool
  | directive part, c => c = '\n' && !part.inBlockComment
  | _, _ => false

def lineNext (blank : Bool) (c : Char) : Place :=
  if c = '\n' then line true
  else if c = '#' ∧ blank then directive .plain
  else if c = '/' then slash blank
  else if isQuote c then literal c false
  else line (blank && isSpace c)

def next (place : Place) (c : Char) : Place :=
  match place with
  | line blank => lineNext blank c
  | slash blank =>
      if c = '/' then lineComment
      else if c = '*' then blockComment blank false
      else lineNext false c
  | literal quote escaped =>
      if c = '\n' then line true
      else if escaped then literal quote false
      else if c = quote then line false
      else literal quote (c = '\\')
  | lineComment => if c = '\n' then line true else lineComment
  | blockComment blank star =>
      if star ∧ c = '/' then line blank else blockComment blank (c = '*')
  | directive part =>
      if (directive part).ends c then line true else directive (part.next c)

/-- The line may be spliced here: not in an escape or a `//` comment, and not between the two
characters that begin or end a comment. -/
def Splices : Place → Prop
  | line _ | directive .plain | directive .lineComment => True
  | slash _ | lineComment | directive .slash => False
  | literal _ escaped | directive (.literal _ escaped) => escaped = false
  | blockComment _ star | directive (.blockComment star) => star = false

end Place

/-- A text up to a backslash that may splice its line. -/
structure CReading where
  place : Place
  behindBackslash : Bool
deriving DecidableEq, Repr

namespace CReading

/-- The place when the backslash does not splice the line. -/
def here (q : CReading) : Place :=
  if q.behindBackslash then q.place.next '\\' else q.place

def next (q : CReading) (c : Char) : CReading :=
  if q.behindBackslash ∧ c = '\n' then ⟨q.place, false⟩
  else if c = '\\' then ⟨q.here, true⟩
  else ⟨q.here.next c, false⟩

/-- A directive ends with a character. -/
def ends (q : CReading) (c : Char) : Bool := !q.behindBackslash && q.place.ends c

end CReading

/-! ## The name of a directive -/

/-- A text with its spliced lines joined. -/
def joined : List Char → List Char
  | '\\' :: '\n' :: s => joined s
  | c :: s => c :: joined s
  | [] => []

/-- A text behind the blanks and comments that it begins with, or that it is in. -/
def behindBlanks : Bool → List Char → List Char
  | true, '*' :: '/' :: s => behindBlanks false s
  | true, _ :: s => behindBlanks true s
  | false, '/' :: '*' :: s => behindBlanks true s
  | false, c :: s => if isSpace c then behindBlanks false s else c :: s
  | _, [] => []

/-- The name of a directive whose text behind the hash is `s`. -/
def nameInC (s : List Char) : List Char := (behindBlanks false (joined s)).takeWhile isIdChar

/-- The word that a text begins with, behind its white space. -/
def firstWord (s : List Char) : List Char := (s.dropWhile isSpace).takeWhile isIdChar

/-! ## Groups -/

def DirectiveName.isConditional : DirectiveName → Bool
  | ifdef | ifndef | ifCond | elif | els | endif => true
  | _ => false

/-- An open group: whether a branch has been taken, and whether the text is in it. -/
structure Group where
  taken : Bool
  active : Bool
deriving DecidableEq, Repr

/-- The next branch of a group. -/
def Group.branch (g : Group) (truth : Bool) : Group :=
  ⟨g.taken || truth, !g.taken && truth⟩

/-- The open groups, from the inside, behind a directive whose condition has a truth value. -/
def groupsNext (name : DirectiveName) (truth : Bool) (groups : List Group) : List Group :=
  match name, groups with
  | .ifdef, groups | .ifndef, groups | .ifCond, groups => ⟨truth, truth⟩ :: groups
  | .elif, g :: groups => g.branch truth :: groups
  | .els, g :: groups => g.branch true :: groups
  | .endif, _ :: groups => groups
  | _, groups => groups

def passes (groups : List Group) : Bool := groups.all Group.active

/-- The condition of a directive holds. -/
def holds {σ : Type} (W : World σ) (symbols : σ) (value : List Char) : DirectiveName → Bool
  | .ifdef => value ≠ [] && W.isDefined symbols value
  | .ifndef => value ≠ [] && !W.isDefined symbols value
  | .ifCond | .elif => (evaluate W symbols value "").1
  | _ => true

/-! ## The machine and the groups of its file -/

structure Survey (σ : Type) where
  state : FileState σ
  reading : Reading
  inC : CReading
  /-- The directive that is being read, behind its hash. -/
  directive : List Char
  groups : List Group

variable {σ : Type} (W : FileWorld σ)

namespace Survey

def mode (y : Survey σ) : Mode := y.state.line.mode

def cond (y : Survey σ) : Conditionals := y.state.line.cond

/-- What has been written to the output. -/
def ns (y : Survey σ) : List Char := y.state.line.ns

def both (y : Survey σ) : FileState σ × Reading := (y.state, y.reading)

/-- A character is part of a block. -/
def rests (y : Survey σ) (c : Char) : Bool :=
  let fs := readFileChar W 3 y.state c
  inBlock fs.line.mode fs.part || y.mode = .codePercent

def next (y : Survey σ) (c : Char) : Survey σ :=
  let x := readBoth W y.both c
  if y.rests W c then { y with state := x.1, reading := x.2 }
  else
    let name := directiveName (nameInC y.directive)
    let truth := holds W.toWorld x.1.line.symbols x.1.line.value name
    { state := x.1, reading := x.2, inC := y.inC.next c
      directive := if y.inC.place.inDirective then y.directive ++ [c] else []
      groups := if y.inC.ends c then groupsNext name truth y.groups else y.groups }

end Survey

def survey (symbols : σ) (s : List Char) : Survey σ :=
  s.foldl (Survey.next W)
    { state := fileStart symbols, reading := .lineStart, inC := ⟨.line true, false⟩
      directive := [], groups := [] }

/-! ## What C and the machine read alike -/

/-- A hash begins a directive of C where it begins a line. A line break in a literal is
spliced, and none is where C would find something else than the machine. The machine sees
the name of a conditional. -/
structure AsInC (y : Survey σ) (c : Char) : Prop where
  hash : c = '#' → ∀ blank, y.inC.here = .line blank → (y.reading = .lineStart ↔ blank = true)
  literal : c = '\n' → y.inC.behindBackslash = false → y.inC.place.inLiteral = false
  splice : c = '\n' → y.inC.behindBackslash = true → y.inC.place.Splices
  name : y.inC.ends c = true →
    directiveName (nameInC y.directive) = directiveName (firstWord y.directive) ∨
      (directiveName (nameInC y.directive)).isConditional = false ∧
        (directiveName (firstWord y.directive)).isConditional = false

def AllAsInC (symbols : σ) (s : List Char) : Prop :=
  ∀ p c t, withoutReturns s = p ++ c :: t → AsInC (survey W symbols p) c

/-- There is room for all groups in `cond_lines`. -/
def GroupsFit (symbols : σ) (s : List Char) : Prop :=
  ∀ p t, withoutReturns s = p ++ t → (survey W symbols p).groups.length ≤ condLines

/-- C and the machine read the file alike, and the machine has room for its groups. -/
structure ReadRight (symbols : σ) (s : List Char) : Prop where
  place : AllInPlace W symbols s
  read : NothingSwallowed W symbols s
  inC : AllAsInC W symbols s
  fit : GroupsFit W symbols s

/-! ## Conditionals that are carried out as in C -/

/-- The variables of the conditionals. Outside of all groups they are as at the start of the
file; `mask` is set before it is read. -/
structure FollowsGroups (groups : List Group) (c : Conditionals) : Prop where
  allow : c.allow = passes groups
  level : c.level = groups.length
  startLevel : groups = [] → c.startLevel = 0

/-- A part of the file that is not ordinary text. -/
def Mode.ofSwig : Mode → Bool
  | code | codePercent | embedded | embeddedBackslash | swigBlock | outside => true
  | _ => false

/-- A character of ordinary text, and not the end of a directive of SWIG. -/
structure OrdinaryChar (y y' : Survey σ) (c : Char) : Prop where
  before : y.inC.place.inDirective = false ∧ y.mode.ofSwig = false
  behind : y'.inC.place.inDirective = false ∧ y'.mode.ofSwig = false
  name : y.mode = .swigName → isIdChar c = false →
    y.state.line.decl ≠ "%line".toList ∧ y.state.line.decl ∉ blockDirectives

/-- The text `u` behind `p` is ordinary. -/
def OrdinaryText (symbols : σ) (p u : List Char) : Prop :=
  ∀ v c t, u = v ++ c :: t →
    OrdinaryChar (survey W symbols (p ++ v)) (survey W symbols (p ++ v ++ [c])) c

/-- A text is followed by line breaks. -/
def OnlyBreaks (ns ns' : List Char) : Prop := ∃ t, (∀ c ∈ t, c = '\n') ∧ ns' = ns ++ t

/-- The file is processed as in C. -/
structure GroupsRight (symbols : σ) (s : List Char) : Prop where
  follows : ∀ p t, withoutReturns s = p ++ t →
    FollowsGroups (survey W symbols p).groups (survey W symbols p).cond
  /-- Behind a directive the machine is in the first column, with no text in hand. -/
  ends : ∀ p c t, withoutReturns s = p ++ c :: t → (survey W symbols p).inC.ends c = true →
    (survey W symbols (p ++ [c])).mode = .start
  /-- Text in hand is never that of another branch. -/
  apart : ∀ p c t, withoutReturns s = p ++ c :: t →
    (survey W symbols (p ++ [c])).groups ≠ (survey W symbols p).groups →
      (survey W symbols (p ++ [c])).state.line.chunk = []
  skipped : ∀ p c t, withoutReturns s = p ++ c :: t → passes (survey W symbols p).groups = false →
    OnlyBreaks (survey W symbols p).ns (survey W symbols (p ++ [c])).ns
  passed : ∀ p u t, withoutReturns s = p ++ (u ++ '\n' :: t) →
    OrdinaryText W symbols p (u ++ ['\n']) → passes (survey W symbols p).groups = true →
      ∃ before after symbols' more, (preprocessorParseFile W symbols s).ns =
        (survey W symbols p).ns ++
          W.replace symbols' false (before ++ u ++ '\n' :: after) ++ more
  final : FollowsGroups (survey W symbols (withoutReturns s)).groups
    (preprocessorParseFile W symbols s).cond

end Swig4Ada.Preprocessor
