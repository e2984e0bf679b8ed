import Swig4Ada.Preprocessor.Blocks

/-!
# Which lines are directives

A file read for its directives, apart from the line machine: a directive begins at a
hash that is the first character of a line, blanks apart, when the line does not start
inside a block comment or a literal. It ends at the first line break that is neither
behind a backslash nor inside a block comment. What a block of the machine has read is
not text of the file in this sense, so that the reading rests there.
-/

namespace Swig4Ada.Preprocessor

def isQuote (c : Char) : Bool := c = '"' || c = '\''

/-- Where the reading is in a directive. -/
inductive DirectivePart
  | plain
  | slash
  | literal (quote : Char) (escaped : Bool)
  | lineComment
  | blockComment (star : Bool)
deriving DecidableEq, Repr

inductive Reading
  /-- In the blanks at the start of a line. -/
  | lineStart
  | text
  | slash
  | literal (quote : Char) (escaped : Bool)
  | lineComment
  | blockComment (star : Bool)
  | directive (part : DirectivePart) (previous : Char)
deriving DecidableEq, Repr

namespace DirectivePart

def inBlockComment : DirectivePart → Bool
  | blockComment _ => true
  | _ => false

def plainNext (c : Char) : DirectivePart :=
  if c = '/' then slash else if isQuote c then literal c false else plain

def next (part : DirectivePart) (c : Char) : DirectivePart :=
  match part with
  | plain => plainNext c
  | slash => if c = '/' then lineComment else if c = '*' then blockComment false else plainNext c
  | literal quote escaped =>
      if escaped then literal quote false
      else if c = quote then plain
      else literal quote (c = '\\')
  | lineComment => lineComment
  | blockComment star => if star ∧ c = '/' then plain else blockComment (c = '*')

end DirectivePart

namespace Reading

/-- A directive ends with a character. -/
def ends : Reading → Char → Bool
  | directive part previous, c => c = '\n' && previous ≠ '\\' && !part.inBlockComment
  | _, _ => false

def inDirective : Reading → Bool
  | directive _ _ => true
  | _ => false

/-- Behind a backslash in a directive. -/
def behindBackslash : Reading → Bool
  | directive _ previous => previous = '\\'
  | _ => false

/-- In a comment or a literal that goes on behind the end of a line. -/
def inside : Reading → Bool
  | blockComment _ | literal _ _ => true
  | _ => false

def textNext (c : Char) : Reading :=
  if c = '\n' then lineStart
  else if c = '/' then slash
  else if isQuote c then literal c false
  else text

def next (r : Reading) (c : Char) : Reading :=
  match r with
  | lineStart =>
      if c = '#' then directive .plain c else if isSpace c then lineStart else textNext c
  | text => textNext c
  | slash => if c = '/' then lineComment else if c = '*' then blockComment false else textNext c
  | literal quote escaped =>
      if escaped then literal quote false
      else if c = quote then text
      else literal quote (c = '\\')
  | lineComment => if c = '\n' then lineStart else lineComment
  | blockComment star => if star ∧ c = '/' then text else blockComment (c = '*')
  | directive part previous =>
      if (directive part previous).ends c then lineStart else directive (part.next c) c

end Reading

/-! ## The machine and the reading -/

/-- In a directive of the C preprocessor. -/
def Mode.inDirective : Mode → Bool
  | hash | name | beforeValue | value | valueBackslash | valueSlash | valueLineComment
  | valueBlockComment | valueBlockCommentStar | directive | skip _ _ true => true
  | _ => false

/-- In a block: `%\x7b`, `%beginfile` or `%define`. -/
def inBlock (mode : Mode) (part : BlockPart) : Bool :=
  match mode with
  | .code | .codePercent => true
  | .swigBlock => part.ofBlock
  | _ => false

variable {σ : Type} (W : FileWorld σ)

/-- The machine and the reading at one character. -/
def readBoth (x : FileState σ × Reading) (c : Char) : FileState σ × Reading :=
  let fs := readFileChar W 3 x.1 c
  (fs, if inBlock fs.line.mode fs.part || x.1.line.mode = .codePercent then x.2 else x.2.next c)

def both (symbols : σ) (s : List Char) : FileState σ × Reading :=
  s.foldl (readBoth W) (fileStart symbols, .lineStart)

/-- At the next character a directive of the machine begins where one of the text does,
and ends where it does. -/
structure DirectiveRight (x x' : FileState σ × Reading) (c : Char) : Prop where
  starts : x.1.line.mode.inDirective = false ∧ x'.1.line.mode.inDirective = true ↔
    x.2 = .lineStart ∧ c = '#'
  ends : x.1.line.mode.inDirective = true ∧ x'.1.line.mode.inDirective = false ↔
    x.2.ends c = true

/-- The directives of a text are right. -/
def DirectivesRight (symbols : σ) (s : List Char) : Prop :=
  ∀ p c t, withoutReturns s = p ++ c :: t →
    DirectiveRight (both W symbols p) (both W symbols (p ++ [c])) c

/-! ## Where the machine goes astray -/

/-- The machine reads a character as what it is.

Behind a slash or a percent sign any character is taken as text, so that a quote opens no
literal there, and a slash behind a percent sign no comment. A `%#` line and the file name
of an inclusion can end inside what the text has as a comment or a literal, since neither
knows about them. A conditional too many is written behind the end of `cond_lines`. -/
def Unswallowed (x : FileState σ × Reading) (c : Char) : Prop :=
  match x.1.line.mode with
  | .slash | .valueSlash => isQuote c = false
  | .percent => isQuote c = false ∧ c ≠ '/'
  | .embedded => c = '\n' → x.2.inside = false
  | .swigBlock =>
      match x.1.part with
      | .filename close => c = close → x.2.next c = .text
      | .bareFilename => isSpace c = true → x.2 = .text ∨ x.2 = .slash
      | _ => True
  | .outside => False
  | _ => True

/-- There is no directive at a hash behind `%enddef`, and none behind a line break that has
been swallowed: behind a slash or a percent sign, in a `%#` line or in an inclusion. In a
directive there is no line break with a backslash that the machine does not see, in a
comment or behind a slash, and none without one inside a literal. -/
def InPlace (x : FileState σ × Reading) (c : Char) : Prop :=
  match x.1.line.mode with
  | .start => x.2 = .text → c ≠ '#'
  | .text | .embedded | .embeddedBackslash | .swigBlock => x.2 = .lineStart → c ≠ '#'
  | .value | .valueLineComment => c = '\n' → x.2.behindBackslash = false
  | .skip _ _ true => c = '\n' → x.2.behindBackslash = true
  | _ => True

def NothingSwallowed (symbols : σ) (s : List Char) : Prop :=
  ∀ p c t, withoutReturns s = p ++ c :: t → Unswallowed (both W symbols p) c

def AllInPlace (symbols : σ) (s : List Char) : Prop :=
  ∀ p c t, withoutReturns s = p ++ c :: t → InPlace (both W symbols p) c

end Swig4Ada.Preprocessor
