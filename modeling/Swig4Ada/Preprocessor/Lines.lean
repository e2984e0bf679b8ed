import Swig4Ada.Preprocessor.Define

/-!
# Line breaks in the output

The parser counts the lines of what the preprocessor hands on, so that the output of
`Preprocessor_parse` should have the line breaks of its input. Most of the text is copied;
in a part of the file that is not processed only its line breaks are, by a loop that stops
at a null character. In a directive the line breaks that are escaped are counted, and
written behind it; those in its literals and comments are not, and come back only with a
constant that is made of the directive.
-/

namespace Swig4Ada.Preprocessor

def lineCount (s : List Char) : Nat := s.count '\n'

/-- In the name of a directive. -/
def Mode.inHead : Mode → Bool
  | hash | name => true
  | _ => false

/-- Behind the name of a directive. -/
def Mode.inValue : Mode → Bool
  | beforeValue | value | valueBackslash | valueSlash | valueLineComment | valueBlockComment
  | valueBlockCommentStar | skip _ _ true => true
  | _ => false

variable {σ : Type}

namespace FileState

/-- In the body of a `%define`. -/
def inDefineBlock (fs : FileState σ) : Bool :=
  fs.line.mode = .swigBlock && fs.part.ofBlock && fs.inDefine

/-- The text that has been read and not yet written: the chunk, the body of a `%define`, and
the value and the comments of a directive. -/
def held (fs : FileState σ) : List Char :=
  fs.line.chunk ++
    if fs.line.mode.inValue then fs.line.value ++ fs.line.comment
    else if fs.inDefineBlock then fs.line.value else []

/-- In the options or the file name of an inclusion. -/
def inInclusion (fs : FileState σ) : Bool := fs.line.mode = .swigBlock && !fs.part.ofBlock

end FileState

/-- Every line break of the input is in the output, and every text is on its line: at every
character the line breaks up to there have been written, or are held. -/
structure LinesRight (W : FileWorld σ) (symbols : σ) (s : List Char) : Prop where
  places : ∀ p t, withoutReturns s = p ++ t →
    lineCount (fileRun W (fileStart symbols) p).line.ns +
      lineCount (fileRun W (fileStart symbols) p).held = lineCount p
  total : lineCount (preprocessorParseFile W symbols s).ns = lineCount s

/-! ## Texts without inclusions and invocations -/

/-- The step hands the chunk on to `add_chunk`. -/
def HandsOver (fs : FileState σ) (c : Char) : Prop :=
  match fs.line.mode with
  | .start => c = '#'
  | .percent => c = '{' ∨ c = '#'
  | .swigName => isIdChar c = false ∧ (fs.inDefine = true ∨ fs.inBeginfile = true)
  | _ => False

/-- The step is the end of a directive with a name. -/
def EndsDirective (fs : FileState σ) (c : Char) : Prop :=
  c = '\n' ∧
    match fs.line.mode with
    | .name | .beforeValue | .value | .valueSlash | .valueLineComment => True
    | _ => False

/-- The value of a directive at its end. -/
def endValue (line : ParseState σ) : List Char :=
  match line.mode with
  | .name => []
  | .valueSlash => line.value ++ ['/']
  | _ => line.value

/-- The comment of a directive at its end. -/
def endComment (line : ParseState σ) : List Char :=
  match line.mode with
  | .name => []
  | _ => line.comment

variable (M : Macros σ)

/-- A text in which a word is substituted. -/
def invokes (symbols : σ) (s : List Char) : Bool := (replaceWords M symbols false s).2

/-- What is tried for a constant at the end of a `#define`, with the table behind it. -/
def constantTried (line : ParseState σ) : Option (σ × List Char) :=
  if directiveName line.id = .define ∧ line.cond.allow = true then
    match preprocessorDefine M line.symbols false (chop (endValue line)) with
    | some (m, symbols) => (constantValue m).map fun v => (symbols, v)
    | none => none
  else none

/-- A text without directives for inclusion and without invocations of macros, `defined`
where it is an operator, `__LINE__` and `__FILE__` among them. -/
structure Plain (symbols : σ) (s : List Char) : Prop where
  inclusions : ∀ p t, withoutReturns s = p ++ t →
    (fileRun (macroWorld M) (fileStart symbols) p).inInclusion = false
  includes : ∀ p c t, withoutReturns s = p ++ c :: t →
    EndsDirective (fileRun (macroWorld M) (fileStart symbols) p) c →
    directiveName (fileRun (macroWorld M) (fileStart symbols) p).line.id ≠ .includeFile
  chunks : ∀ p c t, withoutReturns s = p ++ c :: t →
    HandsOver (fileRun (macroWorld M) (fileStart symbols) p) c →
    (fileRun (macroWorld M) (fileStart symbols) p).line.cond.allow = true →
    invokes M (fileRun (macroWorld M) (fileStart symbols) p).line.symbols
      (fileRun (macroWorld M) (fileStart symbols) p).line.chunk = false
  constants : ∀ p c t, withoutReturns s = p ++ c :: t →
    EndsDirective (fileRun (macroWorld M) (fileStart symbols) p) c →
    ∀ symbols' v,
      constantTried M (fileRun (macroWorld M) (fileStart symbols) p).line = some (symbols', v) →
      invokes M symbols' v = false
  rest : (fileText (macroWorld M) symbols s).line.cond.allow = true →
    invokes M (fileText (macroWorld M) symbols s).line.symbols
      (fileText (macroWorld M) symbols s).line.chunk = false

/-! ## Where line breaks are kept -/

/-- No line break is behind a null character. -/
def NullFree (s : List Char) : Prop := '\n' ∉ s.dropWhile (· ≠ '\x00')

/-- Text of a part that is not processed keeps its line breaks. -/
def ChunkKept (line : ParseState σ) (chunk : List Char) : Prop :=
  line.cond.allow = false → NullFree chunk

/-- The line breaks in the literals of a value: those that have not been counted. -/
def literalLines (line : ParseState σ) : Nat := lineCount (endValue line) - (line.cppLines - 1)

/-- A directive keeps its line breaks: there is none in its literals and comments, or it
becomes a constant, whose text has the line breaks of the literals and no other. -/
def DirectiveKept (line : ParseState σ) : Prop :=
  match constantTried M line with
  | some (_, v) =>
      if M.checkppId v then literalLines line = 0 ∧ lineCount (endComment line) = 0
      else lineCount v = literalLines line
  | none => literalLines line = 0 ∧ lineCount (endComment line) = 0

/-- A step keeps the line breaks. -/
def Kept (fs : FileState σ) (c : Char) : Prop :=
  (HandsOver fs c → ChunkKept fs.line fs.line.chunk) ∧
    (EndsDirective fs c → DirectiveKept M fs.line) ∧
    match fs.line.mode with
    | .codePercent => c = '}' → ChunkKept fs.line fs.line.chunk
    | .embedded => c = '\n' → ChunkKept fs.line (fs.line.chunk ++ [c])
    | .swigBlock =>
        match fs.part with
        | .statementEnd read =>
            isSpace c = true → read ≠ fs.opener →
              if fs.inDefine then
                fs.dlevel ≤ 1 → NullFree (fs.line.value.take (fs.line.value.length - 7))
              else fs.filelevel ≤ 1 → ChunkKept fs.line fs.line.chunk
        | _ => True
    | _ => True

/-- The text does not end with line breaks in the value of a directive or in the body of a
`%define`. -/
structure KeptAtEnd (fs : FileState σ) : Prop where
  value : fs.line.mode.inValue = true → lineCount fs.line.value = 0 ∧ lineCount fs.line.comment = 0
  define : fs.inDefineBlock = true → lineCount fs.line.value = 0
  chunk : ChunkKept fs.line fs.line.chunk

structure AllKept (symbols : σ) (s : List Char) : Prop where
  step : ∀ p c t, withoutReturns s = p ++ c :: t →
    Kept M (fileRun (macroWorld M) (fileStart symbols) p) c
  last : KeptAtEnd (fileText (macroWorld M) symbols s)

/-- There is room for all conditionals. -/
def InBounds (symbols : σ) (s : List Char) : Prop :=
  ∀ p t, withoutReturns s = p ++ t →
    (fileRun (macroWorld M) (fileStart symbols) p).line.mode ≠ .outside

end Swig4Ada.Preprocessor
