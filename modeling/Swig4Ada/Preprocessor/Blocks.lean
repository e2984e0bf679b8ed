import Swig4Ada.Preprocessor.Parse

/-!
# The whole of the line machine (`Preprocessor_parse` of `cpp.c`)

The directives `%include`, `%import`, `%extern`, `%beginfile` and `%define` read on
in the file. A `FileState` is a state of the line machine with what these directives
keep while they read: the parts of an inclusion, and the statement behind a percent
sign in a block, which is compared with the words that open and close the block.
-/

namespace Swig4Ada.Preprocessor

/-- What the directives ask of the rest of the preprocessor. -/
structure FileWorld (σ : Type) extends World σ where
  /-- The end of an inclusion: the directive, the white space and the options in front
  of the file name, and the file name behind the character that it begins with. With a
  file that is there, the line for it and its text. -/
  includeDirective : σ → List Char → List Char → Option (List Char) → List Char → List Char →
    σ × Option (List Char)
  /-- `Preprocessor_define (value, 1)`. -/
  defineMacro : σ → List Char → σ

/-- Where a directive is that reads on in the file. -/
inductive BlockPart
  /-- `skip_whitespace` in front of the options. -/
  | optionsBlank
  /-- In `get_options`, with its `level`. -/
  | options (level : Nat)
  /-- `skip_whitespace` in front of the file name. -/
  | filenameBlank
  /-- In `get_filename`, up to a quote or an angle bracket. -/
  | filename (close : Char)
  | bareFilename
  /-- 120 and 150 -/
  | body
  /-- In the loop that reads `statement`. -/
  | statement (read : List Char)
  /-- At the character behind a whole statement. -/
  | statementEnd (read : List Char)
deriving DecidableEq, Repr

/-- In the body of `%define` or `%beginfile`. -/
def BlockPart.ofBlock : BlockPart → Bool
  | body | statement _ | statementEnd _ => true
  | _ => false

structure FileState (σ : Type) where
  line : ParseState σ
  part : BlockPart
  dlevel : Nat
  filelevel : Nat
  optionsWhitespace : List Char
  opt : Option (List Char)
  filenameWhitespace : List Char
  fn : List Char

variable {σ : Type} (W : FileWorld σ)

namespace FileState

def withLine (fs : FileState σ) (line : ParseState σ) : FileState σ := { fs with line := line }

/-- The block is a macro. -/
def inDefine (fs : FileState σ) : Bool := fs.line.decl = "%define".toList

def inBeginfile (fs : FileState σ) : Bool := fs.line.decl = "%beginfile".toList

/-- The statements that open and close a block. -/
def opener (fs : FileState σ) : List Char :=
  if fs.inDefine then "define".toList else "beginfile".toList

def closer (fs : FileState σ) : List Char :=
  if fs.inDefine then "enddef".toList else "endoffile".toList

/-- `Putc` to the text of the block. -/
def putBlock (fs : FileState σ) (c : Char) (part : BlockPart) : FileState σ :=
  let line :=
    if fs.inDefine then { fs.line with value := fs.line.value ++ [c] }
    else { fs.line with chunk := fs.line.chunk ++ [c] }
  { fs with line := line, part := part }

end FileState

/-! ## Blocks -/

def externWarning (decl : List Char) : List Report :=
  if decl = "%extern".toList then [.warning "%extern is deprecated. Use %import instead.\n"]
  else []

/-- State 110 at a directive that reads on. -/
def openBlock (fs : FileState σ) : FileState σ :=
  if fs.inBeginfile then
    let line := addChunk W.toWorld fs.line
    { fs with
      line := { line with chunk := fs.line.decl }, filelevel := fs.filelevel + 1, part := .body }
  else if fs.inDefine then
    let line := addChunk W.toWorld fs.line
    { fs with line := { line with value := [] }, dlevel := fs.dlevel + 1, part := .body }
  else if fs.line.cond.allow then
    { fs with
      line := { fs.line with reports := fs.line.reports ++ externWarning fs.line.decl },
      part := .optionsBlank, optionsWhitespace := [], opt := none, filenameWhitespace := [],
      fn := [] }
  else fs.withLine { fs.line with mode := .text }

/-- The end of a block. -/
def closeBlock (fs : FileState σ) : FileState σ :=
  if fs.inDefine then
    let value := fs.line.value.take (fs.line.value.length - 7)
    let symbols :=
      if fs.line.cond.allow then W.defineMacro fs.line.symbols value else fs.line.symbols
    fs.withLine
      { fs.line with
        value := value, symbols := symbols, ns := addLine fs.line.ns value false, mode := .start }
  else
    fs.withLine
      { fs.line with
        ns := addLine fs.line.ns fs.line.chunk fs.line.cond.allow, chunk := [], mode := .text }

/-- At the character behind a statement that is one of the two words. -/
def endStatement (fs : FileState σ) (read : List Char) : FileState σ :=
  let fs := { fs with part := .body }
  if read = fs.opener then
    if fs.inDefine then { fs with dlevel := fs.dlevel + 1 }
    else { fs with filelevel := fs.filelevel + 1 }
  else
    let fs :=
      if fs.inDefine then { fs with dlevel := fs.dlevel - 1 }
      else { fs with filelevel := fs.filelevel - 1 }
    if (if fs.inDefine then fs.dlevel else fs.filelevel) = 0 then closeBlock W fs else fs

/-- The end of an inclusion. The word that takes the place of `%extern` has two percent signs, so
that it is not the one of an import. -/
def endInclude (fs : FileState σ) : FileState σ :=
  let line := { fs.line with mode := .text }
  let decl := if line.decl = "%extern".toList then "%%import".toList else line.decl
  match W.includeDirective line.symbols decl fs.optionsWhitespace fs.opt fs.filenameWhitespace
      fs.fn with
  | (symbols, none) => fs.withLine { line with symbols := symbols }
  | (symbols, some text) =>
      let line := addChunk W.toWorld line
      fs.withLine { line with symbols := symbols, ns := line.ns ++ text }

/-- `get_filename` at its first character. -/
def startFilename (fs : FileState σ) (c : Char) : FileState σ × Bool :=
  let fs := { fs with fn := [c] }
  if c = '"' then ({ fs with part := .filename '"' }, false)
  else if c = '<' then ({ fs with part := .filename '>' }, false)
  else ({ fs with part := .bareFilename }, false)

/-- One turn of a loop in a directive that reads on. -/
def blockStep (fs : FileState σ) (c : Char) : FileState σ × Bool :=
  match fs.part with
  | .optionsBlank =>
      if isSpace c then ({ fs with optionsWhitespace := fs.optionsWhitespace ++ [c] }, false)
      else if c = '(' then ({ fs with part := .options 1, opt := some [c] }, false)
      else startFilename fs c
  | .options level =>
      let fs := { fs with opt := fs.opt.map (· ++ [c]) }
      if c = ')' then
        ({ fs with part := if level = 1 then .filenameBlank else .options (level - 1) }, false)
      else if c = '(' then ({ fs with part := .options (level + 1) }, false)
      else (fs, false)
  | .filenameBlank =>
      if isSpace c then ({ fs with filenameWhitespace := fs.filenameWhitespace ++ [c] }, false)
      else startFilename fs c
  | .filename close =>
      if c = close then (endInclude W fs, false) else ({ fs with fn := fs.fn ++ [c] }, false)
  | .bareFilename =>
      if isSpace c then (endInclude W fs, true) else ({ fs with fn := fs.fn ++ [c] }, false)
  | .body => (fs.putBlock c (if c = '%' then .statement [] else .body), false)
  | .statement read =>
      let read := read ++ [c]
      let part :=
        if read = fs.closer ∨ read = fs.opener then .statementEnd read
        else if read.isPrefixOf fs.closer ∨ read.isPrefixOf fs.opener then .statement read
        else .body
      (fs.putBlock c part, false)
  | .statementEnd read =>
      (if isSpace c then endStatement W fs read else { fs with part := .body }, true)

/-! ## The machine -/

/-- One turn of the loop. -/
def fileStep (fs : FileState σ) (c : Char) : FileState σ × Bool :=
  if fs.line.mode = .swigBlock then blockStep W fs c
  else
    let (line, again) := parseStep W.toWorld fs.line c
    if line.mode = .swigBlock then (openBlock W (fs.withLine line), again)
    else (fs.withLine line, again)

/-- Reads a character until it is not given back. -/
def readFileChar : Nat → FileState σ → Char → FileState σ
  | 0, fs, _ => fs
  | n + 1, fs, c =>
      let (fs, again) := fileStep W fs c
      if again then readFileChar n fs c else fs

def fileStart (symbols : σ) : FileState σ where
  line := parseStart symbols
  part := .body
  dlevel := 0
  filelevel := 0
  optionsWhitespace := []
  opt := none
  filenameWhitespace := []
  fn := []

/-- The loop over a file without carriage returns. -/
def fileRun (fs : FileState σ) (s : List Char) : FileState σ :=
  s.foldl (readFileChar W 3) fs

/-- The text without its carriage returns. -/
def withoutReturns (s : List Char) : List Char := s.filter (· ≠ '\r')

/-- The loop of `Preprocessor_parse` over a file. -/
def fileText (symbols : σ) (s : List Char) : FileState σ :=
  fileRun W (fileStart symbols) (withoutReturns s)

/-- An inclusion that is cut off by the end of the file. There `Getc` is `EOF`, which is
the character 255 in a file name. -/
def fileEnd (fs : FileState σ) : FileState σ :=
  if fs.line.mode = .swigBlock then
    match fs.part with
    | .optionsBlank | .filenameBlank => endInclude W { fs with fn := ['\xff'] }
    | .options _ => endInclude W { fs with opt := none, fn := ['\xff'] }
    | .filename _ | .bareFilename => endInclude W fs
    | .body | .statement _ | .statementEnd _ => fs
  else fs

/-- The errors about blocks that do not end. -/
def blockReports (fs : FileState σ) : List Report :=
  if fs.line.mode = .swigBlock ∧ fs.inBeginfile then
    [.error "Missing %endoffile for file inclusion block starting here\n"]
  else if fs.line.mode = .swigBlock ∧ fs.inDefine then
    [.error "Missing %enddef for macro starting here\n"]
  else []

/-- `Preprocessor_parse`, with the state in which it ends. -/
def preprocessorParseFile (symbols : σ) (s : List Char) : ParseState σ :=
  let fs := fileEnd W (fileText W symbols s)
  addChunk W.toWorld
    { fs.line with reports := fs.line.reports ++ endReports fs.line ++ blockReports fs }

end Swig4Ada.Preprocessor
