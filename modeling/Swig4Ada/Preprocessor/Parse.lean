import Swig4Ada.Lib.CText

/-!
# The line machine of the preprocessor (`Preprocessor_parse` of `cpp.c`)

`Preprocessor_parse` reads a file character by character. Ordinary text goes to a
chunk, which is expanded and handed on when something else begins; directives are
cut into a name, a value and the comments of the value, and carried out at the
end of their line. Four variables keep track of the conditionals: `allow`,
`level`, `start_level` and `mask`.

Whatever the machine asks of the rest of the preprocessor is in `World`: macro
expansion, the evaluator of `#if`, the table of macros (of type `σ`) and its
changes. Line numbers and file names are left out. The SWIG directives that read
the file themselves, which are the inclusion of files, `%beginfile` and `%define`,
lead to the mode `swigBlock`, where the machine goes on with the loops of these.
-/

namespace Swig4Ada.Preprocessor

/-! ## Characters -/

/-- `isspace`. -/
def isSpace (c : Char) : Bool := c = ' ' ∨ (9 ≤ c.toNat ∧ c.toNat ≤ 13)

/-- `isidentifier`. -/
def isIdentifier (c : Char) : Bool := c.isAlpha ∨ c = '_' ∨ c = '$'

/-- `isidchar`. -/
def isIdChar (c : Char) : Bool := c.isAlphanum ∨ c = '_' ∨ c = '$'

/-- `Chop`. -/
def chop (s : List Char) : List Char := s.rdropWhile isSpace

/-- The line breaks of a text, up to its first null character. -/
def newlines (s : List Char) : List Char := (s.takeWhile (· ≠ '\x00')).filter (· = '\n')

/-! ## The names of directives -/

inductive DirectiveName
  | define | undef
  | ifdef | ifndef | ifCond | elif | els | endif
  | warning | error | line | includeFile | pragma | level
  | null | linemarker | unknown
deriving DecidableEq, Repr

/-- `is_digits`. -/
def isDigits (id : List Char) : Bool := id ≠ [] ∧ id.all Char.isDigit

def directiveName (id : List Char) : DirectiveName :=
  if id = "define".toList then .define
  else if id = "undef".toList then .undef
  else if id = "ifdef".toList then .ifdef
  else if id = "ifndef".toList then .ifndef
  else if id = "else".toList then .els
  else if id = "endif".toList then .endif
  else if id = "if".toList then .ifCond
  else if id = "elif".toList then .elif
  else if id = "warning".toList then .warning
  else if id = "error".toList then .error
  else if id = "line".toList then .line
  else if id = "include".toList then .includeFile
  else if id = "pragma".toList then .pragma
  else if id = "level".toList then .level
  else if id = [] then .null
  else if isDigits id then .linemarker
  else .unknown

/-- The SWIG directives that take over the input. `%line` is dropped. -/
def blockDirectives : List (List Char) :=
  ["%include".toList, "%import".toList, "%extern".toList, "%beginfile".toList,
    "%define".toList]

/-! ## The rest of the preprocessor -/

/-- A message of the preprocessor. -/
inductive Report
  | error (msg : String)
  | warning (msg : String)
  /-- An expression that could not be evaluated, and why. -/
  | evaluation (value : List Char) (errmsg : String)
  /-- `#error` and `#warning` with their text, and a directive that is not known. -/
  | directive (name : DirectiveName) (value : List Char)
deriving DecidableEq, Repr

structure World (σ : Type) where
  /-- `Preprocessor_replace`, with `expand_defined_operator`. -/
  replace : σ → Bool → List Char → List Char
  /-- `Getattr(symbols, value)` is there. -/
  isDefined : σ → List Char → Bool
  /-- `Preprocessor_expr`. -/
  expr : List Char → Except String Int
  /-- `#define`, with the line that makes a constant of the macro, if there is one. -/
  define : σ → List Char → List Char → σ × Option (List Char)
  /-- `Preprocessor_undef`. -/
  undef : σ → List Char → σ
  /-- `#include`, under the options that make it read the file. -/
  includeFile : σ → List Char → σ × List Char

/-! ## The state -/

/-- The values of `state`, and `skip` for the loop of `skip_tochar`. -/
inductive Mode
  /-- 0: in the first column. -/
  | start
  /-- 1 -/
  | text
  /-- 30: behind a slash. -/
  | slash
  /-- 31 -/
  | lineComment
  /-- 32 -/
  | blockComment
  /-- 33 -/
  | blockCommentStar
  /-- 40: behind a hash. -/
  | hash
  /-- 41 -/
  | name
  /-- 42 -/
  | beforeValue
  /-- 43 -/
  | value
  /-- 44 -/
  | valueBackslash
  /-- 45 -/
  | valueSlash
  /-- 46 -/
  | valueLineComment
  /-- 47 -/
  | valueBlockComment
  /-- 48 -/
  | valueBlockCommentStar
  /-- 50: at the end of a directive. -/
  | directive
  /-- 100: behind a percent sign. -/
  | percent
  /-- 105 -/
  | code
  /-- 106 -/
  | codePercent
  /-- 107 -/
  | embedded
  /-- 108 -/
  | embeddedBackslash
  /-- 110 -/
  | swigName
  /-- In `skip_tochar` for `quote`, in text or in the value of a directive. -/
  | skip (quote : Char) (escaped inValue : Bool)
  /-- In a SWIG directive that reads on. -/
  | swigBlock
  /-- `cond_lines` has been written behind its end. -/
  | outside
deriving DecidableEq, Repr

/-- The variables of the conditionals. -/
structure Conditionals where
  allow : Bool
  level : Nat
  startLevel : Nat
  mask : Bool
deriving DecidableEq, Repr

structure ParseState (σ : Type) where
  mode : Mode
  chunk : List Char
  decl : List Char
  id : List Char
  value : List Char
  comment : List Char
  cppLines : Nat
  cond : Conditionals
  symbols : σ
  ns : List Char
  reports : List Report

variable {σ : Type} (W : World σ)

/-! ## Output -/

/-- `addline`. -/
def addLine (ns s : List Char) (allow : Bool) : List Char :=
  if allow then ns ++ s else ns ++ newlines s

/-- `add_chunk`. -/
def addChunk (st : ParseState σ) : ParseState σ :=
  let echunk := if st.cond.allow then W.replace st.symbols false st.chunk else st.chunk
  { st with ns := addLine st.ns echunk st.cond.allow, chunk := [] }

/-! ## Conditionals -/

/-- The length of the array `cond_lines`. -/
def condLines : Nat := 256

/-- Whether the condition of `#if` or `#elif` is true. -/
def evaluate (symbols : σ) (value : List Char) (missing : String) : Bool × List Report :=
  let sval := W.replace symbols true value
  if sval.length > 0 then
    match W.expr sval with
    | .ok val => (val ≠ 0, [])
    | .error errmsg => (false, [.evaluation value errmsg])
  else (false, [.error missing])

/-- Whether the condition of `#ifdef` or `#ifndef` is true. -/
def evaluateName (symbols : σ) (value : List Char) (defined : Bool) (missing : String) :
    Bool × List Report :=
  if value.length > 0 then (W.isDefined symbols value == defined, [])
  else (false, [.error missing])

/-- The end of `#if`, `#ifdef` and `#ifndef`; the condition is only evaluated where
text is allowed. -/
def openGroup (st : ParseState σ) (condition : Bool × List Report) : ParseState σ :=
  if st.cond.level < condLines then
    let level := st.cond.level + 1
    if st.cond.allow then
      { st with
        cond := { allow := condition.1, level := level, startLevel := level, mask := true }
        reports := st.reports ++ condition.2 }
    else { st with cond := { st.cond with level := level } }
  else { st with mode := .outside }

/-- `#elif`. -/
def elifGroup (st : ParseState σ) : ParseState σ :=
  if st.cond.level = 0 then
    { st with reports := st.reports ++ [.error "Misplaced #elif.\n"] }
  else if st.cond.allow then { st with cond := { st.cond with allow := false, mask := false } }
  else if st.cond.level = st.cond.startLevel then
    let condition := evaluate W st.symbols st.value "Missing expression for #elif.\n"
    { st with
      cond := { st.cond with allow := condition.1 && st.cond.mask }
      reports := st.reports ++ condition.2 }
  else st

/-- The warning about tokens behind `#else` and `#endif`. -/
def unexpectedTokens (st : ParseState σ) (msg : String) : List Report :=
  if st.value.length ≠ 0 then [.warning msg] else []

/-- `#else`. -/
def elseGroup (st : ParseState σ) : ParseState σ :=
  if st.cond.level ≤ 0 then
    { st with reports := st.reports ++ [.error "Misplaced #else.\n"] }
  else
    let reports := st.reports ++
      unexpectedTokens st "Unexpected tokens after #else directive.\n"
    if st.cond.allow then
      { st with cond := { st.cond with allow := false, mask := false }, reports := reports }
    else if st.cond.level = st.cond.startLevel then
      { st with cond := { st.cond with allow := st.cond.mask }, reports := reports }
    else { st with reports := reports }

/-- `#endif`. -/
def endifGroup (st : ParseState σ) : ParseState σ :=
  if st.cond.level = 0 then
    { st with reports := st.reports ++ [.error "Extraneous #endif.\n"] }
  else
    let level := st.cond.level - 1
    if level < st.cond.startLevel then
      { st with
        cond := { st.cond with
          allow := true, level := level, startLevel := st.cond.startLevel - 1 }
        reports := st.reports ++
          unexpectedTokens st "Unexpected tokens after #endif directive.\n" }
    else { st with cond := { st.cond with level := level } }

/-! ## Directives -/

/-- The directives that do something only where text is allowed. -/
def allowedDirective (st : ParseState σ) (name : DirectiveName) : ParseState σ :=
  match name with
  | .define =>
      let (symbols, constant) := W.define st.symbols st.value st.comment
      match constant with
      | some line =>
          { st with symbols := symbols, ns := st.ns ++ line, cppLines := st.cppLines - 1 }
      | none => { st with symbols := symbols }
  | .undef => { st with symbols := W.undef st.symbols st.value }
  | .includeFile =>
      let (symbols, text) := W.includeFile st.symbols st.value
      { st with symbols := symbols, ns := st.ns ++ text }
  | .warning | .error => { st with reports := st.reports ++ [.directive name st.value] }
  | .unknown => { st with reports := st.reports ++ [.directive name st.id] }
  | _ => st

/-- The chain of tests for the names of directives. `#pragma` and `#level` only
give messages, and change which messages are given. -/
def carryOut (st : ParseState σ) : ParseState σ :=
  match directiveName st.id with
  | .ifdef =>
      openGroup st (evaluateName W st.symbols st.value true "Missing identifier for #ifdef.\n")
  | .ifndef =>
      openGroup st
        (evaluateName W st.symbols st.value false "Missing identifier for #ifndef.\n")
  | .ifCond =>
      openGroup st (evaluate W st.symbols st.value "Missing expression for #if.\n")
  | .elif => elifGroup W st
  | .els => elseGroup st
  | .endif => endifGroup st
  | name => if st.cond.allow then allowedDirective W st name else st

/-- State 50. -/
def directiveEnd (st : ParseState σ) : ParseState σ :=
  let st := carryOut W { st with value := chop st.value, mode := .start }
  { st with ns := st.ns ++ List.replicate st.cppLines '\n' }

/-! ## The machine -/

def putChunk (st : ParseState σ) (c : Char) (mode : Mode) : ParseState σ :=
  { st with chunk := st.chunk ++ [c], mode := mode }

def putValue (st : ParseState σ) (c : Char) (mode : Mode) : ParseState σ :=
  { st with value := st.value ++ [c], mode := mode }

def putComment (st : ParseState σ) (c : Char) (mode : Mode) : ParseState σ :=
  { st with comment := st.comment ++ [c], mode := mode }

/-- State 43. -/
def readValue (st : ParseState σ) (c : Char) : ParseState σ × Bool :=
  if c = '\n' then ({ st with mode := .directive }, true)
  else if c = '/' then ({ st with mode := .valueSlash }, false)
  else if c = '"' ∨ c = '\'' then (putValue st c (.skip c false true), false)
  else if c = '\\' then (putValue st c .valueBackslash, false)
  else (putValue st c .value, false)

/-- State 110 at the end of a name. -/
def swigDirective (st : ParseState σ) : ParseState σ :=
  if st.decl ∈ blockDirectives then { st with mode := .swigBlock }
  else if st.decl = "%line".toList then { st with mode := .text }
  else { st with chunk := st.chunk ++ st.decl, mode := .text }

/-- One turn of the loop. The answer is the new state, and whether `c` has been
given back with `Ungetc`. -/
def parseStep (st : ParseState σ) (c : Char) : ParseState σ × Bool :=
  match st.mode with
  | .start =>
      if c = '#' then ({ addChunk W st with cppLines := 1, mode := .hash }, false)
      else if isSpace c then (putChunk st c .start, false)
      else ({ st with mode := .text }, true)
  | .text =>
      if c = '%' then ({ st with mode := .percent }, false)
      else if c = '\n' then (putChunk st c .start, false)
      else if c = '"' ∨ c = '\'' then (putChunk st c (.skip c false false), false)
      else if c = '/' then (putChunk st c .slash, false)
      else (putChunk st c .text, false)
  | .slash =>
      if c = '/' then (putChunk st c .lineComment, false)
      else if c = '*' then (putChunk st c .blockComment, false)
      else (putChunk st c .text, false)
  | .lineComment => (putChunk st c (if c = '\n' then .start else .lineComment), false)
  | .blockComment =>
      (putChunk st c (if c = '*' then .blockCommentStar else .blockComment), false)
  | .blockCommentStar =>
      if c = '/' then (putChunk st c .text, false)
      else (putChunk st c (if c = '*' then .blockCommentStar else .blockComment), false)
  | .hash =>
      if c = '\n' then (putChunk st c .start, false)
      else if isSpace c then (st, false)
      else ({ st with id := [], mode := .name }, true)
  | .name =>
      if isSpace c ∨ ¬ isIdChar c then
        let st := { st with value := [], comment := [] }
        if c = '\n' then ({ st with mode := .directive }, true)
        else ({ st with mode := .beforeValue }, !isSpace c)
      else ({ st with id := st.id ++ [c] }, false)
  | .beforeValue =>
      if isSpace c then
        if c = '\n' then ({ st with mode := .directive }, true) else (st, false)
      else readValue { st with mode := .value } c
  | .value => readValue st c
  | .valueBackslash =>
      if c = '\n' then ({ putValue st c .value with cppLines := st.cppLines + 1 }, false)
      else ({ st with mode := .value }, true)
  | .valueSlash =>
      if c = '/' then ({ st with mode := .valueLineComment }, false)
      else if c = '*' then ({ st with mode := .valueBlockComment }, false)
      else if c = '\n' then (putValue st '/' .directive, true)
      else (putValue (putValue st '/' .value) c .value, false)
  | .valueLineComment =>
      if c = '\n' then ({ st with mode := .directive }, true)
      else (putComment st c .valueLineComment, false)
  | .valueBlockComment =>
      if c = '*' then ({ st with mode := .valueBlockCommentStar }, false)
      else (putComment st c .valueBlockComment, false)
  | .valueBlockCommentStar =>
      if c = '/' then ({ st with mode := .value }, false)
      else if c = '*' then (putComment st c .valueBlockCommentStar, false)
      else (putComment (putComment st '*' .valueBlockComment) c .valueBlockComment, false)
  -- The character is the line break that has been given back.
  | .directive => (directiveEnd W st, false)
  | .percent =>
      if c = '{' then
        let st := addChunk W st
        (putChunk (putChunk st '%' .code) c .code, false)
      else if c = '#' then (putChunk (addChunk W st) c .embedded, false)
      else if isIdentifier c then ({ st with decl := ['%', c], mode := .swigName }, false)
      else (putChunk (putChunk st '%' .text) c .text, false)
  | .code => (putChunk st c (if c = '%' then .codePercent else .code), false)
  | .codePercent =>
      let st := putChunk st c .code
      if c = '}' then
        ({ st with ns := addLine st.ns st.chunk st.cond.allow, chunk := [], mode := .text },
          false)
      else (st, false)
  | .embedded =>
      let st := putChunk st c .embedded
      if c = '\n' then
        ({ st with ns := addLine st.ns st.chunk st.cond.allow, chunk := [], mode := .start },
          false)
      else if c = '\\' then ({ st with mode := .embeddedBackslash }, false)
      else (st, false)
  | .embeddedBackslash => (putChunk st c .embedded, false)
  | .swigName =>
      if ¬ isIdChar c then (swigDirective st, true)
      else ({ st with decl := st.decl ++ [c] }, false)
  | .skip quote escaped inValue =>
      let mode : Mode :=
        if escaped then .skip quote false inValue
        else if c = quote then if inValue then .value else .text
        else .skip quote (c = '\\') inValue
      (if inValue then putValue st c mode else putChunk st c mode, false)
  | .swigBlock | .outside => (st, false)

def parseStart (symbols : σ) : ParseState σ where
  mode := .start
  chunk := []
  decl := []
  id := []
  value := []
  comment := []
  cppLines := 0
  cond := { allow := true, level := 0, startLevel := 0, mask := false }
  symbols := symbols
  ns := []
  reports := []

/-- What is reported at the end of a file. -/
def endReports (st : ParseState σ) : List Report :=
  List.replicate st.cond.level
      (.error "Missing #endif for conditional starting here\n") ++
    match st.mode with
    | .code | .codePercent => [.error "Unterminated %\x7b ... %\x7d block\n"]
    | .slash | .lineComment | .blockComment | .blockCommentStar =>
        [.error "Unterminated comment\n"]
    | .skip '"' _ false => [.error "Unterminated string constant\n"]
    | .skip _ _ false => [.error "Unterminated character constant\n"]
    | _ => []

end Swig4Ada.Preprocessor
