import Swig4Ada.Doh.Replace
import Swig4Ada.Preprocessor.Blocks

/-!
# Words and macros (`Preprocessor_replace` and `Preprocessor_define` of `cpp.c`)

`Preprocessor_replace` copies a text and looks for words in it, outside quotes and
comments. A macro, `__LINE__`, `__FILE__`, and behind `#if` the operator `defined`, are
substituted; what is written for them, and how much of the text they take, is not modelled.
`Preprocessor_define` reads the name, the parameters and the value of a macro, and a
`#define` of a macro without parameters may become a constant of the interface.
-/

namespace Swig4Ada.Preprocessor

/-! ## Macros -/

structure Macro where
  name : List Char
  args : Option (List (List Char))
  varargs : Bool
  value : List Char
  swigMacro : Bool
deriving DecidableEq, Repr

/-- What the table of macros is asked, and the functions that are not modelled. -/
structure Macros (σ : Type) where
  /-- `Getattr(symbols, id)` is there. -/
  isMacro : σ → List Char → Bool
  /-- A word that is substituted, with `expand_defined_operator` and the text behind it:
  what is written for it, and the text that is left. -/
  substitute : σ → Bool → List Char → List Char → List Char × List Char
  /-- Enters a macro; `none` when it is there with another value. -/
  setMacro : σ → Macro → Option σ
  undef : σ → List Char → σ
  expr : List Char → Except String Int
  /-- `checkpp_id`. -/
  checkppId : List Char → Bool
  includeFile : σ → List Char → σ × List Char
  includeDirective : σ → List Char → List Char → Option (List Char) → List Char → List Char →
    σ × Option (List Char)

variable {σ : Type} (M : Macros σ)

/-! ## Words -/

/-- The values of `state` in `Preprocessor_replace`, with the loops inside state 0. -/
inductive ReplaceMode
  /-- 0 -/
  | plain
  /-- 2: behind a percent sign. -/
  | percent
  /-- 4 -/
  | word
  /-- 10 -/
  | slash
  /-- 11 -/
  | lineComment
  /-- 12 -/
  | blockComment
  /-- 13 -/
  | blockCommentStar
  /-- In `skip_tochar`. -/
  | skip (quote : Char) (escaped : Bool)
  /-- Behind a backslash. -/
  | backslash
deriving DecidableEq, Repr

/-- `#if` and `#elif`, which turn the operator `defined` on. -/
def hashIf (id : List Char) : Bool := id = "#if".toList || id = "#elif".toList

/-- The word is substituted. -/
def substituted (symbols : σ) (expandDefined : Bool) (id : List Char) : Bool :=
  if id = "defined".toList then expandDefined
  else if id = "__LINE__".toList || id = "__FILE__".toList then true
  else if hashIf id then false
  else M.isMacro symbols id

structure ReplaceState where
  mode : ReplaceMode
  expandDefined : Bool
  /-- The word that has been read and not yet written. -/
  id : List Char
deriving DecidableEq, Repr

/-- State 0 at a character that is copied. -/
def plainMode (c : Char) : ReplaceMode :=
  if c = '"' || c = '\'' then .skip c false
  else if c = '/' then .slash
  else if c = '\\' then .backslash
  else .plain

/-- One turn of the loop, other than the end of a word: the new state, what is written, and
whether the character has been given back. -/
def replaceStep (st : ReplaceState) (c : Char) : ReplaceState × List Char × Bool :=
  let into (mode : ReplaceMode) : ReplaceState := { st with mode := mode }
  match st.mode with
  | .plain =>
      if isIdentifier c || c = '#' then ({ st with mode := .word, id := [c] }, [], false)
      else if c = '%' then ({ st with mode := .percent, id := [c] }, [], false)
      else
        ({ st with mode := plainMode c, expandDefined := st.expandDefined && c ≠ '\n' }, [c], false)
  | .percent =>
      if c = '#' then ({ st with mode := .word, id := st.id ++ [c] }, [], false)
      else (into .word, [], true)
  | .word => ({ st with id := st.id ++ [c] }, [], false)
  | .slash =>
      if c = '/' then (into .lineComment, [c], false)
      else if c = '*' then (into .blockComment, [c], false)
      else (into .plain, [], true)
  | .lineComment =>
      if c = '\n' then ({ st with mode := .plain, expandDefined := false }, [c], false)
      else (st, [c], false)
  | .blockComment => (into (if c = '*' then .blockCommentStar else .blockComment), [c], false)
  | .blockCommentStar =>
      (into (if c = '/' then .plain else if c = '*' then .blockCommentStar else .blockComment),
        [c], false)
  | .skip quote escaped =>
      (into (if escaped then .skip quote false
        else if c = quote then .plain else .skip quote (c = '\\')), [c], false)
  | .backslash =>
      if c = '\n' then (into .plain, [c], false) else (into .plain, [], true)

/-- The word is at its end in front of a text. -/
def wordEnds (mode : ReplaceMode) : List Char → Bool
  | [] => mode = .percent || mode = .word
  | c :: _ => mode = .word && !isIdChar c

/-- The loop of `Preprocessor_replace`: what is written for a text, and whether a word has
been substituted. At the end of all text `defined` is an error. -/
def replaceLoop (symbols : σ) : Nat → ReplaceState → List Char → List Char × Bool
  | 0, _, _ => ([], false)
  | n + 1, st, text =>
      let write (s : List Char) (rest : List Char × Bool) : List Char × Bool :=
        (s ++ rest.1, rest.2)
      if wordEnds st.mode text then
        if substituted M symbols (st.expandDefined || text.isEmpty) st.id then
          let result := M.substitute symbols st.expandDefined st.id text
          let rest := replaceLoop symbols n { st with mode := .plain } result.2
          (result.1 ++ rest.1, true)
        else
          write st.id (replaceLoop symbols n
            { st with mode := .plain, expandDefined := st.expandDefined || hashIf st.id } text)
      else
        match text with
        | [] => ([], false)
        | c :: cs =>
            let (st', out, again) := replaceStep st c
            write out (replaceLoop symbols n st' (if again then c :: cs else cs))

/-- `Preprocessor_replace`, and whether it has substituted a word. A character is given back
twice at most. -/
def replaceWords (symbols : σ) (expandDefined : Bool) (s : List Char) : List Char × Bool :=
  replaceLoop M symbols (3 * s.length + 3) ⟨.plain, expandDefined, []⟩ s

/-! ## Reading a macro -/

/-- The name of a macro and what stands between its parentheses, with the text behind them;
`none` when the closing parenthesis is missing. -/
def readMacroName : List Char → List Char → Option (List Char × Option (List Char) × List Char)
  | name, [] => some (name, none, [])
  | name, c :: cs =>
      if c = '(' then
        if ')' ∈ cs then
          some (name, some (cs.takeWhile (· ≠ ')')), (cs.dropWhile (· ≠ ')')).tail)
        else none
      else if isIdChar c || c = '%' then readMacroName (name ++ [c]) cs
      else if isSpace c then some (name, none, cs)
      else if c = '\\' then
        match cs with
        | '\n' :: cs => readMacroName name cs
        | cs => some (name, none, c :: cs)
      else some (name, none, c :: cs)

/-- `Macro_vararg_name`. -/
def macroVarargName (argname : List Char) : Option (List Char) :=
  if argname.dropWhile (· ≠ '.') = "...".toList then
    let name := argname.takeWhile (· ≠ '.')
    some (if name = [] then "__VA_ARGS__".toList else name)
  else none

/-- The parameters between the parentheses, behind the ones that have been read, and whether
the last one is variable; `none` at a character that may not stand there. -/
def readMacroArgs : List (List Char) → List Char → List Char → Option (List (List Char) × Bool)
  | args, argname, [] =>
      if argname = [] then some (args, false)
      else
        match macroVarargName argname with
        | some varargname => some (args ++ [varargname], true)
        | none => some (args ++ [argname], false)
  | args, argname, c :: cs =>
      if c = ',' then
        readMacroArgs (if (macroVarargName argname).isSome then args else args ++ [argname]) [] cs
      else if isIdChar c || c = '.' then readMacroArgs args (argname ++ [c]) cs
      else if isSpace c || c = '\\' then readMacroArgs args argname cs
      else none

/-- The states of the search for hashes. -/
inductive HashMode
  | plain
  | slash
  | blockComment
  | blockCommentStar
  | lineComment
  | quoted (quote : Char) (escaped : Bool)
deriving DecidableEq, Repr

/-- State 0 of the search. -/
def hashPlain (c : Char) : Char × HashMode :=
  if c = '#' then ('\x01', .plain)
  else if c = '/' then (c, .slash)
  else if c = '\'' || c = '"' then (c, .quoted c false)
  else (c, .plain)

def hashStep (mode : HashMode) (c : Char) : Char × HashMode :=
  match mode with
  | .plain => hashPlain c
  | .slash =>
      if c = '*' then (c, .blockComment) else if c = '/' then (c, .lineComment) else hashPlain c
  | .blockComment => (c, if c = '*' then .blockCommentStar else .blockComment)
  | .blockCommentStar =>
      (c, if c = '/' then .plain else if c = '*' then .blockCommentStar else .blockComment)
  | .lineComment => (c, if c = '\n' then .plain else .lineComment)
  | .quoted quote escaped =>
      (c, if escaped then .quoted quote false
        else if c = quote then .plain else .quoted quote (c = '\\'))

/-- A `#` outside quotes and comments is marked. -/
def markHashes : HashMode → List Char → List Char
  | _, [] => []
  | mode, c :: cs => (hashStep mode c).1 :: markHashes (hashStep mode c).2 cs

/-- No blanks are left behind a mark. -/
def dropBehindMarks : Bool → List Char → List Char
  | _, [] => []
  | marked, c :: cs =>
      if marked && c = ' ' then dropBehindMarks true cs
      else c :: dropBehindMarks (c = '\x01') cs

/-- No blanks are left around a mark. -/
def dropAroundMarks (s : List Char) : List Char :=
  (dropBehindMarks false (dropBehindMarks false s).reverse).reverse

/-- Two characters become one. -/
def joinMarks (a b r : Char) : List Char → List Char
  | c :: d :: cs => if c = a ∧ d = b then r :: joinMarks a b r cs else c :: joinMarks a b r (d :: cs)
  | s => s

/-- The text that `kpp_value` holds: continued lines are joined outside quotes, and the
operators `#`, `##`, `#@` and `##@` have their marks. -/
def macroValue (swigMacro : Bool) (s : List Char) : List Char :=
  let joined :=
    if swigMacro then s
    else ((Doh.stringReplace s ['\\', '\n'] [' '] { noquote := true }).map Prod.fst).getD s
  joinMarks '\x02' '@' '\x05'
    (joinMarks '\x01' '@' '\x04'
      (joinMarks '\x01' '\x01' '\x02' (dropAroundMarks (markHashes .plain joined))))

/-- `Preprocessor_define` up to the table. -/
def readMacro (swigMacro : Bool) (s : List Char) : Option Macro := do
  let (name, argstr, rest) ← readMacroName [] (s.dropWhile isSpace)
  let rest := if swigMacro then rest else rest.dropWhile isSpace
  match argstr with
  | none => some ⟨name, none, false, macroValue swigMacro rest, swigMacro⟩
  | some argstr =>
      let (args, varargs) ← readMacroArgs [] [] argstr
      some ⟨name, some args, varargs, macroValue swigMacro rest, swigMacro⟩

/-! ## Defining -/

/-- `Preprocessor_define`: the macro that it returns and the table behind it. -/
def preprocessorDefine (symbols : σ) (swigMacro : Bool) (s : List Char) : Option (Macro × σ) := do
  let m ← readMacro swigMacro s
  let symbols ← M.setMacro symbols m
  some (m, symbols)

/-- The text that is tried for a constant: the value of a macro without parameters. -/
def constantValue (m : Macro) : Option (List Char) :=
  if m.args.isSome ∨ m.value = [] then none else some m.value

/-- `%constant`. -/
def constantLine (name v comment : List Char) : List Char :=
  if comment = [] then "%constant ".toList ++ name ++ " = ".toList ++ v ++ ";\n".toList
  else
    "%constant ".toList ++ name ++ " = ".toList ++ v ++ "; /*".toList ++ comment ++ "*/\n".toList

/-- `#define`, in a part of the file that is processed. -/
def defineDirective (symbols : σ) (value comment : List Char) : σ × Option (List Char) :=
  match preprocessorDefine M symbols false value with
  | none => (symbols, none)
  | some (m, symbols) =>
      match constantValue m with
      | none => (symbols, none)
      | some v =>
          let v1 := (replaceWords M symbols false v).1
          (symbols, if M.checkppId v1 then none else some (constantLine m.name v1 comment))

/-- The preprocessor with these macros. -/
def macroWorld : FileWorld σ where
  replace symbols expandDefined s := (replaceWords M symbols expandDefined s).1
  isDefined := M.isMacro
  expr := M.expr
  define := defineDirective M
  undef := M.undef
  includeFile := M.includeFile
  includeDirective := M.includeDirective
  defineMacro symbols value :=
    match preprocessorDefine M symbols true value with
    | none => symbols
    | some (_, symbols) => symbols

end Swig4Ada.Preprocessor
