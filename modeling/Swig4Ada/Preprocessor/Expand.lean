import Swig4Ada.Preprocessor.Define
import Swig4Ada.Preprocessor.FindArgs

/-!
# Expanding macros (`expand_macro` and `Preprocessor_replace` of `cpp.c`)

`Preprocessor_replace` copies a text and hands each macro in it to `expand_macro`, which puts
the arguments into the value of the macro, marks the macro and has the result replaced again.
Both run on fuel; the result `none` is that it was used up. Macros of `%define`, whose
expansion is parsed like a file, are left out, and so are the places of error messages.
-/

namespace Swig4Ada.Preprocessor

/-! ## The table -/

/-- `kpp_symbols` with macros of `#define`, and `Swig_string_mangle`. -/
structure MacroTable where
  macros : List Macro
  defined : ∀ m ∈ macros, ∃ s, readMacro false s = some m
  mangle : List Char → List Char

/-- `Getattr(symbols, id)`. -/
def MacroTable.getattr (symbols : MacroTable) (id : List Char) : Option Macro :=
  symbols.macros.find? fun m => m.name = id

/-- The variables of `cpp.c` that an expansion reads and sets. -/
structure ExpandState where
  /-- `expand_defined_operator` -/
  expandDefined : Bool
  macroLevel : Nat
  macroStartFile : List Char
  macroStartLine : Nat
  /-- The names of the macros with the attribute `kpp_expanded`. -/
  expanded : List (List Char)
  errors : List String
deriving DecidableEq, Repr

def ExpandState.error (st : ExpandState) (text : String) : ExpandState :=
  { st with errors := st.errors ++ [text] }

/-- A text and the variables behind it. -/
abbrev Replacing := List Char → ExpandState → Option (List Char × ExpandState)

/-! ## The arguments -/

/-- The call of a macro that is being expanded. -/
def callText (name : List Char) : Option (List (List Char)) → List Char
  | none => name
  | some [] => name
  | some args => name ++ '(' :: ([','].intercalate args ++ [')'])

/-- The arguments as the parameters take them: those of variable number are one, and a macro
without parameters may be called with nothing. -/
def macroArguments (m : Macro) (margs args : List (List Char)) : List (List Char) :=
  let vi := margs.length - 1
  let args :=
    if m.varargs = true ∧ vi ≤ args.length then
      args.take vi ++ [[','].intercalate (args.drop vi)]
    else args
  if margs = [] ∧ args = [[]] then [] else args

def countError (m : Macro) (name : List Char) (margs : List (List Char)) : String :=
  let isvarargs := if m.varargs = true then 1 else 0
  "Macro '" ++ String.ofList name ++ "' expects " ++
    if 1 + isvarargs < margs.length then toString (margs.length - isvarargs) ++ " arguments\n"
    else if margs.length = 1 + isvarargs then "1 argument\n"
    else "no arguments\n"

/-! ## The value with the arguments in it -/

/-- `Replace`, which looks at no quotes here. -/
def replaced (ns token rep : List Char) (flags : Doh.ReplaceFlags) : List Char :=
  ((Doh.stringReplace ns token rep flags).map Prod.fst).getD ns

def quoted (arg : List Char) : List Char := '"' :: (arg ++ ['"'])

/-- The commas in front of a concatenation become blanks. The text is read backwards. -/
def nukeCommas : List Char → List Char
  | [] => []
  | c :: cs =>
      if isSpace c then c :: nukeCommas cs
      else if c = ',' then ' ' :: nukeCommas cs
      else c :: cs

/-- The search for the name of the last parameter, behind the text `before`. -/
def nukeBefore (aname : List Char) : Nat → List Char → List Char → List Char
  | 0, before, text => before ++ text
  | fuel + 1, before, text =>
      match Doh.strstr aname text with
      | none => before ++ text
      | some i =>
          let before := before ++ text.take i
          let rest := text.drop (i + aname.length)
          let before :=
            if rest.head?.any isIdChar then before
            else
              match before.reverse with
              | '\x02' :: front => (nukeCommas front).reverse ++ ['\x02']
              | _ => before
          nukeBefore aname fuel (before ++ aname) rest

/-- One turn of the loop over the parameters, with the argument and its expansion. -/
def parameterTurn (mangle : List Char → List Char) ( vararg : Bool)
    (ns aname arg reparg : List Char) : List Char :=
  let ns :=
    if '\x01' ∈ ns then replaced ns ('\x01' :: aname) (quoted arg) { idEnd := true } else ns
  let ns :=
    if '\x02' ∈ ns then
      replaced (replaced ns ('\x02' :: aname) ['\x02', '\x03'] { idEnd := true })
        (aname ++ ['\x02']) ['\x03', '\x02'] { idBegin := true }
    else ns
  let ns :=
    if '`' ∈ ns then
      replaced ns ('`' :: (aname ++ ['`'])) (if arg.head? = some '"' then arg else quoted arg) {}
    else ns
  let ns :=
    if '\x04' ∈ ns then replaced ns ('\x04' :: aname) (mangle arg) { idEnd := true } else ns
  let ns :=
    if '\x05' ∈ ns then replaced ns ('\x05' :: aname) (quoted (mangle arg)) { idEnd := true }
    else ns
  let ns := if vararg && arg.isEmpty then nukeBefore aname (ns.length + 1) [] ns else ns
  replaced (replaced ns aname reparg { id := true }) ['\x03'] arg {}

/-- The loop over the parameters; the first list holds those that are left, with their
arguments. -/
def parameterLoop (replace : Replacing) (mangle : List Char → List Char) ( varargs : Bool) :
    List (List Char × List Char) → List Char → ExpandState → Option (List Char × ExpandState)
  | [], ns, st => some (ns, st)
  | (aname, arg) :: rest, ns, st =>
      match replace arg st with
      | none => none
      | some (reparg, st) =>
          parameterLoop replace mangle varargs rest
            (parameterTurn mangle (varargs && rest.isEmpty) ns aname arg reparg) st

/-- The marks that are left are removed, or become what they stand for. -/
def unmarkedValue (ns : List Char) : List Char :=
  replaced (replaced (replaced ns ['\x02'] [] {}) ['\x01'] ['#'] {}) ['\x04'] ['#', '@'] {}

/-- The value of a macro with its arguments in it. -/
def macroBody (replace : Replacing) (mangle : List Char → List Char) (m : Macro)
    (pairs : List (List Char × List Char)) (st : ExpandState) :
    Option (List Char × ExpandState) :=
  (parameterLoop replace mangle m.varargs pairs m.value st).map fun r => (unmarkedValue r.1, r.2)

/-! ## The expansion -/

/-- The value is replaced again, with the macro marked. -/
def rescan (replace : Replacing) (name ns : List Char) (st : ExpandState) :
    Option (List Char × ExpandState) :=
  (replace ns { st with expanded := name :: st.expanded }).map fun r =>
    (r.1, { r.2 with expanded := r.2.expanded.erase name })

/-- `expand_macro`, where the macro is in the table. The first result is the null pointer where
the arguments do not fit. -/
def expandFound (symbols : MacroTable) (replace : Replacing) (m : Macro) (name : List Char)
    (args : Option (List (List Char))) (st : ExpandState) :
    Option (Option (List Char) × ExpandState) :=
  if name ∈ st.expanded then some (some (callText name args), st)
  else
    match m.args, args with
    | none, none => (rescan replace name (unmarkedValue m.value) st).map fun r => (some r.1, r.2)
    | some _, none => some (some name, st)
    | none, some _ => some (none, st.error (countError m name []))
    | some margs, some args =>
        let args := macroArguments m margs args
        if margs.length ≠ args.length then some (none, st.error (countError m name margs))
        else
          (macroBody replace symbols.mangle m (margs.zip args) st).bind fun r =>
            (rescan replace name r.1 r.2).map fun r => (some r.1, r.2)

/-- `expand_macro`; the text in which the macro was found has this file and line. -/
def expandMacro (symbols : MacroTable) (replace : Replacing) (name : List Char)
    (args : Option (List (List Char))) (file : List Char) (line : Nat) (st : ExpandState) :
    Option (Option (List Char) × ExpandState) :=
  match symbols.getattr name with
  | none => some (none, st)
  | some m =>
      let st :=
        if st.macroLevel = 0 then { st with macroStartFile := file, macroStartLine := line } else st
      (expandFound symbols replace m name args
        { st with macroLevel := st.macroLevel + 1 }).map fun r =>
          (r.1, { r.2 with macroLevel := r.2.macroLevel - 1 })

/-! ## Words -/

/-- The line breaks that have been read when a text is left. -/
def linesRead (text rest : List Char) : Nat := text.count '\n' - rest.count '\n'

/-- `__LINE__` -/
def lineWord (line : Nat) (st : ExpandState) : List Char :=
  (toString (if 0 < st.macroLevel then st.macroStartLine else line)).toList

/-- `__FILE__` -/
def fileWord (file : List Char) (st : ExpandState) : List Char :=
  let fn := if 0 < st.macroLevel then st.macroStartFile else file
  quoted (fn.flatMap fun c => if c = '\\' then ['\\', '\\'] else [c])

/-- The operands of `defined`, and the text behind them. -/
def definedOperands (text : List Char) : FoundArgs :=
  let rest := text.dropWhile isSpace
  match rest with
  | [] => ⟨none, text.drop (text.length - 1), none⟩
  | c :: _ =>
      if c = '(' then findArgs false "defined".toList rest
      else if isIdChar c then ⟨some [rest.takeWhile isIdChar], rest.dropWhile isIdChar, none⟩
      else ⟨none, rest, none⟩

/-- The operator `defined`, behind `#if`: what is written, and the text behind it. -/
def definedOperator (symbols : MacroTable) (id text : List Char) (st : ExpandState) :
    List Char × List Char × ExpandState :=
  let found := definedOperands text
  let st := found.error.elim st st.error
  match found.args with
  | none => (id, found.rest, st)
  | some [] => (id, found.rest, st)
  | some args =>
      ([if args.all fun o => (symbols.getattr o).isSome then '1' else '0'], found.rest, st)

/-- What a word becomes that is no macro, with the text behind it. -/
def specialWord (symbols : MacroTable) (id file : List Char) (line : Nat) (text : List Char)
    (st : ExpandState) : Option (List Char × List Char × ExpandState) :=
  if id = "defined".toList then
    if text = [] then some ([], [], st.error "No arguments given to defined()\n")
    else if st.expandDefined = true then some (definedOperator symbols id text st)
    else some (id, text, st)
  else if id = "__LINE__".toList then some (lineWord line st, text, st)
  else if id = "__FILE__".toList then some (fileWord file st, text, st)
  else if hashIf id = true ∧ text ≠ [] then some (id, text, { st with expandDefined := true })
  else if (symbols.getattr id).isNone then some (id, text, st)
  else none

/-- The arguments behind the name of a macro. -/
def callArguments (symbols : MacroTable) (id text : List Char) : FoundArgs :=
  if ((symbols.getattr id).bind Macro.args).isSome then findArgs true id text
  else ⟨none, text, none⟩

/-- What a word becomes, with the text behind it. The line breaks inside of a call are written
behind its expansion. -/
def expandWord (symbols : MacroTable) (replace : Replacing) (id file : List Char) (line : Nat)
    (text : List Char) (st : ExpandState) : Option (List Char × List Char × ExpandState) :=
  match specialWord symbols id file line text st with
  | some r => some r
  | none =>
      let found := callArguments symbols id text
      let st := found.error.elim st st.error
      (expandMacro symbols replace id found.args file line st).map fun r =>
        (r.1.getD [] ++ List.replicate (linesRead text found.rest) '\n', found.rest, r.2)

/-! ## The loop -/

/-- The loop of `Preprocessor_replace`. -/
def preprocessorReplaceLoop (symbols : MacroTable) : Nat → List Char → ReplaceMode → List Char →
    Nat → List Char → ExpandState → Option (List Char × ExpandState)
  | 0, _, _, _, _, _, _ => none
  | fuel + 1, file, mode, id, line, text, st =>
      -- The line of a text inside of an expansion is never looked at.
      let replace (s : List Char) (st : ExpandState) : Option (List Char × ExpandState) :=
        preprocessorReplaceLoop symbols fuel st.macroStartFile .plain [] st.macroStartLine s st
      if wordEnds mode text = true then
        (expandWord symbols replace id file line text st).bind fun r =>
          if text = [] then some (r.1, r.2.2)
          else
            (preprocessorReplaceLoop symbols fuel file .plain [] (line + linesRead text r.2.1)
              r.2.1 r.2.2).map fun rest => (r.1 ++ rest.1, rest.2)
      else
        match text with
        | [] => some ([], st)
        | c :: cs =>
            let (rs, out, again) := replaceStep ⟨mode, st.expandDefined, id⟩ c
            (preprocessorReplaceLoop symbols fuel file rs.mode rs.id
              (if again || c ≠ '\n' then line else line + 1) (if again then c :: cs else cs)
              { st with expandDefined := rs.expandDefined }).map fun rest =>
                (out ++ rest.1, rest.2)

/-- `Preprocessor_replace` -/
def preprocessorReplace (symbols : MacroTable) (fuel : Nat) (file : List Char) (line : Nat)
    (s : List Char) (st : ExpandState) : Option (List Char × ExpandState) :=
  preprocessorReplaceLoop symbols fuel file .plain [] line s st

end Swig4Ada.Preprocessor
