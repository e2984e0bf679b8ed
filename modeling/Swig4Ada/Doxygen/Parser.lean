import Swig4Ada.Doxygen.Tokens

/-!
# Parsing the tokens of a Doxygen comment (`Source/Doxygen/doxyparser.cxx`)

All handlers share one iterator. A position is the list of the tokens from it on, and
`m_tokenList.end()` is the empty list; a function that only moves the iterator is given where
it is and says where it is left. Reading the token at the end, or going on from there, is `none`.

Besides what the parser has, `DoxygenParser` records what is observed of a run: the tokens that the
iterator went past, the calls of `parse` that handlers made, and the blocks.
-/

namespace Swig4Ada.Doxygen

/-! ## The iterator -/

section Iterator

/-- `trim`. -/
def trim (s : List Char) : List Char := ((s.dropWhile isBlank).reverse.dropWhile isBlank).reverse

def isEndOfLine (r : List Token) : Bool := r.head?.any (·.type = .endLine)

def skipWhitespaceTokens (r : List Token) : List Token :=
  r.dropWhile fun t => t.type = .endLine ∨ trim t.string = []

def getNextToken : List Token → List Char × List Token
  | [] => ([], [])
  | t :: ts => if t.type = .plainString then (t.string, ts) else ([], t :: ts)

/-- The loop over a quoted string, with the word so far. -/
def quotedWord (word : List Char) : List Token → List Char × List Token
  | [] => (word, [])
  | t :: ts =>
      if t.type ≠ .plainString then (word, t :: ts)
      else if t.string = [] then (word, ts)
      else if t.string = ['"'] then (word ++ t.string, ts)
      else quotedWord (word ++ t.string) ts

def getNextWord : List Token → List Char × List Token
  | [] => ([], [])
  | t :: ts =>
      if t.type ≠ .plainString then ([], t :: ts)
      else if t.string = ['"'] then quotedWord t.string ts
      else if trim t.string = [] then getNextWord ts
      else (trim t.string, ts)

def getOneLine (r : List Token) : List Token := r.dropWhile (·.type ≠ .endLine)

def skipEndOfLine (r : List Token) : List Token := if isEndOfLine r then r.tail else r

/-- The loop of `getStringTilCommand`, which does not look for the end. -/
def stringTilCommand : List Token → Option (List Char × List Token)
  | [] => none
  | t :: ts =>
      if t.type = .plainString then (stringTilCommand ts).map fun p => (t.string ++ p.1, p.2)
      else some ([], t :: ts)

def getStringTilCommand (r : List Token) : Option (List Char × List Token) :=
  if r = [] then some ([], []) else stringTilCommand r

/-- `getStringTilEndCommand`: the text, and where the end command is. -/
def getStringTilEndCommand (theCommand : List Char) : List Token → List Char × List Token
  | [] => ([], [])
  | t :: ts =>
      match t.type with
      | .plainString => (t.string ++ (getStringTilEndCommand theCommand ts).1,
          (getStringTilEndCommand theCommand ts).2)
      | .endLine => ('\n' :: (getStringTilEndCommand theCommand ts).1,
          (getStringTilEndCommand theCommand ts).2)
      | .command =>
          if t.string = theCommand then ([], t :: ts) else getStringTilEndCommand theCommand ts

def getEndOfParagraph : List Token → List Token
  | [] => []
  | t :: ts =>
      match t.type with
      | .endLine => if isEndOfLine ts then ts.tail else getEndOfParagraph ts
      | .command => if isSectionIndicator t.string then t :: ts else getEndOfParagraph ts
      | .plainString => getEndOfParagraph ts

/-- `getEndOfSection`, which reads the token behind the end of a line. -/
def getEndOfSection (theCommand : List Char) : List Token → Option (List Token)
  | [] => some []
  | t :: ts =>
      match t.type with
      | .command => if theCommand = t.string then some (t :: ts) else getEndOfSection theCommand ts
      | .plainString => getEndOfSection theCommand ts
      | .endLine =>
          if ts = [] then none
          else if isEndOfLine ts then some ts.tail
          else getEndOfSection theCommand ts

/-- A token is the given command. -/
def Token.isCommand (theCommand : List Char) (t : Token) : Bool :=
  t.type = .command ∧ theCommand = t.string

/-- `getEndCommand`, which moves on before it looks. -/
def getEndCommand (theCommand : List Char) : List Token → Option (List Token)
  | [] => some []
  | _ :: ts =>
      match ts.head? with
      | none => none
      | some t => if t.isCommand theCommand then some ts else getEndCommand theCommand ts

/-- The names of the commands that begin and continue a conditional block. -/
def ifCommands : List (List Char) := ["if".toList, "ifnot".toList]

def elseCommands : List (List Char) := ["else".toList, "elseif".toList]

/-- The search for the closing `endif`, or an `else` or `elseif` of the same block; the
second part is `skipEndif`. -/
def findEndif : Nat → List Token → Option (List Token × Bool)
  | _, [] => none
  | nestedCounter, t :: ts =>
      if t.type = .command then
        let nestedCounter :=
          if t.string ∈ ifCommands then nestedCounter + 1
          else if t.string = "endif".toList then nestedCounter - 1
          else nestedCounter
        if nestedCounter = 1 ∧ t.string ∈ elseCommands then some (t :: ts, false)
        else if nestedCounter = 0 then some (t :: ts, true)
        else findEndif nestedCounter ts
      else findEndif nestedCounter ts

end Iterator

/-! ## The state -/

/-- `DoxygenEntity`. -/
inductive DoxygenEntity
  | leaf (typeOfEntity data : List Char)
  | node (typeOfEntity : List Char) (entityList : List DoxygenEntity)

/-- What is there of a text. -/
def DoxygenEntity.string (data : List Char) : DoxygenEntity :=
  .leaf "plainstd::string".toList data

def DoxygenEntity.endl : DoxygenEntity := .leaf "plainstd::endl".toList []

/-- A call of `parse` by a handler: where it began, where it was to end, and where it did. -/
structure Call where
  start : List Token
  stop : List Token
  finish : List Token
deriving DecidableEq, Repr

/-- How the end of a block is looked for: an `endif` or what else ends the branch, the first
end command whatever there is before it, or the end command of a block that is parsed. -/
inductive BlockKind
  | conditional
  | raw (endCommand : List Char)
  | parsed (theCommand endCommand : List Char)
deriving DecidableEq, Repr

/-- A block: what follows its command, and the end command that is taken for its end. -/
structure Block where
  kind : BlockKind
  inside : List Token
  close : Option (List Token)
deriving DecidableEq, Repr

/-- `DoxygenParser`. -/
structure DoxygenParser where
  /-- `m_tokenListIt`. -/
  rest : List Token
  /-- The end commands that have become ignored. -/
  ends : List (List Char)
  warnings : List (List Char)
  /-- The tokens that the iterator went past. -/
  consumed : List Token
  calls : List Call
  blocks : List Block

namespace DoxygenParser

variable (s : DoxygenParser)

/-- The iterator is moved, or set back. -/
def moved (r : List Token) : DoxygenParser :=
  { s with rest := r, consumed := s.consumed ++ s.rest.take (s.rest.length - r.length) }

/-- `m_tokenListIt++`. -/
def advance : Option DoxygenParser :=
  if s.rest = [] then none else some (s.moved s.rest.tail)

/-- `printListError`, without the line. -/
def printListError (message : List Char) : DoxygenParser :=
  { s with warnings := s.warnings ++ [message] }

def withCall (call : Call) : DoxygenParser := { s with calls := s.calls ++ [call] }

def withBlock (b : Block) : DoxygenParser := { s with blocks := s.blocks ++ [b] }

end DoxygenParser

/-- The features of the node: besides which commands are aliases or ignored, the text of an
alias, and the attributes `range` and `contents` of one that is ignored. -/
structure ParserFeatures extends Features where
  aliasText : List Char → List Char
  range : List Char → Option (List Char)
  contents : List Char → Option (List Char)

/-! ## The handlers

A handler is given the list to which it adds; `parse` is the call of `parse` for the tokens up
to an end. -/

/-- The list and the state that a handler leaves. -/
abbrev Handled := Option (List DoxygenEntity × DoxygenParser)

section Handlers

variable (parse : List Token → DoxygenParser → Handled) (theCommand : List Char) (s : DoxygenParser)
  (doxyList : List DoxygenEntity)

def errorText (reason : String) : List Char :=
  "Error parsing Doxygen command ".toList ++ theCommand ++ reason.toList

def expectedText (endCommand : List Char) : List Char :=
  "Expected Doxygen command: ".toList ++ endCommand ++ ['.']

def addSimpleCommand : Handled := some (doxyList ++ [.leaf theCommand []], s)

def addCommandWord : Handled :=
  let atEnd := isEndOfLine s.rest
  let s := if atEnd then s.moved (skipWhitespaceTokens s.rest) else s
  let doxyList := if atEnd then doxyList ++ [.endl] else doxyList
  let word := getNextWord s.rest
  let s := s.moved word.2
  if word.1 ≠ [] then some (doxyList ++ [.node theCommand [.string word.1]], s)
  else
    some (doxyList, s.printListError
      (errorText theCommand ": No word followed the command. Command ignored."))

/-- A word that a command reads: one that it needs, with the text of the error when there is
none; one that it takes when there is one; and one that is taken even when it is empty. -/
inductive Arg
  | needed (reason : String)
  | optional
  | any

/-- The words, or the error, and where the iterator is left. -/
def readArgs : List Arg → List Token → (Except String (List DoxygenEntity)) × List Token
  | [], r => (.ok [], r)
  | arg :: args, r =>
      let word := getNextWord r
      let others := readArgs args word.2
      match arg with
      | .needed reason =>
          if word.1 = [] then (.error reason, word.2)
          else (others.1.map (.string word.1 :: ·), others.2)
      | .optional =>
          (if word.1 = [] then others.1 else others.1.map (.string word.1 :: ·), others.2)
      | .any => (others.1.map (.string word.1 :: ·), others.2)

/-- A command with words and a range behind them. `range` is where the range ends, if there
is one, and with `skip` the end of the line is taken as well. -/
def addRange (args : List Arg) (range : List Token → Option (List Token)) (skip : Bool) :
    Handled :=
  let read := readArgs args s.rest
  let s := s.moved read.2
  match read.1 with
  | .error reason => some (doxyList, s.printListError (errorText theCommand reason))
  | .ok front => do
      let (aNewList, s) ←
        match range s.rest with
        | none => some ([], s)
        | some stop => parse stop s
      let s := if skip then s.moved (skipEndOfLine s.rest) else s
      return (doxyList ++ [.node theCommand (front ++ aNewList)], s)

def noRange (_ : List Token) : Option (List Token) := none

def oneLine (r : List Token) : Option (List Token) := some (getOneLine r)

/-- A line, unless there is none. -/
def someLine (r : List Token) : Option (List Token) :=
  if (getOneLine r).length = r.length then none else some (getOneLine r)

def paragraph (r : List Token) : Option (List Token) := some (getEndOfParagraph r)

def noWord : String := ": No word followed the command. Command ignored."

def addCommandLine : Handled := addRange parse theCommand s doxyList [] oneLine true

def addCommandParagraph : Handled := addRange parse theCommand s doxyList [] paragraph false

def addCommandWordParagraph : Handled :=
  addRange parse theCommand s doxyList [.needed noWord] paragraph false

def addCommandWordLine : Handled :=
  addRange parse theCommand s doxyList [.needed noWord] oneLine false

def addCommandWordOWordOWord : Handled :=
  addRange parse theCommand s doxyList [.needed noWord, .optional, .optional] noRange false

def addCommandOWord : Handled := addRange parse theCommand s doxyList [.any] noRange false

def addCommandEndCommand : Handled := do
  let endCommand ← getEndCommand ("end".toList ++ theCommand) s.rest
  let kind := .parsed theCommand ("end".toList ++ theCommand)
  if endCommand = [] then
    return (doxyList, (s.withBlock ⟨kind, s.rest, none⟩).printListError
      (expectedText ("end".toList ++ theCommand)))
  else
    let (aNewList, s) ← parse endCommand (s.withBlock ⟨kind, s.rest, some endCommand⟩)
    let s ← s.advance
    return (doxyList ++ [.node theCommand aNewList], s)

def addCommandErrorThrow : Handled :=
  some (doxyList, (s.printListError
    (errorText theCommand ": Unexpectedly encountered this command.")).moved (getOneLine s.rest))

def addCommandHtml : Handled :=
  let htmlTagArgs := getNextToken s.rest
  some (doxyList ++ [.leaf theCommand htmlTagArgs.1], s.moved htmlTagArgs.2)

def addCommandHtmlEntity : Handled := some (doxyList ++ [.node theCommand []], s)

/-! ### `addCommandUnique` -/

def addArg : Handled := do
  let endOfSection ← getEndOfSection theCommand s.rest
  let (aNewList, s) ← parse endOfSection s
  return (doxyList ++ [.node theCommand aNewList], s)

/-- The heading is not looked at: the check for it is one of the key again. -/
def addXrefitem : Handled :=
  addRange parse theCommand s doxyList
    [.needed ": No key followed the command. Command ignored.", .any,
      .needed ": No title followed the command. Command ignored."] paragraph false

def addIngroup : Handled :=
  addRange parse theCommand s doxyList [.any, .optional, .optional] noRange false

def addPar : Handled := do
  let (aNewList, s) ← parse (getOneLine s.rest) s
  let (aNewList2, s) ← parse (getEndOfParagraph s.rest) s
  return (doxyList ++ [.node theCommand (aNewList ++ aNewList2)], s)

def addHeaderfile : Handled :=
  addRange parse theCommand s doxyList [.any, .optional] noRange false

def addOverload : Handled := do
  match someLine s.rest with
  | some endOfLine =>
      let (aNewList, s) ← parse endOfLine s
      return (doxyList ++ [.node theCommand aNewList], s)
  | none => return (doxyList ++ [.leaf theCommand []], s)

def addWeakgroup : Handled :=
  addRange parse theCommand s doxyList [.needed noWord] someLine false

/-- The word behind the name is given back, unless it is quoted. -/
def addRef : Handled :=
  let name := getNextWord s.rest
  let s := s.moved name.2
  if name.1 = [] then
    some (doxyList, s.printListError
      (errorText theCommand ": No key followed the command. Command ignored."))
  else
    let refTitle := getNextWord s.rest
    if 1 < refTitle.1.length ∧ refTitle.1.head? = some '"' then
      some (doxyList ++ [.node theCommand
        [.string name.1, .string ((refTitle.1.drop 1).take (refTitle.1.length - 2))]],
        s.moved refTitle.2)
    else some (doxyList ++ [.node theCommand [.string name.1]], s)

def addSubpage : Handled :=
  addRange parse theCommand s doxyList
    [.needed ": No name followed the command. Command ignored.", .optional] noRange false

/-- The table `endCommands`, and the name of the others. -/
def endOfVerbatim : List Char :=
  if theCommand = "f[".toList then "f]".toList
  else if theCommand = "f\x7b".toList then "f\x7d".toList
  else if theCommand = "f$".toList then "f$".toList
  else "end".toList ++ theCommand

def addVerbatim : Handled :=
  let endCommand := endOfVerbatim theCommand
  let content := getStringTilEndCommand endCommand s.rest
  let doxyList := doxyList ++ [.node theCommand [.string content.1]]
  let kind := .raw endCommand
  if content.2 = [] then
    let unclosed := (s.withBlock ⟨kind, s.rest, none⟩).moved []
    some (doxyList,
      if s.rest = [] then unclosed else unclosed.printListError (expectedText endCommand))
  else some (doxyList, (s.withBlock ⟨kind, s.rest, some content.2⟩).moved content.2.tail)

def addDotfile : Handled :=
  addRange parse theCommand s doxyList
    [.needed ": No file followed the command. Command ignored.", .optional] noRange false

def addImage : Handled :=
  addRange parse theCommand s doxyList
    [.needed ": No format followed the command. Command ignored.",
      .needed ": No name followed the command. Command ignored.", .optional, .optional]
    noRange false

def addAddtogroup : Handled :=
  addRange parse theCommand s doxyList
    [.needed
      ": There should be at least one word following the command. Command ignored."]
    someLine true

def addIf (needsCond : Bool) : Handled :=
  let cond := if needsCond then getNextWord s.rest else ([], s.rest)
  let s := s.moved cond.2
  if needsCond ∧ cond.1 = [] then
    some (doxyList, s.printListError (errorText theCommand noWord))
  else
    match findEndif 1 s.rest with
    | none =>
        some (doxyList, (s.withBlock ⟨.conditional, s.rest, none⟩).printListError
          (expectedText "endif".toList))
    | some (endCommand, skipEndif) => do
        let (aNewList, s) ← parse endCommand (s.withBlock ⟨.conditional, s.rest, some endCommand⟩)
        let s ← if skipEndif then s.advance else some s
        return (doxyList ++ [.node theCommand
          ((if needsCond then [.string cond.1] else []) ++ aNewList)], s)

def verbatimNames : List (List Char) :=
  ["code".toList, "verbatim".toList, "dot".toList, "msc".toList, "f[".toList, "f\x7b".toList,
    "f$".toList]

def addCommandUnique : Handled :=
  if theCommand = "arg".toList ∨ theCommand = "li".toList then
    addArg parse theCommand s doxyList
  else if theCommand = "xrefitem".toList then addXrefitem parse theCommand s doxyList
  else if theCommand = "ingroup".toList then addIngroup parse theCommand s doxyList
  else if theCommand = "par".toList then addPar parse theCommand s doxyList
  else if theCommand = "headerfile".toList then addHeaderfile parse theCommand s doxyList
  else if theCommand = "overload".toList then addOverload parse theCommand s doxyList
  else if theCommand = "weakgroup".toList then addWeakgroup parse theCommand s doxyList
  else if theCommand = "ref".toList then addRef theCommand s doxyList
  else if theCommand = "subpage".toList then addSubpage parse theCommand s doxyList
  else if theCommand ∈ verbatimNames then addVerbatim theCommand s doxyList
  else if theCommand = "dotfile".toList ∨ theCommand = "mscfile".toList then
    addDotfile parse theCommand s doxyList
  else if theCommand = "image".toList then addImage parse theCommand s doxyList
  else if theCommand = "addtogroup".toList then addAddtogroup parse theCommand s doxyList
  else if theCommand = "if".toList ∨ theCommand = "ifnot".toList ∨ theCommand = "elseif".toList then
    addIf parse theCommand s doxyList true
  else if theCommand = "else".toList then addIf parse theCommand s doxyList false
  else some (doxyList, s)

/-! ### The others -/

variable (features : ParserFeatures)

def aliasCommand : Handled := some (doxyList ++ [.string (features.aliasText theCommand)], s)

/-- A text of blanks before a command that is ignored. -/
def DoxygenEntity.isBlankText : DoxygenEntity → Bool
  | .leaf typeOfEntity data =>
      decide (typeOfEntity = "plainstd::string".toList) && data.all isBlank
  | .node _ _ => false

def ignoreCommand : Handled :=
  let endCommand := features.endCommand theCommand
  if endCommand ≠ [] then do
    let itEnd ← getEndCommand endCommand s.rest
    let kind := .parsed theCommand endCommand
    if itEnd = [] then
      return (doxyList, (s.withBlock ⟨kind, s.rest, none⟩).printListError (expectedText endCommand))
    else
      let doxyList :=
        if doxyList.getLast?.any DoxygenEntity.isBlankText then doxyList.dropLast else doxyList
      let block : Block := ⟨kind, s.rest, some itEnd⟩
      match features.contents theCommand with
      | none => return (doxyList, (s.withBlock block).moved itEnd.tail)
      | some contents =>
          if contents = "parse".toList then
            let (aNewList, s) ← parse itEnd (s.withBlock block)
            return (doxyList ++ aNewList, (s.moved itEnd).moved itEnd.tail)
          else
            return (doxyList, s.printListError ("Invalid \"doxygen:ignore\" feature ".toList ++
              "\"contents\" attribute \"".toList ++ contents ++ "\".".toList))
  else
    match features.range theCommand with
    | none => some (doxyList, s)
    | some range =>
        if range = "line".toList then some (doxyList, s.moved (skipEndOfLine (getOneLine s.rest)))
        else some (doxyList, s.printListError ("Invalid \"doxygen:ignore\" feature ".toList ++
          "\"range\" attribute \"".toList ++ range ++ "\".".toList))

/-- `addCommand`. -/
def addCommand (commandString : List Char) : Handled :=
  let theCommand := stringToLower commandString
  if theCommand = "plainstd::string".toList then
    (getStringTilCommand s.rest).map fun nextPhrase =>
      (doxyList ++ [.string nextPhrase.1], s.moved nextPhrase.2)
  else
    let kind := commandBelongs features.toFeatures s.ends commandString
    let s := { s with ends := kind.2 }
    match kind.1 with
    | .simpleCommand => addSimpleCommand theCommand s doxyList
    | .commandWord => addCommandWord theCommand s doxyList
    | .commandLine => addCommandLine parse theCommand s doxyList
    | .commandParagraph => addCommandParagraph parse theCommand s doxyList
    | .commandEndCommand => addCommandEndCommand parse theCommand s doxyList
    | .commandWordParagraph => addCommandWordParagraph parse theCommand s doxyList
    | .commandWordLine => addCommandWordLine parse theCommand s doxyList
    | .commandWordOWordWord => addCommandWordOWordOWord parse theCommand s doxyList
    | .commandOWord => addCommandOWord parse theCommand s doxyList
    | .commandErrorThrow => addCommandErrorThrow theCommand s doxyList
    | .commandUnique => addCommandUnique parse theCommand s doxyList
    | .commandHtml => addCommandHtml theCommand s doxyList
    | .commandHtmlEntity => addCommandHtmlEntity theCommand s doxyList
    | .commandAlias => aliasCommand commandString s doxyList features
    | .commandIgnore => ignoreCommand parse commandString s doxyList features
    | .none => some (doxyList, s)

end Handlers

/-! ## `parse` -/

/-- The name under which a text is added. -/
def plainstringCommandType (root : Bool) : List Char :=
  if root then "partofdescription".toList else "plainstd::string".toList

/-- The call of `parse` by a handler, with the record of it. -/
def nestedParse (parse : List Token → DoxygenParser → Handled) (stop : List Token)
    (s : DoxygenParser) : Handled :=
  (parse stop s).map fun r => (r.1, r.2.withCall ⟨s.rest, stop, r.2.rest⟩)

/-- `parse`, with the list so far. A turn takes a token at least, or it calls a handler that
parses a paragraph from the same place. -/
def parse (features : ParserFeatures) :
    Nat → Bool → List DoxygenEntity → List Token → DoxygenParser → Handled
  | 0, _, _, _, _ => none
  | fuel + 1, root, aNewList, stop, s =>
      if s.rest.length = stop.length then some (aNewList, s)
      else do
        let (aNewList, s) ←
          match s.rest with
          | [] => none
          | t :: ts =>
              let nested := nestedParse (parse features fuel false [])
              match t.type with
              | .endLine => some (aNewList ++ [.endl], s.moved ts)
              | .command => addCommand nested (s.moved ts) aNewList features t.string
              | .plainString =>
                  addCommand nested s aNewList features (plainstringCommandType root)
        if stop ≠ [] ∧ s.rest = [] then
          return (aNewList, s.printListError
            "Unexpected end of Doxygen comment encountered.".toList)
        else parse features fuel root aNewList stop s

end Swig4Ada.Doxygen
