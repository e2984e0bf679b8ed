import Swig4Ada.Doxygen.Commands

/-!
# Tokens of a Doxygen comment (`Source/Doxygen/doxyparser.cxx`)

`tokenizeDoxygenComment` cuts each line of a comment into words, white space and commands. A
position in a line is what there is of the line from it on, and `npos` is `none`; the routines
for special characters are given what follows the character. An exception is `none` as well:
`substr` at `npos` behind a tag that the line ends in.
-/

namespace Swig4Ada.Doxygen

open Swig4Ada.Doh (isAlnum)

inductive TokenType
  | endLine
  | plainString
  | command
deriving DecidableEq, Repr

structure Token where
  type : TokenType
  string : List Char
deriving DecidableEq, Repr

structure Tokenizer where
  tokens : List Token
  isVerbatimText : Bool
  isInQuotedString : Bool
  /-- The end commands that have become ignored. -/
  ends : List (List Char)
deriving DecidableEq, Repr

/-- `DOXYGEN_WORD_CHARS`. -/
def isWordChar (c : Char) : Bool := isAlnum c || decide (c ∈ ['$', '[', ']', '\x7b', '\x7d'])

def isBlank (c : Char) : Bool := decide (c = ' ' ∨ c = '\t')

def isLetter (c : Char) : Bool := 'a' ≤ c ∧ c ≤ 'z'

/-- The characters at which a word ends. -/
def isSpecial (c : Char) : Bool := decide (c ∈ ['\\', '@', '<', '>', '&', '"', ' ', '\t'])

/-- The characters at which the name of a tag ends. -/
def endsTag (c : Char) : Bool := decide (c ∈ ['\t', ' ', '>'])

/-- The next position with a character for which `p` holds, or `npos`. -/
def findFirst (p : Char → Bool) (t : List Char) : Option (List Char) :=
  match t.dropWhile fun c => !p c with
  | [] => none
  | r => some r

/-- What there is before that position. -/
def upTo (p : Char → Bool) (t : List Char) : List Char := t.takeWhile fun c => !p c

section Special

variable (features : Features)

def Tokenizer.push (st : Tokenizer) (type : TokenType) (string : List Char) : Tokenizer :=
  { st with tokens := st.tokens ++ [⟨type, string⟩] }

/-- `addDoxyCommand`: whether the command is known. -/
def addDoxyCommand (st : Tokenizer) (cmd : List Char) : Bool × Tokenizer :=
  let kind := commandBelongs features st.ends cmd
  let st := { st with ends := kind.2 }
  if kind.1 ≠ .none then (true, st.push .command cmd) else (false, st)

/-- The commands behind which the text is verbatim. -/
def verbatimCommands : List (List Char) :=
  ["htmlonly".toList, "verbatim".toList, "f$".toList, "f\x7b".toList, "f[".toList]

def endVerbatimCommands : List (List Char) :=
  ["endhtmlonly".toList, "endverbatim".toList, "f$".toList, "f\x7d".toList, "f]".toList]

/-- `processVerbatimText`, at the character `c`. -/
def processVerbatimText (st : Tokenizer) (c : Char) (t : List Char) :
    Tokenizer × Option (List Char) :=
  if c = '\\' ∨ c = '@' then
    let cmd := upTo (fun c => !isWordChar c) t
    let st :=
      if cmd ∈ endVerbatimCommands then
        (addDoxyCommand features { st with isVerbatimText := false } cmd).2
      else st.push .plainString (c :: cmd)
    (st, findFirst (fun c => !isWordChar c) t)
  else
    let isSign := fun c => decide (c = '\\' ∨ c = '@')
    (st.push .plainString (upTo isSign (c :: t)), findFirst isSign (c :: t))

/-- `processEscapedChars`, behind the sign `c`. -/
def processEscapedChars (st : Tokenizer) (c : Char) (t : List Char) :
    Option (Tokenizer × Option (List Char)) :=
  match t with
  | [] => none
  | d :: u =>
      if d ∈ [' ', '\'', '\t', '\n'] then some (st.push .plainString [c], some t)
      else if d ∈ ['$', '@', '\\', '&', '~', '<', '>', '#', '%', '"', '.'] then
        some ((addDoxyCommand features st [d]).2, some u)
      else if d = ':' ∧ u.head? = some ':' then
        some ((addDoxyCommand features st [':', ':']).2, some u.tail)
      else none

/-- `processWordCommands`. -/
def processWordCommands (st : Tokenizer) (t : List Char) : Tokenizer × Option (List Char) :=
  let endOfWord := findFirst (fun c => !isWordChar c) t
  let cmd := upTo (fun c => !isWordChar c) t
  let st := (addDoxyCommand features st cmd).2
  if cmd ∈ verbatimCommands then ({ st with isVerbatimText := true }, endOfWord)
  else (st, endOfWord.bind (findFirst fun c => !isBlank c))

/-- `processHtmlTags`. -/
def processHtmlTags (st : Tokenizer) (t : List Char) : Option (Tokenizer × Option (List Char)) :=
  let isEndHtmlTag := decide (t.head? = some '/')
  let t := if isEndHtmlTag then t.tail else t
  let cmd := upTo endsTag t
  let pos := findFirst endsTag t
  let (known, st) := if cmd = [] then (false, st) else addDoxyCommand features st ('<' :: cmd)
  if known then
    match pos with
    | none => none
    | some r =>
        if r.head? ≠ some '>' then
          let isClosing := fun c => decide (c = '>')
          some (st.push .plainString (upTo isClosing r), (findFirst isClosing r).map List.tail)
        else some (st.push .plainString (if isEndHtmlTag then ['/'] else []), some r.tail)
  else
    some ((addDoxyCommand features st "&lt".toList).2.push .plainString cmd, pos)

/-- `processHtmlEntities`. -/
def processHtmlEntities (st : Tokenizer) (t : List Char) : Tokenizer × Option (List Char) :=
  let letters := upTo (fun c => !isLetter c) t
  match findFirst (fun c => !isLetter c) t with
  | none => (st, none)
  | some r =>
      if r.head? = some ';' ∧ letters ≠ [] then
        ((addDoxyCommand features st ('&' :: letters)).2, some r.tail)
      else ((addDoxyCommand features st "&amp".toList).2.push .plainString letters, some r)

/-- `processNormalComment`, at the character `c`. -/
def processNormalComment (st : Tokenizer) (c : Char) (t : List Char) :
    Option (Tokenizer × Option (List Char)) :=
  if c = '\\' ∨ c = '@' then
    match processEscapedChars features st c t with
    | some r => some r
    | none => some (processWordCommands features st t)
  else if c = ' ' ∨ c = '\t' then
    let isNext := fun c => !isBlank c
    some (st.push .plainString (c :: upTo isNext t), findFirst isNext t)
  else if c = '<' then processHtmlTags features st t
  else if c = '>' then some ((addDoxyCommand features st "&gt".toList).2, some t)
  else if c = '&' then some (processHtmlEntities features st t)
  else if c = '"' then
    some ({ st with isInQuotedString := true }.push .plainString ['"'], some t)
  else some (st, some (c :: t))

/-! ## Lines -/

/-- A word, with a punctuation mark at its end as a word of its own. -/
def pushWord (st : Tokenizer) (text : List Char) : Tokenizer :=
  let text' := text.dropLast
  if text.getLast?.any (fun c => decide (c ∈ ['.', ',', ':'])) ∧
      ¬ (text'.getLast? = some '.') then
    (st.push .plainString text').push .plainString text.getLast?.toList
  else st.push .plainString text

/-- What is done at the character `c`. -/
def processSpecial (st : Tokenizer) (c : Char) (t : List Char) :
    Option (Tokenizer × Option (List Char)) :=
  if st.isVerbatimText then some (processVerbatimText features st c t)
  else if st.isInQuotedString then
    let st := if c = '"' then { st with isInQuotedString := false } else st
    some (st.push .plainString [c], some t)
  else processNormalComment features st c t

/-- The loop over the words of a line. A turn goes past a character, or to `npos`. -/
def tokenizeWords : Nat → Tokenizer → Option (List Char) → Option Tokenizer
  | _, st, none => some st
  | 0, st, some _ => some st
  | fuel + 1, st, some t =>
      let st := if t.head?.any isSpecial then st else pushWord st (upTo isSpecial t)
      match findFirst isSpecial t with
      | some (c :: t) =>
          (processSpecial features st c t).bind fun r => tokenizeWords fuel r.1 r.2
      | _ => some st

def isStartOfDoxyCommentChar (c : Char) : Bool := decide (c ∈ ['*', '/', '!'])

/-- The words of a line from the first one on, and the end of the line. -/
def tokenizeFrom (st : Tokenizer) (t : List Char) : Option Tokenizer :=
  (tokenizeWords features (t.length + 1) st (some t)).map (·.push .endLine ['\n'])

/-- The turn of `tokenizeDoxygenComment` for a line. -/
def tokenizeLine (st : Tokenizer) (line : List Char) : Option Tokenizer :=
  let isWord := fun c => !isBlank c
  match findFirst isWord line with
  | none => some (st.push .endLine ['\n'])
  | some t =>
      match findFirst (fun c => !isStartOfDoxyCommentChar c) t with
      | none => some (st.push .endLine ['\n'])
      | some u =>
          if u.length = t.length then
            tokenizeFrom features (st.push .plainString (upTo isWord line)) u
          else
            let u := if u.head? = some ' ' then u.tail else u
            match findFirst isWord u with
            | none => some (st.push .endLine ['\n'])
            | some w =>
                let blanks := upTo isWord u
                tokenizeFrom features (if blanks = [] then st else st.push .plainString blanks) w

/-- `tokenizeDoxygenComment`. A last line of blanks, before the end of the comment, is left
out. -/
def tokenizeDoxygenComment (doxygenComment : List Char) : Option Tokenizer :=
  let lines := doxygenComment.splitOn '\n'
  let lines :=
    if doxygenComment.getLast? = some ' ' ∧ lines.getLast?.any (·.all isBlank) then lines.dropLast
    else lines
  lines.foldlM (tokenizeLine features) ⟨[], false, false, []⟩

end Special

end Swig4Ada.Doxygen
