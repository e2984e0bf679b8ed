import Swig4Ada.Doh.Replace
import Swig4Ada.Preprocessor.Parse

/-!
# Strings in the scanner (`Source/Swig/scanner.c`)

`look` is a state machine over the characters that `nextchar` reads from a stack of
texts. Every character read is also put at the end of the text of the token, and
`retract` takes characters back from both, with the line number. The states here are
those that a string constant goes through, with and without a prefix for its encoding
and with and without a delimiter of its own; where the machine leaves them for another
kind of token the model ends with the number of the state. The end of all texts is
read as a null character.
-/

namespace Swig4Ada.Swig

open Swig4Ada.Doh (isDigit)
open Swig4Ada.Preprocessor (isSpace)

/-- A text that is scanned: what has been read of it, backwards, what has not, and its
line number when it becomes the one that is read. -/
structure Source where
  before : List Char
  after : List Char
  line : Int
deriving DecidableEq, Repr

/-- `Seek(s->str, -n, SEEK_CUR)`. -/
def Source.back (src : Source) (n : Nat) : Source :=
  { src with
    before := src.before.drop n
    after := (src.before.take n).reverse ++ src.after }

structure Scanner where
  /-- The current token value. -/
  text : List Char
  /-- The current text, if there is one left. -/
  str : Option Source
  /-- The texts below the current one. -/
  scanobjs : List Source
  line : Int
  startLine : Int
  freezeLine : Bool
deriving DecidableEq, Repr

namespace Scanner

/-- The lines that a text adds to the line number. -/
def ticks (s : Scanner) (cs : List Char) : Int :=
  if s.freezeLine then 0 else cs.count '\n'

/-- The next character of a text, or of those below it when it is at its end. -/
def nextcharOf : List Source → Scanner → Source → Char × Scanner
  | objs, s, ⟨before, c :: after, line⟩ =>
      (c, { s with
        text := s.text ++ [c]
        str := some ⟨c :: before, after, line⟩
        scanobjs := objs
        line := s.line + s.ticks [c] })
  | [], s, ⟨_, [], _⟩ => ('\x00', { s with str := none, scanobjs := [] })
  | next :: objs, s, ⟨_, [], _⟩ => nextcharOf objs { s with line := next.line } next

def nextchar (s : Scanner) : Char × Scanner :=
  match s.str with
  | none => ('\x00', s)
  | some src => nextcharOf s.scanobjs s src

/-- The line number is looked after with the character at the end of the text as it was
at first: from the second turn on there is only a null character there. -/
def retract (s : Scanner) (n : Nat) : Option Scanner :=
  if n ≤ s.text.length then
    some { s with
      line := if n = 0 then s.line else s.line - s.ticks s.text.getLast?.toList
      str := s.str.map (·.back n)
      text := s.text.take (s.text.length - n) }
  else none

/-- `Delitem(s->text, DOH_END)`. -/
def delEnd (s : Scanner) : Scanner := { s with text := s.text.dropLast }

/-- `Append(s->text, cs)`. -/
def append (s : Scanner) (cs : List Char) : Scanner := { s with text := s.text ++ cs }

def clearText (s : Scanner) : Scanner := { s with text := [] }

/-- A constant begins: its line is kept, and its text is cleared. -/
def startConstant (s : Scanner) : Scanner := { s with startLine := s.line, text := [] }

end Scanner

/-! ## Escapes -/

/-- The characters that stand for an escape of one letter. -/
def simpleEscape (c : Char) : Option (List Char) :=
  if c = 'n' then some ['\n']
  else if c = 'r' then some ['\r']
  else if c = 't' then some ['\t']
  else if c = 'a' then some ['\x07']
  else if c = 'b' then some ['\x08']
  else if c = 'f' then some ['\x0c']
  else if c = '\\' then some ['\\']
  else if c = 'v' then some ['\x0b']
  else if c = 'e' then some ['\x1b']
  else if c = '\'' then some ['\'']
  else if c = '"' then some ['"']
  else if c = '\n' then some []
  else none

/-- `isxdigit`. -/
def isHexDigit (c : Char) : Bool := isDigit c || ('a' ≤ c.toLower ∧ c.toLower ≤ 'f')

/-- `(char)result`. -/
def charOf (result : Nat) : Char := Char.ofNat (result % 256)

/-- The states 10 and 20 of `get_escape`, with the number so far. -/
def getNumber (hex : Bool) : Nat → Nat → Scanner → Option Scanner
  | 0, _, _ => none
  | fuel + 1, result, s =>
      let (c, s) := s.nextchar
      if c = '\x00' then some s
      else if !(if hex then isHexDigit c else isDigit c) then
        (s.retract 1).map (·.append [charOf result])
      else
        let digit := if isDigit c then c.toNat - 48 else 10 + c.toLower.toNat - 97
        getNumber hex fuel ((if hex then 16 else 8) * result + digit) s.delEnd

/-- `get_escape`. -/
def getEscape (fuel : Nat) (s : Scanner) : Option Scanner :=
  let (c, s) := s.nextchar
  if c = '\x00' then some s
  else
    match simpleEscape c with
    | some cs => some (s.delEnd.append cs)
    | none =>
        if isDigit c then getNumber false fuel (c.toNat - 48) s.delEnd
        else if c = 'x' then getNumber true fuel 0 s.delEnd
        else some (s.delEnd.append ['\\', c])

/-! ## The machine -/

inductive Token
  /-- 0, at the end of all texts. -/
  | endOfInput
  | endline
  | string
  /-- `SWIG_TOKEN_ERROR`, for a string or for a raw string with its delimiter. -/
  | unterminatedString
  | unterminatedRawString (delimiter : List Char)
  /-- Another kind of token, for which the machine goes to this state. -/
  | elsewhere (state : Nat)
deriving DecidableEq, Repr

/-- The values of `state`. -/
inductive LookState
  /-- 0 -/
  | start
  /-- 1000 -/
  | first
  /-- 7: behind a letter. -/
  | letter
  /-- 71: behind `u8`. -/
  | letterEight
  /-- 72, 73 and 74: behind an `R`, with the number of characters to retract. -/
  | rawMark (back : Nat)
  /-- 2 -/
  | string
  /-- 20 -/
  | inString
deriving DecidableEq, Repr

/-- The variables of `look`. -/
structure Look where
  state : LookState
  c : Char
  strDelimiter : Option (List Char)
  scanner : Scanner
deriving DecidableEq, Repr

/-- `while ((c = nextchar(s)) != 0 && c!='\"')`, with `end_delimiter` so far: the last
character, what was read before it, and the scanner. -/
def readEndDelimiter : Nat → List Char → Scanner → Option (Char × List Char × Scanner)
  | 0, _, _ => none
  | fuel + 1, endDelimiter, s =>
      let (c, s) := s.nextchar
      if c ≠ '\x00' ∧ c ≠ '"' then readEndDelimiter fuel (endDelimiter ++ [c]) s
      else some (c, endDelimiter, s)

/-- State 20 behind a closing parenthesis, for a string with a delimiter of its own. -/
def closeRaw (fuel : Nat) (v : Look) (delimiter : List Char) (s : Scanner) :
    Option (Look ⊕ Token × Scanner) := do
  let (c, endDelimiter, s) ← readEndDelimiter fuel [] s
  if endDelimiter = delimiter then
    let text := s.text.take (s.text.length - 2 - delimiter.length)
    return .inr (.string, { s with text := text.drop (delimiter.length + 1) })
  else if c = '\x00' then return .inr (.unterminatedRawString delimiter, s)
  else
    let s ← s.retract endDelimiter.length
    return .inl { v with c := c, scanner := s }

/-- State 20. -/
def lookInString (fuel : Nat) (v : Look) : Option (Look ⊕ Token × Scanner) :=
  let (c, s) := v.scanner.nextchar
  if c = '\x00' then some (.inr (.unterminatedString, s))
  else
    match v.strDelimiter with
    | none =>
        if c = '"' then some (.inr (.string, s.delEnd))
        else if c = '\\' then
          (getEscape fuel s.delEnd).map fun s => .inl { v with c := c, scanner := s }
        else some (.inl { v with c := c, scanner := s })
    | some delimiter =>
        if c = ')' then closeRaw fuel { v with c := c } delimiter s
        else some (.inl { v with c := c, scanner := s })

/-- State 1000. The one additional character to start an identifier that is in use is a
percent sign, which is tested for before. -/
def lookFirst (v : Look) : Look ⊕ Token × Scanner :=
  let (c, s) := v.scanner.nextchar
  if c = '\x00' then .inr (.endOfInput, s)
  else if c.isAlpha ∨ c = '_' then .inl { v with state := .letter, c := c, scanner := s }
  else if c = '"' then .inl { v with state := .string, c := c, scanner := s.startConstant }
  else .inr (.elsewhere 1000, s)

/-- State 7. -/
def lookLetter (v : Look) : Option (Look ⊕ Token × Scanner) :=
  if v.c = 'R' then some (.inl { v with state := .rawMark 1 })
  else if v.c = 'L' then some (.inr (.elsewhere 77, v.scanner))
  else if v.c ≠ 'u' ∧ v.c ≠ 'U' then some (.inr (.elsewhere 70, v.scanner))
  else
    let (c, s) := v.scanner.nextchar
    if c = '\x00' then some (.inr (.elsewhere 76, s))
    else if c = '"' then
      (s.retract 1).map fun s => .inl { v with state := .first, c := c, scanner := s }
    else if c = '\'' then (s.retract 1).map fun s => .inr (.elsewhere 77, s)
    else if c = 'R' then some (.inl { v with state := .rawMark 2, c := c, scanner := s })
    else if c = '8' then some (.inl { v with state := .letterEight, c := c, scanner := s })
    else (s.retract 1).map fun s => .inr (.elsewhere 70, s)

/-- State 71. -/
def lookEight (v : Look) : Option (Look ⊕ Token × Scanner) :=
  let (c, s) := v.scanner.nextchar
  if c = '\x00' then some (.inr (.elsewhere 76, s))
  else if c = '"' then
    (s.retract 1).map fun s => .inl { v with state := .first, c := c, scanner := s }
  else if c = '\'' then (s.retract 1).map fun s => .inr (.elsewhere 77, s)
  else if c = 'R' then some (.inl { v with state := .rawMark 3, c := c, scanner := s })
  else (s.retract 2).map fun s => .inr (.elsewhere 70, s)

/-- States 72, 73 and 74. -/
def lookRawMark (v : Look) (back : Nat) : Option (Look ⊕ Token × Scanner) :=
  let (c, s) := v.scanner.nextchar
  if c = '\x00' then some (.inr (.elsewhere 76, s))
  else if c = '"' then
    (s.retract 1).map fun s => .inl ⟨.first, c, some [], s⟩
  else (s.retract back).map fun s => .inr (.elsewhere 70, s)

/-- State 2. -/
def lookString (v : Look) : Look ⊕ Token × Scanner :=
  match v.strDelimiter with
  | none => .inl { v with state := .inString }
  | some delimiter =>
      let (c, s) := v.scanner.nextchar
      if c = '\x00' then .inr (.unterminatedString, s)
      else if c = '(' then .inl { v with state := .inString, c := c, scanner := s }
      else .inl { v with c := c, strDelimiter := some (delimiter ++ [c]), scanner := s }

/-- State 0. -/
def lookStart (v : Look) : Option (Look ⊕ Token × Scanner) :=
  let (c, s) := v.scanner.nextchar
  if c = '\x00' then some (.inr (.endOfInput, s))
  else if c = '\n' then some (.inr (.endline, s))
  else if !isSpace c then
    (s.retract 1).map fun s => .inl { v with state := .first, c := c, scanner := s.clearText }
  else some (.inl { v with c := c, scanner := s })

/-- One turn of the loop: it goes on, or ends with a token. -/
def lookStep (fuel : Nat) (v : Look) : Option (Look ⊕ Token × Scanner) :=
  match v.state with
  | .start => lookStart v
  | .first => some (lookFirst v)
  | .letter => lookLetter v
  | .letterEight => lookEight v
  | .rawMark back => lookRawMark v back
  | .string => some (lookString v)
  | .inString => lookInString fuel v

def lookLoop : Nat → Look → Option (Token × Scanner)
  | 0, _ => none
  | fuel + 1, v => do
      match ← lookStep fuel v with
      | .inl v => lookLoop fuel v
      | .inr result => return result

/-- `look`. -/
def look (fuel : Nat) (s : Scanner) : Option (Token × Scanner) :=
  lookLoop fuel ⟨.start, '\x00', none, s.startConstant⟩

/-- `look` ends with a token. -/
def Looks (s : Scanner) (token : Token) (s' : Scanner) : Prop :=
  ∃ steps, ∀ fuel ≥ steps, look fuel s = some (token, s')

/-! ## Raw string literals -/

/-- `R"d(content)d"`. -/
def rawLiteral (d content : List Char) : List Char :=
  ['R', '"'] ++ d ++ ['('] ++ content ++ [')'] ++ d ++ ['"']

/-- The scanner is at the beginning of a text. -/
def Scanner.At (s : Scanner) (src : Source) (t : List Char) : Prop :=
  s.str = some src ∧ src.after = t

/-- A literal is scanned as one string with that content, up to its end, and the line
number goes on by the lines of the content. -/
def ScansRaw (s : Scanner) (src : Source) (d content rest : List Char) : Prop :=
  ∃ s', Looks s .string s' ∧ s'.text = content ∧
    s'.str = some ⟨(rawLiteral d content).reverse ++ src.before, rest, src.line⟩ ∧
    s'.scanobjs = s.scanobjs ∧ s'.line = s.line + content.count '\n'

/-- No null character ends the literal early, the closing parentheses at the end of the
content are even in number, and no line ends where characters are read again: between
the second character behind a closing parenthesis and the next quote. The delimiter is
on one line, and when the line number is held fast so is the content. -/
structure RetractsWell (s : Scanner) (d content : List Char) : Prop where
  no_null : '\x00' ∉ d ∧ '\x00' ∉ content
  parentheses : Even (content.reverse.takeWhile (· = ')')).length
  frozen : s.freezeLine = true → '\n' ∉ content
  lines : s.freezeLine = false → '\n' ∉ d ∧
    ∀ before after, content = before ++ ')' :: after →
      '\n' ∉ (after.takeWhile (· ≠ '"')).tail

end Swig4Ada.Swig
