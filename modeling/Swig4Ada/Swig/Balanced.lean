import Swig4Ada.Lib.CText
import Swig4Ada.Preprocessor.Expr
import Swig4Ada.Swig.Scanner

/-!
# Code in brackets (`Source/Swig/scanner.c`)

`Scanner_skip_balanced` reads behind an opening bracket up to the one that closes it, and
`Scanner_get_raw_text_balanced` does so and then goes back. Each has its own copy of one
machine, in which the first knows besides the comments in which the preprocessor says where
a text comes from. Of such a place the model keeps the line; file names are read nowhere.
-/

namespace Swig4Ada.Swig

open Swig4Ada.Lib
open Swig4Ada.Preprocessor (isSpace strtolDigits)

/-! ## Locators -/

/-- `follow_locators`, the static variables of `Scanner_locator`, and `cparse_line`. -/
structure Locators where
  followLocators : Bool
  expandingMacro : Nat
  locs : List Int
  cparseLine : Int
deriving DecidableEq, Repr

def atoi (text : List Char) : Int :=
  match text.dropWhile isSpace with
  | '-' :: digits => -(strtolDigits 10 0 digits : Int)
  | '+' :: digits => strtolDigits 10 0 digits
  | digits => strtolDigits 10 0 digits

def endLocator : List Char := ['/', '*', '@', 'S', 'W', 'I', 'G', '@', '*', '/']

/-- `Scanner_set_location`. -/
def Scanner.setLocation (s : Scanner) (line : Int) : Scanner :=
  { s with
    line := line
    str := s.str.map fun src => { src with line := line } }

/-- A field of a locator does not contain a comma. -/
def locatorField (c : Char) : Bool := c ≠ '@' ∧ c ≠ ','

/-- `Scanner_locator`. -/
def scannerLocator (g : Locators) (s : Scanner) (loc : List Char) : Locators × Scanner :=
  if !g.followLocators then
    let expandingMacro :=
      if loc = endLocator then g.expandingMacro - 1 else g.expandingMacro + 1
    ({ g with expandingMacro := expandingMacro }, { s with freezeLine := expandingMacro ≠ 0 })
  else if (loc.drop 7).head? = some '@' then
    match g.locs with
    | [] => (g, s)
    | line :: locs => ({ g with locs := locs, cparseLine := line }, s.setLocation line)
  else
    let line := ((loc.drop 8).dropWhile locatorField).tail.takeWhile locatorField
    ({ g with locs := g.cparseLine :: g.locs, cparseLine := atoi line },
      s.setLocation (atoi line))

/-! ## The machine -/

/-- The values of `state`. -/
inductive BalanceState
  /-- 0 -/
  | code
  /-- 10 -/
  | slash
  /-- 11 -/
  | lineComment
  /-- 12 -/
  | commentStart
  /-- 13 -/
  | comment
  /-- 14 -/
  | commentStar
  /-- 20 and 30: a literal with its quote. -/
  | literal (q : Char)
  /-- 21 and 31 -/
  | escape (q : Char)
  /-- 40 to 43: what is missing of `SWIG`. -/
  | locatorStart (missing : List Char)
  /-- 44 -/
  | locator
  /-- 45 -/
  | locatorStar
deriving DecidableEq, Repr

/-- The variables of the loop. -/
structure Balance where
  numLevels : Nat
  state : BalanceState
  locator : List Char
deriving DecidableEq, Repr

/-- State 0. -/
def balanceCode (startchar endchar : Char) (v : Balance) (c : Char) : Balance :=
  if c = startchar then { v with numLevels := v.numLevels + 1 }
  else if c = endchar then { v with numLevels := v.numLevels - 1 }
  else if c = '/' then { v with state := .slash }
  else if c = '"' ∨ c = '\'' then { v with state := .literal c }
  else v

/-- One turn of a loop; `locators` is for the copy that has the states 40 to 45. -/
def balanceTurn (locators : Bool) (startchar endchar : Char) (v : Balance) (c : Char) :
    Balance :=
  match v.state with
  | .code => balanceCode startchar endchar v c
  | .slash =>
      if c = '/' then { v with state := .lineComment }
      else if c = '*' then { v with state := .commentStart }
      else if c = startchar then { v with state := .code, numLevels := v.numLevels + 1 }
      else { v with state := .code }
  | .lineComment => if c = '\n' then { v with state := .code } else v
  | .commentStart =>
      if c = '*' then { v with state := .commentStar }
      else if locators ∧ c = '@' then { v with state := .locatorStart ['S', 'W', 'I', 'G'] }
      else { v with state := .comment }
  | .comment => if c = '*' then { v with state := .commentStar } else v
  | .commentStar =>
      if c = '*' then v
      else if c = '/' then { v with state := .code }
      else { v with state := .comment }
  | .literal q =>
      if c = q then { v with state := .code }
      else if c = '\\' then { v with state := .escape q }
      else v
  | .escape q => { v with state := .literal q }
  | .locatorStart missing =>
      if missing.head? = some c then
        if missing.tail = [] then
          { v with state := .locator, locator := ['/', '*', '@', 'S', 'W', 'I', 'G'] }
        else { v with state := .locatorStart missing.tail }
      else if c = '*' then { v with state := .commentStar }
      else { v with state := .comment }
  | .locator =>
      { v with
        state := if c = '*' then .locatorStar else .locator
        locator := v.locator ++ [c] }
  | .locatorStar =>
      if c = '/' then { v with state := .code, locator := v.locator ++ [c] }
      else if c = '*' then { v with state := .commentStar }
      else { v with state := .comment }

/-- The loops: whether the bracket was found. `Scanner_locator` is called in state 45. -/
def balanceLoop (locators : Bool) (startchar endchar : Char) :
    Nat → Balance → Locators → Scanner → Option (Bool × Locators × Scanner)
  | 0, _, _, _ => none
  | fuel + 1, v, g, s =>
      if v.numLevels = 0 then some (true, g, s)
      else
        let (c, s) := s.nextchar
        if c = '\x00' then some (false, g, s)
        else
          let v' := balanceTurn locators startchar endchar v c
          let (g, s) :=
            if v.state = .locatorStar ∧ c = '/' then scannerLocator g s v'.locator else (g, s)
          balanceLoop locators startchar endchar fuel v' g s

/-- The loops begin behind a bracket, with its character as the text. -/
def balance (locators : Bool) (fuel : Nat) (startchar endchar : Char) (g : Locators)
    (s : Scanner) : Option (Bool × Locators × Scanner) :=
  balanceLoop locators startchar endchar fuel ⟨1, .code, []⟩ g { s with text := [startchar] }

/-- `Scanner_skip_balanced`. -/
def scannerSkipBalanced (fuel : Nat) (startchar endchar : Char) (g : Locators) (s : Scanner) :
    Option (Int × Locators × Scanner) :=
  (balance true fuel startchar endchar g s).map fun (found, g, s) =>
    (if found then 0 else -1, g, s)

/-- `Seek(s->str, position, SEEK_SET)`. -/
def Source.seek (src : Source) (position : Nat) : Source :=
  let text := src.before.reverse ++ src.after
  { src with
    before := (text.take position).reverse
    after := text.drop position }

/-- `Scanner_get_raw_text_balanced`. Where there is no text, its position is not used. -/
def scannerGetRawTextBalanced (fuel : Nat) (startchar endchar : Char) (g : Locators)
    (s : Scanner) : Option (Option (List Char) × Scanner) :=
  let position := s.str.elim 0 fun src => src.before.length
  (balance false fuel startchar endchar g s).map fun (found, _, s') =>
    if found then
      (some s'.text,
        { s' with
          str := s'.str.map (·.seek position)
          text := s.text
          line := s.line })
    else (none, { s' with text := s.text, line := s.line })

end Swig4Ada.Swig
