import Mathlib

/-!
# String replacement (`Source/DOH/string.c`)

`replace_simple` has three ways to replace: in place when the replacement is
shorter than the token, in place when it is as long, and in a new buffer, after a
pass that counts the matches, when it is longer. The text of a string is a list of
characters without its closing null character; a position in it is an index, and a
null pointer is `none`. Reading at the end of the text finds the null character,
which is here `none` as well.
-/

namespace Swig4Ada.Doh

/-- `isalnum` in the C locale. -/
def isAlnum (c : Char) : Bool :=
  ('0' ≤ c ∧ c ≤ '9') || ('A' ≤ c ∧ c ≤ 'Z') || ('a' ≤ c ∧ c ≤ 'z')

def isDigit (c : Char) : Bool := '0' ≤ c ∧ c ≤ '9'

/-- `isalnum(c) || c == '_'`. -/
def isIdentifierChar (c : Char) : Bool := isAlnum c || c = '_'

/-- `strstr`: the offset of a token in a text. -/
def strstr (token : List Char) : List Char → Option Nat
  | [] => if token = [] then some 0 else none
  | c :: cs =>
      if token.isPrefixOf (c :: cs) then some 0 else (strstr token cs).map (· + 1)

/-- The first position from `s` on with a character for which `p` holds. -/
def findFrom (p : Char → Bool) (text : List Char) (s : Nat) : Option Nat :=
  ((text.drop s).findIdx? p).map (s + ·)

/-- `strpbrk(text + s, "\"\'")`. -/
def quoteFrom (text : List Char) (s : Nat) : Option Nat :=
  findFrom (fun c => c = '"' || c = '\'') text s

/-! ## The match functions -/

inductive MatchMode
  | simple
  | identifier
  | identifierBegin
  | identifierEnd
  | numberEnd
deriving DecidableEq, Repr

/-- The character before a position is one of an identifier. -/
def identifierBefore (text : List Char) (s : Nat) : Bool :=
  decide (0 < s) && (text[s - 1]?.any isIdentifierChar)

/-- The match functions differ in which occurrences they go past. -/
def MatchMode.rejects (mode : MatchMode) (text : List Char) (s tokenlen : Nat) : Bool :=
  match mode with
  | .simple => false
  | .identifier =>
      identifierBefore text s || text[s + tokenlen]?.any isIdentifierChar
  | .identifierBegin => identifierBefore text s
  | .identifierEnd => text[s + tokenlen]?.any isIdentifierChar
  | .numberEnd => text[s + tokenlen]?.any isDigit

/-- The loop of the match functions, from the position `s`. Each turn goes past an
occurrence of the token, which is not empty. -/
def matchLoop (mode : MatchMode) (token text : List Char) : Nat → Nat → Option Nat
  | 0, _ => none
  | fuel + 1, s =>
      match strstr token (text.drop s) with
      | none => none
      | some k =>
          if mode.rejects text (s + k) token.length then
            matchLoop mode token text fuel (s + k + token.length)
          else some (s + k)

/-- `(*match)(base, s, token, tokenlen)`. -/
def matchFrom (mode : MatchMode) (token text : List Char) (s : Nat) : Option Nat :=
  matchLoop mode token text (text.length + 1) s

/-- The loop of `end_quote`, at the quote or line end `s`; `quote` is where it
began. -/
def endQuoteLoop (text : List Char) (quote : Nat) : Nat → Nat → Option Nat
  | 0, _ => none
  | fuel + 1, s =>
      let q := quoteFrom text (s + 1)
      let nl := findFrom (· = '\n') text (s + 1)
      match nl, q with
      | some nl, some q =>
          if nl < q then
            if text[nl - 1]? = some '\\' then endQuoteLoop text quote fuel (nl + 1)
            else some quote
          else if text[q]? = text[quote]? ∧ text[q - 1]? ≠ some '\\' then some q
          else endQuoteLoop text quote fuel q
      | some _, none => some quote
      | none, none => none
      | none, some q =>
          if text[q]? = text[quote]? ∧ text[q - 1]? ≠ some '\\' then some q
          else endQuoteLoop text quote fuel q

def endQuote (text : List Char) (quote : Nat) : Option Nat :=
  endQuoteLoop text quote (text.length + 1) quote

/-! ## Replacing -/

section Replace

variable (mode : MatchMode) (token : List Char)

/-- `while (q && (q < c))`: a match inside quotes is given up for the next one
behind them. The result is the match, and whether quotes are still looked for. -/
def skipQuotes (text : List Char) :
    Nat → Option Nat → Option Nat → Bool → Option Nat × Bool
  | 0, _, c, noquote => (c, noquote)
  | fuel + 1, q, c, noquote =>
      match q, c with
      | some q, some c =>
          if q < c then
            match endQuote text q with
            | none => (none, noquote)
            | some q2 =>
                let c := if c < q2 then matchFrom mode token text (q2 + 1) else some c
                match c with
                | none => (none, noquote)
                | some c =>
                    let q := quoteFrom text (q2 + 1)
                    skipQuotes text fuel q (some c) (noquote && q.isSome)
          else (some c, noquote)
      | _, c => (c, noquote)

/-- The next match from `s` on, where `noquote` says whether the ones inside quotes
do not count. -/
def nextMatch (text : List Char) (noquote : Bool) (s : Nat) : Option Nat × Bool :=
  let c := matchFrom mode token text s
  if noquote then
    match quoteFrom text s with
    | none => (c, false)
    | some q => skipQuotes mode token text (text.length + 1) (some q) c true
  else (c, false)

/-- `memcpy` and `memmove` to a position of the buffer. -/
def writeAt (text : List Char) (t : Nat) (segment : List Char) : List Char :=
  text.take t ++ segment ++ text.drop (t + segment.length)

/-- The loop that replaces in place. `len` is the length of the text before it; the
result is the buffer and the number of replacements. -/
def replaceInPlace (rep : List Char) (len : Nat) :
    Nat → List Char → Nat → Nat → Int → Bool → Nat → List Char × Nat
  | 0, text, _, _, _, _, rcount => (text, rcount)
  | fuel + 1, text, t, s, ic, noquote, rcount =>
      if ic = 0 then
        (if rep.length < token.length then writeAt text t ((text.drop s).take (len - s))
          else text, rcount)
      else
        let text := writeAt text t rep
        let t := t + rep.length
        let s := s + token.length
        if ic = 1 then
          (if rep.length < token.length then writeAt text t ((text.drop s).take (len - s))
            else text, rcount + 1)
        else
          let (c, noquote) := nextMatch mode token text noquote s
          match c with
          | some c =>
              let text :=
                if rep.length < token.length then writeAt text t ((text.drop s).take (c - s))
                else text
              replaceInPlace rep len fuel text (t + (c - s)) c (ic - 1) noquote (rcount + 1)
          | none =>
              (if rep.length < token.length then writeAt text t ((text.drop s).take (len - s))
                else text, rcount + 1)

/-- The pass that counts the matches, behind the first of them. A text with no more
quotes ends it, when quotes are still looked for. -/
def countMatches (text : List Char) : Nat → Nat → Int → Bool → Nat → Nat × Bool
  | 0, _, _, noquote, rcount => (rcount, noquote)
  | fuel + 1, s, ic, noquote, rcount =>
      if ic = 0 ∨ matchFrom mode token text s = none then (rcount, noquote)
      else if noquote ∧ quoteFrom text s = none then (rcount, noquote)
      else
        let (c, noquote) := nextMatch mode token text noquote s
        match c with
        | none => (rcount, noquote)
        | some c => countMatches text fuel (c + token.length) (ic - 1) noquote (rcount + 1)

/-- The pass that builds the new text from the first match on. It copies up to the
next match while there are replacements to make; with no such match the copy would
run wild, which is `none`. -/
def buildText (rep text : List Char) : Nat → Nat → Bool → List Char → Option (List Char)
  | 0, _, _, ns => some ns
  | left + 1, s, noquote, ns =>
      let ns := ns ++ rep
      let s := s + token.length
      let (c, noquote) := nextMatch mode token text noquote s
      if left = 0 then some (ns ++ text.drop s)
      else
        match c with
        | none => none
        | some c => buildText rep text left c noquote (ns ++ (text.drop s).take (c - s))

/-- `replace_simple`: the new text and the number of replacements. -/
def replaceSimple (rep text : List Char) (noquote : Bool) (count : Int) :
    Option (List Char × Nat) :=
  if token = [] then some (text, 0)
  else
    let s := matchFrom mode token text 0
    match s with
    | none => some (text, 0)
    | some _ =>
        let (s, noquote) := nextMatch mode token text noquote 0
        match s with
        | none => some (text, 0)
        | some first =>
            if rep.length ≤ token.length then
              let (text', rcount) := replaceInPlace mode token rep text.length
                (text.length + 1) text first first count noquote 0
              some (text'.take (text.length - rcount * (token.length - rep.length)), rcount)
            else
              let (rcount, noquote) := countMatches mode token text (text.length + 1)
                (first + token.length) (count - 1) noquote 1
              (buildText mode token rep text rcount first noquote (text.take first)).map
                fun ns => (ns, rcount)

end Replace

/-- The flags of `DohReplace`. -/
structure ReplaceFlags where
  noquote : Bool := false
  id : Bool := false
  first : Bool := false
  idBegin : Bool := false
  idEnd : Bool := false
  numberEnd : Bool := false
deriving DecidableEq, Repr

def ReplaceFlags.mode (flags : ReplaceFlags) : MatchMode :=
  if flags.idEnd then .identifierEnd
  else if flags.idBegin then .identifierBegin
  else if flags.id then .identifier
  else if flags.numberEnd then .numberEnd
  else .simple

/-- `String_replace`. -/
def stringReplace (text token rep : List Char) (flags : ReplaceFlags) :
    Option (List Char × Nat) :=
  replaceSimple flags.mode token rep text flags.noquote (if flags.first then 1 else -1)

/-- `Replaceid`. -/
def replaceId (text token rep : List Char) : Option (List Char × Nat) :=
  stringReplace text token rep { id := true }

/-- `Replace(text, token, rep, DOH_REPLACE_ANY)`. -/
def replaceAny (text token rep : List Char) : Option (List Char) :=
  (stringReplace text token rep {}).map Prod.fst

end Swig4Ada.Doh
