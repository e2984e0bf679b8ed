import Swig4Ada.Doh.Replace

/-!
# The warning filter (`Source/Swig/error.c`)

The filter is one text, the entries of which stand one behind the other without a separator,
the newest first. `Swig_warnfilter` puts entries in front of it and takes them out by their
text, and `Swig_warning` searches it for the digits of a number and looks at the character
before them.
-/

namespace Swig4Ada.Swig

open Swig4Ada.Doh (isDigit strstr stringReplace)

/-- What `strtok` gives for a list without its blanks. -/
def filterTokens (wlist : List Char) : List (List Char) :=
  ((wlist.filter (· ≠ ' ')).splitOn ',').filter (· ≠ [])

/-- A turn of `Swig_warnfilter`, with the token `c`. -/
def warnfilterToken (add : Bool) (filter c : List Char) : List Char :=
  let unsigned := c.head?.any isDigit
  if unsigned ∨ c.head? = some '+' ∨ c.head? = some '-' then
    if add then
      let filter := c ++ filter
      if unsigned then '-' :: filter else filter
    else
      let temp := if unsigned then '-' :: c else c
      ((stringReplace filter temp [] { first := true }).map Prod.fst).getD filter
  else filter

/-- `Swig_warnfilter`. There is no filter before the first call. -/
def swigWarnfilter (wlist : List Char) (add : Bool) (filter : Option (List Char)) :
    Option (List Char) :=
  some ((filterTokens wlist).foldl (warnfilterToken add) (filter.getD []))

/-- `strtoul`, with the digits that a message begins with. -/
def strtoul (msg : List Char) : Nat :=
  min ((msg.takeWhile isDigit).foldl (fun n c => 10 * n + (c.toNat - '0'.toNat)) 0) (2 ^ 64 - 1)

/-- A number in front of the message takes the place of the one that the caller gives. -/
def warningNumber (wnum : Int) (msg : List Char) : Int :=
  if msg.head?.any isDigit then (strtoul msg : Int).bmod (2 ^ 32) else wnum

/-- `sprintf(temp, "%d", wnum)`. -/
def printedNumber (wnum : Int) : List Char :=
  (if wnum < 0 then ['-'] else []) ++ Nat.toDigits 10 wnum.natAbs

/-- The loop over the filter, from `f` on: `wrn`, or nothing when the character before the
filter is read. -/
def filterLoop (filter temp : List Char) : Nat → Nat → Option Bool
  | 0, _ => some true
  | fuel + 1, f =>
      if filter.length ≤ f then some true
      else
        match strstr temp (filter.drop f) with
        | none => some true
        | some k =>
            let c := f + k
            if c = 0 then none
            else if filter[c - 1]? = some '-' then some false
            else if filter[c - 1]? = some '+' then some true
            else filterLoop filter temp fuel (f + temp.length)

/-- `Swig_warning`: whether the message is written. -/
def swigWarning (silence warnall : Bool) (filter : Option (List Char)) (wnum : Int)
    (msg : List Char) : Option Bool :=
  if silence then some false
  else
    let wnum := warningNumber wnum msg
    match filter with
    | none => some true
    | some filter =>
        (filterLoop filter (printedNumber wnum) (filter.length + 1) 0).map (warnall || ·)

end Swig4Ada.Swig
