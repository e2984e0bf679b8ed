import Swig4Ada.Swig.Scanner

/-!
# Escaped strings (`Swig_string_escape` and `Swig_string_hexescape` of `misc.c`)

A string is written as it stands between the quotes of a constant. Both functions write the
same but for the characters that have neither a shape nor an escape of one letter: one
writes their number in octal, the other in hexadecimal digits. A character is a byte here,
and the case of a negative one, which `Getc` does not give, is left out.
-/

namespace Swig4Ada.Swig

open Swig4Ada.Doh (isDigit)

/-- `isgraph`, of a byte. -/
def isGraph (c : Char) : Bool := 33 ≤ c.toNat ∧ c.toNat ≤ 126

/-- The letter that is written behind a backslash. -/
def letterEscape (c : Char) : Option Char :=
  if c = '\n' then some 'n'
  else if c = '\r' then some 'r'
  else if c = '\t' then some 't'
  else if c = '\\' then some '\\'
  else if c = '\'' then some '\''
  else if c = '"' then some '"'
  else none

/-- One turn of the loops; `number` is written behind a backslash. -/
def escapeChar (number : Char → List Char) (c : Char) : List Char :=
  match letterEscape c with
  | some x => ['\\', x]
  | none =>
      if c = ' ' then [c]
      else if !isGraph c then '\\' :: number c
      else [c]

/-- `%o`. -/
def octal (c : Char) : List Char := Nat.toDigits 8 c.toNat

/-- `x%X`. -/
def hexadecimal (c : Char) : List Char := 'x' :: (Nat.toDigits 16 c.toNat).map Char.toUpper

/-- `Swig_string_escape`. -/
def swigStringEscape (s : List Char) : List Char := s.flatMap (escapeChar octal)

/-- `Swig_string_hexescape`. -/
def swigStringHexescape (s : List Char) : List Char := s.flatMap (escapeChar hexadecimal)

/-! ## What is read of them -/

def byteChar (b : UInt8) : Char := Char.ofNat b.toNat

def quoted (t : List Char) : List Char := '"' :: (t ++ ['"'])

/-- Where `written` stands between quotes in front of `rest`, it is scanned as one string
with that content. -/
def ScansString (s : Scanner) (src : Source) (written content rest : List Char) : Prop :=
  ∃ s', Looks { s with str := some { src with after := quoted written ++ rest } } .string s' ∧
    s'.text = content ∧
    s'.str = some ⟨(quoted written).reverse ++ src.before, rest, src.line⟩ ∧
    s'.scanobjs = s.scanobjs

/-- A character is written by its number. -/
def isNumbered (c : Char) : Bool := letterEscape c = none ∧ c ≠ ' ' ∧ !isGraph c

/-- Directly behind a character that is written by its number stands none that can be taken
for one more digit of it. -/
def Separated (digit : Char → Bool) (s : List Char) : Prop :=
  s.IsChain fun b c => isNumbered b → digit c = false

end Swig4Ada.Swig
