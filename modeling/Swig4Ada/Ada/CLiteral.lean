import Swig4Ada.Ada.CExpression

/-!
# C integer literals

All of C's integer literals, with their suffixes, and what it means that the resolver
reads one of them as its value. Nothing here is translated from the resolver.
-/

namespace Swig4Ada.Ada

def isOctalDigit (c : Char) : Bool := '0' ≤ c ∧ c ≤ '7'

inductive LiteralBase
  | decimal
  | octal
  /-- Behind `0x` or `0X`. -/
  | hexadecimal (upper : Bool)
deriving DecidableEq, Repr

namespace LiteralBase

def radix : LiteralBase → Nat
  | decimal => 10
  | octal => 8
  | hexadecimal _ => 16

def mark : LiteralBase → List Char
  | decimal => []
  | octal => ['0']
  | hexadecimal upper => ['0', if upper then 'X' else 'x']

/-- The digits behind the mark of the base. -/
def Takes (base : LiteralBase) (digits : List Char) : Prop :=
  match base with
  | decimal => digits ≠ [] ∧ digits.head? ≠ some '0' ∧ ∀ c ∈ digits, isDigit c = true
  | octal => ∀ c ∈ digits, isOctalDigit c = true
  | hexadecimal _ => digits ≠ [] ∧ ∀ c ∈ digits, isHexDigit c = true

end LiteralBase

/-- The suffixes of integer literals, in capitals. -/
def literalSuffixes : List (List Char) :=
  [[], ['U'], ['L'], ['U', 'L'], ['L', 'U'], ['L', 'L'], ['U', 'L', 'L'], ['L', 'L', 'U']]

structure CLiteral where
  base : LiteralBase
  digits : List Char
  suffix : List Char
  digitsValid : base.Takes digits
  suffixValid : suffix.map toUpper ∈ literalSuffixes

namespace CLiteral

def text (n : CLiteral) : List Char := n.base.mark ++ n.digits ++ n.suffix

/-- The number that some digits stand for. -/
def number (radix : Nat) (digits : List Char) : Nat :=
  digits.foldl (fun n c => n * radix + digitValue c) 0

def value (n : CLiteral) : Nat := number n.base.radix n.digits

end CLiteral

/-- No letter, digit or underscore follows. -/
def BreaksWord (rest : List Char) : Prop := ∀ c, rest.head? = some c → isSymbolChar c = false

/-- Wherever the literal is at the front of the pad of a reading, the reading goes on behind
it with its value for one element more. A pad is no longer than the expression it comes
from, which is a single character when `isSingle` is set. -/
def CLiteral.ReadAsInC (n : CLiteral) : Prop :=
  ∀ (knownSymbols : SymbolMap Int) (nameSpace : List Char) (isSingle : Bool) (rest : List Char)
    (elements : List (Element Int)),
    BreaksWord rest → (isSingle = true → (n.text ++ rest).length ≤ 1) →
      ∃ turns qualifier, ∀ fuel,
        resolveRecursive gmp knownSymbols nameSpace isSingle (fuel + turns) (n.text ++ rest)
            elements =
          resolveRecursive gmp knownSymbols nameSpace isSingle fuel rest
            (elements ++ [.value (n.value : Int) qualifier])

/-- The digits of an octal literal stand for the same number in base ten, and a hexadecimal
one begins with `0x`. -/
def CLiteral.Plain (n : CLiteral) : Prop :=
  match n.base with
  | .decimal => True
  | .octal => (n.digits.dropWhile (· = '0')).length ≤ 1
  | .hexadecimal upper => upper = false

end Swig4Ada.Ada
