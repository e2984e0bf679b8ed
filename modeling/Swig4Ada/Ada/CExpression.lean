import Swig4Ada.Lib.OpTree
import Swig4Ada.Ada.ExpressionResolver

/-!
# C integer constant expressions

What C says about the expressions that the resolver is given: which trees they
are, how they are written, and what they are worth. Nothing here is translated
from the resolver. The operators of a `CExpression` are grouped by the levels of
C's grammar, where lower binds tighter and equal levels associate to the left.
The values are exact integers, as the resolver's are.
-/

namespace Swig4Ada.Ada

open Swig4Ada.Lib

def isHexDigit (c : Char) : Bool :=
  isDigit c || ('A' ≤ c ∧ c ≤ 'F') || ('a' ≤ c ∧ c ≤ 'f')

def digitValue (c : Char) : Nat :=
  if isDigit c then c.toNat - 48
  else if 'A' ≤ c ∧ c ≤ 'F' then c.toNat - 65 + 10
  else c.toNat - 97 + 10

/-- An unsuffixed decimal literal, or a hexadecimal one with the prefix `0x`. -/
inductive Literal
  | decimal (digits : List Char) (nonempty : digits ≠ [])
      (valid : ∀ c ∈ digits, isDigit c = true)
      (notOctal : digits.head? = some '0' → digits = ['0'])
  | hexadecimal (digits : List Char) (nonempty : digits ≠ [])
      (valid : ∀ c ∈ digits, isHexDigit c = true)

namespace Literal

def text : Literal → List Char
  | decimal digits _ _ _ => digits
  | hexadecimal digits _ _ => '0' :: 'x' :: digits

def value : Literal → Nat
  | decimal digits _ _ _ => digits.foldl (fun n c => n * 10 + digitValue c) 0
  | hexadecimal digits _ _ => digits.foldl (fun n c => n * 16 + digitValue c) 0

end Literal

/-- The levels of the binary operators in C's grammar. -/
def cRank : OpCode → Nat
  | .times | .divide => 1
  | .plus | .minus => 2
  | .shiftLeft | .shiftRight => 3
  | .and => 4
  | .xor => 5
  | .or => 6
  | .andThen => 7
  | .orElse => 8
  | .not | .complement => 0

def isUnary : OpCode → Bool
  | .not | .plus | .minus | .complement => true
  | _ => false

def isBinary : OpCode → Bool
  | .not | .complement => false
  | _ => true

/-- Unary operators stand in unary places and binary ones in binary places. -/
def WellPlaced : OpTree OpCode Literal → Prop
  | .leaf _ => True
  | .paren t => WellPlaced t
  | .un u t => isUnary u = true ∧ WellPlaced t
  | .bin o l r => isBinary o = true ∧ WellPlaced l ∧ WellPlaced r

def operatorText : OpCode → List Char
  | .not => ['!']
  | .complement => ['~']
  | .plus => ['+']
  | .minus => ['-']
  | .times => ['*']
  | .divide => ['/']
  | .shiftLeft => ['<', '<']
  | .shiftRight => ['>', '>']
  | .or => ['|']
  | .orElse => ['|', '|']
  | .and => ['&']
  | .andThen => ['&', '&']
  | .xor => ['^']

def tokens : OpTree OpCode Literal → List (List Char)
  | .leaf n => [n.text]
  | .paren t => ['('] :: (tokens t ++ [[')']])
  | .un u t => operatorText u :: tokens t
  | .bin o l r => tokens l ++ operatorText o :: tokens r

/-- A text of the tokens, with any number of spaces before each and at the end. -/
inductive Spaced : List (List Char) → List Char → Prop
  | nil (n : Nat) : Spaced [] (List.replicate n ' ')
  | cons (n : Nat) {token : List Char} {ts : List (List Char)} {text : List Char} :
      Spaced ts text → Spaced (token :: ts) (List.replicate n ' ' ++ (token ++ text))

/-- A C integer constant expression: its tree and its text. -/
structure CExpression where
  tree : OpTree OpCode Literal
  text : List Char
  wellPlaced : WellPlaced tree
  grouped : tree.Grouped cRank
  spelled : Spaced (tokens tree) text

/-! ## The value of an expression

A shift is defined for a count that is not negative, and a division for a divisor
other than zero. A right shift keeps the sign. -/

/-- The operators on exact integers. -/
def cInterp : Interp OpCode Int where
  un u x :=
    match u with
    | .plus => some x
    | .minus => some (-x)
    | .complement => some (-x - 1)
    | .not => some (if x = 0 then 1 else 0)
    | _ => none
  bin o l r :=
    match o with
    | .times => some (l * r)
    | .divide => if r = 0 then none else some (l.tdiv r)
    | .plus => some (l + r)
    | .minus => some (l - r)
    | .shiftLeft => if 0 ≤ r then some (l * 2 ^ r.toNat) else none
    | .shiftRight => if 0 ≤ r then some (l / 2 ^ r.toNat) else none
    | .and => some (Int.land l r)
    | .xor => some (Int.xor l r)
    | .or => some (Int.lor l r)
    | .andThen => some (if l ≠ 0 ∧ r ≠ 0 then 1 else 0)
    | .orElse => some (if l ≠ 0 ∨ r ≠ 0 then 1 else 0)
    | .not | .complement => none

/-- The value of a tree in C, where `&&` and `||` skip their right operand when
the left one decides. -/
def cValue : OpTree OpCode Literal → Option Int
  | .leaf n => some n.value
  | .paren t => cValue t
  | .un u t => do cInterp.un u (← cValue t)
  | .bin .andThen l r => do
      if (← cValue l) = 0 then some 0
      else if (← cValue r) = 0 then some 0 else some 1
  | .bin .orElse l r => do
      if (← cValue l) ≠ 0 then some 1
      else if (← cValue r) = 0 then some 0 else some 1
  | .bin o l r => do cInterp.bin o (← cValue l) (← cValue r)

/-- C skips the right operand. -/
def SkipsRight (o : OpCode) (l : OpTree OpCode Literal) : Prop :=
  o = .andThen ∧ cValue l = some 0 ∨ o = .orElse ∧ ∃ x, cValue l = some x ∧ x ≠ 0

/-- The subexpressions that are evaluated in C. -/
inductive Evaluated (s : OpTree OpCode Literal) : OpTree OpCode Literal → Prop
  | refl : Evaluated s s
  | paren {t : OpTree OpCode Literal} : Evaluated s t → Evaluated s (.paren t)
  | un {u : OpCode} {t : OpTree OpCode Literal} : Evaluated s t → Evaluated s (.un u t)
  | left {o : OpCode} {l r : OpTree OpCode Literal} : Evaluated s l → Evaluated s (.bin o l r)
  | right {o : OpCode} {l r : OpTree OpCode Literal} :
      Evaluated s r → ¬ SkipsRight o l → Evaluated s (.bin o l r)

end Swig4Ada.Ada
