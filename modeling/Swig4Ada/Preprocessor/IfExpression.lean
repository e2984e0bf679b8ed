import Swig4Ada.Lib.ShiftReduce
import Swig4Ada.Preprocessor.Expr

/-!
# Integer expressions of `#if`

What C says about the expressions of `#if` and `#elif`: which trees they are,
how they are written, and what they are worth. Nothing here is translated from
the evaluator, except that an expression comes with room for it on the
evaluator's stack.

In a directive of C every integer has one of two types, `intmax_t` or
`uintmax_t`, which are taken to have 64 bits.
-/

namespace Swig4Ada.Preprocessor

open Swig4Ada.Lib

/-! ## Literals -/

inductive Radix
  | decimal
  | octal
  | hexadecimal
deriving DecidableEq, Repr

def Radix.base : Radix → Nat
  | decimal => 10
  | octal => 8
  | hexadecimal => 16

/-- The spellings of the suffixes, with the kind of number they make. -/
def suffixes : List (List Char × NumberKind) :=
  let u := [['u'], ['U']]
  let l := [['l'], ['L']]
  let ll := [['l', 'l'], ['L', 'L']]
  [([], NumberKind.int)] ++ u.map (·, NumberKind.uint) ++ l.map (·, NumberKind.long) ++
    ll.map (·, NumberKind.longLong) ++
    (u.flatMap fun x => l.map (x ++ ·)).map (·, NumberKind.ulong) ++
    (l.flatMap fun x => u.map (x ++ ·)).map (·, NumberKind.ulong) ++
    (u.flatMap fun x => ll.map (x ++ ·)).map (·, NumberKind.ulongLong) ++
    (ll.flatMap fun x => u.map (x ++ ·)).map (·, NumberKind.ulongLong)

/-- An integer literal of C. An octal literal has its leading zero among its
digits. -/
structure IntLiteral where
  radix : Radix
  hexPrefix : Char
  digits : List Char
  suffix : List Char
  kind : NumberKind
  nonempty : digits ≠ []
  valid : ∀ c ∈ digits, ∃ d, digitOf c = some d ∧ d < radix.base
  leading : radix ≠ .hexadecimal → (digits.head? = some '0' ↔ radix = .octal)
  hex : hexPrefix = 'x' ∨ hexPrefix = 'X'
  suffixed : (suffix, kind) ∈ suffixes

namespace IntLiteral

def text (n : IntLiteral) : List Char :=
  (if n.radix = .hexadecimal then ['0', n.hexPrefix] else []) ++ n.digits ++ n.suffix

def value (n : IntLiteral) : Nat :=
  n.digits.foldl (fun v c => v * n.radix.base + (digitOf c).getD 0) 0

def token (n : IntLiteral) : Token := .number n.kind n.text

def hasUnsignedSuffix (n : IntLiteral) : Bool :=
  match n.kind with
  | .uint | .ulong | .ulongLong => true
  | _ => false

end IntLiteral

/-! ## Trees -/

/-- The levels of the binary operators in C's grammar. -/
def cRank : ExprOp → Nat
  | .star | .slash | .percent => 1
  | .plus | .minus => 2
  | .lshift | .rshift => 3
  | .lessThan | .greaterThan | .ltEqual | .gtEqual => 4
  | .equalTo | .notEqual => 5
  | .and => 6
  | .xor => 7
  | .or => 8
  | .land => 9
  | .lor => 10
  | .not | .lnot | .uminus => 0

abbrev IfTree := OpTree ExprOp IntLiteral

/-- Unary operators stand in unary places and binary ones in binary places. -/
def WellPlaced : IfTree → Prop
  | .leaf _ => True
  | .paren t => WellPlaced t
  | .un u t => (u = .plus ∨ isUnaryOp u = true) ∧ WellPlaced t
  | .bin o l r => isUnaryOp o = false ∧ WellPlaced l ∧ WellPlaced r

/-- The token of an operator in a unary place. -/
def unaryToken : ExprOp → Token
  | .uminus => .op .minus
  | u => .op u

def tokensOf : IfTree → List Token
  | .leaf n => [n.token]
  | .paren t => .lparen :: (tokensOf t ++ [.rparen])
  | .un u t => unaryToken u :: tokensOf t
  | .bin o l r => tokensOf l ++ .op o :: tokensOf r

/-- The tree without its unary plus signs, which have no cell on the stack. -/
def dropPlus : IfTree → IfTree
  | .leaf n => .leaf n
  | .paren t => .paren (dropPlus t)
  | .un u t => if u = .plus then dropPlus t else .un u (dropPlus t)
  | .bin o l r => .bin o (dropPlus l) (dropPlus r)

/-- An expression, as a tree and as what the scanner returns for it. -/
structure IfExpression where
  tree : IfTree
  tokens : List Token
  wellPlaced : WellPlaced tree
  grouped : tree.Grouped cRank
  spelled : tokens.filter (!isSkipped ·) = tokensOf tree
  room : OpTree.need prec (dropPlus tree) [] < stackSize

/-! ## Values -/

inductive CNum
  | signed (v : Int)
  | unsigned (v : Nat)
deriving DecidableEq, Repr

namespace CNum

def toInt : CNum → Int
  | signed v => v
  | unsigned v => v

def isTrue (x : CNum) : Bool := x.toInt ≠ 0

/-- The conversion to `uintmax_t`. -/
def toUnsigned : CNum → Nat
  | signed v => (v % 2 ^ 64).toNat
  | unsigned v => v

end CNum

/-- The first type that holds the value of a literal: without a suffix `u` a
decimal literal is never unsigned. -/
def cLiteral (n : IntLiteral) : Option CNum :=
  if n.hasUnsignedSuffix then if n.value < 2 ^ 64 then some (.unsigned n.value) else none
  else if (n.value : Int) ≤ longMax then some (.signed n.value)
  else if n.radix ≠ .decimal ∧ n.value < 2 ^ 64 then some (.unsigned n.value)
  else none

def cUnary (u : ExprOp) : CNum → Option CNum
  | .signed v =>
      match u with
      | .plus => some (.signed v)
      | _ => (longUnary u v).map .signed
  | .unsigned v =>
      match u with
      | .plus => some (.unsigned v)
      | .uminus => some (.unsigned ((2 ^ 64 - v) % 2 ^ 64))
      | .not => some (.unsigned (2 ^ 64 - 1 - v))
      | .lnot => some (.signed (ofBool (v = 0)))
      | _ => none

def unsignedBinary (o : ExprOp) (l r : Nat) : Option CNum :=
  match o with
  | .star => some (.unsigned (l * r % 2 ^ 64))
  | .slash => if r = 0 then none else some (.unsigned (l / r))
  | .percent => if r = 0 then none else some (.unsigned (l % r))
  | .plus => some (.unsigned ((l + r) % 2 ^ 64))
  | .minus => some (.unsigned ((l + 2 ^ 64 - r) % 2 ^ 64))
  | .and => some (.unsigned (l &&& r))
  | .xor => some (.unsigned (l ^^^ r))
  | .or => some (.unsigned (l ||| r))
  | .equalTo => some (.signed (ofBool (l = r)))
  | .notEqual => some (.signed (ofBool (l ≠ r)))
  | .lessThan => some (.signed (ofBool (l < r)))
  | .greaterThan => some (.signed (ofBool (l > r)))
  | .ltEqual => some (.signed (ofBool (l ≤ r)))
  | .gtEqual => some (.signed (ofBool (l ≥ r)))
  | _ => none

/-- The binary operators other than `&&` and `||`. The type of a shift is that
of its left operand; otherwise one unsigned operand makes both unsigned. -/
def cBinary (o : ExprOp) (l r : CNum) : Option CNum :=
  match o, l, r with
  | .lshift, .unsigned v, r =>
      if 0 ≤ r.toInt ∧ r.toInt < 64 then
        some (.unsigned (v * 2 ^ r.toInt.toNat % 2 ^ 64))
      else none
  | .rshift, .unsigned v, r =>
      if 0 ≤ r.toInt ∧ r.toInt < 64 then some (.unsigned (v / 2 ^ r.toInt.toNat)) else none
  | .lshift, .signed v, r => (longBinary .lshift v r.toInt).map .signed
  | .rshift, .signed v, r => (longBinary .rshift v r.toInt).map .signed
  | o, .signed v, .signed w => (longBinary o v w).map .signed
  | o, l, r => unsignedBinary o l.toUnsigned r.toUnsigned

/-- The value of an expression in C; `&&` and `||` skip their right operand when
the left one decides. -/
def cValue : IfTree → Option CNum
  | .leaf n => cLiteral n
  | .paren t => cValue t
  | .un u t => do cUnary u (← cValue t)
  | .bin .land l r => do
      if (← cValue l).isTrue then return .signed (ofBool (← cValue r).isTrue)
      else return .signed 0
  | .bin .lor l r => do
      if (← cValue l).isTrue then return .signed 1
      else return .signed (ofBool (← cValue r).isTrue)
  | .bin o l r => do cBinary o (← cValue l) (← cValue r)

end Swig4Ada.Preprocessor
