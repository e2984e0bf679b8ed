import Mathlib

/-!
# The `#if` expression evaluator (`Preprocessor/expr.c`)

`Preprocessor_expr` is a shift/reduce machine on a static array of 256 cells.
The array outlives an evaluation: a call resets the stack pointer and two fields
of the first cell, and finds the rest as the call before has left it. So the
model takes the array and hands it back.

The scanner is not modelled: an expression is the list of tokens that
`Scanner_token` returns for it. The arithmetic of `long` is a parameter, and so
is what the `svalue` field of a cell can hold; `longArithmetic` and `pointers`
are the ones of the program. In C one field `value` holds a number or, in a cell
of kind `EXPR_OP`, a token; here these are two fields.
-/

namespace Swig4Ada.Preprocessor

/-! ## Tokens -/

/-- The operators a cell can hold. `uminus` is `EXPR_UMINUS`, which stands for a
minus sign in the place of an operand and is no token of the scanner. -/
inductive ExprOp
  | star | slash | percent
  | plus | minus
  | lshift | rshift
  | and | xor | or
  | equalTo | notEqual | lessThan | greaterThan | ltEqual | gtEqual
  | land | lor
  | not | lnot | uminus
deriving DecidableEq, Repr

/-- The kinds of number that the scanner tells apart. -/
inductive NumberKind
  | int | uint | long | ulong | longLong | ulongLong | float | double
deriving DecidableEq, Repr

inductive Token
  | number (kind : NumberKind) (text : List Char)
  | string (text : List Char)
  | id
  | op (o : ExprOp)
  | lparen
  | rparen
  | backslash
  | endline
  | comment
  | other
deriving DecidableEq, Repr

/-- The tokens that `expr_token` skips. -/
def isSkipped : Token → Bool
  | .backslash | .endline | .comment => true
  | _ => false

/-- The table of `init_precedence`. -/
def prec : ExprOp → Nat
  | .not => 10
  | .uminus => 10
  | .star => 20
  | .slash => 20
  | .percent => 20
  | .plus => 30
  | .minus => 30
  | .lshift => 40
  | .rshift => 40
  | .and => 50
  | .xor => 60
  | .or => 70
  | .equalTo => 80
  | .notEqual => 80
  | .lessThan => 80
  | .greaterThan => 80
  | .ltEqual => 80
  | .gtEqual => 80
  | .lnot => 90
  | .land => 100
  | .lor => 110

/-- `UNARY_OP`. -/
def isUnaryOp : ExprOp → Bool
  | .not | .lnot | .uminus => true
  | _ => false

/-- `LONG_MAX`. -/
def longMax : Int := 2 ^ 63 - 1

def digitOf (c : Char) : Option Nat :=
  if '0' ≤ c ∧ c ≤ '9' then some (c.toNat - 48)
  else if 'a' ≤ c ∧ c ≤ 'z' then some (c.toNat - 97 + 10)
  else if 'A' ≤ c ∧ c ≤ 'Z' then some (c.toNat - 65 + 10)
  else none

/-- The digits of a base at the front of a text, as a number. -/
def strtolDigits (base : Nat) : Nat → List Char → Nat
  | n, [] => n
  | n, c :: cs =>
      match digitOf c with
      | some d => if d < base then strtolDigits base (n * base + d) cs else n
      | none => n

/-- `strtol(c, 0, 0)` of a text that starts with a digit. -/
def strtol (text : List Char) : Int :=
  let n : Nat :=
    match text with
    | '0' :: x :: c :: cs =>
        if (x = 'x' ∨ x = 'X') ∧ (digitOf c).any (· < 16) then strtolDigits 16 0 (c :: cs)
        else strtolDigits 8 0 text
    | '0' :: _ => strtolDigits 8 0 text
    | _ => strtolDigits 10 0 text
  min n longMax

/-! ## Cells -/

/-- An error of the program with its message, or undefined behaviour: an access
outside the array, an overflow of `long`, a string that has been deleted. -/
inductive Fault
  | message (errmsg : String)
  | undefined
deriving DecidableEq, Repr

/-- The operations of C on `long`; `none` is undefined. -/
structure Arithmetic (α : Type) where
  ofLong : Int → α
  isZero : α → Bool
  unary : ExprOp → α → Option α
  binary : ExprOp → α → α → Option α

/-- What the program does with the field `svalue`. -/
structure StringField (σ : Type) where
  null : σ
  new : List Char → σ
  /-- The field when the string it points to has been deleted. -/
  deleted : σ → σ
  isString : σ → Except Fault Bool
  /-- `Strcmp` answers zero. -/
  equal : σ → σ → Except Fault Bool

inductive CellKind
  | top | value | op | group
deriving DecidableEq, Repr

/-- `exprval`. -/
structure Cell (α σ : Type) where
  op : CellKind
  value : α
  token : ExprOp
  svalue : σ

abbrev Stack (α σ : Type) := Nat → Cell α σ

/-- The length of the array `stack`. -/
def stackSize : Nat := 256

structure State (α σ : Type) where
  stack : Stack α σ
  sp : Nat

/-- A part of an evaluation, which can end it and then leaves an array. -/
abbrev Run (α σ β : Type) := Except (Fault × Stack α σ) β

variable {α σ β : Type}

namespace State

def cell (st : State α σ) (i : Nat) : Cell α σ := st.stack i

/-- Changes the cell at an index. -/
def modify (st : State α σ) (i : Nat) (f : Cell α σ → Cell α σ) : State α σ :=
  { st with stack := Function.update st.stack i (f (st.stack i)) }

@[simp] theorem modify_sp (st : State α σ) (i : Nat) (f : Cell α σ → Cell α σ) :
    (st.modify i f).sp = st.sp := rfl

@[simp] theorem modify_stack (st : State α σ) (i j : Nat) (f : Cell α σ → Cell α σ) :
    (st.modify i f).stack j = if j = i then f (st.stack i) else st.stack j := by
  simp [State.modify, Function.update_apply]

def fail (st : State α σ) (errmsg : String) : Run α σ β :=
  .error (.message errmsg, st.stack)

def undefined (st : State α σ) : Run α σ β := .error (.undefined, st.stack)

def lift (st : State α σ) : Except Fault β → Run α σ β
  | .ok x => .ok x
  | .error fault => .error (fault, st.stack)

/-- Moves the stack pointer up by `n` cells of the array. -/
def push (st : State α σ) (n : Nat) : Run α σ (State α σ) :=
  if st.sp + n < stackSize then .ok { st with sp := st.sp + n } else st.undefined

end State

variable (A : Arithmetic α) (S : StringField σ)

/-! ## The machine -/

/-- The end of `reduce_op`: the result goes to cell `k`, the new top. -/
def reduced (st : State α σ) (k : Nat) (v : α) : State α σ :=
  { st.modify k fun c => { c with op := .value, value := v, svalue := S.null } with sp := k }

/-- The unary operation of a number in `reduce_op`. -/
def reduceUnaryNumber (st : State α σ) (opToken : ExprOp) : Run α σ (State α σ) :=
  match A.unary opToken (st.cell st.sp).value with
  | some v => .ok (reduced S st (st.sp - 1) v)
  | none => st.undefined

/-- The binary operation of two numbers in `reduce_op`. -/
def reduceNumbers (st : State α σ) (opToken : ExprOp) : Run α σ (State α σ) :=
  let left := (st.cell (st.sp - 2)).value
  let right := (st.cell st.sp).value
  if opToken = .slash ∧ A.isZero right then st.fail "Division by zero in expression"
  else if opToken = .percent ∧ A.isZero right then st.fail "Modulo by zero in expression"
  else
    match A.binary opToken left right with
    | some v => .ok (reduced S st (st.sp - 2) v)
    | none => st.undefined

/-- The comparison of two strings in `reduce_op`, which deletes them both. -/
def reduceStrings (st : State α σ) (opToken : ExprOp) : Run α σ (State α σ) := do
  let left := st.cell (st.sp - 2)
  let right := st.cell st.sp
  if opToken = .equalTo ∨ opToken = .notEqual then
    let same ← st.lift (S.equal left.svalue right.svalue)
    let st := st.modify st.sp fun c => { c with svalue := S.deleted c.svalue }
    return reduced S st (st.sp - 2) (A.ofLong (if same = (opToken = .equalTo) then 1 else 0))
  else st.fail "Syntax error: bad binary operator for strings"

/-- `reduce_op`. -/
def reduceOp (st : State α σ) : Run α σ (State α σ) :=
  let opToken := (st.cell (st.sp - 1)).token
  let right := st.cell st.sp
  if right.op ≠ .value then st.fail "Right-hand side is not value"
  else do
    let rightIsString ← st.lift (S.isString right.svalue)
    if isUnaryOp opToken then
      if rightIsString then
        st.fail "Syntax error: attempt to apply unary operator to string"
      else reduceUnaryNumber A S st opToken
    else if st.sp = 1 then st.fail "Missing left-hand side for binary operator"
    else
      let leftIsString ← st.lift (S.isString (st.cell (st.sp - 2)).svalue)
      if leftIsString ≠ rightIsString then
        st.fail "Can't mix strings and integers in expression"
      else if rightIsString then reduceStrings A S st opToken
      else reduceNumbers A S st opToken

/-- Reduces as long as an operator is below the top. Every reduction lowers the
stack pointer, which bounds their number. -/
def reduceAll : Nat → State α σ → Run α σ (State α σ)
  | 0, st => .ok st
  | fuel + 1, st =>
      if 0 < st.sp ∧ (st.cell (st.sp - 1)).op = .op then do
        reduceAll fuel (← reduceOp A S st)
      else .ok st

/-- A unary operator in the place of an operand. -/
def pushUnary (st : State α σ) (token : ExprOp) : Run α σ (State α σ) := do
  let st := st.modify st.sp fun c => { c with op := .op, token := token }
  let st ← st.push 1
  return st.modify st.sp fun c => { c with op := .top, svalue := S.null }

/-- A number in the place of an operand. -/
def readNumber (st : State α σ) (kind : NumberKind) (text : List Char) :
    Run α σ (State α σ) :=
  match kind with
  | .int | .uint | .long | .ulong =>
      .ok (st.modify st.sp fun c =>
        { c with value := A.ofLong (strtol text), svalue := S.null, op := .value })
  | .float | .double => st.fail "Floating point constant in preprocessor expression"
  | .longLong | .ulongLong => st.fail "Syntax error"

/-- The case `EXPR_TOP`. -/
def readOperand (st : State α σ) (token : Token) : Run α σ (State α σ) :=
  match token with
  | .number kind text => readNumber A S st kind text
  | .op .plus => .ok st
  | .op .minus => pushUnary S st .uminus
  | .op .lnot => pushUnary S st .lnot
  | .op .not => pushUnary S st .not
  | .lparen => do
      let st := st.modify st.sp fun c => { c with op := .group }
      let st ← st.push 1
      return st.modify st.sp fun c =>
        { c with op := .top, value := A.ofLong 0, svalue := S.null }
  | .string text =>
      .ok (st.modify st.sp fun c => { c with svalue := S.new text, op := .value })
  | .id =>
      .ok (st.modify st.sp fun c =>
        { c with value := A.ofLong 0, svalue := S.null, op := .value })
  | _ => st.fail "Syntax error"

/-- The two cells that a binary operator adds. -/
def pushBinary (st : State α σ) (token : ExprOp) : Run α σ (State α σ) := do
  let st ← st.push 1
  let st := st.modify st.sp fun c => { c with op := .op, token := token }
  let st ← st.push 1
  return st.modify st.sp fun c => { c with op := .top, value := A.ofLong 0 }

/-- The case `EXPR_VALUE` with a token. -/
def readOperator (st : State α σ) (token : Token) : Run α σ (State α σ) :=
  match token with
  | .op o =>
      if isUnaryOp o then st.fail "Syntax error: expected operator"
      else if st.sp = 0 ∨ (st.cell (st.sp - 1)).op = .group then pushBinary A st o
      else if (st.cell (st.sp - 1)).op ≠ .op then st.fail "Syntax error: expected operator"
      else if prec (st.cell (st.sp - 1)).token ≤ prec o then do
        pushBinary A (← reduceOp A S st) o
      else pushBinary A st o
  | .rparen =>
      if st.sp = 0 then st.fail "Extra ')'"
      else do
        let st ← reduceAll A S st.sp st
        if st.sp = 0 ∨ (st.cell (st.sp - 1)).op ≠ .group then st.fail "Extra ')'"
        else
          let value := (st.cell st.sp).value
          return { st.modify (st.sp - 1) fun c => { c with op := .value, value := value } with
            sp := st.sp - 1 }
  | _ => st.fail "Syntax error: expected operator"

/-- One turn of the loop of `Preprocessor_expr`, with a token. -/
def exprStep (st : State α σ) (token : Token) : Run α σ (State α σ) :=
  match (st.cell st.sp).op with
  | .top => readOperand A S st token
  | .value => readOperator A S st token
  -- `abort()`
  | .op | .group => st.undefined

/-- The last turn of the loop, when the scanner has no more tokens. -/
def exprEnd (st : State α σ) : Run α σ (α × Stack α σ) :=
  match (st.cell st.sp).op with
  | .top => st.fail "Expected an expression"
  | .value => do
      let st ← reduceAll A S st.sp st
      if st.sp = 0 then return ((st.cell 0).value, st.stack)
      else if (st.cell (st.sp - 1)).op = .group then st.fail "Missing ')'"
      else st.fail "Syntax error"
  | .op | .group => st.undefined

/-- The array and the stack pointer when the loop begins. -/
def exprStart (stack : Stack α σ) : State α σ :=
  State.modify { stack := stack, sp := 0 } 0 fun c =>
    { c with op := .top, value := A.ofLong 0 }

/-- `Preprocessor_expr`: what it returns before the conversion to `int`, and the
array that it leaves. -/
def preprocessorExpr (tokens : List Token) (stack : Stack α σ) :
    Except Fault α × Stack α σ :=
  let run : Run α σ (α × Stack α σ) := do
    exprEnd A S (← (tokens.filter (!isSkipped ·)).foldlM (exprStep A S) (exprStart A stack))
  match run with
  | .ok (v, stack') => (.ok v, stack')
  | .error (fault, stack') => (.error fault, stack')

/-! ## The arithmetic and the strings of the program -/

def inLong (n : Int) : Option Int := if -longMax - 1 ≤ n ∧ n ≤ longMax then some n else none

def ofBool (b : Bool) : Int := if b then 1 else 0

def longUnary (o : ExprOp) (x : Int) : Option Int :=
  match o with
  | .not => some (Int.lnot x)
  | .lnot => some (ofBool (x = 0))
  | .uminus => inLong (-x)
  | _ => none

/-- The binary operations of C on a 64-bit `long`. A left shift is defined when
the result is one of a left operand that is not negative; a right shift keeps
the sign. -/
def longBinary (o : ExprOp) (l r : Int) : Option Int :=
  match o with
  | .star => inLong (l * r)
  | .slash => if r = 0 then none else inLong (l.tdiv r)
  | .percent => if r = 0 then none else (inLong (l.tdiv r)).map fun _ => l.tmod r
  | .plus => inLong (l + r)
  | .minus => inLong (l - r)
  | .lshift => if 0 ≤ l ∧ 0 ≤ r ∧ r < 64 then inLong (l * 2 ^ r.toNat) else none
  | .rshift => if 0 ≤ r ∧ r < 64 then some (l / 2 ^ r.toNat) else none
  | .and => some (Int.land l r)
  | .xor => some (Int.xor l r)
  | .or => some (Int.lor l r)
  | .equalTo => some (ofBool (l = r))
  | .notEqual => some (ofBool (l ≠ r))
  | .lessThan => some (ofBool (l < r))
  | .greaterThan => some (ofBool (l > r))
  | .ltEqual => some (ofBool (l ≤ r))
  | .gtEqual => some (ofBool (l ≥ r))
  | .land => some (ofBool (l ≠ 0 ∧ r ≠ 0))
  | .lor => some (ofBool (l ≠ 0 ∨ r ≠ 0))
  | .not | .lnot | .uminus => none

def longArithmetic : Arithmetic Int where
  ofLong n := n
  isZero n := n = 0
  unary := longUnary
  binary := longBinary

/-- What a pointer to a `String` that is not null points to. -/
inductive StringRef
  | live (text : List Char)
  | dangling
deriving DecidableEq, Repr

/-- The field `svalue`; `none` is the null pointer. -/
def pointers : StringField (Option StringRef) where
  null := none
  new text := some (.live text)
  deleted _ := some .dangling
  isString p := .ok p.isSome
  equal
    | some (.live x), some (.live y) => .ok (x = y)
    | _, _ => .error .undefined

abbrev PStack (α : Type) := Stack α (Option StringRef)

abbrev PState (α : Type) := State α (Option StringRef)

abbrev PRun (α β : Type) := Run α (Option StringRef) β

/-- The conversion of a `long` to the `int` that is returned. -/
def toInt (n : Int) : Int := (n + 2 ^ 31) % 2 ^ 32 - 2 ^ 31

/-- The value that a caller gets, and the error flag. `none` is undefined. -/
def answer : Except Fault Int → Option (Int × Bool)
  | .ok v => some (toInt v, false)
  | .error (.message _) => some (0, true)
  | .error .undefined => none

end Swig4Ada.Preprocessor
