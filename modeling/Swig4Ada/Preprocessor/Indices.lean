import Swig4Ada.Preprocessor.Blocks
import Swig4Ada.Preprocessor.Expr

/-!
# The indices of two arrays

`Preprocessor_parse` keeps the lines of open conditionals in `cond_lines`, and
`Preprocessor_expr` what it has read of an expression in `stack`. Both arrays have 256
cells. Here is which cells are used, at every access of the source; an index is an integer,
so that one below the array would be seen.
-/

namespace Swig4Ada.Preprocessor

/-! ## The evaluation stack -/

section Stack

variable {α σ : Type} (A : Arithmetic α) (S : StringField σ)

/-- The cells that `reduce_op` uses. -/
def reduceIndices (st : State α σ) : List Int :=
  let sp : Int := st.sp
  [sp - 1, sp] ++
    if (st.cell st.sp).op = .value ∧ ¬ isUnaryOp (st.cell (st.sp - 1)).token ∧ st.sp ≠ 1 then
      [sp - 2]
    else []

/-- The cells of the loops that reduce as long as an operator is below the top. -/
def reduceAllIndices : Nat → State α σ → List Int
  | 0, _ => []
  | fuel + 1, st =>
      if 0 < st.sp then
        ((st.sp : Int) - 1) ::
          if (st.cell (st.sp - 1)).op = .op then
            reduceIndices st ++
              match reduceOp A S st with
              | .ok st => reduceAllIndices fuel st
              | .error _ => []
          else []
      else []

/-- The cells of the case `EXPR_TOP`. -/
def operandIndices (st : State α σ) (token : Token) : List Int :=
  let sp : Int := st.sp
  match token with
  | .op .minus | .op .lnot | .op .not | .lparen => [sp, sp + 1]
  | _ => [sp]

/-- The cells of the case `EXPR_VALUE` with a binary operator. -/
def operatorIndices (st : State α σ) (o : ExprOp) : List Int :=
  let pushed (st : State α σ) : List Int := [(st.sp : Int) + 1, (st.sp : Int) + 2]
  if isUnaryOp o then []
  else if st.sp = 0 then pushed st
  else
    ((st.sp : Int) - 1) ::
      if (st.cell (st.sp - 1)).op = .group then pushed st
      else if (st.cell (st.sp - 1)).op ≠ .op then []
      else if prec (st.cell (st.sp - 1)).token ≤ prec o then
        reduceIndices st ++
          match reduceOp A S st with
          | .ok st => pushed st
          | .error _ => []
      else pushed st

/-- The cells of the case `EXPR_VALUE` with a closing parenthesis. -/
def rparenIndices (st : State α σ) : List Int :=
  if st.sp = 0 then []
  else
    reduceAllIndices A S st.sp st ++
      match reduceAll A S st.sp st with
      | .ok st => if st.sp = 0 then [] else [(st.sp : Int) - 1, (st.sp : Int)]
      | .error _ => []

/-- The cells of one turn of the loop. -/
def turnIndices (st : State α σ) (token : Token) : List Int :=
  (st.sp : Int) ::
    match (st.cell st.sp).op, token with
    | .top, token => operandIndices st token
    | .value, .op o => operatorIndices A S st o
    | .value, .rparen => rparenIndices A S st
    | _, _ => []

/-- The cells of the last turn. -/
def endIndices (st : State α σ) : List Int :=
  (st.sp : Int) ::
    if (st.cell st.sp).op = .value then
      reduceAllIndices A S st.sp st ++
        match reduceAll A S st.sp st with
        | .ok st => if st.sp = 0 then [(st.sp : Int)] else [(st.sp : Int) - 1]
        | .error _ => []
    else []

def runIndices : State α σ → List Token → List Int
  | st, [] => endIndices A S st
  | st, token :: tokens =>
      turnIndices A S st token ++
        match exprStep A S st token with
        | .ok st => runIndices st tokens
        | .error _ => []

/-- The cells of `stack` that `Preprocessor_expr` and `reduce_op` use. -/
def exprIndices (tokens : List Token) (stack : Stack α σ) : List Int :=
  0 :: runIndices A S (exprStart A stack) (tokens.filter (!isSkipped ·))

end Stack

/-! ## What is open in an expression -/

/-- A parenthesis or an operator whose operand is not yet read. -/
inductive Mark
  | group
  | op (o : ExprOp)
deriving DecidableEq, Repr

/-- A binary operator takes a cell, and its left operand one. -/
def Mark.cells : Mark → Nat
  | group => 1
  | op o => if isUnaryOp o then 1 else 2

structure Shape where
  /-- What is open, the last first. -/
  marks : List Mark
  /-- Behind an operand. -/
  value : Bool
deriving DecidableEq, Repr

namespace Shape

/-- The operator before a binary one is done if the binary one does not bind tighter. -/
def afterOperand (marks : List Mark) (o : ExprOp) : List Mark :=
  match marks with
  | .op o' :: rest => if prec o' ≤ prec o then rest else marks
  | _ => marks

/-- What is open behind a token. -/
def next (shape : Shape) (token : Token) : Shape :=
  if shape.value then
    match token with
    | .op o =>
        if isUnaryOp o then shape
        else { marks := .op o :: afterOperand shape.marks o, value := false }
    | .rparen => { shape with marks := (shape.marks.dropWhile (· ≠ .group)).tail }
    | _ => shape
  else
    match token with
    | .number _ _ | .string _ | .id => { shape with value := true }
    | .op .minus => { shape with marks := .op .uminus :: shape.marks }
    | .op .lnot => { shape with marks := .op .lnot :: shape.marks }
    | .op .not => { shape with marks := .op .not :: shape.marks }
    | .lparen => { shape with marks := .group :: shape.marks }
    | _ => shape

def cells (shape : Shape) : Nat := (shape.marks.map Mark.cells).sum

end Shape

/-- The cells below the top for what is open behind some tokens. -/
def cellsOpen (tokens : List Token) : Nat := (tokens.foldl Shape.next ⟨[], false⟩).cells

section Suffices

variable {α σ : Type} (A : Arithmetic α) (S : StringField σ)

/-- A binary operator that is behind one that does not bind less lets it be reduced, and
nothing is wrong with that. -/
def ReducesFor (st : State α σ) (token : Token) : Prop :=
  ∀ o, token = .op o → (st.cell st.sp).op = .value → (st.cell (st.sp - 1)).op = .op →
    prec (st.cell (st.sp - 1)).token ≤ prec o → ∃ st', reduceOp A S st = .ok st'

/-- What is open fits in the array, wherever the evaluation comes without an error. -/
def StackSuffices (tokens : List Token) (stack : Stack α σ) : Prop :=
  ∀ p token t, tokens.filter (!isSkipped ·) = p ++ token :: t →
    ∀ st, p.foldlM (exprStep A S) (exprStart A stack) = .ok st → ReducesFor A S st token →
      cellsOpen (p ++ [token]) < stackSize

end Suffices

/-! ## The lines of conditionals -/

section Conditionals

variable {σ : Type} (W : FileWorld σ)

/-- The cells of `cond_lines` that a directive uses. -/
def directiveIndices (st : ParseState σ) : List Int :=
  match directiveName st.id with
  | .ifdef | .ifndef | .ifCond => [(st.cond.level : Int)]
  | .els | .elif => if st.cond.level = 0 then [] else [(st.cond.level : Int) - 1]
  | _ => []

/-- The cells that are used while a character is read. -/
def charIndices : Nat → FileState σ → Char → List Int
  | 0, _, _ => []
  | n + 1, fs, c =>
      (if fs.line.mode = .directive then directiveIndices fs.line else []) ++
        let (fs, again) := fileStep W fs c
        if again then charIndices n fs c else []

/-- The loop at the end of the file, over the conditionals that are still open. -/
def openIndices : Nat → List Int
  | 0 => []
  | level + 1 => ((level + 1 : Nat) - 1 : Int) :: openIndices level

def textIndices : FileState σ → List Char → List Int
  | fs, [] => openIndices fs.line.cond.level
  | fs, c :: s => charIndices W 3 fs c ++ textIndices (readFileChar W 3 fs c) s

/-- The cells of `cond_lines` that `Preprocessor_parse` uses. -/
def condIndices (symbols : σ) (s : List Char) : List Int :=
  textIndices W (fileStart symbols) (withoutReturns s)

/-- The directives that are carried out while a character is read. -/
def charDirectives : Nat → FileState σ → Char → List DirectiveName
  | 0, _, _ => []
  | n + 1, fs, c =>
      (if fs.line.mode = .directive then [directiveName fs.line.id] else []) ++
        let (fs, again) := fileStep W fs c
        if again then charDirectives n fs c else []

/-- The directives of a text, in their order. -/
def textDirectives : FileState σ → List Char → List DirectiveName
  | _, [] => []
  | fs, c :: s => charDirectives W 3 fs c ++ textDirectives (readFileChar W 3 fs c) s

/-- The conditionals that are open behind a directive. An `#endif` too many closes none. -/
def openBehind (n : Nat) : DirectiveName → Nat
  | .ifdef | .ifndef | .ifCond => n + 1
  | .endif => n - 1
  | _ => n

def openConditionals (names : List DirectiveName) : Nat := names.foldl openBehind 0

/-- No more conditionals are open at once than `cond_lines` has cells. -/
def CondLinesSuffice (symbols : σ) (s : List Char) : Prop :=
  ∀ p t, textDirectives W (fileStart symbols) (withoutReturns s) = p ++ t →
    openConditionals p ≤ condLines

end Conditionals

end Swig4Ada.Preprocessor
